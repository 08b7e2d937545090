import BluespecPcie.Dram.Bytes
import BluespecPcie.Dram.Service
import Mathlib.Data.List.Forall2

/-! The DRAM controller as a flat byte-addressed memory under logical addresses. -/

namespace BluespecPcie

open Bluespec

-----------------------------------------------------------------------------------------
-- The flat memory
-----------------------------------------------------------------------------------------

/-- The bytes most recently written, the bytes each accepted read of a row must return, and
the values returned.
-/
structure FlatLog where
  bytes : Nat → BitVec 8
  reads : List (Nat → BitVec 8)
  returned : List (BitVec 512)

/-- Storing the first `n` bytes of `data` at `addr`. -/
def writeBytes (bytes : Nat → BitVec 8) (addr : Nat) (data : BitVec 512) (n : Nat)
    : Nat → BitVec 8 :=
  fun x => if addr ≤ x ∧ x < addr + n then byteAt data (x - addr) else bytes x

/-- How an event extends the history; `s` is the state before it. -/
def FlatLog.record (s : DramSystem) (e : DramEvent) (log : FlatLog) : FlatLog :=
  match e with
  | .write addr data n => { log with bytes := writeBytes log.bytes addr.toNat data n.toNat }
  | .readReq addr _ =>
      { log with reads := log.reads ++ [fun i => log.bytes (addr.toNat + i)] }
  | .read => { log with returned := log.returned ++ (s.ctl.read.map Prod.fst).toList }
  | _ => log

/-- The controller with the history of its calls. -/
def flatStep : DramSystem × FlatLog → DramEvent → Option (DramSystem × FlatLog) :=
  traced DramSystem.step FlatLog.record

/-- Byte `x` of the address space, as the DDR3 holds it. -/
def logicalByte (rows : Rows) (x : Nat) : BitVec 8 :=
  byteAt (rows (ddrRow (BitVec.ofNat 64 x))) (x % 64)

/-- The state and history after reset, with the memory the DDR3 holds. -/
def flatReset (p : DramPowerUp) : DramSystem × FlatLog :=
  (.reset p, { bytes := logicalByte p.rows, reads := [], returned := [] })

/-- The calls of a user: writes of 1 to 64 bytes and reads of whole rows, below 1 GB. -/
def DramEvent.InRange : DramEvent → Prop
  | .write addr _ n => 1 ≤ n.toNat ∧ n.toNat ≤ 64 ∧ addr.toNat + n.toNat ≤ 2 ^ 30
  | .readReq addr n => addr.toNat % 64 = 0 ∧ n = 64#7 ∧ addr.toNat + 64 ≤ 2 ^ 30
  | _ => True

/-- No write crosses a multiple of 256 KB. -/
def DramEvent.KeepsBlock : DramEvent → Prop
  | .write addr _ n => addr.toNat % 2 ^ 18 + n.toNat ≤ 2 ^ 18
  | _ => True

instance (e : DramEvent) : Decidable e.InRange :=
  match e with
  | .write _ _ _ | .readReq _ _ => inferInstanceAs (Decidable (_ ∧ _ ∧ _))
  | .read | .driverWrie | .driverReadC | .recvRead | .relayReqs | .relayResps | .relayResps2
  | .serve => isTrue trivial

instance (e : DramEvent) : Decidable e.KeepsBlock :=
  match e with
  | .write _ _ _ => inferInstanceAs (Decidable (_ ≤ _))
  | .readReq _ _ | .read | .driverWrie | .driverReadC | .recvRead | .relayReqs | .relayResps
  | .relayResps2 | .serve => isTrue trivial

-----------------------------------------------------------------------------------------
-- Writes
-----------------------------------------------------------------------------------------

/-- A request changes the enabled bytes of its row and no others. -/
theorem DDRRequest.byteAt_apply (r : DDRRequest) (rows : Rows) (row : BitVec 25) {i : Nat}
    (within : i < 64)
    : byteAt (r.apply rows row) i
      = if row = r.row ∧ r.writeen.getLsbD i = true then byteAt r.datain i
        else byteAt (rows row) i := by
  unfold DDRRequest.apply
  split
  next read => simp [read]
  next write =>
    by_cases same : row = r.row
    · rw [same, Function.update_self, byteAt_mergeBytes _ _ _ within]
      simp
    · simp [same]

/-- The DDR3 row of byte `x`. -/
theorem toNat_ddrRow_ofNat {x : Nat} (inside : x < 2 ^ 30)
    : (ddrRow (BitVec.ofNat 64 x)).toNat = remapRow (x / 64) := by
  rw [toNat_ddrRow, BitVec.toNat_ofNat, Nat.mod_eq_of_lt (by omega)]

/-- Byte `x` lies in the first row of a write exactly if it lies in the logical row of its
address.
-/
theorem ddrRow_eq_firstRow {addr : BitVec 64} {data : BitVec 512} {n : BitVec 7} {x : Nat}
    (inside : addr.toNat < 2 ^ 30) (inside' : x < 2 ^ 30)
    : ddrRow (BitVec.ofNat 64 x) = (writeCommand addr data n).firstRow.row
      ↔ x / 64 = addr.toNat / 64 := by
  rw [row_firstRow, ← BitVec.toNat_inj, toNat_ddrRow_ofNat inside', toNat_ddrRow]
  constructor
  · exact remapRow_injective (by omega) (by omega)
  · intro same
    rw [same]

/-- Within 256 KB, byte `x` lies in the next row of a write exactly if it lies in the next
logical row.
-/
theorem ddrRow_eq_nextRow {addr : BitVec 64} {data : BitVec 512} {n : BitVec 7} {x : Nat}
    (inside : addr.toNat / 64 + 1 < 2 ^ 24) (inside' : x < 2 ^ 30)
    (block : addr.toNat / 64 % 4096 ≠ 4095)
    : ddrRow (BitVec.ofNat 64 x) = (writeCommand addr data n).nextRow.row
      ↔ x / 64 = addr.toNat / 64 + 1 := by
  rw [← BitVec.toNat_inj, toNat_ddrRow_ofNat inside', toNat_row_nextRow,
    ← remapRow_succ_iff.mpr block]
  constructor
  · exact remapRow_injective (by omega) (by omega)
  · intro same
    rw [same]

/-- Serving the requests of a write stores its bytes at their logical addresses, and nothing
else, as long as the write keeps to its 256 KB.
-/
theorem logicalByte_write {addr : BitVec 64} {data : BitVec 512} {n : BitVec 7} (rows : Rows)
    (range : (DramEvent.write addr data n).InRange)
    (block : (DramEvent.write addr data n).KeepsBlock) {x : Nat} (inside : x < 2 ^ 30)
    : logicalByte (serveAll rows (writeCommand addr data n).requests).1 x
      = writeBytes (logicalByte rows) addr.toNat data n.toNat x := by
  obtain ⟨positive, fits, bound⟩ := range
  have within : x % 64 < 64 := Nat.mod_lt _ (by decide)
  have firstRow : ddrRow (BitVec.ofNat 64 x) = (writeCommand addr data n).firstRow.row ↔ _ :=
    ddrRow_eq_firstRow (show addr.toNat < 2 ^ 30 by omega) inside
  have rowsTwo : firstNbytes (writeCommand addr data n).addr < (writeCommand addr data n).nBytes
      ↔ 64 < addr.toNat % 64 + n.toNat := by
    change firstNbytes (addrReMapping addr) < n ↔ _
    rw [BitVec.lt_def, toNat_firstNbytes]
    omega
  have first : byteAt ((writeCommand addr data n).firstRow.apply rows
        (ddrRow (BitVec.ofNat 64 x))) (x % 64)
      = if x / 64 = addr.toNat / 64 ∧ addr.toNat ≤ x ∧ x < addr.toNat + n.toNat
        then byteAt data (x - addr.toNat) else logicalByte rows x := by
    rw [DDRRequest.byteAt_apply _ _ _ within, getLsbD_mask0 _ _ _ within]
    simp only [firstRow, Bool.and_eq_true, decide_eq_true_eq]
    by_cases written : x / 64 = addr.toNat / 64 ∧ addr.toNat ≤ x ∧ x < addr.toNat + n.toNat
    · obtain ⟨row, above, below⟩ := written
      have enabled : addr.toNat % 64 ≤ x % 64 ∧ x % 64 < addr.toNat % 64 + n.toNat := by omega
      have index : x % 64 - addr.toNat % 64 = x - addr.toNat := by omega
      simp [row, above, below, enabled, byteAt_datain0 addr data n enabled.1 within, index]
    · have disabled : ¬(x / 64 = addr.toNat / 64 ∧ addr.toNat % 64 ≤ x % 64
          ∧ x % 64 < addr.toNat % 64 + n.toNat) := by omega
      rw [if_neg written, if_neg disabled]
      rfl
  unfold DramEvent.KeepsBlock at block
  unfold logicalByte writeBytes DRAMWrRequest.requests
  by_cases two : 64 < addr.toNat % 64 + n.toNat
  · have nextRow : ddrRow (BitVec.ofNat 64 x) = (writeCommand addr data n).nextRow.row ↔ _ :=
      ddrRow_eq_nextRow (show addr.toNat / 64 + 1 < 2 ^ 24 by omega) inside (by omega)
    have offset : addr.toNat % 64 ≠ 0 := by omega
    simp only [rowsTwo.mpr two, if_true, serveAll]
    rw [DDRRequest.byteAt_apply _ _ _ within, getLsbD_mask1 _ _ _ offset fits, first]
    simp only [nextRow, decide_eq_true_eq]
    by_cases next : x / 64 = addr.toNat / 64 + 1 ∧ x % 64 + 64 < addr.toNat % 64 + n.toNat
    · have written : addr.toNat ≤ x ∧ x < addr.toNat + n.toNat := by omega
      have index : x % 64 + (64 - addr.toNat % 64) = x - addr.toNat := by omega
      simp [next, written, byteAt_datain1 addr data n _ offset, index]
    · rw [if_neg next]
      refine if_congr ?_ rfl rfl
      omega
  · simp only [rowsTwo.not.mpr two, if_false, serveAll]
    rw [first]
    refine if_congr ?_ rfl rfl
    omega

/-- Every request of a write of a byte or more enables a byte: the one at the offset, and in a
second row the first.
-/
theorem writeCommand_enables {addr : BitVec 64} {data : BitVec 512} {n : BitVec 7}
    (positive : 1 ≤ n.toNat)
    : (DramEvent.write addr data n).WritesEnable := by
  have first : (writeCommand addr data n).firstRow.writeen.getLsbD (addr.toNat % 64) := by
    rw [getLsbD_mask0 _ _ _ (Nat.mod_lt _ (by decide))]
    simp only [Nat.le_refl, decide_true, Bool.true_and, decide_eq_true_eq]
    omega
  intro r member zero
  unfold DRAMWrRequest.requests at member
  split at member
  next two =>
    change firstNbytes (addrReMapping addr) < n at two
    rw [BitVec.lt_def, toNat_firstNbytes] at two
    have next : (writeCommand addr data n).nextRow.writeen.getLsbD 0 := by
      have inside : (64 - addr.toNat % 64) % 64 < 64 := Nat.mod_lt _ (by decide)
      simp only [writeCommand, DRAMWrRequest.nextRow]
      rw [BitVec.ushiftRight_eq', toNat_complement, BitVec.getLsbD_ushiftRight,
        Nat.add_zero, getLsbD_mask n inside, decide_eq_true_eq]
      omega
    simp only [List.mem_cons, List.not_mem_nil, or_false] at member
    rcases member with rfl | rfl
    · simp [zero] at first
    · simp [zero] at next
  next =>
    rw [List.mem_singleton] at member
    subst member
    simp [zero] at first

/-- So do those of a write in range. -/
theorem writesEnable_of_inRange {e : DramEvent} (range : e.InRange) : e.WritesEnable := by
  cases e with
  | write addr data n => exact writeCommand_enables range.1
  | _ => trivial

-----------------------------------------------------------------------------------------
-- Reads
-----------------------------------------------------------------------------------------

/-- A whole row leaves the shifter as it came. -/
theorem lowRow_shifted (readCache res : BitVec 512)
    : DRAMController.lowRow
        (CombinationalRightShifter.shifted (DRAMController.rotateInput readCache res 0#6) 0#6)
      = res := by
  apply BitVec.eq_of_getLsbD_eq
  intro i within
  simp [DRAMController.lowRow, CombinationalRightShifter.shifted, DRAMController.rotateInput,
    within]

/-- A read of a whole row must return the row. -/
theorem collect_aligned {addr : BitVec 64} (aligned : addr.toNat % 64 = 0)
    (readCache : BitVec 512) (rows : Rows)
    : (collect readCache (serveAll rows (readCommand addr 64#7).requests).2
        (readCommand addr 64#7).offsets).2.map DRAMController.lowRow
      = [rows (ddrRow addr)] := by
  have offset : (readCommand addr 64#7).addr.extractLsb 5 0 = 0#6 := by
    apply BitVec.eq_of_toNat_eq
    rw [readCommand, offset_addrReMapping, toNat_offset, aligned]
    rfl
  have one : ¬(readCommand addr 64#7).nBytes > firstNbytes (readCommand addr 64#7).addr := by
    change ¬firstNbytes (addrReMapping addr) < 64#7
    rw [BitVec.lt_def, toNat_firstNbytes, aligned]
    decide
  have row : (readCommand addr 64#7).firstRow.row = ddrRow addr := rfl
  have reads : (readCommand addr 64#7).firstRow.writeen = 0#64 := rfl
  rw [DRAMRdRequest.requests, DRAMRdRequest.offsets, if_neg one, if_neg one, offset]
  simp only [serveAll, DDRRequest.response, reads, if_true, Option.toList_some,
    List.append_nil, collect, List.map_cons, List.map_nil, lowRow_shifted, row]

/-- Byte `i` of a row that is read whole. -/
theorem byteAt_ddrRow {addr : BitVec 64} (rows : Rows) (aligned : addr.toNat % 64 = 0)
    (inside : addr.toNat + 64 ≤ 2 ^ 30) {i : Nat} (within : i < 64)
    : byteAt (rows (ddrRow addr)) i = logicalByte rows (addr.toNat + i) := by
  have row : ddrRow (BitVec.ofNat 64 (addr.toNat + i)) = ddrRow addr := by
    apply BitVec.eq_of_toNat_eq
    rw [toNat_ddrRow_ofNat (by omega), toNat_ddrRow]
    congr 1
    omega
  have index : (addr.toNat + i) % 64 = i := by omega
  rw [logicalByte, row, index]

-----------------------------------------------------------------------------------------
-- Runs
-----------------------------------------------------------------------------------------

/-- A row with the bytes `f`. -/
def RowHas (row : BitVec 512) (f : Nat → BitVec 8) : Prop := ∀ i < 64, byteAt row i = f i

/-- The returned rows hold, one for one, the bytes that the first reads must return. -/
def FlatLog.ReturnsBytes (log : FlatLog) : Prop :=
  List.Forall₂ RowHas log.returned (log.reads.take log.returned.length)

/-- The flat history describes the history in rows. -/
structure FlatLog.Describes (flat : FlatLog) (log : DramLog) : Prop where
  bytes : ∀ x < 2 ^ 30, logicalByte log.rows x = flat.bytes x
  reads : List.Forall₂ RowHas log.expected flat.reads
  returned : log.returned = flat.returned

/-- Every allowed event keeps both histories in step. -/
theorem FlatLog.Describes.step {s : DramSystem} {e : DramEvent} {flat : FlatLog}
    {log : DramLog} (describes : flat.Describes log) (range : e.InRange)
    (block : e.KeepsBlock)
    : (flat.record s e).Describes (log.record s e) := by
  obtain ⟨bytes, reads, returned⟩ := describes
  cases e with
  | write addr data n =>
      refine ⟨?_, reads, returned⟩
      intro x inside
      refine (logicalByte_write log.rows range block inside).trans ?_
      simp only [writeBytes, bytes x inside]
      rfl
  | readReq addr n =>
      obtain ⟨aligned, rfl, bound⟩ := range
      refine ⟨bytes, ?_, returned⟩
      have value := collect_aligned aligned log.cache log.rows
      have row : RowHas (log.rows (ddrRow addr)) (fun i => flat.bytes (addr.toNat + i)) := by
        intro i within
        rw [byteAt_ddrRow log.rows aligned bound within, bytes _ (by omega)]
      have longer := List.rel_append reads (List.Forall₂.cons row .nil)
      rw [← value] at longer
      exact longer
  | read => exact ⟨bytes, reads, congrArg (· ++ (s.ctl.read.map Prod.fst).toList) returned⟩
  | _ => exact ⟨bytes, reads, returned⟩

/-- In every run whose writes keep to their 256 KB, each read returns, for every byte of its
row, the byte most recently written there.
-/
theorem flat_returnsBytes {p : DramPowerUp} {s : DramSystem × FlatLog}
    (run : Reach flatStep (fun _ e => e.InRange ∧ e.KeepsBlock) (flatReset p) s)
    : s.2.ReturnsBytes := by
  have inv : ∃ log, Served s.1 log ∧ s.2.Describes log := by
    refine run.invariant (P := fun s => ∃ log, Served s.1 log ∧ s.2.Describes log) ?_ ?_
    · exact ⟨_, served_reset p, ⟨fun _ _ => rfl, .nil, rfl⟩⟩
    · rintro s e s' ⟨log, served, describes⟩ ⟨range, block⟩ fires
      obtain ⟨fires, same⟩ := traced_eq_some.mp fires
      refine ⟨log.record s.1 e, served.step (writesEnable_of_inRange range) fires, ?_⟩
      rw [same]
      exact describes.step range block
  obtain ⟨log, served, describes⟩ := inv
  have first := List.prefix_iff_eq_take.mp served.returned_prefix
  rw [describes.returned] at first
  have returned := List.forall₂_take s.2.returned.length describes.reads
  rw [← first] at returned
  exact returned

/-- The schedule of a write over two rows, a read of one row, and its return. -/
def writeReadBack (addr row : BitVec 64) (data : BitVec 512) : List DramEvent :=
  [.write addr data 64, .driverWrie, .driverWrie, .readReq row 64, .driverReadC,
    .relayReqs, .relayReqs, .relayReqs, .serve, .serve, .serve,
    .relayResps, .relayResps2, .recvRead, .read]

/-- A run that writes across two rows and reads the second one. -/
theorem flat_returnsBytes_straddle
    : ∃ s : DramSystem × FlatLog,
        Reach flatStep (fun _ e => e.InRange ∧ e.KeepsBlock) (flatReset default) s
        ∧ s.2.returned = [BitVec.allOnes 256 |>.zeroExtend 512] ∧ s.2.ReturnsBytes := by
  obtain ⟨s, run, returned⟩ := exec_reach_map flatStep (fun _ e => e.InRange ∧ e.KeepsBlock)
    (flatReset default) (writeReadBack 32 64 (BitVec.allOnes 512))
    (fun s => s.2.returned) [BitVec.allOnes 256 |>.zeroExtend 512] (by decide +kernel)
  exact ⟨s, run, returned, flat_returnsBytes run⟩

/-- A write across a multiple of 256 KB stores its tail elsewhere: the bank bits lie between
the row bits, and the row index is incremented after the remapping.
-/
theorem flat_loses_tail
    : ¬∀ (p : DramPowerUp) (s : DramSystem × FlatLog),
        Reach flatStep (fun _ e => e.InRange) (flatReset p) s → s.2.ReturnsBytes := by
  intro flat
  obtain ⟨s, run, seen⟩ := exec_reach_map flatStep (fun _ e => e.InRange)
    (flatReset default) (writeReadBack 0x3ffe0 0x40000 (BitVec.allOnes 512))
    (fun s => (s.2.returned, s.2.reads.map (fun f => f 0))) ([0], [0xff]) (by decide +kernel)
  simp only [Prod.mk.injEq] at seen
  have returns := flat default s run
  obtain ⟨f, reads⟩ := List.length_eq_one_iff.mp
    (show s.2.reads.length = 1 by simpa using congrArg List.length seen.2)
  rw [FlatLog.ReturnsBytes, seen.1, reads] at returns
  rw [reads] at seen
  cases returns with
  | cons row _ =>
      have byte := row 0 (by decide)
      rw [show f 0 = 0xff by simpa using seen.2] at byte
      exact absurd byte (by decide +kernel)

end BluespecPcie
