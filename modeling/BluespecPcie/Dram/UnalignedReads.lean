import BluespecPcie.Dram.Pairing

/-! Which bytes a read of any address and size returns: those at its place in the DDR3, unless
it lies inside one row and does not start there.
-/

namespace BluespecPcie

open Bluespec

-----------------------------------------------------------------------------------------
-- Bytes by physical position
-----------------------------------------------------------------------------------------

/-- The byte at a physical position. -/
def physicalByte (rows : Rows) (x : Nat) : BitVec 8 :=
  byteAt (rows (BitVec.ofNat 25 (x / 64))) (x % 64)

/-- Shifting two rows right by less than a row brings the upper bytes of the first row and
the lower ones of the next one down.
-/
theorem byteAt_shifted (next first : BitVec 512) (offset : BitVec 6) {i : Nat} (within : i < 64)
    : byteAt (DRAMController.lowRow
        (CombinationalRightShifter.shifted (next ++ first : BitVec 1024) offset)) i
      = if offset.toNat + i < 64 then byteAt first (offset.toNat + i)
        else byteAt next (offset.toNat + i - 64) := by
  have bound := offset.isLt
  apply BitVec.eq_of_getLsbD_eq
  intro k bit
  have low : 8 * i + k < 512 := by omega
  have shift : (offset ++ 0#3).toNat = 8 * offset.toNat := toNat_byteShift offset
  have index : 8 * offset.toNat + (8 * i + k) = 8 * (offset.toNat + i) + k := by omega
  rw [byteAt, BitVec.getLsbD_extractLsb', DRAMController.lowRow, BitVec.truncate_eq_setWidth,
    BitVec.getLsbD_setWidth, CombinationalRightShifter.shifted, BitVec.ushiftRight_eq',
    BitVec.getLsbD_ushiftRight, shift, index, BitVec.getLsbD_append]
  by_cases inFirst : offset.toNat + i < 64
  · have here : 8 * (offset.toNat + i) + k < 512 := by omega
    rw [if_pos inFirst]
    simp [byteAt, bit, low, here]
  · have notHere : ¬8 * (offset.toNat + i) + k < 512 := by omega
    have moved : 8 * (offset.toNat + i) + k - 512 = 8 * (offset.toNat + i - 64) + k := by omega
    rw [if_neg inFirst]
    simp [byteAt, bit, low, notHere, moved]

/-- The bytes of a row of ones. -/
theorem byteAt_allOnes {i : Nat} (within : i < 64) : byteAt (BitVec.allOnes 512) i = 0xff#8 := by
  apply BitVec.eq_of_getLsbD_eq
  intro k bit
  have inside : 8 * i + k < 512 := by omega
  rw [byteAt, BitVec.getLsbD_extractLsb', BitVec.getLsbD_allOnes,
    show 0xff#8 = BitVec.allOnes 8 from rfl, BitVec.getLsbD_allOnes]
  simp only [bit, inside, decide_true, Bool.and_self]

section Fetched

variable (addr : BitVec 64) (n : BitVec 7) (rows : Rows)

/-- The offset of a read in its row. -/
theorem toNat_readOffset
    : ((readCommand addr n).addr.extractLsb 5 0).toNat = addr.toNat % 64 := by
  rw [readCommand, offset_addrReMapping, toNat_offset]

/-- A position in the first row of a read. -/
theorem physicalByte_firstRow {i : Nat} (within : addr.toNat % 64 + i < 64)
    : physicalByte rows ((addrReMapping addr).toNat + i)
      = byteAt (rows (readCommand addr n).firstRow.row) (addr.toNat % 64 + i) := by
  have index := toNat_ddrRow addr
  have row := addrReMapping_row addr
  have offset : (addrReMapping addr).toNat % 64 = addr.toNat % 64 := by
    rw [toNat_addrReMapping]
    omega
  have bound := remapRow_lt (addr.toNat / 64)
  have same : BitVec.ofNat 25 (((addrReMapping addr).toNat + i) / 64) = ddrRow addr := by
    apply BitVec.eq_of_toNat_eq
    rw [BitVec.toNat_ofNat, index, ← row]
    omega
  have byte : ((addrReMapping addr).toNat + i) % 64 = addr.toNat % 64 + i := by omega
  rw [physicalByte, same, byte]
  rfl

/-- A position in the next row of a read. -/
theorem physicalByte_nextRow {i : Nat} (within : i < 64) (behind : 64 ≤ addr.toNat % 64 + i)
    : physicalByte rows ((addrReMapping addr).toNat + i)
      = byteAt (rows (readCommand addr n).nextRow.row) (addr.toNat % 64 + i - 64) := by
  have index := toNat_row_nextRow addr 0#512 n
  have row := addrReMapping_row addr
  have offset : (addrReMapping addr).toNat % 64 = addr.toNat % 64 := by
    rw [toNat_addrReMapping]
    omega
  have bound := remapRow_lt (addr.toNat / 64)
  have same : BitVec.ofNat 25 (((addrReMapping addr).toNat + i) / 64)
      = (readCommand addr n).nextRow.row := by
    apply BitVec.eq_of_toNat_eq
    change _ = (writeCommand addr 0#512 n).nextRow.row.toNat
    rw [BitVec.toNat_ofNat, index, ← row]
    omega
  have byte : ((addrReMapping addr).toNat + i) % 64 = addr.toNat % 64 + i - 64 := by omega
  rw [physicalByte, same, byte]

/-- The rows that a read fetches have its bytes from its offset on. -/
theorem byteAt_response (sized : 1 ≤ n.toNat ∧ n.toNat ≤ 64)
    (whole : (DramEvent.readReq addr n).ReadsRow) {i : Nat} (asked : i < n.toNat)
    : byteAt ((readCommand addr n).response (serveAll rows (readCommand addr n).requests).2) i
      = physicalByte rows ((addrReMapping addr).toNat + i) := by
  have within : i < 64 := by omega
  have reads : (readCommand addr n).firstRow.writeen = 0#64 := rfl
  have readsNext : (readCommand addr n).nextRow.writeen = 0#64 := rfl
  have two : (readCommand addr n).nBytes > firstNbytes (readCommand addr n).addr
      ↔ 64 < addr.toNat % 64 + n.toNat := by
    change firstNbytes (addrReMapping addr) < n ↔ _
    rw [BitVec.lt_def, toNat_firstNbytes]
    omega
  rw [DRAMRdRequest.response, DRAMRdRequest.requests]
  split
  next crosses =>
    simp only [serveAll, DDRRequest.response, reads, readsNext, if_true, Option.toList_some,
      List.append_nil, List.singleton_append, joinRows, DDRRequest.apply]
    rw [byteAt_shifted _ _ _ within, toNat_readOffset]
    split
    next inFirst => exact (physicalByte_firstRow addr n rows inFirst).symm
    next inNext => exact (physicalByte_nextRow addr n rows within (by omega)).symm
  next one =>
    rw [two] at one
    have aligned : addr.toNat % 64 = 0 := by
      rcases whole with aligned | crosses
      · exact aligned
      · exact absurd crosses one
    have zero : (readCommand addr n).addr.extractLsb 5 0 = 0#6 := by
      apply BitVec.eq_of_toNat_eq
      rw [toNat_readOffset, aligned]
      rfl
    simp only [serveAll, DDRRequest.response, reads, if_true, Option.toList_some,
      List.append_nil, joinRows, zero]
    have here := physicalByte_firstRow addr n rows (show addr.toNat % 64 + i < 64 by omega)
    rw [here, aligned, Nat.zero_add]
    exact congrArg (byteAt · i) (lowRow_shifted 0#512 _)

end Fetched

-----------------------------------------------------------------------------------------
-- What the calls are answered
-----------------------------------------------------------------------------------------

/-- The cache register and the rows behind a call, and the values it returns. -/
def callReply (σ : BitVec 512 × Rows) : DramCommand → (BitVec 512 × Rows) × List (BitVec 512)
  | .write v => ((σ.1, (serveAll σ.2 v.requests).1), [])
  | .read v =>
      let (cache, values) := collect σ.1 (serveAll σ.2 v.requests).2 v.offsets
      ((cache, (serveAll σ.2 v.requests).1), values.map DRAMController.lowRow)

/-- The cache register and the rows behind a list of calls. -/
def behind (σ : BitVec 512 × Rows) (calls : List DramCommand) : BitVec 512 × Rows :=
  calls.foldl (fun σ c => (callReply σ c).1) σ

/-- The values that a list of calls returns. -/
def replies (σ : BitVec 512 × Rows) : List DramCommand → List (BitVec 512)
  | [] => []
  | c :: calls => (callReply σ c).2 ++ replies (callReply σ c).1 calls

/-- Further calls are answered behind the others. -/
theorem replies_append (σ : BitVec 512 × Rows) (calls later : List DramCommand)
    : replies σ (calls ++ later) = replies σ calls ++ replies (behind σ calls) later := by
  induction calls generalizing σ with
  | nil => rfl
  | cons c calls ih =>
      rw [List.cons_append, replies, ih, replies, List.append_assoc]
      rfl

/-- What is behind further calls. -/
theorem behind_append (σ : BitVec 512 × Rows) (calls later : List DramCommand)
    : behind σ (calls ++ later) = behind (behind σ calls) later :=
  List.foldl_append ..

/-- The rows behind a list of calls are those that their requests leave. -/
theorem behind_rows (σ : BitVec 512 × Rows) (calls : List DramCommand)
    : (behind σ calls).2 = (serveAll σ.2 (calls.flatMap (·.requests))).1 := by
  induction calls generalizing σ with
  | nil => rfl
  | cons c calls ih =>
      have rows : (callReply σ c).1.2 = (serveAll σ.2 c.requests).1 := by
        cases c <;> rfl
      rw [behind, List.foldl_cons, ← behind, ih, List.flatMap_cons, serveAll_append, rows]

/-- A read returns one value. -/
theorem length_callReply (σ : BitVec 512 × Rows) (c : DramCommand)
    : (callReply σ c).2.length = c.read?.toList.length := by
  cases c with
  | write v => rfl
  | read v =>
      have reads : v.firstRow.writeen = 0#64 := rfl
      have readsNext : v.nextRow.writeen = 0#64 := rfl
      simp only [callReply, DramCommand.read?, Option.toList_some, List.length_map,
        List.length_singleton]
      unfold DRAMRdRequest.requests DRAMRdRequest.offsets
      split <;> simp [serveAll, DDRRequest.response, reads, readsNext, collect]

/-- There is one value for each read. -/
theorem length_replies (σ : BitVec 512 × Rows) (calls : List DramCommand)
    : (replies σ calls).length = (calls.filterMap (·.read?)).length := by
  induction calls generalizing σ with
  | nil => rfl
  | cons c calls ih =>
      rw [replies, List.length_append, ih, length_callReply]
      cases c with
      | write v => simp [DramCommand.read?]
      | read v => simp [DramCommand.read?, Nat.add_comm]

-----------------------------------------------------------------------------------------
-- History
-----------------------------------------------------------------------------------------

/-- The history of calls, and what stood in the DDR3 when it served each request. -/
structure ServiceLog where
  calls : CallLog
  stood : List Rows

/-- How an event extends the history; `s` is the state before it. -/
def ServiceLog.record (s : DramSystem) (e : DramEvent) (log : ServiceLog) : ServiceLog where
  calls := log.calls.record s e
  stood := log.stood ++ (s.serving e).toList.map (fun _ => s.ddr3.rows)

/-- The controller with the history of what the DDR3 served. -/
def serviceStep : DramSystem × ServiceLog → DramEvent → Option (DramSystem × ServiceLog) :=
  traced DramSystem.step ServiceLog.record

/-- The state and history after reset. -/
def serviceReset (p : DramPowerUp) : DramSystem × ServiceLog :=
  (.reset p, { calls := { calls := [], served := [], returned := [] }, stood := [] })

/-- A write has a byte or more. -/
def DramEvent.Stores : DramEvent → Prop
  | .write _ _ n => 1 ≤ n.toNat
  | _ => True

instance decidableStores (e : DramEvent) : Decidable e.Stores :=
  match e with
  | .write _ _ _ => inferInstanceAs (Decidable (_ ≤ _))
  | .readReq _ _ | .read | .driverWrie | .driverReadC | .recvRead | .relayReqs | .relayResps
  | .relayResps2 | .serve => isTrue trivial

/-- What a read of `n` bytes at `addr` gets: the DDR3 serves the requests of the calls in call
order, each over what those before it left, and the low bytes of the value are those that
stand from the place of `addr` on when the requests of the read are served.
-/
structure ServiceLog.Reads (log : ServiceLog) (p : DramPowerUp) (addr : BitVec 64)
    (n : BitVec 7) : Prop where
  stood
    : ∀ j rows,
        log.stood[j]? = some rows
        → rows = (serveAll p.rows ((log.calls.calls.flatMap (·.requests)).take j)).1
  bytes
    : ∀ earlier later value,
        log.calls.calls = earlier ++ .read (readCommand addr n) :: later
        → log.calls.returned[(earlier.filterMap (·.read?)).length]? = some value
        → ∀ i < n.toNat,
            byteAt value i
              = physicalByte (serveAll p.rows (earlier.flatMap (·.requests))).1
                  ((addrReMapping addr).toNat + i)

/-- The history tells the history in rows, the requests not yet served are the last ones of
the calls, and the DDR3 holds what the served ones left.
-/
structure ServiceLog.Tells (p : DramPowerUp) (s : DramSystem) (log : ServiceLog)
    (dram : DramLog) (todo : List DDRRequest) : Prop where
  behind : (dram.cache, dram.rows) = behind (p.readCache, p.rows) log.calls.calls
  expected : dram.expected = replies (p.readCache, p.rows) log.calls.calls
  returned : dram.returned = log.calls.returned
  order : log.calls.served ++ s.unserved todo = log.calls.calls.flatMap (·.requests)
  rows : s.ddr3.rows = (serveAll p.rows log.calls.served).1
  stood : log.stood
    = (List.range log.calls.served.length).map
        (fun j => (serveAll p.rows (log.calls.served.take j)).1)

/-- Only the DDR3 changes its rows, by the request it serves. -/
theorem DramSystem.rows_step {s s' : DramSystem} {e : DramEvent} (fires : s.step e = some s')
    : s'.ddr3.rows = (serveAll s.ddr3.rows (s.serving e).toList).1 := by
  cases e with
  | serve =>
      simp only [step, Ddr3.serve, Option.map_eq_some_iff] at fires
      obtain ⟨ddr3, served, rfl⟩ := fires
      split at served
      next => cases served
      next r pending front =>
        cases served
        simp [serving, front, serveAll]
  | relayReqs =>
      simp only [step, relayReqs] at fires
      split at fires
      next =>
        obtain ⟨taken, _, fires⟩ := Option.bind_eq_some_iff.mp fires
        cases fires
        rfl
      next => cases fires
  | relayResps =>
      simp only [step, relayResps] at fires
      split at fires
      next => cases fires
      next =>
        obtain ⟨taken, _, fires⟩ := Option.bind_eq_some_iff.mp fires
        cases fires
        rfl
  | _ =>
      simp only [step] at fires
      obtain ⟨ctl, _, rfl⟩ := Option.map_eq_some_iff.mp fires
      rfl

/-- The snapshots of a longer list of served requests. -/
theorem snapshots_snoc (rows : Rows) (served : List DDRRequest) (r : DDRRequest)
    : (List.range (served ++ [r]).length).map
        (fun j => (serveAll rows ((served ++ [r]).take j)).1)
      = (List.range served.length).map (fun j => (serveAll rows (served.take j)).1)
        ++ [(serveAll rows served).1] := by
  rw [List.length_append, List.length_singleton, List.range_succ, List.map_append,
    List.map_singleton, List.take_left]
  congr 1
  refine List.map_congr_left ?_
  intro j within
  rw [List.take_append_of_le_length (List.mem_range.mp within).le]

section Step

variable {p : DramPowerUp} {s s' : DramSystem} {e : DramEvent} {log : ServiceLog}
  {dram : DramLog} {todo todo' : List DDRRequest}

/-- What a call adds to the rows and to the values that reads must return. -/
theorem ServiceLog.Tells.replied (tells : log.Tells p s dram todo) (e : DramEvent)
    : ((dram.record s e).cache, (dram.record s e).rows)
        = BluespecPcie.behind (p.readCache, p.rows) (log.record s e).calls.calls
      ∧ (dram.record s e).expected
        = replies (p.readCache, p.rows) (log.record s e).calls.calls := by
  have calls : (log.record s e).calls.calls = log.calls.calls ++ e.call?.toList := rfl
  rw [calls, replies_append, behind_append, ← tells.behind, ← tells.expected]
  cases e with
  | write addr data n => exact ⟨rfl, (List.append_nil _).symm⟩
  | readReq addr n =>
      have rows := (readCommand addr n).serveAll_rows dram.rows
      refine ⟨Prod.ext rfl rows.symm, ?_⟩
      exact congrArg (dram.expected ++ ·) (List.append_nil _).symm
  | _ => exact ⟨rfl, (List.append_nil _).symm⟩

/-- Every event keeps the histories in step. -/
theorem ServiceLog.Tells.step (tells : log.Tells p s dram todo)
    (moves : s.unserved todo ++ e.requests = (s.serving e).toList ++ s'.unserved todo')
    (fires : s.step e = some s')
    : (log.record s e).Tells p s' (dram.record s e) todo' := by
  obtain ⟨rowsBehind, replied⟩ := tells.replied e
  have served : (log.record s e).calls.served = log.calls.served ++ (s.serving e).toList := rfl
  constructor
  case behind => exact rowsBehind
  case expected => exact replied
  case returned =>
    cases e with
    | read => exact congrArg (· ++ (s.ctl.read.map Prod.fst).toList) tells.returned
    | _ => exact tells.returned
  case order =>
    have calls : e.requests = e.call?.toList.flatMap (·.requests) := by
      cases e <;> simp [DramEvent.requests, DramEvent.call?, DramCommand.requests]
    simp only [ServiceLog.record, CallLog.record, List.append_assoc, ← moves,
      List.flatMap_append, ← tells.order, calls]
  case rows =>
    rw [DramSystem.rows_step fires, tells.rows, served, serveAll_append]
  case stood =>
    change log.stood ++ (s.serving e).toList.map (fun _ => s.ddr3.rows) = _
    rw [served, tells.stood]
    cases s.serving e with
    | none => simp only [Option.toList_none, List.map_nil, List.append_nil]
    | some r =>
        rw [Option.toList_some, snapshots_snoc, ← tells.rows, List.map_singleton]

end Step

-----------------------------------------------------------------------------------------
-- Runs
-----------------------------------------------------------------------------------------

/-- In every run of writes that store something, the returned values are the first of those
that the calls are answered, and the DDR3 serves the requests in call order.
-/
theorem service_replies {p : DramPowerUp} {s : DramSystem × ServiceLog}
    (run : Reach serviceStep (fun _ e => e.Stores) (serviceReset p) s)
    : s.2.calls.returned <+: replies (p.readCache, p.rows) s.2.calls.calls
      ∧ s.2.calls.served <+: s.2.calls.calls.flatMap (·.requests)
      ∧ s.2.stood = (List.range s.2.calls.served.length).map
          (fun j => (serveAll p.rows (s.2.calls.served.take j)).1) := by
  have inv : ∃ dram cmds todo offsets values,
      ServedBy s.1 dram cmds todo offsets values ∧ s.2.Tells p s.1 dram todo := by
    refine run.invariant (P := fun s => ∃ dram cmds todo offsets values,
      ServedBy s.1 dram cmds todo offsets values ∧ s.2.Tells p s.1 dram todo) ?_ ?_
    · exact ⟨_, _, _, _, _, servedBy_reset p, ⟨rfl, rfl, rfl, rfl, rfl, rfl⟩⟩
    · rintro s e s' ⟨dram, cmds, todo, offsets, values, served, tells⟩ stores fires
      obtain ⟨fires, same⟩ := traced_eq_some.mp fires
      have enable : e.WritesEnable := by
        cases e with
        | write addr data n => exact writeCommand_enables stores
        | _ => trivial
      obtain ⟨cmds', todo', offsets', values', served', moves⟩ := served.step enable fires
      refine ⟨_, cmds', todo', offsets', values', served', ?_⟩
      rw [same]
      exact tells.step moves fires
  obtain ⟨dram, cmds, todo, offsets, values, served, tells⟩ := inv
  refine ⟨?_, ?_, tells.stood⟩
  · rw [← tells.expected, ← tells.returned, served.expected]
    exact List.prefix_append ..
  · rw [← tells.order]
    exact List.prefix_append ..

/-- The value of a read is made of what its requests fetch, and of the cache register that
the calls before it left.
-/
theorem returned_eq {p : DramPowerUp} {log : ServiceLog}
    (returned : log.calls.returned <+: replies (p.readCache, p.rows) log.calls.calls)
    {earlier later : List DramCommand} {v : DRAMRdRequest} {value : BitVec 512}
    (calls : log.calls.calls = earlier ++ .read v :: later)
    (place : log.calls.returned[(earlier.filterMap (·.read?)).length]? = some value)
    : (callReply (behind (p.readCache, p.rows) earlier) (.read v)).2 = [value] := by
  have single := length_callReply (behind (p.readCache, p.rows) earlier) (.read v)
  obtain ⟨reply, only⟩ := List.length_eq_one_iff.mp single
  obtain ⟨open_, all⟩ := returned
  have inside := (List.getElem?_eq_some_iff.mp place).1
  rw [← List.getElem?_append_left inside, all, calls, replies_append, replies, only,
    ← length_replies (p.readCache, p.rows) earlier, List.getElem?_append_right (Nat.le_refl _),
    Nat.sub_self] at place
  cases place
  exact only

/-- The controller after the reset and one accepted read. -/
def oneRowAsked (p : DramPowerUp) (v : DRAMRdRequest) : DramSystem :=
  { DramSystem.reset p with
    ctl.dramRdCmdQ := ⟨[v], by simp⟩
    ctl.nextCmdTypeQ := ⟨[true], by simp⟩ }

/-- The same once the request of a read of one row is issued. -/
def oneRowIssued (p : DramPowerUp) (v : DRAMRdRequest) : DramSystem :=
  { DramSystem.reset p with
    ctl.reqs := ⟨[v.firstRow], by simp⟩
    ctl.readOffsetQ := ⟨[(false, v.addr.extractLsb 5 0)], by simp⟩ }

/-- Issuing the request of a read of one row. -/
theorem oneRowIssued_step (p : DramPowerUp) {v : DRAMRdRequest}
    (one : ¬v.nBytes > firstNbytes v.addr)
    : (oneRowAsked p v).step .driverReadC = some (oneRowIssued p v) := by
  change Option.map _ (if v.nBytes > firstNbytes v.addr then _ else _) = _
  rw [if_neg one]
  rfl

/-- The same once the DDR3 has the request. -/
def oneRowRelayed (p : DramPowerUp) (v : DRAMRdRequest) : DramSystem :=
  { DramSystem.reset p with
    ctl.readOffsetQ := ⟨[(false, v.addr.extractLsb 5 0)], by simp⟩
    ctl.reqCountUp := 1#7
    ddr3.pending := [v.firstRow] }

/-- Relaying the request of a read of one row. -/
theorem oneRowRelayed_step (p : DramPowerUp) (v : DRAMRdRequest)
    : (oneRowIssued p v).step .relayReqs = some (oneRowRelayed p v) := by
  have room : (0#7 : BitVec 7) - 0#7 < max_read_reqs := by decide
  exact (if_pos room).trans rfl

/-- A run of one read of one row, for any address. -/
theorem readOneRow_run (p : DramPowerUp) (addr : BitVec 64) (n : BitVec 7)
    (one : ¬n > firstNbytes (addrReMapping addr))
    : ∃ s value, Reach serviceStep (fun _ e => e.Stores) (serviceReset p) s
        ∧ s.2.calls.calls = [.read (readCommand addr n)]
        ∧ s.2.calls.returned = [value] := by
  let v := readCommand addr n
  let log : ServiceLog :=
    { calls := { calls := [.read v], served := [], returned := [] }, stood := [] }
  have asked : serviceStep (serviceReset p) (.readReq addr n)
      = some (oneRowAsked p v, log) := rfl
  have issued : serviceStep (oneRowAsked p v, log) .driverReadC
      = some (oneRowIssued p v, log) := traced_eq_some.mpr ⟨oneRowIssued_step p one, rfl⟩
  have relayed : serviceStep (oneRowIssued p v, log) .relayReqs
      = some (oneRowRelayed p v, log) := traced_eq_some.mpr ⟨oneRowRelayed_step p v, rfl⟩
  obtain ⟨s, run, seen⟩ := exec_reach_map serviceStep (fun _ e => e.Stores)
    (oneRowRelayed p v, log) [.serve, .relayResps, .relayResps2, .recvRead, .read]
    (fun s => (s.2.calls.calls, s.2.calls.returned.length)) ([.read v], 1) rfl
  obtain ⟨calls, single⟩ := Prod.mk.inj seen
  obtain ⟨value, returned⟩ := List.length_eq_one_iff.mp single
  have first : Reach serviceStep (fun _ e => e.Stores) (serviceReset p)
      (oneRowRelayed p v, log) :=
    ((Reach.refl.tail (e := .readReq addr n) trivial asked).tail (e := .driverReadC) trivial
      issued).tail (e := .relayReqs) trivial relayed
  exact ⟨s, value, first.trans run, calls, returned⟩

/-- Over a DDR3 full of ones, with zeros in the cache register, a read inside one row that does
not start there returns a zero byte.
-/
theorem cachedBytes {addr : BitVec 64} {n : BitVec 7} (offset : addr.toNat % 64 ≠ 0)
    (one : ¬n > firstNbytes (addrReMapping addr)) {value : BitVec 512}
    (reply : (callReply (0#512, fun _ => BitVec.allOnes 512) (.read (readCommand addr n))).2
      = [value])
    : byteAt value 0 = 0#8 := by
  have reads : (readCommand addr n).firstRow.writeen = 0#64 := rfl
  have small : ¬(readCommand addr n).nBytes > firstNbytes (readCommand addr n).addr := one
  have notZero : (readCommand addr n).addr.extractLsb 5 0 ≠ 0#6 := by
    intro zero
    have value := toNat_readOffset addr n
    rw [zero] at value
    exact offset value.symm
  have inFirst : ((readCommand addr n).addr.extractLsb 5 0 : BitVec 6).toNat + 0 < 64 :=
    BitVec.isLt _
  simp only [callReply, DRAMRdRequest.requests, DRAMRdRequest.offsets, if_neg small, serveAll,
    DDRRequest.response, reads, if_true, Option.toList_some, List.append_nil, collect,
    List.map_cons, List.map_nil, DRAMController.rotateInput, if_neg notZero,
    List.cons.injEq, and_true] at reply
  rw [← reply, byteAt_shifted _ _ _ (by decide), if_pos inFirst]
  simp [byteAt]

/-- A read inside one row that does not start there can return a byte from elsewhere. -/
theorem returns_cached (addr : BitVec 64) (n : BitVec 7) (sized : 1 ≤ n.toNat)
    (inside : ¬(DramEvent.readReq addr n).ReadsRow)
    : ∃ p s, Reach serviceStep (fun _ e => e.Stores) (serviceReset p) s
        ∧ ¬s.2.Reads p addr n := by
  obtain ⟨offset, short⟩ := not_or.mp inside
  have one : ¬n > firstNbytes (addrReMapping addr) := by
    change ¬firstNbytes (addrReMapping addr) < n
    rw [BitVec.lt_def, toNat_firstNbytes]
    omega
  let p : DramPowerUp := ⟨0#512, fun _ => BitVec.allOnes 512⟩
  obtain ⟨s, value, run, calls, returned⟩ := readOneRow_run p addr n one
  refine ⟨p, s, run, ?_⟩
  intro reads
  have first : s.2.calls.calls = [] ++ .read (readCommand addr n) :: [] := calls
  have place : s.2.calls.returned[(([] : List DramCommand).filterMap (·.read?)).length]?
      = some value := by
    rw [returned]
    rfl
  have reply := returned_eq (service_replies run).1 first place
  have bytes := reads.bytes [] [] value calls place 0 sized
  have ones : physicalByte p.rows ((addrReMapping addr).toNat + 0) = 0xff#8 :=
    byteAt_allOnes (Nat.mod_lt _ (by decide))
  rw [cachedBytes offset one reply] at bytes
  exact absurd (bytes.trans ones) (by decide)

/-- Reads of a size at an address return the bytes at their place in the DDR3, whatever was
called before, exactly if they start at a row or go on into the next one.
-/
theorem reads_bytes (addr : BitVec 64) (n : BitVec 7) (sized : 1 ≤ n.toNat ∧ n.toNat ≤ 64)
    : (∀ p s, Reach serviceStep (fun _ e => e.Stores) (serviceReset p) s → s.2.Reads p addr n)
      ↔ (DramEvent.readReq addr n).ReadsRow := by
  constructor
  · intro always
    by_contra inside
    obtain ⟨p, s, run, wrong⟩ := returns_cached addr n sized.1 inside
    exact wrong (always p s run)
  · intro whole p s run
    obtain ⟨replied, served, stood⟩ := service_replies run
    constructor
    case stood =>
      intro j rows snapshot
      rw [stood, List.getElem?_map, Option.map_eq_some_iff] at snapshot
      obtain ⟨k, index, rfl⟩ := snapshot
      obtain ⟨within, rfl⟩ := List.getElem?_eq_some_iff.mp index
      obtain ⟨rest, all⟩ := served
      rw [List.length_range] at within
      rw [List.getElem_range, ← all, List.take_append_of_le_length within.le]
    case bytes =>
      intro earlier later value calls place i asked
      have reply := returned_eq replied calls place
      have made := collect_readsRow sized whole (behind (p.readCache, p.rows) earlier).1
        (behind (p.readCache, p.rows) earlier).2
      have value_eq : value = (readCommand addr n).response
          (serveAll (behind (p.readCache, p.rows) earlier).2
            (readCommand addr n).requests).2 := by
        have both := reply.symm.trans made
        exact (List.cons.inj both).1
      rw [value_eq, byteAt_response addr n _ sized whole asked, behind_rows]

/-- Reads of 64 bytes at 96, which go on into the next row, return their bytes. -/
theorem reads_bytes_crossing
    : (DramEvent.readReq 96 64).ReadsRow
      ∧ ∀ p s, Reach serviceStep (fun _ e => e.Stores) (serviceReset p) s → s.2.Reads p 96 64 :=
  ⟨by decide, (reads_bytes 96 64 (by decide)).mpr (by decide)⟩

/-- Some read of 8 bytes in the middle of a row returns other bytes. -/
theorem reads_bytes_cached
    : ∃ p s, Reach serviceStep (fun _ e => e.Stores) (serviceReset p) s
        ∧ ¬s.2.Reads p 32 8 :=
  returns_cached 32 8 (by decide) (by decide)

end BluespecPcie
