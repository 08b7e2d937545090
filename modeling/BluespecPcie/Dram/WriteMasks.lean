import Mathlib.Order.Interval.Finset.Nat
import BluespecPcie.Dram.Pairing

/-! Byte enables of the writes of the DRAM controller: a write of a byte or more is never taken
for a read, at the DDR3 or among the responses.
-/

namespace BluespecPcie

open Bluespec

-----------------------------------------------------------------------------------------
-- Covered bytes
-----------------------------------------------------------------------------------------

/-- The number of bytes that a mask enables. -/
def enabledBytes (writeen : BitVec 64) : Nat :=
  ((Finset.range 64).filter (fun i => writeen.getLsbD i)).card

/-- The bytes that the requests of a write enable, over all its rows. -/
def DRAMWrRequest.coveredBytes (v : DRAMWrRequest) : Nat :=
  (v.requests.map (fun r => enabledBytes r.writeen)).sum

section Masks

variable (addr : BitVec 64) (data : BitVec 512) (bytes : BitVec 7)

/-- The first row takes the bytes from the offset to the end of the row. -/
theorem enabledBytes_firstRow
    : enabledBytes (writeCommand addr data bytes).firstRow.writeen
      = min bytes.toNat (64 - addr.toNat % 64) := by
  have offset := Nat.mod_lt addr.toNat (show 0 < 64 by decide)
  have interval
      : (Finset.range 64).filter
          (fun i => (writeCommand addr data bytes).firstRow.writeen.getLsbD i)
        = Finset.Ico (addr.toNat % 64) (min 64 (addr.toNat % 64 + bytes.toNat)) := by
    ext i
    simp only [Finset.mem_filter, Finset.mem_range, Finset.mem_Ico, lt_inf_iff]
    constructor
    · rintro ⟨within, enabled⟩
      rw [getLsbD_mask0 addr data bytes within, Bool.and_eq_true, decide_eq_true_eq,
        decide_eq_true_eq] at enabled
      exact ⟨enabled.1, within, enabled.2⟩
    · rintro ⟨above, within, below⟩
      refine ⟨within, ?_⟩
      rw [getLsbD_mask0 addr data bytes within, Bool.and_eq_true, decide_eq_true_eq,
        decide_eq_true_eq]
      exact ⟨above, below⟩
  rw [enabledBytes, interval, Nat.card_Ico]
  omega

/-- The next row takes the bytes that are left. -/
theorem enabledBytes_nextRow (offset : addr.toNat % 64 ≠ 0) (fits : bytes.toNat ≤ 64)
    : enabledBytes (writeCommand addr data bytes).nextRow.writeen
      = addr.toNat % 64 + bytes.toNat - 64 := by
  have interval
      : (Finset.range 64).filter
          (fun i => (writeCommand addr data bytes).nextRow.writeen.getLsbD i)
        = Finset.Ico 0 (addr.toNat % 64 + bytes.toNat - 64) := by
    ext i
    rw [Finset.mem_filter, Finset.mem_range, Finset.mem_Ico,
      getLsbD_mask1 addr data bytes offset fits, decide_eq_true_eq]
    omega
  rw [enabledBytes, interval, Nat.card_Ico, Nat.sub_zero]

/-- A write goes on into the next row when it is longer than the rest of its own. -/
theorem requests_writeCommand
    : (writeCommand addr data bytes).requests
      = if 64 < addr.toNat % 64 + bytes.toNat
        then [(writeCommand addr data bytes).firstRow, (writeCommand addr data bytes).nextRow]
        else [(writeCommand addr data bytes).firstRow] := by
  have rows : firstNbytes (writeCommand addr data bytes).addr
        < (writeCommand addr data bytes).nBytes
      ↔ 64 < addr.toNat % 64 + bytes.toNat := by
    change firstNbytes (addrReMapping addr) < bytes ↔ _
    rw [BitVec.lt_def, toNat_firstNbytes]
    omega
  rw [DRAMWrRequest.requests]
  exact if_congr rows rfl rfl

/-- The rows of a write take each of its bytes once. -/
theorem coveredBytes_writeCommand (fits : bytes.toNat ≤ 64)
    : (writeCommand addr data bytes).coveredBytes = bytes.toNat := by
  have offset := Nat.mod_lt addr.toNat (show 0 < 64 by decide)
  rw [DRAMWrRequest.coveredBytes, requests_writeCommand]
  split
  next two =>
    rw [List.map_cons, List.map_singleton, List.sum_cons, List.sum_singleton,
      enabledBytes_firstRow, enabledBytes_nextRow addr data bytes (by omega) fits]
    omega
  next one =>
    rw [List.map_singleton, List.sum_singleton, enabledBytes_firstRow]
    omega

/-- A write enables a byte in each of its rows if and only if it has a byte. -/
theorem writesEnable_iff
    : (DramEvent.write addr data bytes).WritesEnable ↔ 1 ≤ bytes.toNat := by
  constructor
  · intro enable
    by_contra none
    have first := enable (writeCommand addr data bytes).firstRow (by
      rw [requests_writeCommand]
      split <;> exact List.mem_cons_self)
    refine first (BitVec.eq_of_getLsbD_eq ?_)
    intro i within
    rw [getLsbD_mask0 addr data bytes within]
    simp only [BitVec.getLsbD_zero, Bool.and_eq_false_iff, decide_eq_false_iff_not]
    omega
  · exact writeCommand_enables

end Masks

-----------------------------------------------------------------------------------------
-- History
-----------------------------------------------------------------------------------------

/-- The accepted calls, and the requests the DDR3 has served with its response to each. -/
structure ServeLog where
  calls : List DramCommand := []
  served : List (DDRRequest × Option (BitVec 512)) := []

/-- How an event extends the history; `s` is the state before it. -/
def ServeLog.record (s : DramSystem) (e : DramEvent) (log : ServeLog) : ServeLog where
  calls := log.calls ++ e.call?.toList
  served := log.served ++ (s.serving e).toList.map (fun r => (r, r.response s.ddr3.rows))

/-- The requests of a call, with whether a response to them is expected. -/
def DramCommand.expects (c : DramCommand) : List (DDRRequest × Bool) :=
  c.requests.map (fun r => (r, c.isRead))

/-- The requests of every accepted write enable bytes, and as many as the write has; the DDR3
serves the requests of the calls in call order, and answers those of the reads.
-/
structure WritesApart (log : ServeLog) : Prop where
  enabled : ∀ v, .write v ∈ log.calls → ∀ r ∈ v.requests, r.writeen ≠ 0#64
  covered : ∀ v, .write v ∈ log.calls → v.coveredBytes = v.nBytes.toNat
  answered : log.served.map (fun t => (t.1, t.2.isSome))
    <+: log.calls.flatMap DramCommand.expects

/-- Writes are of at most 64 bytes; reads are of any size. -/
def DramEvent.WriteFits : DramEvent → Prop
  | .write _ _ n => n.toNat ≤ 64
  | _ => True

/-- Writes are of 1 to 64 bytes; reads are of any size. -/
def DramEvent.WriteSized : DramEvent → Prop
  | .write _ _ n => 1 ≤ n.toNat ∧ n.toNat ≤ 64
  | _ => True

instance (e : DramEvent) : Decidable e.WriteFits :=
  match e with
  | .write _ _ _ => inferInstanceAs (Decidable (_ ≤ _))
  | .readReq _ _ | .read | .driverWrie | .driverReadC | .recvRead | .relayReqs | .relayResps
  | .relayResps2 | .serve => isTrue trivial

instance (e : DramEvent) : Decidable e.WriteSized :=
  match e with
  | .write _ _ _ => inferInstanceAs (Decidable (_ ∧ _))
  | .readReq _ _ | .read | .driverWrie | .driverReadC | .recvRead | .relayReqs | .relayResps
  | .relayResps2 | .serve => isTrue trivial

-----------------------------------------------------------------------------------------
-- Runs
-----------------------------------------------------------------------------------------

/-- The requests of a read enable no byte. -/
theorem DRAMRdRequest.writeen_of_mem {v : DRAMRdRequest} {r : DDRRequest}
    (member : r ∈ v.requests)
    : r.writeen = 0#64 := by
  unfold DRAMRdRequest.requests at member
  split at member
  next =>
    rcases List.mem_cons.mp member with rfl | next
    · rfl
    · obtain rfl := List.mem_singleton.mp next
      rfl
  next =>
    obtain rfl := List.mem_singleton.mp member
    rfl

/-- The queues in front of the DDR3 hold the requests not yet served, in call order; what was
served was answered by its mask; and the accepted writes are of 1 to 64 bytes.
-/
structure ServesCalls (s : DramSystem) (log : ServeLog) : Prop where
  order : ∃ dram cmds todo offsets values,
    ServedBy s dram cmds todo offsets values
      ∧ log.served.map Prod.fst ++ s.unserved todo = log.calls.flatMap (·.requests)
  responses : ∀ t ∈ log.served, t.2.isSome = decide (t.1.writeen = 0#64)
  sizes : ∀ v, .write v ∈ log.calls →
    ∃ addr data bytes, v = writeCommand addr data bytes ∧ 1 ≤ bytes.toNat ∧ bytes.toNat ≤ 64

/-- After reset nothing is queued or served. -/
theorem servesCalls_reset (p : DramPowerUp) : ServesCalls (.reset p) {} := by
  constructor
  case order => exact ⟨_, _, _, _, _, servedBy_reset p, rfl⟩
  case responses => exact fun t member => absurd member List.not_mem_nil
  case sizes => exact fun v member => absurd member List.not_mem_nil

/-- A write of 1 to 64 bytes enables bytes in its rows. -/
theorem DramEvent.WriteSized.enable {e : DramEvent} (sized : e.WriteSized)
    : e.WritesEnable := by
  cases e with
  | write addr data n => exact writeCommand_enables sized.1
  | _ => trivial

/-- Every event keeps the requests in call order. -/
theorem ServesCalls.step {s s' : DramSystem} {log : ServeLog} {e : DramEvent}
    (inv : ServesCalls s log) (sized : e.WriteSized) (fires : s.step e = some s')
    : ServesCalls s' (log.record s e) := by
  obtain ⟨⟨dram, cmds, todo, offsets, values, served, order⟩, responses, sizes⟩ := inv
  obtain ⟨cmds', todo', offsets', values', served', moves⟩ := served.step sized.enable fires
  constructor
  case order =>
    refine ⟨_, cmds', todo', offsets', values', served', ?_⟩
    have calls : e.requests = e.call?.toList.flatMap (·.requests) := by
      cases e <;> simp [DramEvent.requests, DramEvent.call?, DramCommand.requests]
    simp only [ServeLog.record, List.map_append, List.map_map, List.flatMap_append,
      ← order, ← calls, List.append_assoc, moves]
    congr 2
    exact List.map_id _
  case responses =>
    intro t member
    rcases List.mem_append.mp member with earlier | new
    · exact responses t earlier
    · obtain ⟨r, -, rfl⟩ := List.mem_map.mp new
      unfold DDRRequest.response
      split <;> simp [*]
  case sizes =>
    intro v member
    rcases List.mem_append.mp member with earlier | new
    · exact sizes v earlier
    · cases e with
      | write addr data n =>
          obtain rfl : v = writeCommand addr data n := by simpa [DramEvent.call?] using new
          exact ⟨addr, data, n, rfl, sized⟩
      | _ => simp [DramEvent.call?] at new

/-- Requests in call order with their answers are what the calls expect. -/
theorem ServesCalls.writesApart {s : DramSystem} {log : ServeLog} (inv : ServesCalls s log)
    : WritesApart log := by
  obtain ⟨⟨dram, cmds, todo, offsets, values, served, order⟩, responses, sizes⟩ := inv
  have enabled : ∀ v, .write v ∈ log.calls → ∀ r ∈ v.requests, r.writeen ≠ 0#64 := by
    intro v member
    obtain ⟨addr, data, bytes, rfl, positive, -⟩ := sizes v member
    exact (writesEnable_iff addr data bytes).mpr positive
  constructor
  case enabled => exact enabled
  case covered =>
    intro v member
    obtain ⟨addr, data, bytes, rfl, -, fits⟩ := sizes v member
    exact coveredBytes_writeCommand addr data bytes fits
  case answered =>
    have expects
        : log.calls.flatMap DramCommand.expects
          = (log.calls.flatMap (·.requests)).map (fun r => (r, decide (r.writeen = 0#64))) := by
      rw [List.map_flatMap]
      refine List.flatMap_congr ?_
      intro c member
      refine List.map_congr_left ?_
      intro r request
      cases c with
      | write v => simp [DramCommand.isRead, enabled v member r request]
      | read v => simp [DramCommand.isRead, DRAMRdRequest.writeen_of_mem request]
    have answers
        : log.served.map (fun t => (t.1, t.2.isSome))
          = (log.served.map Prod.fst).map (fun r => (r, decide (r.writeen = 0#64))) := by
      rw [List.map_map]
      refine List.map_congr_left ?_
      intro t member
      exact congrArg (t.1, ·) (responses t member)
    rw [expects, answers, ← order, List.map_append]
    exact List.prefix_append ..

/-- A write of at most 64 bytes covers its bytes, and enables a byte in each of its requests if
and only if it has one. In every run whose writes have a byte, no write is answered.
-/
theorem writes_apart (p : DramPowerUp)
    : (∀ (addr : BitVec 64) (data : BitVec 512) (bytes : BitVec 7), bytes.toNat ≤ 64 →
        (writeCommand addr data bytes).coveredBytes = bytes.toNat
        ∧ ((∀ r ∈ (writeCommand addr data bytes).requests, r.writeen ≠ 0#64)
          ↔ 1 ≤ bytes.toNat))
      ∧ ∀ state : DramSystem × ServeLog,
          Reach (traced DramSystem.step ServeLog.record) (fun _ e => e.WriteSized)
            (.reset p, {}) state →
          WritesApart state.2 := by
  constructor
  · intro addr data bytes fits
    exact ⟨coveredBytes_writeCommand addr data bytes fits, writesEnable_iff addr data bytes⟩
  · intro state run
    refine (run.invariant (P := fun state => ServesCalls state.1 state.2) ?_ ?_).writesApart
    · exact servesCalls_reset p
    · intro state e state' inv sized fires
      obtain ⟨fired, recorded⟩ := traced_eq_some.mp fires
      rw [recorded]
      exact inv.step sized fired

/-- A run with a write over two rows, a write of one byte and a read. -/
theorem writes_apart_straddling
    : (writeCommand 96 0 64).coveredBytes = 64
      ∧ ∃ state : DramSystem × ServeLog,
          state.2.served.map (fun t => t.2.isSome) = [false, false, false, true]
          ∧ WritesApart state.2 := by
  obtain ⟨state, run, seen⟩ := exec_reach_map (traced DramSystem.step ServeLog.record)
    (fun _ e => e.WriteSized) (.reset default, {})
    [.write 96 0 64, .driverWrie, .driverWrie, .write 63 5 1, .driverWrie, .readReq 0 64,
      .driverReadC, .relayReqs, .relayReqs, .relayReqs, .relayReqs, .serve, .serve, .serve,
      .serve]
    (fun state => state.2.served.map (fun t => t.2.isSome)) [false, false, false, true]
    (by decide +kernel)
  obtain ⟨covers, apart⟩ := writes_apart default
  exact ⟨(covers 96 0 64 (by decide)).1, state, seen, apart state run⟩

/-- A write of no bytes goes to the DDR3 as a read, and is answered. -/
theorem empty_write_answered
    : ¬∀ (p : DramPowerUp) (state : DramSystem × ServeLog),
        Reach (traced DramSystem.step ServeLog.record) (fun _ e => e.WriteFits)
          (.reset p, {}) state →
        WritesApart state.2 := by
  intro always
  obtain ⟨state, run, seen⟩ := exec_reach_map (traced DramSystem.step ServeLog.record)
    (fun _ e => e.WriteFits) (.reset default, {})
    [.write 0 0 0, .driverWrie, .relayReqs, .serve]
    (fun state => (state.2.calls, state.2.served.map (fun t => t.2.isSome)))
    ([.write (writeCommand 0 0 0)], [true]) (by decide +kernel)
  obtain ⟨calls, answers⟩ := Prod.mk.inj seen
  have written := (always default state run).enabled (writeCommand 0 0 0) (by simp [calls])
    (writeCommand 0 0 0).firstRow (by decide +kernel)
  exact written (by decide +kernel)

end BluespecPcie
