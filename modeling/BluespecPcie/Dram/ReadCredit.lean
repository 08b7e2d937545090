import BluespecPcie.Dram.Pairing

/-! The read credit of the DRAM controller: the counters count the reads at the DDR3 and in
`resps`, whatever the calls are, so each response finds room.
-/

namespace BluespecPcie

open Bluespec

-----------------------------------------------------------------------------------------
-- History
-----------------------------------------------------------------------------------------

/-- The reads sent to the DDR3, the responses it made, and those that left `resps`. -/
structure ReadCreditLog where
  sent : Nat := 0
  answered : List (BitVec 512) := []
  left : List (BitVec 512) := []

/-- How an event extends the history; `s` is the state before it. -/
def ReadCreditLog.record (s : DramSystem) (e : DramEvent) (log : ReadCreditLog) : ReadCreditLog :=
  match e with
  | .relayReqs => { log with sent := log.sent + readCount s.ctl.reqs.items.head?.toList }
  | .serve =>
      { log with
        answered := log.answered
          ++ s.ddr3.pending.head?.toList.flatMap (fun r => (r.response s.ddr3.rows).toList) }
  | .relayResps2 => { log with left := log.left ++ s.ctl.resps.items.head?.toList }
  | _ => log

/-- The counters count what was sent and did not leave `resps`, at most 64, over any number of
reads. The responses leave `resps` as the DDR3 makes them, and none has to wait for room.
-/
structure ReadCredit (s : DramSystem) (log : ReadCreditLog) : Prop where
  counted : (s.ctl.reqCountUp - s.ctl.reqCountDown).toNat + log.left.length = log.sent
  bound : (s.ctl.reqCountUp - s.ctl.reqCountDown).toNat ≤ 64
  room : s.readsUnderWay ≤ 64
  relays : s.ddr3.responses ≠ [] → (s.step .relayResps).isSome
  kept : log.answered = log.left ++ s.ctl.resps.items ++ s.ddr3.responses

-----------------------------------------------------------------------------------------
-- Steps
-----------------------------------------------------------------------------------------

/-- What the counters and the history say of the reads under way. -/
structure CreditKept (s : DramSystem) (log : ReadCreditLog) : Prop where
  credit : (s.ctl.reqCountUp - s.ctl.reqCountDown).toNat = s.readsUnderWay
  sent : log.sent = log.left.length + s.readsUnderWay
  bound : s.readsUnderWay ≤ 64
  kept : log.answered = log.left ++ s.ctl.resps.items ++ s.ddr3.responses

/-- After reset nothing is under way. -/
theorem creditKept_reset (p : DramPowerUp) : CreditKept (.reset p) {} := by
  constructor
  case credit => simp [DramSystem.reset, mkDRAMController, DramSystem.readsUnderWay]
  case sent => rfl
  case bound => exact Nat.zero_le _
  case kept => rfl

section Steps

variable {s s' : DramSystem} {log : ReadCreditLog}

/-- What is in front of the request queue and what is behind `respSyncQ` leaves the reads under
way and their history alone.
-/
theorem credit_frame {e : DramEvent} (fires : s.step e = some s')
    : (s'.ctl.reqCountUp = s.ctl.reqCountUp ∧ s'.ctl.reqCountDown = s.ctl.reqCountDown
        ∧ s'.ctl.resps = s.ctl.resps ∧ s'.ddr3 = s.ddr3 ∧ log.record s e = log)
      ∨ e = .relayReqs ∨ e = .relayResps ∨ e = .relayResps2 ∨ e = .serve := by
  cases e with
  | write addr data bytes =>
      simp only [DramSystem.step, DRAMController.write, Option.bind_eq_bind, Option.pure_def,
        Option.map_eq_some_iff, Fifo.bind_enq_eq_some, Option.some.injEq] at fires
      obtain ⟨ctl, ⟨_, _, _, _, _, _, rfl⟩, rfl⟩ := fires
      exact .inl ⟨rfl, rfl, rfl, rfl, rfl⟩
  | readReq addr bytes =>
      simp only [DramSystem.step, DRAMController.readReq, Option.bind_eq_bind,
        Option.pure_def, Option.map_eq_some_iff, Fifo.bind_enq_eq_some,
        Option.some.injEq] at fires
      obtain ⟨ctl, ⟨_, _, _, _, _, _, rfl⟩, rfl⟩ := fires
      exact .inl ⟨rfl, rfl, rfl, rfl, rfl⟩
  | read =>
      simp only [DramSystem.step, DRAMController.read, Option.bind_eq_bind, Option.pure_def,
        Option.map_eq_some_iff, Option.bind_eq_some_iff, Option.some.injEq] at fires
      obtain ⟨_, ⟨_, _, rfl⟩, rfl⟩ := fires
      exact .inl ⟨rfl, rfl, rfl, rfl, rfl⟩
  | driverWrie =>
      simp only [DramSystem.step, DRAMController.driverWrie, Option.bind_eq_bind,
        Option.pure_def, Option.map_eq_some_iff, Fifo.bind_deq_eq_some] at fires
      obtain ⟨ctl, ⟨isRead, _, _, v, _, _, fires⟩, rfl⟩ := fires
      split_ifs at fires
      · obtain ⟨_, _, fires⟩ := Option.bind_eq_some_iff.mp fires
        cases fires
        exact .inl ⟨rfl, rfl, rfl, rfl, rfl⟩
      · obtain ⟨_, _, fires⟩ := Option.bind_eq_some_iff.mp fires
        cases fires
        exact .inl ⟨rfl, rfl, rfl, rfl, rfl⟩
      · obtain ⟨_, _, fires⟩ := Option.bind_eq_some_iff.mp fires
        cases fires
        exact .inl ⟨rfl, rfl, rfl, rfl, rfl⟩
  | driverReadC =>
      simp only [DramSystem.step, DRAMController.driverReadC, Option.bind_eq_bind,
        Option.pure_def, Option.map_eq_some_iff, Fifo.bind_deq_eq_some] at fires
      obtain ⟨ctl, ⟨isRead, _, _, v, _, _, fires⟩, rfl⟩ := fires
      split_ifs at fires
      all_goals
        simp only [Fifo.bind_enq_eq_some, Option.some.injEq] at fires
        obtain ⟨_, _, _, _, _, _, rfl⟩ := fires
        exact .inl ⟨rfl, rfl, rfl, rfl, rfl⟩
  | recvRead =>
      simp only [DramSystem.step, DRAMController.recvRead, Option.bind_eq_bind,
        Option.pure_def, Option.map_eq_some_iff, Fifo.bind_deq_eq_some] at fires
      obtain ⟨ctl, ⟨res, _, _, ⟨cache, offset⟩, _, _, fires⟩, rfl⟩ := fires
      cases cache with
      | true =>
          cases fires
          exact .inl ⟨rfl, rfl, rfl, rfl, rfl⟩
      | false =>
          obtain ⟨_, _, fires⟩ := Option.bind_eq_some_iff.mp fires
          cases fires
          exact .inl ⟨rfl, rfl, rfl, rfl, rfl⟩
  | relayReqs => exact .inr (.inl rfl)
  | relayResps => exact .inr (.inr (.inl rfl))
  | relayResps2 => exact .inr (.inr (.inr (.inl rfl)))
  | serve => exact .inr (.inr (.inr (.inr rfl)))

/-- A read takes a credit when it goes to the DDR3, and finds one. -/
theorem CreditKept.relayReqs (inv : CreditKept s log) (fires : s.step .relayReqs = some s')
    : CreditKept s' (log.record s .relayReqs) := by
  simp only [DramSystem.step, DramSystem.relayReqs, Option.bind_eq_bind,
    Option.pure_def] at fires
  split at fires
  next credit =>
    simp only [Fifo.bind_deq_eq_some, Option.some.injEq] at fires
    obtain ⟨req, reqs, taken, rfl⟩ := fires
    obtain ⟨count, sent, bound, kept⟩ := inv
    rw [BitVec.lt_def, count, show max_read_reqs.toNat = 64 from rfl] at credit
    simp only [DramSystem.readsUnderWay] at count sent credit
    refine ⟨?_, ?_, ?_, kept⟩
    · simp only [DramSystem.readsUnderWay, readCount_append, readCount_cons, readCount_nil]
      split
      next read => bv_omega
      next => omega
    · simp only [ReadCreditLog.record, DramSystem.readsUnderWay, taken, List.head?_cons,
        Option.toList_some, readCount_append, readCount_cons, readCount_nil]
      omega
    · simp only [DramSystem.readsUnderWay, readCount_append, readCount_cons, readCount_nil]
      split <;> omega
  next => cases fires

/-- Serving a read makes a response of it. -/
theorem CreditKept.serve (inv : CreditKept s log) (fires : s.step .serve = some s')
    : CreditKept s' (log.record s .serve) := by
  simp only [DramSystem.step, Ddr3.serve, Option.map_eq_some_iff] at fires
  obtain ⟨ddr3, fires, rfl⟩ := fires
  split at fires
  next => cases fires
  next r pending oldest =>
    cases fires
    have same : readCount pending + (s.ddr3.responses ++ (r.response s.ddr3.rows).toList).length
        + s.ctl.resps.items.length = s.readsUnderWay := by
      rw [DramSystem.readsUnderWay, oldest, readCount_cons, DDRRequest.response]
      split
      next => simp; omega
      next => simp
    obtain ⟨count, sent, bound, kept⟩ := inv
    rw [← same] at count sent bound
    refine ⟨count, sent, bound, ?_⟩
    simp only [ReadCreditLog.record, oldest, List.head?_cons, Option.toList_some,
      List.flatMap_singleton, kept, List.append_assoc]

/-- A response keeps its credit on the way to `resps`. -/
theorem CreditKept.relayResps (inv : CreditKept s log)
    (fires : s.step .relayResps = some s')
    : CreditKept s' (log.record s .relayResps) := by
  simp only [DramSystem.step, DramSystem.relayResps, Option.bind_eq_bind,
    Option.pure_def] at fires
  split at fires
  next => cases fires
  next x responses arrived =>
    simp only [Fifo.bind_enq_eq_some, Option.some.injEq] at fires
    obtain ⟨resps, _, put, rfl⟩ := fires
    have same : readCount s.ddr3.pending + responses.length + resps.items.length
        = s.readsUnderWay := by
      simp only [DramSystem.readsUnderWay, put, arrived, List.length_append, List.length_cons,
        List.length_nil]
      omega
    obtain ⟨count, sent, bound, kept⟩ := inv
    rw [← same] at count sent bound
    refine ⟨count, sent, bound, ?_⟩
    change log.answered = log.left ++ resps.items ++ responses
    rw [kept, put, arrived, List.append_assoc, List.append_assoc, List.append_assoc]
    rfl

/-- A response gives its credit back when it leaves `resps`. -/
theorem CreditKept.relayResps2 (inv : CreditKept s log)
    (fires : s.step .relayResps2 = some s')
    : CreditKept s' (log.record s .relayResps2) := by
  simp only [DramSystem.step, DRAMController.relayResps2, Option.bind_eq_bind,
    Option.pure_def, Option.map_eq_some_iff, Fifo.bind_deq_eq_some, Fifo.bind_enq_eq_some,
    Option.some.injEq] at fires
  obtain ⟨_, ⟨x, resps, taken, respSyncQ, _, put, rfl⟩, rfl⟩ := fires
  obtain ⟨count, sent, bound, kept⟩ := inv
  simp only [DramSystem.readsUnderWay, taken, List.length_cons] at count sent bound
  refine ⟨?_, ?_, ?_, ?_⟩
  · simp only [DramSystem.readsUnderWay]
    bv_omega
  · simp only [ReadCreditLog.record, DramSystem.readsUnderWay, taken, List.head?_cons,
      Option.toList_some, List.length_append, List.length_singleton]
    omega
  · simp only [DramSystem.readsUnderWay]
    omega
  · simp only [ReadCreditLog.record, kept, taken, List.head?_cons, Option.toList_some,
      List.append_assoc, List.singleton_append]

/-- Every event keeps the credit. -/
theorem CreditKept.step {e : DramEvent} (inv : CreditKept s log)
    (fires : s.step e = some s')
    : CreditKept s' (log.record s e) := by
  rcases @credit_frame s s' log e fires with ⟨up, down, resps, ddr3, unseen⟩ | rfl | rfl | rfl | rfl
  · have same : s'.readsUnderWay = s.readsUnderWay := by
      rw [DramSystem.readsUnderWay, ddr3, resps]
      rfl
    obtain ⟨count, sent, bound, kept⟩ := inv
    rw [unseen]
    refine ⟨?_, ?_, ?_, ?_⟩
    · rw [up, down, same]
      exact count
    · rw [same]
      exact sent
    · rw [same]
      exact bound
    · rw [resps, ddr3]
      exact kept
  · exact inv.relayReqs fires
  · exact inv.relayResps fires
  · exact inv.relayResps2 fires
  · exact inv.serve fires

end Steps

-----------------------------------------------------------------------------------------
-- Runs
-----------------------------------------------------------------------------------------

/-- While the credit is kept, a response that is ready finds room in `resps`. -/
theorem CreditKept.readCredit {s : DramSystem} {log : ReadCreditLog} (inv : CreditKept s log)
    : ReadCredit s log := by
  obtain ⟨credit, sent, bound, kept⟩ := inv
  refine ⟨?_, ?_, bound, ?_, kept⟩
  · rw [credit, sent, Nat.add_comm]
  · rw [credit]
    exact bound
  · intro ready
    obtain ⟨x, responses, arrived⟩ := List.exists_cons_of_ne_nil ready
    have room : s.ctl.resps.items.length < 64 := by
      rw [DramSystem.readsUnderWay, arrived, List.length_cons] at bound
      omega
    obtain ⟨resps, put⟩ := Fifo.enq_of_room room x
    simp [DramSystem.step, DramSystem.relayResps, arrived, put]

/-- In every run, with calls of any size, the counters bound the responses to what `resps` has
room for.
-/
theorem read_credit_bounds {p : DramPowerUp} {state : DramSystem × ReadCreditLog}
    (run : Reach (traced DramSystem.step ReadCreditLog.record) anyEvent (.reset p, {}) state)
    : ReadCredit state.1 state.2 := by
  refine (run.invariant (P := fun state => CreditKept state.1 state.2) ?_ ?_).readCredit
  · exact creditKept_reset p
  · intro state e state' inv _ fires
    obtain ⟨fired, recorded⟩ := traced_eq_some.mp fires
    rw [recorded]
    exact inv.step fired

/-- A run with one read on its way in each place. -/
theorem read_credit_bounds_underWay
    : ∃ state : DramSystem × ReadCreditLog,
        (state.1.ctl.reqCountUp, state.1.ctl.reqCountDown, state.2.sent) = (4#7, 1#7, 4)
        ∧ ReadCredit state.1 state.2 := by
  obtain ⟨state, run, seen⟩ := exec_reach_map (traced DramSystem.step ReadCreditLog.record) anyEvent
    (.reset default, {})
    [.readReq 0 64, .driverReadC, .readReq 96 64, .driverReadC, .driverReadC, .relayReqs,
      .relayReqs, .relayReqs, .serve, .serve, .serve, .relayResps, .relayResps, .relayResps2,
      .write 0 0 0, .driverWrie, .relayReqs]
    (fun state => (state.1.ctl.reqCountUp, state.1.ctl.reqCountDown, state.2.sent))
    (4#7, 1#7, 4) (by decide +kernel)
  exact ⟨state, seen, read_credit_bounds run⟩

end BluespecPcie
