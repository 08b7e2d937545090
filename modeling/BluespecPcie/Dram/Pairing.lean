import BluespecPcie.Dram.FlatMemory

/-! Every read of the DRAM controller is answered once, in call order, from its own rows. -/

namespace BluespecPcie

open Bluespec

-----------------------------------------------------------------------------------------
-- Responses by call
-----------------------------------------------------------------------------------------

/-- Fetched rows side by side, the first one lowest. -/
def joinRows : List (BitVec 512) → BitVec 1024
  | [] => 0#1024
  | [row] => row.zeroExtend 1024
  | first :: next :: _ => next ++ first

/-- The response to a read whose requests fetched `rows`: their bytes from its offset on. -/
def DRAMRdRequest.response (v : DRAMRdRequest) (rows : List (BitVec 512)) : BitVec 512 :=
  DRAMController.lowRow
    (CombinationalRightShifter.shifted (joinRows rows) (v.addr.extractLsb 5 0 : BitVec 6))

/-- The responses to the reads among the calls, when `respond` makes a response of what the
requests of the read itself fetch. These are served behind the requests of all calls before
the read, and before those of all calls after it.
-/
def responses (respond : DRAMRdRequest → List (BitVec 512) → BitVec 512) (rows : Rows)
    : List DramCommand → List (BitVec 512)
  | [] => []
  | .write v :: calls => responses respond (serveAll rows v.requests).1 calls
  | .read v :: calls =>
      respond v (serveAll rows v.requests).2
        :: responses respond (serveAll rows v.requests).1 calls

/-- There is one response for each read among the calls. -/
theorem length_responses (respond : DRAMRdRequest → List (BitVec 512) → BitVec 512)
    (rows : Rows) (calls : List DramCommand)
    : (responses respond rows calls).length = (calls.filterMap (·.read?)).length := by
  induction calls generalizing rows with
  | nil => rfl
  | cons c calls ih =>
      cases c with
      | write v => exact ih _
      | read v =>
          rw [responses, List.length_cons, ih]
          rfl

/-- The responses to further calls follow, over the rows that the earlier calls left. -/
theorem responses_append (respond : DRAMRdRequest → List (BitVec 512) → BitVec 512)
    (rows : Rows) (calls later : List DramCommand)
    : responses respond rows (calls ++ later)
      = responses respond rows calls
        ++ responses respond (serveAll rows (calls.flatMap (·.requests))).1 later := by
  induction calls generalizing rows with
  | nil => rfl
  | cons c calls ih =>
      cases c with
      | write v =>
          rw [List.cons_append, responses, ih, responses, List.flatMap_cons, serveAll_append]
          rfl
      | read v =>
          rw [List.cons_append, responses, ih, responses, List.flatMap_cons, serveAll_append]
          rfl

-----------------------------------------------------------------------------------------
-- History
-----------------------------------------------------------------------------------------

/-- The accepted calls, the requests the DDR3 has served, and the values returned. -/
structure CallLog where
  calls : List DramCommand
  served : List DDRRequest
  returned : List (BitVec 512)

/-- The call that an event accepts. -/
def DramEvent.call? : DramEvent → Option DramCommand
  | .write addr data bytes => some (.write (writeCommand addr data bytes))
  | .readReq addr bytes => some (.read (readCommand addr bytes))
  | _ => none

/-- How an event extends the history; `s` is the state before it. -/
def CallLog.record (s : DramSystem) (e : DramEvent) (log : CallLog) : CallLog where
  calls := log.calls ++ e.call?.toList
  served := log.served ++ (s.serving e).toList
  returned :=
    match e with
    | .read => log.returned ++ (s.ctl.read.map Prod.fst).toList
    | _ => log.returned

/-- The controller with the history of its calls. -/
def callStep : DramSystem × CallLog → DramEvent → Option (DramSystem × CallLog) :=
  traced DramSystem.step CallLog.record

/-- The state and history after reset. -/
def callReset (p : DramPowerUp) : DramSystem × CallLog :=
  (.reset p, { calls := [], served := [], returned := [] })

/-- Calls are of 1 to 64 bytes. -/
def DramEvent.Sized : DramEvent → Prop
  | .write _ _ n => 1 ≤ n.toNat ∧ n.toNat ≤ 64
  | .readReq _ n => 1 ≤ n.toNat ∧ n.toNat ≤ 64
  | _ => True

/-- A read starts at the start of a row, or goes on into the next row. -/
def DramEvent.ReadsRow : DramEvent → Prop
  | .readReq addr n => addr.toNat % 64 = 0 ∨ 64 < addr.toNat % 64 + n.toNat
  | _ => True

instance (e : DramEvent) : Decidable e.Sized :=
  match e with
  | .write _ _ _ | .readReq _ _ => inferInstanceAs (Decidable (_ ∧ _))
  | .read | .driverWrie | .driverReadC | .recvRead | .relayReqs | .relayResps | .relayResps2
  | .serve => isTrue trivial

instance (e : DramEvent) : Decidable e.ReadsRow :=
  match e with
  | .readReq _ _ => inferInstanceAs (Decidable (_ ∨ _))
  | .write _ _ _ | .read | .driverWrie | .driverReadC | .recvRead | .relayReqs | .relayResps
  | .relayResps2 | .serve => isTrue trivial

/-- No rule can fire, the DDR3 has nothing to serve, and no response can be taken. -/
def DramSystem.Drained (s : DramSystem) : Prop :=
  ∀ e : DramEvent, e.call? = none → s.step e = none

/-- Responses are paired with requests: the DDR3 serves the requests of the calls in call
order, what is returned are the first responses, each made of what its own read fetched, and
every read has been answered, by one value, once nothing can move.
-/
structure CallLog.Pairs (respond : DRAMRdRequest → List (BitVec 512) → BitVec 512)
    (p : DramPowerUp) (s : DramSystem) (log : CallLog) : Prop where
  inOrder : log.served <+: log.calls.flatMap (·.requests)
  paired : log.returned <+: responses respond p.rows log.calls
  complete : s.Drained → log.returned = responses respond p.rows log.calls
  one : s.Drained → log.returned.length = (log.calls.filterMap (·.read?)).length

-----------------------------------------------------------------------------------------
-- What the controller makes of the fetched rows
-----------------------------------------------------------------------------------------

/-- A write of an allowed size enables bytes in each of its rows. -/
theorem writesEnable_of_sized {e : DramEvent} (sized : e.Sized) : e.WritesEnable := by
  cases e with
  | write addr data n => exact writeCommand_enables sized.1
  | _ => trivial

/-- A read from the start of a row returns its one row. -/
theorem collect_one {v : DRAMRdRequest} (readCache : BitVec 512) (rows : Rows)
    (aligned : v.addr.extractLsb 5 0 = 0#6) (one : ¬v.nBytes > firstNbytes v.addr)
    : (collect readCache (serveAll rows v.requests).2 v.offsets).2.map DRAMController.lowRow
      = [v.response (serveAll rows v.requests).2] := by
  have reads : v.firstRow.writeen = 0#64 := rfl
  rw [DRAMRdRequest.requests, DRAMRdRequest.offsets, if_neg one, if_neg one,
    DRAMRdRequest.response, aligned]
  simp only [serveAll, DDRRequest.response, reads, if_true, Option.toList_some,
    List.append_nil, collect, List.map_cons, List.map_nil, DRAMController.rotateInput, joinRows]

/-- A read that goes on into the next row returns the bytes from its offset on: the first row
waits in the cache register for the second.
-/
theorem collect_two {v : DRAMRdRequest} (readCache : BitVec 512) (rows : Rows)
    (offset : v.addr.extractLsb 5 0 ≠ 0#6) (two : v.nBytes > firstNbytes v.addr)
    : (collect readCache (serveAll rows v.requests).2 v.offsets).2.map DRAMController.lowRow
      = [v.response (serveAll rows v.requests).2] := by
  have reads : v.firstRow.writeen = 0#64 := rfl
  have readsNext : v.nextRow.writeen = 0#64 := rfl
  rw [DRAMRdRequest.requests, DRAMRdRequest.offsets, if_pos two, if_pos two,
    DRAMRdRequest.response]
  simp only [serveAll, DDRRequest.response, reads, readsNext, if_true, Option.toList_some,
    List.append_nil, List.singleton_append, collect, List.map_cons, List.map_nil,
    DRAMController.rotateInput, if_neg offset, joinRows]

/-- Under the condition on reads, what leaves the shifter for a read is its response. -/
theorem collect_readsRow {addr : BitVec 64} {n : BitVec 7}
    (sized : (DramEvent.readReq addr n).Sized) (whole : (DramEvent.readReq addr n).ReadsRow)
    (readCache : BitVec 512) (rows : Rows)
    : (collect readCache (serveAll rows (readCommand addr n).requests).2
          (readCommand addr n).offsets).2.map DRAMController.lowRow
      = [(readCommand addr n).response (serveAll rows (readCommand addr n).requests).2] := by
  have offset : (readCommand addr n).addr.extractLsb 5 0 = 0#6 ↔ addr.toNat % 64 = 0 := by
    rw [readCommand, offset_addrReMapping, ← BitVec.toNat_inj, toNat_offset]
    rfl
  have rowsTwo : (readCommand addr n).nBytes > firstNbytes (readCommand addr n).addr
      ↔ 64 < addr.toNat % 64 + n.toNat := by
    change firstNbytes (addrReMapping addr) < n ↔ _
    rw [BitVec.lt_def, toNat_firstNbytes]
    omega
  obtain ⟨_, fits⟩ := sized
  rcases whole with aligned | crosses
  · refine collect_one readCache rows (offset.mpr aligned) ?_
    rw [rowsTwo]
    omega
  · refine collect_two readCache rows ?_ (rowsTwo.mpr crosses)
    rw [Ne, offset]
    omega

-----------------------------------------------------------------------------------------
-- Credits
-----------------------------------------------------------------------------------------

/-- The number of reads among requests. -/
def readCount (requests : List DDRRequest) : Nat := requests.countP (·.writeen = 0#64)

@[simp] theorem readCount_append (first second : List DDRRequest)
    : readCount (first ++ second) = readCount first + readCount second :=
  List.countP_append

@[simp] theorem readCount_cons (r : DDRRequest) (rest : List DDRRequest)
    : readCount (r :: rest) = readCount rest + if r.writeen = 0#64 then 1 else 0 := by
  simp [readCount, List.countP_cons]

@[simp] theorem readCount_nil : readCount [] = 0 := rfl

/-- The reads between `relayReqs` and `relayResps2`. -/
def DramSystem.readsUnderWay (s : DramSystem) : Nat :=
  readCount s.ddr3.pending + s.ddr3.responses.length + s.ctl.resps.items.length

/-- The credit counters count the reads under way, `readOffsetQ` has an entry for each read
that is issued, and writes do not count as reads.
-/
structure Credited (s : DramSystem) : Prop where
  credit : (s.ctl.reqCountUp - s.ctl.reqCountDown).toNat = s.readsUnderWay
  bound : s.readsUnderWay ≤ 64
  entries : s.ctl.readOffsetQ.items.length
    = s.ctl.respSyncQ.items.length + s.readsUnderWay + readCount s.ctl.reqs.items
  enabled : ∀ v ∈ s.ctl.dramWrCmdQ.items, ∀ r ∈ v.requests, r.writeen ≠ 0#64
  second : s.ctl.nextRowW = true →
    ∃ v rest, s.ctl.dramWrCmdQ.items = v :: rest ∧ v.nextRow.writeen ≠ 0#64

/-- After reset nothing is under way. -/
theorem credited_reset (p : DramPowerUp) : Credited (.reset p) := by
  constructor
  case credit => simp [DramSystem.reset, mkDRAMController, DramSystem.readsUnderWay]
  case bound => exact Nat.zero_le _
  case entries => rfl
  case enabled => exact fun v member => absurd member List.not_mem_nil
  case second => exact fun next => absurd (show false = true from next) Bool.false_ne_true

section Credits

variable {s s' : DramSystem}

/-- An accepted write enables bytes. -/
theorem Credited.write {addr : BitVec 64} {data : BitVec 512} {bytes : BitVec 7}
    (inv : Credited s) (enable : (DramEvent.write addr data bytes).WritesEnable)
    (fires : s.step (.write addr data bytes) = some s')
    : Credited s' := by
  simp only [DramSystem.step, DRAMController.write, Option.bind_eq_bind, Option.pure_def,
    Option.map_eq_some_iff, Fifo.bind_enq_eq_some, Option.some.injEq] at fires
  obtain ⟨ctl, ⟨wrQ, _, put, typeQ, _, _, rfl⟩, rfl⟩ := fires
  refine ⟨inv.credit, inv.bound, inv.entries, ?_, ?_⟩
  · intro v member
    rw [show _ = _ from put] at member
    rcases List.mem_append.mp member with earlier | new
    · exact inv.enabled v earlier
    · obtain rfl := List.mem_singleton.mp new
      exact enable
  · intro next
    obtain ⟨v, rest, head, enabled⟩ := inv.second next
    exact ⟨v, rest ++ [_], put.trans (by rw [head]; rfl), enabled⟩

/-- `driverWrie` issues a write. -/
theorem Credited.driverWrie (inv : Credited s) (fires : s.step .driverWrie = some s')
    : Credited s' := by
  simp only [DramSystem.step, DRAMController.driverWrie, Option.bind_eq_bind,
    Option.pure_def, Option.map_eq_some_iff, Fifo.bind_deq_eq_some] at fires
  obtain ⟨ctl, ⟨isRead, typeQ, _, v, wrQ, taken, fires⟩, rfl⟩ := fires
  have enabled := inv.enabled v (by simp [taken])
  have others (w : DRAMWrRequest) (member : w ∈ wrQ.items)
      : ∀ r ∈ w.requests, r.writeen ≠ 0#64 :=
    inv.enabled w (by simp [taken, member])
  have first : v.firstRow.writeen ≠ 0#64 := by
    refine enabled v.firstRow ?_
    unfold DRAMWrRequest.requests
    split <;> exact List.mem_cons_self
  cases isRead with
  | true => cases fires
  | false =>
      cases next : s.ctl.nextRowW with
      | false =>
          simp only [next, Bool.false_eq_true, if_false, if_true, Fifo.bind_enq_eq_some] at fires
          obtain ⟨reqs, _, put, fires⟩ := fires
          have entries := inv.entries
          have same : readCount reqs.items = readCount s.ctl.reqs.items := by
            simp [put, first]
          rw [← same] at entries
          by_cases two : firstNbytes v.addr < v.nBytes
          · simp only [two, if_true, Option.some.injEq] at fires
            subst fires
            refine ⟨inv.credit, inv.bound, entries, inv.enabled, ?_⟩
            intro _
            refine ⟨v, wrQ.items, taken, enabled v.nextRow ?_⟩
            simp [DRAMWrRequest.requests, two]
          · simp only [two, if_false, Option.some.injEq] at fires
            subst fires
            exact ⟨inv.credit, inv.bound, entries, others,
              fun again => absurd again Bool.false_ne_true⟩
      | true =>
          simp only [next, Bool.true_eq_false, Bool.false_eq_true, if_false,
            Fifo.bind_enq_eq_some, Option.some.injEq] at fires
          obtain ⟨reqs, _, put, rfl⟩ := fires
          obtain ⟨w, rest, head, second⟩ := inv.second next
          obtain ⟨rfl, _⟩ := List.cons.inj (taken.symm.trans head)
          have entries := inv.entries
          have same : readCount reqs.items = readCount s.ctl.reqs.items := by
            simp [put, second]
          rw [← same] at entries
          exact ⟨inv.credit, inv.bound, entries, others,
            fun again => absurd again Bool.false_ne_true⟩

/-- `driverReadC` issues a read with its entry. -/
theorem Credited.driverReadC (inv : Credited s) (fires : s.step .driverReadC = some s')
    : Credited s' := by
  simp only [DramSystem.step, DRAMController.driverReadC, Option.bind_eq_bind,
    Option.pure_def, Option.map_eq_some_iff, Fifo.bind_deq_eq_some] at fires
  obtain ⟨ctl, ⟨isRead, typeQ, _, v, rdQ, taken, fires⟩, rfl⟩ := fires
  have entries := inv.entries
  have first : v.firstRow.writeen = 0#64 := rfl
  have second : v.nextRow.writeen = 0#64 := rfl
  cases isRead with
  | false => cases fires
  | true =>
      cases next : s.ctl.nextRowR with
      | false =>
          simp only [next, Bool.true_eq_false, if_false, if_true, Fifo.bind_enq_eq_some] at fires
          obtain ⟨reqs, _, put, fires⟩ := fires
          by_cases two : v.nBytes > firstNbytes v.addr
          · simp only [two, if_true, Fifo.bind_enq_eq_some, Option.some.injEq] at fires
            obtain ⟨offsetQ, _, entered, rfl⟩ := fires
            refine ⟨inv.credit, inv.bound, ?_, inv.enabled, inv.second⟩
            simp only [put, entered, List.length_append, readCount_append, readCount_cons,
              readCount_nil, first, if_true, List.length_singleton]
            exact congrArg (· + 1) entries
          · simp only [two, if_false, Fifo.bind_enq_eq_some, Option.some.injEq] at fires
            obtain ⟨offsetQ, _, entered, rfl⟩ := fires
            refine ⟨inv.credit, inv.bound, ?_, inv.enabled, inv.second⟩
            simp only [put, entered, List.length_append, readCount_append, readCount_cons,
              readCount_nil, first, if_true, List.length_singleton]
            exact congrArg (· + 1) entries
      | true =>
          simp only [next, Bool.true_eq_false, if_false, Fifo.bind_enq_eq_some,
            Option.some.injEq] at fires
          obtain ⟨reqs, _, put, offsetQ, _, entered, rfl⟩ := fires
          refine ⟨inv.credit, inv.bound, ?_, inv.enabled, inv.second⟩
          simp only [put, entered, List.length_append, readCount_append, readCount_cons,
            readCount_nil, second, if_true, List.length_singleton]
          exact congrArg (· + 1) entries

/-- A read takes a credit when it goes to the DDR3. -/
theorem Credited.relayReqs (inv : Credited s) (fires : s.step .relayReqs = some s')
    : Credited s' := by
  simp only [DramSystem.step, DramSystem.relayReqs, Option.bind_eq_bind,
    Option.pure_def] at fires
  split at fires
  next credit =>
    simp only [Fifo.bind_deq_eq_some, Option.some.injEq] at fires
    obtain ⟨req, reqs, taken, rfl⟩ := fires
    obtain ⟨count, bound, entries, enabled, second⟩ := inv
    rw [BitVec.lt_def, count, show max_read_reqs.toNat = 64 from rfl] at credit
    simp only [DramSystem.readsUnderWay] at count credit entries
    rw [taken] at entries
    simp only [readCount_cons] at entries
    refine ⟨?_, ?_, ?_, enabled, second⟩
    · simp only [DramSystem.readsUnderWay, readCount_append, readCount_cons, readCount_nil]
      split
      next read => bv_omega
      next => omega
    · simp only [DramSystem.readsUnderWay, readCount_append, readCount_cons, readCount_nil]
      split <;> omega
    · simp only [DramSystem.readsUnderWay, readCount_append, readCount_cons, readCount_nil]
      omega
  next => cases fires

/-- Serving a read makes a response of it. -/
theorem Credited.serve (inv : Credited s) (fires : s.step .serve = some s')
    : Credited s' := by
  simp only [DramSystem.step, Ddr3.serve, Option.map_eq_some_iff] at fires
  obtain ⟨ddr3, fires, rfl⟩ := fires
  split at fires
  next => cases fires
  next r pending oldest =>
    cases fires
    have same : readCount pending + (s.ddr3.responses ++ (r.response s.ddr3.rows).toList).length
        + s.ctl.resps.items.length = s.readsUnderWay := by
      rw [DramSystem.readsUnderWay, oldest, readCount_cons, DDRRequest.response]
      split
      next => simp; omega
      next => simp
    obtain ⟨count, bound, entries, enabled, second⟩ := inv
    rw [← same] at count bound entries
    exact ⟨count, bound, entries, enabled, second⟩

/-- A response keeps its credit on the way to `resps`. -/
theorem Credited.relayResps (inv : Credited s) (fires : s.step .relayResps = some s')
    : Credited s' := by
  simp only [DramSystem.step, DramSystem.relayResps, Option.bind_eq_bind,
    Option.pure_def] at fires
  split at fires
  next => cases fires
  next x responses arrived =>
    simp only [Fifo.bind_enq_eq_some, Option.some.injEq] at fires
    obtain ⟨resps, _, put, rfl⟩ := fires
    have same : readCount s.ddr3.pending + responses.length + resps.items.length
        = s.readsUnderWay := by
      simp only [DramSystem.readsUnderWay, put, arrived, List.length_append, List.length_cons,
        List.length_nil]
      omega
    obtain ⟨count, bound, entries, enabled, second⟩ := inv
    rw [← same] at count bound entries
    exact ⟨count, bound, entries, enabled, second⟩

/-- A response gives its credit back when it leaves `resps`. -/
theorem Credited.relayResps2 (inv : Credited s) (fires : s.step .relayResps2 = some s')
    : Credited s' := by
  simp only [DramSystem.step, DRAMController.relayResps2, Option.bind_eq_bind,
    Option.pure_def, Option.map_eq_some_iff, Fifo.bind_deq_eq_some, Fifo.bind_enq_eq_some,
    Option.some.injEq] at fires
  obtain ⟨_, ⟨x, resps, taken, respSyncQ, _, put, rfl⟩, rfl⟩ := fires
  obtain ⟨count, bound, entries, enabled, second⟩ := inv
  simp only [DramSystem.readsUnderWay, taken, List.length_cons] at count bound entries
  refine ⟨?_, ?_, ?_, enabled, second⟩
  · simp only [DramSystem.readsUnderWay]
    bv_omega
  · simp only [DramSystem.readsUnderWay]
    omega
  · simp only [DramSystem.readsUnderWay, put, List.length_append, List.length_singleton]
    omega

/-- `recvRead` takes a response with its entry. -/
theorem Credited.recvRead (inv : Credited s) (fires : s.step .recvRead = some s')
    : Credited s' := by
  simp only [DramSystem.step, DRAMController.recvRead, Option.bind_eq_bind,
    Option.pure_def, Option.map_eq_some_iff, Fifo.bind_deq_eq_some] at fires
  obtain ⟨ctl, ⟨res, respSyncQ, taken, ⟨cache, offset⟩, readOffsetQ, entry, fires⟩, rfl⟩ := fires
  obtain ⟨count, bound, entries, enabled, second⟩ := inv
  rw [taken, entry, List.length_cons, List.length_cons] at entries
  have fewer : readOffsetQ.items.length
      = respSyncQ.items.length + s.readsUnderWay + readCount s.ctl.reqs.items := by
    omega
  cases cache with
  | true =>
      simp only [if_true, Option.some.injEq] at fires
      subst fires
      exact ⟨count, bound, fewer, enabled, second⟩
  | false =>
      simp only [Bool.false_eq_true, if_false, Option.bind_eq_some_iff,
        Option.some.injEq] at fires
      obtain ⟨rightSft, _, rfl⟩ := fires
      exact ⟨count, bound, fewer, enabled, second⟩

/-- Every event keeps the credits. -/
theorem Credited.step {e : DramEvent} (inv : Credited s) (enable : e.WritesEnable)
    (fires : s.step e = some s')
    : Credited s' := by
  cases e with
  | write addr data bytes => exact inv.write enable fires
  | driverWrie => exact inv.driverWrie fires
  | driverReadC => exact inv.driverReadC fires
  | recvRead => exact inv.recvRead fires
  | relayReqs => exact inv.relayReqs fires
  | relayResps => exact inv.relayResps fires
  | relayResps2 => exact inv.relayResps2 fires
  | serve => exact inv.serve fires
  | readReq addr bytes =>
      simp only [DramSystem.step, DRAMController.readReq, Option.bind_eq_bind,
        Option.pure_def, Option.map_eq_some_iff, Fifo.bind_enq_eq_some,
        Option.some.injEq] at fires
      obtain ⟨ctl, ⟨_, _, _, _, _, _, rfl⟩, rfl⟩ := fires
      exact ⟨inv.credit, inv.bound, inv.entries, inv.enabled, inv.second⟩
  | read =>
      simp only [DramSystem.step, DRAMController.read, Option.bind_eq_bind, Option.pure_def,
        Option.map_eq_some_iff, Option.bind_eq_some_iff, Option.some.injEq] at fires
      obtain ⟨_, ⟨_, _, rfl⟩, rfl⟩ := fires
      exact ⟨inv.credit, inv.bound, inv.entries, inv.enabled, inv.second⟩

end Credits

-----------------------------------------------------------------------------------------
-- The drained controller
-----------------------------------------------------------------------------------------

namespace DramSystem.Drained

variable {s : DramSystem}

/-- No value is left in the shifter. -/
theorem shifter (drained : s.Drained) (paired : s.ctl.rightSft.Paired)
    : s.ctl.rightSft.inputFifo.items = [] ∧ s.ctl.rightSft.inputFifo_sft.items = [] := by
  have blocked := drained .read rfl
  unfold CombinationalRightShifter.Paired at paired
  cases values : s.ctl.rightSft.inputFifo.items with
  | nil =>
      rw [values] at paired
      exact ⟨rfl, List.length_eq_zero_iff.mp paired.symm⟩
  | cons v rest =>
      cases amounts : s.ctl.rightSft.inputFifo_sft.items with
      | nil => simp [values, amounts] at paired
      | cons amount others =>
          obtain ⟨q, taken, _⟩ := Fifo.deq_of_items values
          obtain ⟨q', taken', _⟩ := Fifo.deq_of_items amounts
          simp [DramSystem.step, DRAMController.read, CombinationalRightShifter.getVal, taken,
            taken'] at blocked

/-- A response that has arrived waits only for its entry. -/
theorem respSyncQ (drained : s.Drained) (paired : s.ctl.rightSft.Paired)
    : s.ctl.respSyncQ.items = [] ∨ s.ctl.readOffsetQ.items = [] := by
  obtain ⟨noValues, noAmounts⟩ := drained.shifter paired
  have blocked := drained .recvRead rfl
  cases arrived : s.ctl.respSyncQ.items with
  | nil => exact .inl rfl
  | cons res rest =>
      cases entries : s.ctl.readOffsetQ.items with
      | nil => exact .inr rfl
      | cons entry others =>
          obtain ⟨cache, offset⟩ := entry
          obtain ⟨q, taken, _⟩ := Fifo.deq_of_items arrived
          obtain ⟨q', taken', _⟩ := Fifo.deq_of_items entries
          cases cache with
          | true => simp [DramSystem.step, DRAMController.recvRead, taken, taken'] at blocked
          | false =>
              obtain ⟨values, put⟩ := Fifo.enq_of_room
                (show s.ctl.rightSft.inputFifo.items.length < 2 by simp [noValues])
                (DRAMController.rotateInput s.ctl.readCache res offset)
              obtain ⟨amounts, put'⟩ := Fifo.enq_of_room
                (show s.ctl.rightSft.inputFifo_sft.items.length < 2 by simp [noAmounts]) offset
              simp [DramSystem.step, DRAMController.recvRead, taken, taken',
                CombinationalRightShifter.rotateByteBy, put, put'] at blocked

/-- A response waits in `resps` only for room in `respSyncQ`. -/
theorem resps (drained : s.Drained) (room : s.ctl.respSyncQ.items.length < 32)
    : s.ctl.resps.items = [] := by
  have blocked := drained .relayResps2 rfl
  cases waiting : s.ctl.resps.items with
  | nil => rfl
  | cons x rest =>
      obtain ⟨q, taken, _⟩ := Fifo.deq_of_items waiting
      obtain ⟨q', put⟩ := Fifo.enq_of_room room x
      simp [DramSystem.step, DRAMController.relayResps2, taken, put] at blocked

/-- A response waits at the DDR3 only for room in `resps`. -/
theorem responses (drained : s.Drained) (room : s.ctl.resps.items.length < 64)
    : s.ddr3.responses = [] := by
  have blocked := drained .relayResps rfl
  cases waiting : s.ddr3.responses with
  | nil => rfl
  | cons x rest =>
      obtain ⟨q, put⟩ := Fifo.enq_of_room room x
      simp [DramSystem.step, DramSystem.relayResps, waiting, put] at blocked

/-- The DDR3 has served all its requests. -/
theorem pending (drained : s.Drained) : s.ddr3.pending = [] := by
  have blocked := drained .serve rfl
  cases waiting : s.ddr3.pending with
  | nil => rfl
  | cons r rest => simp [DramSystem.step, Ddr3.serve, waiting] at blocked

/-- A request waits in `reqs` only for credit. -/
theorem reqs (drained : s.Drained)
    (credit : (s.ctl.reqCountUp - s.ctl.reqCountDown).toNat < 64)
    : s.ctl.reqs.items = [] := by
  have blocked := drained .relayReqs rfl
  cases waiting : s.ctl.reqs.items with
  | nil => rfl
  | cons r rest =>
      obtain ⟨q, taken, _⟩ := Fifo.deq_of_items waiting
      have allowed : s.ctl.reqCountUp - s.ctl.reqCountDown < max_read_reqs :=
        BitVec.lt_def.mpr credit
      simp [DramSystem.step, DramSystem.relayReqs, allowed, taken] at blocked

/-- A command waits only for room in `reqs` and `readOffsetQ`. -/
theorem commands {log : DramLog} {cmds : List DramCommand} {todo : List DDRRequest}
    {offsets : List (Bool × BitVec 6)} {values : List (BitVec 1024)} (drained : s.Drained)
    (served : ServedBy s log cmds todo offsets values) (room : s.ctl.reqs.items.length < 32)
    (entries : s.ctl.readOffsetQ.items.length < 64)
    : cmds = [] := by
  cases cmds with
  | nil => rfl
  | cons c rest =>
      obtain ⟨types, takenType, _⟩ := Fifo.deq_of_items
        (show s.ctl.nextCmdTypeQ.items = c.isRead :: _ from served.types)
      cases c with
      | write v =>
          have blocked := drained .driverWrie rfl
          obtain ⟨queue, taken, _⟩ := Fifo.deq_of_items
            (show s.ctl.dramWrCmdQ.items = v :: _ from served.writes)
          obtain ⟨first, put⟩ := Fifo.enq_of_room room v.firstRow
          obtain ⟨next, putNext⟩ := Fifo.enq_of_room room v.nextRow
          simp only [DramSystem.step, DRAMController.driverWrie, takenType, taken, put, putNext,
            DramCommand.isRead, Option.bind_eq_bind, Option.bind_some, Option.map_eq_none_iff,
            Bool.false_eq_true, if_false] at blocked
          split at blocked
          next => split at blocked <;> cases blocked
          next => cases blocked
      | read v =>
          have blocked := drained .driverReadC rfl
          obtain ⟨queue, taken, _⟩ := Fifo.deq_of_items
            (show s.ctl.dramRdCmdQ.items = v :: _ from served.reads)
          obtain ⟨first, put⟩ := Fifo.enq_of_room room v.firstRow
          obtain ⟨next, putNext⟩ := Fifo.enq_of_room room v.nextRow
          obtain ⟨one, entered⟩ := Fifo.enq_of_room entries
            (false, (v.addr.extractLsb 5 0 : BitVec 6))
          obtain ⟨two, enteredTwo⟩ := Fifo.enq_of_room entries
            (true, (v.addr.extractLsb 5 0 : BitVec 6))
          simp only [DramSystem.step, DRAMController.driverReadC, takenType, taken, put, putNext,
            entered, enteredTwo, DramCommand.isRead, Option.bind_eq_bind, Option.bind_some,
            Option.map_eq_none_iff, Bool.true_eq_false, if_false] at blocked
          split at blocked
          next => split at blocked <;> cases blocked
          next => cases blocked

/-- Nothing is under way: the responses drain, so all credits are back, so the requests and
then the commands drain.
-/
theorem nothing {log : DramLog} {cmds : List DramCommand} {todo : List DDRRequest}
    {offsets : List (Bool × BitVec 6)} {values : List (BitVec 1024)} (drained : s.Drained)
    (served : ServedBy s log cmds todo offsets values) (credited : Credited s)
    : s.ctl.rightSft.results = [] ∧ values = [] := by
  have credit := credited.credit
  have entries := credited.entries
  have arrived : s.ctl.respSyncQ.items = [] := by
    rcases drained.respSyncQ served.shifter with arrived | noEntries
    · exact arrived
    · rw [noEntries, List.length_nil] at entries
      exact List.length_eq_zero_iff.mp (by omega)
  have resps := drained.resps (by simp [arrived])
  have responses := drained.responses (by simp [resps])
  have pending := drained.pending
  have idle : s.readsUnderWay = 0 := by
    simp [DramSystem.readsUnderWay, pending, responses, resps]
  have reqs := drained.reqs (by omega)
  have noEntries : s.ctl.readOffsetQ.items = [] := by
    rw [arrived, idle, reqs] at entries
    exact List.length_eq_zero_iff.mp entries
  have noCommands := drained.commands served (by simp [reqs]) (by simp [noEntries])
  have remaining := served.remaining
  rw [noCommands] at remaining
  have collected := served.collected
  obtain ⟨rfl, rfl⟩ := remaining.of_nil
  rw [noEntries] at collected
  refine ⟨?_, ?_⟩
  · rw [CombinationalRightShifter.results, (drained.shifter served.shifter).1]
    rfl
  · have none : s.arriving [] = [] := by
      simp [DramSystem.arriving, arrived, resps, responses, pending, reqs, serveAll]
    rw [none] at collected
    exact (Prod.mk.inj collected).2.symm

end DramSystem.Drained

-----------------------------------------------------------------------------------------
-- Runs
-----------------------------------------------------------------------------------------

/-- The history of calls tells the history in rows, and the requests not yet served are the
last ones of the calls.
-/
structure CallLog.Tells (p : DramPowerUp) (s : DramSystem) (log : CallLog) (dram : DramLog)
    (todo : List DDRRequest) : Prop where
  rows : dram.rows = (serveAll p.rows (log.calls.flatMap (·.requests))).1
  expected : dram.expected = responses DRAMRdRequest.response p.rows log.calls
  returned : dram.returned = log.returned
  order : log.served ++ s.unserved todo = log.calls.flatMap (·.requests)

/-- Only a call extends the calls. -/
theorem CallLog.calls_record (log : CallLog) (s : DramSystem) {e : DramEvent}
    (none : e.call? = none)
    : (log.record s e).calls = log.calls := by
  change log.calls ++ e.call?.toList = log.calls
  rw [none, Option.toList_none, List.append_nil]

/-- Every allowed event keeps the histories in step. -/
theorem CallLog.Tells.step {p : DramPowerUp} {s s' : DramSystem} {e : DramEvent}
    {log : CallLog} {dram : DramLog} {todo todo' : List DDRRequest}
    (tells : log.Tells p s dram todo) (sized : e.Sized) (whole : e.ReadsRow)
    (moves : s.unserved todo ++ e.requests = (s.serving e).toList ++ s'.unserved todo')
    : (log.record s e).Tells p s' (dram.record s e) todo' := by
  obtain ⟨rows, expected, returned, order⟩ := tells
  have calls : e.requests = e.call?.toList.flatMap (·.requests) := by
    cases e <;> simp [DramEvent.requests, DramEvent.call?, DramCommand.requests]
  have moved : (log.record s e).served ++ s'.unserved todo'
      = (log.record s e).calls.flatMap (·.requests) := by
    simp only [CallLog.record, List.append_assoc, ← moves, List.flatMap_append, ← order, calls]
  have same (none : e.call? = none) := log.calls_record s none
  cases e with
  | write addr data n =>
      let c := DramCommand.write (writeCommand addr data n)
      refine ⟨?_, ?_, returned, moved⟩
      · change (serveAll dram.rows c.requests).1
          = (serveAll p.rows ((log.calls ++ [c]).flatMap (·.requests))).1
        rw [rows, List.flatMap_append, List.flatMap_singleton, serveAll_append]
      · change dram.expected = responses _ p.rows (log.calls ++ [c])
        rw [responses_append, expected]
        exact (List.append_nil _).symm
  | readReq addr n =>
      let v := readCommand addr n
      have value := collect_readsRow sized whole dram.cache dram.rows
      refine ⟨?_, ?_, returned, moved⟩
      · change dram.rows
          = (serveAll p.rows ((log.calls ++ [DramCommand.read v]).flatMap (·.requests))).1
        rw [List.flatMap_append, List.flatMap_singleton, serveAll_append, ← rows]
        exact (v.serveAll_rows dram.rows).symm
      · change dram.expected ++ (collect dram.cache (serveAll dram.rows v.requests).2
            v.offsets).2.map DRAMController.lowRow
          = responses _ p.rows (log.calls ++ [.read v])
        rw [value, responses_append, expected, ← rows]
        rfl
  | read =>
      rw [← same rfl] at rows expected
      exact ⟨rows, expected, congrArg (· ++ (s.ctl.read.map Prod.fst).toList) returned, moved⟩
  | _ =>
      rw [← same rfl] at rows expected
      exact ⟨rows, expected, returned, moved⟩

/-- In every run whose reads start at a row or cross into the next, responses are paired with
their requests.
-/
theorem pairs_responses {p : DramPowerUp} {s : DramSystem × CallLog}
    (run : Reach callStep (fun _ e => e.Sized ∧ e.ReadsRow) (callReset p) s)
    : s.2.Pairs DRAMRdRequest.response p s.1 := by
  have inv : ∃ dram cmds todo offsets values,
      ServedBy s.1 dram cmds todo offsets values ∧ Credited s.1 ∧ s.2.Tells p s.1 dram todo := by
    refine run.invariant (P := fun s => ∃ dram cmds todo offsets values,
      ServedBy s.1 dram cmds todo offsets values ∧ Credited s.1
        ∧ s.2.Tells p s.1 dram todo) ?_ ?_
    · exact ⟨_, _, _, _, _, servedBy_reset p, credited_reset p, ⟨rfl, rfl, rfl, rfl⟩⟩
    · rintro s e s' ⟨dram, cmds, todo, offsets, values, served, credited, tells⟩
        ⟨sized, whole⟩ fires
      obtain ⟨fires, same⟩ := traced_eq_some.mp fires
      have enable := writesEnable_of_sized sized
      obtain ⟨cmds', todo', offsets', values', served', moves⟩ := served.step enable fires
      refine ⟨_, cmds', todo', offsets', values', served', credited.step enable fires, ?_⟩
      rw [same]
      exact tells.step sized whole moves
  obtain ⟨dram, cmds, todo, offsets, values, served, credited, tells⟩ := inv
  have paired : responses DRAMRdRequest.response p.rows s.2.calls
      = s.2.returned ++ (s.1.ctl.rightSft.results ++ values).map DRAMController.lowRow := by
    rw [← tells.expected, ← tells.returned, served.expected]
  have complete (drained : s.1.Drained)
      : s.2.returned = responses DRAMRdRequest.response p.rows s.2.calls := by
    obtain ⟨noResults, noValues⟩ := drained.nothing served credited
    rw [paired, noResults, noValues, List.append_nil, List.map_nil, List.append_nil]
  constructor
  case inOrder =>
    rw [← tells.order]
    exact List.prefix_append ..
  case paired =>
    rw [paired]
    exact List.prefix_append ..
  case complete => exact complete
  case one =>
    intro drained
    rw [complete drained]
    exact length_responses _ _ _

/-- The schedule of a read over two rows, its return included. -/
def readTwoRows (addr : BitVec 64) (n : BitVec 7) : List DramEvent :=
  [.readReq addr n, .driverReadC, .driverReadC, .relayReqs, .relayReqs, .serve, .serve,
    .relayResps, .relayResps, .relayResps2, .relayResps2, .recvRead, .recvRead, .read]

/-- The schedule of a read of one row, its return included. -/
def readOneRow (addr : BitVec 64) (n : BitVec 7) : List DramEvent :=
  [.readReq addr n, .driverReadC, .relayReqs, .serve, .relayResps, .relayResps2, .recvRead,
    .read]

/-- The schedule of a write of one row. -/
def writeOneRow (addr : BitVec 64) (data : BitVec 512) : List DramEvent :=
  [.write addr data 64, .driverWrie, .relayReqs, .serve]

/-- A run that writes a row, and reads its second half with what follows. -/
theorem pairs_responses_crossing
    : ∃ s : DramSystem × CallLog,
        Reach callStep (fun _ e => e.Sized ∧ e.ReadsRow) (callReset default) s
        ∧ s.2.returned = [(BitVec.allOnes 256).zeroExtend 512]
        ∧ s.2.Pairs DRAMRdRequest.response default s.1 := by
  obtain ⟨s, run, returned⟩ := exec_reach_map callStep (fun _ e => e.Sized ∧ e.ReadsRow)
    (callReset default) (writeOneRow 64 (BitVec.allOnes 512) ++ readTwoRows 96 64)
    (fun s => s.2.returned) [(BitVec.allOnes 256).zeroExtend 512] (by decide +kernel)
  exact ⟨s, run, returned, pairs_responses run⟩

/-- Eight bytes from the middle of a row are returned from the cache register, which holds the
row that an earlier read left there: behind one such read the same row gives another response
than after reset. So no response to it is made of the fetched row alone.
-/
theorem response_from_cache
    : ¬∃ respond : DRAMRdRequest → List (BitVec 512) → BitVec 512,
        ∀ (p : DramPowerUp) (s : DramSystem × CallLog),
          Reach callStep (fun _ e => e.Sized) (callReset p) s → s.2.Pairs respond p s.1 := by
  rintro ⟨respond, pairs⟩
  let half : BitVec 512 := (BitVec.allOnes 256).zeroExtend 512
  let v := readCommand 32 8
  obtain ⟨fresh, freshRun, freshSeen⟩ := exec_reach_map callStep (fun _ e => e.Sized)
    (callReset default) (readOneRow 32 8) (fun s => (s.2.returned, s.2.calls))
    ([0#512], [.read v]) (by decide +kernel)
  obtain ⟨stale, staleRun, staleSeen⟩ := exec_reach_map callStep (fun _ e => e.Sized)
    (callReset default)
    (writeOneRow 64 (BitVec.allOnes 512) ++ readTwoRows 96 64 ++ readOneRow 32 8)
    (fun s => (s.2.returned, s.2.calls))
    ([half, half], [.write (writeCommand 64 (BitVec.allOnes 512) 64),
      .read (readCommand 96 64), .read v]) (by decide +kernel)
  have freshValue := (pairs default fresh freshRun).paired
  have staleValue := (pairs default stale staleRun).paired
  simp only [Prod.mk.injEq] at freshSeen staleSeen
  rw [freshSeen.1, freshSeen.2] at freshValue
  rw [staleSeen.1, staleSeen.2] at staleValue
  simp only [responses, List.cons_prefix_cons, List.nil_prefix, and_true] at freshValue staleValue
  -- both reads fetch row 0, which was never written
  have fetched : (serveAll (serveAll (serveAll (default : DramPowerUp).rows
      (writeCommand 64 (BitVec.allOnes 512) 64).requests).1
        (readCommand 96 64).requests).1 v.requests).2
      = (serveAll (default : DramPowerUp).rows v.requests).2 := by
    decide +kernel
  rw [fetched, ← freshValue] at staleValue
  exact absurd staleValue.2 (by decide +kernel)

end BluespecPcie
