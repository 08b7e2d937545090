import BluespecPcie.Dram.SplitterCounts

/-! Order of bursts in `mkDRAMBurstSplitter`: when a read finds the writes accepted before it. -/

namespace BluespecPcie

open Bluespec

/-- Readers get the words of their own bursts. -/
theorem Counted.delivered_own {rcnt wcnt : Nat} {answer : List DramCall → BitVec 64 → BitVec 512}
    {m : DRAMBurstSplitter} {log : SplitterLog} {delivered : List (BitVec 8 × BitVec 512)}
    {port : Nat} {held : List (BitVec 512)}
    (counted : Counted rcnt wcnt answer m log delivered port held)
    : log.Delivered rcnt answer m.ctl.dram.calls := by
  obtain ⟨few, clients, addrs, data, left, received⟩ := counted.reads
  rw [List.flatMap_map] at clients addrs
  refine ⟨?_, ?_⟩
  · rw [addrs, List.append_assoc]
    exact List.prefix_append _ _
  · intro i within
    have words : delivered
        <+: (log.reads.flatMap (fun b => b.req.clients)).zip
          ((readWords answer [] m.ctl.dram.calls).map Prod.snd) := by
      have same : (readWords answer [] m.ctl.dram.calls).map Prod.snd
          = delivered.map Prod.snd ++ (m.readerdQ.items.map Prod.snd
            ++ m.ctl.dram.responses) := by
        rw [← List.append_assoc]
        exact data
      rw [clients, same, List.append_assoc, List.append_assoc, List.zip_append (by simp),
        ← @List.zip_of_prod _ _ _ _ delivered rfl rfl]
      exact List.prefix_append _ _
    obtain ⟨behind, split⟩ := words
    rw [← split, withLabel_append, ← received i within, List.append_assoc]
    exact List.prefix_append _ _

-----------------------------------------------------------------------------------------
-- The history
-----------------------------------------------------------------------------------------

/-- The calls that an event makes. -/
theorem newCalls_eq {rcnt wcnt : Nat} {answer : List DramCall → BitVec 64 → BitVec 512}
    {m m' : DRAMBurstSplitter} {e : SplitterEvent} {calls : List DramCall}
    (fires : m.step rcnt wcnt answer e = some m')
    (more : m'.ctl.dram.calls = m.ctl.dram.calls ++ calls)
    : newCalls rcnt wcnt answer m e = calls := by
  simp only [newCalls, fires]
  rw [more, List.drop_left]

namespace SplitterLog

theorem callsOf_snoc (history : List SplitterEntry) (entry : SplitterEntry)
    : callsOf (history ++ [entry]) = callsOf history ++ entry.call?.toList := by
  rw [callsOf, List.filterMap_append]
  cases entry <;> rfl

theorem accepted_snoc (history : List SplitterEntry) (entry : SplitterEntry)
    : accepted (history ++ [entry]) = ClientWrite.extend (accepted history) entry :=
  List.foldl_concat _ _ _ _

/-- A read that goes to the DRAM finds all writes there, and other entries are of no matter. -/
theorem Ordered.snoc {log : SplitterLog} (ordered : log.Ordered) {entry : SplitterEntry}
    (found
      : ∀ addr, entry = .call (.readReq addr)
        → AllStored (accepted log.history) (callsOf log.history))
    : Ordered { log with history := log.history ++ [entry] } := by
  intro before addr after split
  change log.history ++ [entry] = before ++ .call (.readReq addr) :: after at split
  rcases List.eq_nil_or_concat after with rfl | ⟨after', last, rfl⟩
  · obtain ⟨rfl, same⟩ := List.append_inj' split rfl
    exact found addr (List.singleton_inj.mp same)
  · rw [List.concat_eq_append, ← List.cons_append, ← List.append_assoc] at split
    obtain ⟨earlier, _⟩ := List.append_inj' split rfl
    exact ordered before addr after' earlier

/-- No read starts in front of a write that was accepted before it and is not started. -/
def ReadsLast (s : DRAMBurstSplitter × SplitterLog) (e : SplitterEvent) : Prop :=
  s.2.Follows e
  ∧ match e with
    | .rule .startDramRead =>
        ∀ r ∈ s.1.readerQ.items.head?,
          r.words = 0 ∨ ∀ w ∈ s.1.writerQ.items ++ s.1.mWriter.items, w.words = 0
    | _ => True

instance decidableReadsLast (s : DRAMBurstSplitter × SplitterLog) (e : SplitterEvent)
    : Decidable (ReadsLast s e) := by
  unfold ReadsLast
  refine @instDecidableAnd _ _ _ ?_
  split <;> infer_instance

-----------------------------------------------------------------------------------------
-- The invariant
-----------------------------------------------------------------------------------------

/-- The history tells the calls and the bursts. The write requests `started` have gone to the
DRAM, the last one as far as its words have, and the others wait; while a burst is read, none
is under way and none with words waits.
-/
structure InOrder (m : DRAMBurstSplitter) (log : SplitterLog) : Prop where
  calls : callsOf log.history = m.ctl.dram.calls
  bursts : accepted log.history = log.writes
  level : m.ctl.writeWordLeft = m.curWriteCnt
  started
    : ∃ started : List BurstReq,
        (started ++ (m.writerQ.items ++ m.mWriter.items)).Perm (log.writes.map ClientWrite.req)
        ∧ started.flatMap BurstReq.addrs
          = (writeCalls m.ctl.dram.calls).map Prod.fst
            ++ burstAddrs m.ctl.writeCurAddr m.ctl.writeWordLeft.toNat
  reading
    : 0 < m.ctl.readWordLeft
      → m.curWriteCnt = 0 ∧ ∀ w ∈ m.writerQ.items ++ m.mWriter.items, w.words = 0
  ordered : log.Ordered

namespace InOrder

variable {rcnt wcnt : Nat} {answer : List DramCall → BitVec 64 → BitVec 512}
  {m m' : DRAMBurstSplitter} {log : SplitterLog} {delivered : List (BitVec 8 × BitVec 512)}
  {port : Nat} {held : List (BitVec 512)}

theorem init (rcnt wcnt : Nat) : InOrder (mkDRAMBurstSplitter rcnt wcnt) {} := by
  have none : (mkMergeN wcnt : MergeN BurstReq).items = [] := MergeN.items_mkMergeN wcnt
  refine ⟨rfl, rfl, rfl, ⟨[], ?_, rfl⟩, nofun, ?_⟩
  · simp [mkDRAMBurstSplitter, none]
  · intro before addr after split
    have length := congrArg List.length split
    simp at length

/-- While a burst is read, all write bursts accepted so far are stored. -/
theorem stored (counted : Counted rcnt wcnt answer m log delivered port held)
    (inv : InOrder m log) (more : 0 < m.ctl.readWordLeft)
    : AllStored (accepted log.history) (callsOf log.history) := by
  obtain ⟨done, none⟩ := inv.reading more
  obtain ⟨started, requests, addrs⟩ := inv.started
  have nothing : (m.writerQ.items ++ m.mWriter.items).flatMap BurstReq.addrs = [] := by
    refine List.flatMap_eq_nil_iff.mpr ?_
    intro w waits
    refine BurstReq.addrs_eq_nil ?_
    rw [none w waits]
    exact BitVec.lt_irrefl 0
  have whole : (writeCalls m.ctl.dram.calls).map Prod.fst
      = (started ++ (m.writerQ.items ++ m.mWriter.items)).flatMap BurstReq.addrs := by
    rw [List.flatMap_append, nothing, List.append_nil, addrs, inv.level, done]
    exact (List.append_nil _).symm
  -- as many words are written as the bursts ask for, so none is missing or on its way
  have asked : (writeCalls m.ctl.dram.calls).length
      = (log.writes.flatMap (fun b => b.req.addrs)).length := by
    have lengths := congrArg List.length whole
    rw [List.length_map] at lengths
    rw [lengths, (requests.flatMap_right BurstReq.addrs).length_eq, List.flatMap_map]
  have supplied := lacking_add counted.supply.filled
  have data := counted.data
  have count := congrArg List.length data
  simp only [List.length_append, List.length_map] at count
  have written : m.writerdQ.items = [] := List.eq_nil_of_length_eq_zero (by omega)
  have arrived : held = [] := List.eq_nil_of_length_eq_zero (by omega)
  rw [inv.calls, inv.bursts]
  refine ⟨complete_of_lacking (by omega) counted.supply.filled, ?_, _, requests, whole⟩
  rw [data, written, arrived, List.append_nil, List.append_nil]

/-- A rule that makes no call leaves the history. -/
theorem quiet {rule : SplitterRule} (other : rule ≠ .relayDramWrite)
    (fires : m.step rcnt wcnt answer (.rule rule) = some m')
    (same : m'.ctl.dram.calls = m.ctl.dram.calls)
    : SplitterLog.record rcnt wcnt answer m (.rule rule) log = log := by
  have none : newCalls rcnt wcnt answer m (.rule rule) = [] :=
    newCalls_eq fires (by rw [same, List.append_nil])
  cases rule
    <;> first
      | exact absurd rfl other
      | simp only [record, none, List.map_nil, List.append_nil]

/-- Every event keeps the invariant. -/
theorem step (counted : Counted rcnt wcnt answer m log delivered port held)
    (inv : InOrder m log) {e : SplitterEvent} (allowed : ReadsLast (m, log) e)
    (fires : m.step rcnt wcnt answer e = some m')
    : InOrder m' (record rcnt wcnt answer m e log) := by
  obtain ⟨calls, bursts, level, started, reading, ordered⟩ := id inv
  cases e with
  | rule rule =>
      cases rule with
      | relayDramRead =>
          rw [quiet (by decide) fires (by
            obtain ⟨_, _, _, _, _, rfl⟩ := DRAMBurstSplitter.relayDramRead_cases fires
            rfl)]
          obtain ⟨_, mReader, readerQ, _, _, rfl⟩ :=
            DRAMBurstSplitter.relayDramRead_cases fires
          exact ⟨calls, bursts, level, started, reading, ordered⟩
      | relayDramWrite =>
          obtain ⟨r, mWriter, writerQ, taken, put, rfl⟩ :=
            DRAMBurstSplitter.relayDramWrite_cases fires
          have same : writerQ.items ++ mWriter.items = m.writerQ.items ++ m.mWriter.items := by
            rw [put, MergeN.deq_items taken, List.append_assoc]
            rfl
          simp only [record, taken]
          obtain ⟨past, requests, addrs⟩ := started
          refine ⟨calls, bursts, level, ⟨past, ?_, addrs⟩, ?_, ordered⟩
          · rw [same]
            exact requests
          · rw [same]
            exact reading
      | startDramWrite =>
          rw [quiet (by decide) fires (by
            obtain ⟨_, _, _, _, _, _, _, rfl⟩ := DRAMBurstSplitter.startDramWrite_cases fires
            rfl)]
          obtain ⟨_, _, noneLeft, noRead, r, writerQ, taken, rfl⟩ :=
            DRAMBurstSplitter.startDramWrite_cases fires
          obtain ⟨past, requests, addrs⟩ := started
          refine ⟨calls, bursts, rfl, ⟨past ++ [r], ?_, ?_⟩, ?_, ordered⟩
          · rw [taken] at requests
            rw [List.append_assoc]
            exact requests
          · rw [noneLeft] at addrs
            rw [List.flatMap_append, addrs, List.flatMap_singleton]
            exact congrArg (· ++ r.addrs) (List.append_nil _)
          · intro more
            change 0 < m.ctl.readWordLeft at more
            rw [noRead] at more
            exact absurd more (BitVec.lt_irrefl 0)
      | startDramRead =>
          rw [quiet (by decide) fires (by
            obtain ⟨_, _, _, _, _, rfl⟩ := DRAMBurstSplitter.startDramRead_cases fires
            rfl)]
          obtain ⟨_, noWrite, r, readerQ, taken, rfl⟩ :=
            DRAMBurstSplitter.startDramRead_cases fires
          refine ⟨calls, bursts, level, started, ?_, ordered⟩
          intro more
          have first : r ∈ m.readerQ.items.head? := by rw [taken]; rfl
          rcases allowed.2 r first with none | none
          · change 0 < r.words at more
            rw [none] at more
            exact absurd more (BitVec.lt_irrefl 0)
          · exact ⟨noWrite, none⟩
      | relayWriteC =>
          rw [quiet (by decide) fires (by
            obtain ⟨_, _, _, _, _, rfl⟩ := DRAMBurstSplitter.relayWriteC_cases fires
            rfl)]
          obtain ⟨_, writerM, writerdQ, _, _, rfl⟩ :=
            DRAMBurstSplitter.relayWriteC_cases fires
          exact ⟨calls, bursts, level, started, reading, ordered⟩
      | relayWrite =>
          obtain ⟨busy, _, d, writerdQ, taken, rfl⟩ := DRAMBurstSplitter.relayWrite_cases fires
          have call : newCalls rcnt wcnt answer m (.rule .relayWrite)
              = [.write m.ctl.writeCurAddr d] :=
            newCalls_eq fires rfl
          have some : 0 < m.ctl.writeWordLeft.toNat := by
            rw [level]
            exact busy
          have split : m.ctl.writeWordLeft.toNat = (m.ctl.writeWordLeft - 1).toNat + 1 := by
            bv_omega
          have noRead : ¬ 0 < m.ctl.readWordLeft := by
            intro more
            rw [(reading more).1] at busy
            exact BitVec.lt_irrefl 0 busy
          obtain ⟨past, requests, addrs⟩ := started
          simp only [record, call]
          refine ⟨?_, ?_, ?_, ⟨past, requests, ?_⟩, fun more => absurd more noRead,
            ordered.snoc ?_⟩
          · rw [List.map_singleton, callsOf_snoc, calls]
            rfl
          · rw [List.map_singleton, accepted_snoc]
            exact bursts
          · change m.ctl.writeWordLeft - 1 = m.curWriteCnt - 1
            rw [level]
          · rw [split, burstAddrs_succ] at addrs
            rw [addrs]
            simp only [DramUser.write, writeCalls_write, List.map_append, List.map_singleton,
              List.append_assoc, List.singleton_append]
          · intro addr same
            cases same
      | relayRead =>
          rw [quiet (by decide) fires (by
            obtain ⟨_, _, _, _, _, _, rfl⟩ := DRAMBurstSplitter.relayRead_cases fires
            rfl)]
          obtain ⟨_, _, responses, readerdQ, _, _, rfl⟩ :=
            DRAMBurstSplitter.relayRead_cases fires
          exact ⟨calls, bursts, level, started, reading, ordered⟩
      | relayReadClient =>
          rw [quiet (by decide) fires (by
            obtain ⟨_, _, _, _, _, rfl⟩ := DRAMBurstSplitter.relayReadClient_cases fires
            rfl)]
          obtain ⟨_, readerdQ, q, _, _, rfl⟩ :=
            DRAMBurstSplitter.relayReadClient_cases fires
          exact ⟨calls, bursts, level, started, reading, ordered⟩
      | dramReadReq =>
          obtain ⟨more, rfl⟩ := DRAMBurstSplitter.dramReadReq_cases fires
          have call : newCalls rcnt wcnt answer m (.rule .dramReadReq)
              = [.readReq m.ctl.readCurAddr] :=
            newCalls_eq fires rfl
          obtain ⟨past, requests, addrs⟩ := started
          have same : writeCalls (m.ctl.dram.readReq answer m.ctl.readCurAddr).calls
              = writeCalls m.ctl.dram.calls :=
            writeCalls_readReq _ _
          simp only [record, call]
          refine ⟨?_, ?_, level, ⟨past, requests, ?_⟩, fun _ => reading more,
            ordered.snoc (fun _ _ => inv.stored counted more)⟩
          · rw [List.map_singleton, callsOf_snoc, calls]
            rfl
          · rw [List.map_singleton, accepted_snoc]
            exact bursts
          · rw [same]
            exact addrs
      | mReader rule =>
          rw [quiet (by simp) fires (by
            obtain ⟨_, _, ⟨⟩⟩ := Option.map_eq_some_iff.mp fires
            rfl)]
          obtain ⟨mReader, _, ⟨⟩⟩ := Option.map_eq_some_iff.mp fires
          exact ⟨calls, bursts, level, started, reading, ordered⟩
      | mWriter rule =>
          rw [quiet (by simp) fires (by
            obtain ⟨_, _, ⟨⟩⟩ := Option.map_eq_some_iff.mp fires
            rfl)]
          obtain ⟨mWriter, moved, ⟨⟩⟩ := Option.map_eq_some_iff.mp fires
          have moves : (m.writerQ.items ++ mWriter.items).Perm
              (m.writerQ.items ++ m.mWriter.items) :=
            (MergeN.fire_perm moved).append_left _
          obtain ⟨past, requests, addrs⟩ := started
          refine ⟨calls, bursts, level, ⟨past, (moves.append_left _).trans requests, addrs⟩, ?_,
            ordered⟩
          intro more
          obtain ⟨done, none⟩ := reading more
          exact ⟨done, fun w waits => none w (moves.mem_iff.mp waits)⟩
      | writerM rule =>
          rw [quiet (by simp) fires (by
            obtain ⟨_, _, ⟨⟩⟩ := Option.map_eq_some_iff.mp fires
            rfl)]
          obtain ⟨writerM, _, ⟨⟩⟩ := Option.map_eq_some_iff.mp fires
          exact ⟨calls, bursts, level, started, reading, ordered⟩
  | readReq i addr words =>
      simp only [DRAMBurstSplitter.step] at fires
      split at fires
      next within =>
        obtain ⟨free, mReader, entered, rfl⟩ := DRAMBurstSplitter.readReq_cases fires
        refine ⟨?_, ?_, level, started, reading, ordered.snoc ?_⟩
        · change callsOf (log.history ++ [_]) = _
          rw [callsOf_snoc, calls]
          exact List.append_nil _
        · change accepted (log.history ++ [_]) = _
          rw [accepted_snoc]
          exact bursts
        · intro addr same
          cases same
      next => cases fires
  | read i =>
      simp only [DRAMBurstSplitter.step] at fires
      split at fires
      next within =>
        obtain ⟨⟨word, _⟩, called, ⟨⟩⟩ := Option.map_eq_some_iff.mp fires
        obtain ⟨q, _, rfl⟩ := DRAMBurstSplitter.read_cases called
        exact ⟨calls, bursts, level, started, reading, ordered⟩
      next => cases fires
  | writeReq i addr words =>
      simp only [DRAMBurstSplitter.step] at fires
      split at fires
      next within =>
        obtain ⟨free, mWriter, entered, rfl⟩ := DRAMBurstSplitter.writeReq_cases fires
        have nothing := (counted.idle free).2.2
        have left := counted.reads.left
        have noRead : m.ctl.readWordLeft.toNat = 0 := by
          simp only [ReadSide.outstanding] at nothing
          change _ + m.ctl.readWordLeft.toNat = (m.readSide answer).curReadCnt.toNat at left
          omega
        obtain ⟨past, requests, addrs⟩ := started
        refine ⟨?_, ?_, level, ⟨past, ?_, addrs⟩, ?_, ordered.snoc ?_⟩
        · change callsOf (log.history ++ [_]) = _
          rw [callsOf_snoc, calls]
          exact List.append_nil _
        · change accepted (log.history ++ [_]) = _
          rw [accepted_snoc, bursts]
          rfl
        · change (past ++ (m.writerQ.items ++ mWriter.items)).Perm
            (List.map ClientWrite.req (log.writes ++ [⟨i, addr, words, []⟩]))
          rw [List.map_append, List.map_singleton]
          refine ((entered.append_left _).append_left _).trans ?_
          refine ((List.perm_middle.append_left _).trans List.perm_middle).trans ?_
          exact (List.perm_append_singleton _ _).symm.trans (requests.append_right _)
        · intro more
          have some : 0 < m.ctl.readWordLeft.toNat := more
          omega
        · intro addr same
          cases same
      next => cases fires
  | write i word =>
      simp only [DRAMBurstSplitter.step] at fires
      split at fires
      next within =>
        obtain ⟨writerM, put, ⟨⟩⟩ := Option.bind_eq_some_iff.mp fires
        obtain ⟨past, requests, addrs⟩ := started
        refine ⟨?_, ?_, level, ⟨past, ?_, addrs⟩, reading, ordered.snoc ?_⟩
        · change callsOf (log.history ++ [_]) = _
          rw [callsOf_snoc, calls]
          exact List.append_nil _
        · change accepted (log.history ++ [_]) = _
          rw [accepted_snoc, bursts]
          rfl
        · change List.Perm _ ((ClientWrite.supply i word log.writes).map ClientWrite.req)
          rw [ClientWrite.supply_req]
          exact requests
        · intro addr same
          cases same
      next => cases fires

end InOrder

end SplitterLog


/-- A DRAM that returns what was written last at an address. -/
def lastWord (calls : List DramCall) (addr : BitVec 64) : BitVec 512 :=
  (Stores.load (writeCalls calls) addr).getD 0

/-- In every run in which no read starts in front of a write that waits, the write bursts
accepted before a read are stored when the read gets to the DRAM, and the readers get what it
returns.
-/
theorem bursts_ordered (rcnt wcnt : Nat) (small : rcnt ≤ 256)
    (answer : List DramCall → BitVec 64 → BitVec 512) (m : DRAMBurstSplitter)
    (log : SplitterLog)
    (reach : Reach (traced (DRAMBurstSplitter.step rcnt wcnt answer)
      (SplitterLog.record rcnt wcnt answer)) SplitterLog.ReadsLast
      (mkDRAMBurstSplitter rcnt wcnt, {}) (m, log))
    : callsOf log.history = m.ctl.dram.calls
      ∧ accepted log.history = log.writes
      ∧ log.Ordered
      ∧ log.Delivered rcnt answer m.ctl.dram.calls := by
  have inv : (∃ delivered port held, Counted rcnt wcnt answer m log delivered port held)
      ∧ SplitterLog.InOrder m log := by
    refine reach.invariant (P := fun s =>
      (∃ delivered port held, Counted rcnt wcnt answer s.1 s.2 delivered port held)
        ∧ SplitterLog.InOrder s.1 s.2)
      ⟨⟨[], 0, [], .init rcnt wcnt answer⟩, .init rcnt wcnt⟩ ?_
    rintro s e s' ⟨⟨delivered, port, held, counted⟩, inv⟩ allowed fires
    obtain ⟨fired, recorded⟩ := traced_eq_some.mp fires
    rw [recorded]
    exact ⟨counted.step small allowed.1 fired, inv.step counted allowed fired⟩
  obtain ⟨⟨delivered, port, held, counted⟩, inv⟩ := inv
  exact ⟨inv.calls, inv.bursts, inv.ordered, counted.delivered_own⟩

namespace SplitterLog

/-- A burst of one word is accepted and its word supplied. -/
def acceptWrite : List SplitterEvent := [.writeReq 0 0 1, .write 0 7, .rule .relayWriteC]

/-- It goes to the DRAM. -/
def storeWrite : List SplitterEvent :=
  [.rule .relayDramWrite, .rule .startDramWrite, .rule .relayWrite]

/-- A read of the same address is accepted, and goes to the DRAM and back. -/
def readBack : List SplitterEvent :=
  [.readReq 0 0 1, .rule .relayDramRead, .rule .startDramRead, .rule .dramReadReq,
    .rule .relayRead, .rule .relayReadClient, .read 0]

end SplitterLog

/-- A write burst goes to the DRAM, and a read burst of its address behind it. -/
theorem bursts_ordered_one
    : ∃ m log,
        Reach (traced (DRAMBurstSplitter.step 1 1 lastWord)
          (SplitterLog.record 1 1 lastWord)) SplitterLog.ReadsLast
          (mkDRAMBurstSplitter 1 1, {}) (m, log)
        ∧ (log.history, log.received 0)
          = ([.writeReq 0 0 1, .write 0 7, .call (.write 0 7), .readReq 0 0 1,
              .call (.readReq 0)], [7])
        ∧ callsOf log.history = m.ctl.dram.calls
        ∧ accepted log.history = log.writes
        ∧ log.Ordered
        ∧ log.Delivered 1 lastWord m.ctl.dram.calls := by
  obtain ⟨⟨m, log⟩, run, seen⟩ := exec_reach_map
    (traced (DRAMBurstSplitter.step 1 1 lastWord) (SplitterLog.record 1 1 lastWord))
    SplitterLog.ReadsLast (mkDRAMBurstSplitter 1 1, {})
    (SplitterLog.acceptWrite ++ SplitterLog.storeWrite ++ SplitterLog.readBack)
    (fun s => (s.2.history, s.2.received 0))
    ([.writeReq 0 0 1, .write 0 7, .call (.write 0 7), .readReq 0 0 1, .call (.readReq 0)], [7])
    (by decide +kernel)
  exact ⟨m, log, run, seen, bursts_ordered 1 1 (by decide) lastWord m log run⟩

/-- A read burst that was accepted behind a write burst of its address goes to the DRAM in front
of it, and returns what was there before.
-/
theorem bursts_ordered_overtaken
    : ∃ m log,
        Reach (traced (DRAMBurstSplitter.step 1 1 lastWord)
          (SplitterLog.record 1 1 lastWord)) (fun s => s.2.Follows)
          (mkDRAMBurstSplitter 1 1, {}) (m, log)
        ∧ (log.history, log.received 0)
          = ([.writeReq 0 0 1, .write 0 7, .readReq 0 0 1, .call (.readReq 0),
              .call (.write 0 7)], [0])
        ∧ ¬ log.Ordered := by
  obtain ⟨⟨m, log⟩, run, seen⟩ := exec_reach_map
    (traced (DRAMBurstSplitter.step 1 1 lastWord) (SplitterLog.record 1 1 lastWord))
    (fun s => s.2.Follows) (mkDRAMBurstSplitter 1 1, {})
    (SplitterLog.acceptWrite ++ SplitterLog.readBack ++ SplitterLog.storeWrite)
    (fun s => (s.2.history, s.2.received 0))
    ([.writeReq 0 0 1, .write 0 7, .readReq 0 0 1, .call (.readReq 0), .call (.write 0 7)], [0])
    (by decide +kernel)
  refine ⟨m, log, run, seen, ?_⟩
  intro ordered
  have history := congrArg Prod.fst seen
  have early := ordered [.writeReq 0 0 1, .write 0 7, .readReq 0 0 1] 0 [.call (.write 0 7)]
    history
  exact absurd early.words (by decide)

end BluespecPcie
