import BluespecPcie.PcieCtrl.Frames

/-! The credit of the flush: the words read from the reorder buffer and not yet taken by the
user fit the output queue, so a burst that is started is always finished.
-/

namespace BluespecPcie

open Bluespec

-----------------------------------------------------------------------------------------
-- History
-----------------------------------------------------------------------------------------

namespace PcieCtrl

/-- The slot of the reorder buffer that `flushReadTag` reads, if it reads one. -/
def flushReads (s : PcieCtrl) : Option (BitVec 10) :=
  if s.reorder.readFlushTag.curword = 0 then
    if s.reorder.dmaReadOutCntUp - s.reorder.dmaReadOutCntDn < 56 then
      s.order.orderedReadDoneTagQ.first.map
        (fun (d : BitVec 8 × BitVec 10) => d.1.zeroExtend 10 <<< 3)
    else none
  else some (flushSlot s.reorder.readFlushTag)

/-- The words between the reorder buffer and the user, oldest first. -/
def wordsOut (s : PcieCtrl) : List DMAWord :=
  s.reorder.dmaReadOutRQ.items ++ s.reorder.dmaReadOutQ.items
    ++ s.reorder.readReorder.respB.items

/-- The words of the burst under way that are still to be read. -/
def wordsToFlush (s : PcieCtrl) : Nat := (s.reorder.readFlushTag.curword.toNat + 3) / 4

end PcieCtrl

/-- The words requested from the reorder buffer, and those returned to the user. -/
structure FlushLog where
  requested : List DMAWord := []
  returned : List DMAWord := []

/-- How an event extends the history; `s` is the state before it. -/
def FlushLog.record (s : PcieCtrl) (e : Event) (log : FlushLog) : FlushLog :=
  match e with
  | .flushReadTag =>
      { log with
        requested := log.requested ++ (s.flushReads.map s.reorder.readReorder.mem).toList }
  | .dmaReadWord =>
      { log with returned := log.returned ++ s.reorder.dmaReadOutRQ.items.head?.toList }
  | _ => log

/-- A completed burst that the flush takes up has 1 to 8 words, which it counts in DWs. -/
def FlushesBurst (state : PcieCtrl × FlushLog) : Event → Prop
  | .flushReadTag => state.1.reorder.readFlushTag.curword = 0 →
      ∀ d ∈ state.1.order.orderedReadDoneTagQ.first, 1 ≤ d.2.toNat ∧ d.2.toNat ≤ 32
  | _ => True

instance (state : PcieCtrl × FlushLog) (e : Event) : Decidable (FlushesBurst state e) := by
  unfold FlushesBurst
  split
  next => exact @instDecidableForall _ _ _ (Option.decidableForallMem _)
  next => exact isTrue trivial

/-- The events that finish a burst: reading its words, and making room for the responses. -/
def Event.flushes : Event → Prop
  | .flushReadTag | .flushReadOrdered => True
  | _ => False

/-- The counters count the words requested and not returned, at most 63; the responses under way
fit the output queue; and the burst under way can be finished without the user.
-/
structure FlushCredit (s : PcieCtrl) (log : FlushLog) : Prop where
  counted : (s.reorder.dmaReadOutCntUp - s.reorder.dmaReadOutCntDn).toNat
      + log.returned.length
    = log.requested.length
  bound : (s.reorder.dmaReadOutCntUp - s.reorder.dmaReadOutCntDn).toNat ≤ 63
  room : s.reorder.dmaReadOutQ.items.length + s.reorder.readReorder.respB.items.length < 64
  order : log.requested = log.returned ++ s.wordsOut
  finishes : ∃ events s', (∀ e ∈ events, e.flushes)
    ∧ exec PcieCtrl.step s events = some s' ∧ s'.reorder.readFlushTag.curword = 0

-----------------------------------------------------------------------------------------
-- Steps
-----------------------------------------------------------------------------------------

/-- What the counters and the history say of the words on their way out, and of the words that
the burst under way will still add.
-/
structure FlushKept (s : PcieCtrl) (log : FlushLog) : Prop where
  credit : (s.reorder.dmaReadOutCntUp - s.reorder.dmaReadOutCntDn).toNat = s.wordsOut.length
  bound : s.wordsOut.length + s.wordsToFlush ≤ 63
  order : log.requested = log.returned ++ s.wordsOut

/-- After reset nothing is on its way. -/
theorem flushKept_reset (p : PowerUp) : FlushKept (mkPcieCtrl p) {} := by
  constructor
  case credit => simp [mkPcieCtrl, PcieCtrl.wordsOut, Bram2.init]
  case bound => simp [mkPcieCtrl, PcieCtrl.wordsOut, PcieCtrl.wordsToFlush, Bram2.init]
  case order => rfl

open PcieCtrl in
/-- A word read leaves one less. -/
theorem toNat_flushLeft (wleft : BitVec 10)
    : ((flushLeft wleft).toNat + 3) / 4 = (wleft.toNat + 3) / 4 - 1 := by
  unfold flushLeft
  split
  next more =>
    have above : 4 < wleft.toNat := more
    rw [BitVec.toNat_sub_of_le (BitVec.le_of_lt more)]
    change (wleft.toNat - 4 + 3) / 4 = _
    omega
  next last =>
    have within : wleft.toNat ≤ 4 := Nat.le_of_not_lt last
    change (0 + 3) / 4 = _
    omega

section Steps

variable {s s' : PcieCtrl} {log : FlushLog}

/-- What is kept depends on the counters, the flush register and the words on their way. -/
theorem FlushKept.of_same (inv : FlushKept s log)
    (up : s'.reorder.dmaReadOutCntUp = s.reorder.dmaReadOutCntUp)
    (down : s'.reorder.dmaReadOutCntDn = s.reorder.dmaReadOutCntDn)
    (words : s'.wordsOut = s.wordsOut)
    (tag : s'.reorder.readFlushTag = s.reorder.readFlushTag)
    : FlushKept s' log := by
  obtain ⟨credit, bound, order⟩ := inv
  refine ⟨?_, ?_, ?_⟩
  · rw [up, down, words]
    exact credit
  · rw [words, PcieCtrl.wordsToFlush, tag]
    exact bound
  · rw [words]
    exact order

/-- A word is requested: a credit is taken, and one word less of the `left` is to be read. -/
theorem FlushKept.request {left : Nat} {word : DMAWord} (inv : FlushKept s log)
    (up : s'.reorder.dmaReadOutCntUp = s.reorder.dmaReadOutCntUp + 1)
    (down : s'.reorder.dmaReadOutCntDn = s.reorder.dmaReadOutCntDn)
    (words : s'.wordsOut = s.wordsOut ++ [word])
    (fits : s.wordsOut.length + left ≤ 63) (fewer : s'.wordsToFlush + 1 = left)
    : FlushKept s' { log with requested := log.requested ++ [word] } := by
  obtain ⟨credit, bound, order⟩ := inv
  have longer : s'.wordsOut.length = s.wordsOut.length + 1 := by
    rw [words, List.length_append, List.length_singleton]
  refine ⟨?_, ?_, ?_⟩
  · rw [up, down, longer]
    bv_omega
  · omega
  · change log.requested ++ [word] = log.returned ++ s'.wordsOut
    rw [words, order, List.append_assoc]

/-- The flush starts a burst of at most 8 words when at most 55 words are on their way; the
words of a burst under way are counted already.
-/
theorem FlushKept.flushReadTag (inv : FlushKept s log)
    (burst : FlushesBurst (s, log) .flushReadTag) (fires : s.flushReadTag = some s')
    : FlushKept s' (log.record s .flushReadTag) := by
  simp only [PcieCtrl.flushReadTag, Option.bind_eq_bind, Option.pure_def] at fires
  split_ifs at fires with idle credit
  · simp only [Fifo.bind_deq_eq_some, Bram2.bind_readB_eq_some, Fifo.bind_enq_eq_some,
      Option.some.injEq] at fires
    obtain ⟨d, doneQ, taken, respB, _, put, freeQ, _, freed, rfl⟩ := fires
    have first : s.order.orderedReadDoneTagQ.first = some d :=
      Fifo.first_eq_some.mpr ⟨_, taken⟩
    obtain ⟨positive, within⟩ := burst idle d first
    have few : s.wordsOut.length < 56 := by
      rw [← inv.credit]
      exact credit
    have slot : s.flushReads = some (d.1.zeroExtend 10 <<< 3) := by
      rw [PcieCtrl.flushReads, if_pos idle, if_pos credit, first]
      rfl
    rw [FlushLog.record, slot]
    refine @FlushKept.request s _ log ((d.2.toNat + 3) / 4) _ inv rfl rfl ?_ ?_ ?_
    · simp only [PcieCtrl.wordsOut, put, List.append_assoc]
    · omega
    · simp only [PcieCtrl.wordsToFlush, toNat_flushLeft]
      omega
  · cases fires
    have slot : s.flushReads = none := by
      rw [PcieCtrl.flushReads, if_pos idle, if_neg credit]
    rw [FlushLog.record, slot]
    simp only [Option.map_none, Option.toList_none, List.append_nil]
    exact inv
  · simp only [Bram2.bind_readB_eq_some, Option.some.injEq] at fires
    obtain ⟨respB, _, put, rfl⟩ := fires
    have slot : s.flushReads = some (PcieCtrl.flushSlot s.reorder.readFlushTag) := by
      rw [PcieCtrl.flushReads, if_neg idle]
    rw [FlushLog.record, slot]
    refine @FlushKept.request s _ log s.wordsToFlush _ inv rfl rfl ?_ inv.bound ?_
    · simp only [PcieCtrl.wordsOut, put, List.append_assoc]
    · have positive : 0 < s.reorder.readFlushTag.curword.toNat := by bv_omega
      simp only [PcieCtrl.wordsToFlush, toNat_flushLeft]
      omega

/-- A response moves to the output queue. -/
theorem FlushKept.flushReadOrdered (inv : FlushKept s log)
    (fires : s.flushReadOrdered = some s')
    : FlushKept s' log := by
  simp only [PcieCtrl.flushReadOrdered, Option.bind_eq_bind, Option.pure_def,
    Bram2.bind_getB_eq_some, Fifo.bind_enq_eq_some, Option.some.injEq] at fires
  obtain ⟨v, respB, taken, outQ, _, put, rfl⟩ := fires
  refine inv.of_same rfl rfl ?_ rfl
  simp only [PcieCtrl.wordsOut, taken, put, List.append_assoc, List.singleton_append]

/-- A word moves to the queue in front of the user. -/
theorem FlushKept.relayFlushReadOrdered (inv : FlushKept s log)
    (fires : s.relayFlushReadOrdered = some s')
    : FlushKept s' log := by
  simp only [PcieCtrl.relayFlushReadOrdered, Option.bind_eq_bind, Option.pure_def,
    Fifo.bind_deq_eq_some, Fifo.bind_enq_eq_some, Option.some.injEq] at fires
  obtain ⟨v, outQ, taken, outRQ, _, put, rfl⟩ := fires
  refine inv.of_same rfl rfl ?_ rfl
  simp only [PcieCtrl.wordsOut, taken, put, List.append_assoc, List.singleton_append]

/-- A word that the user takes gives its credit back. -/
theorem FlushKept.dmaReadWord (inv : FlushKept s log)
    (fires : s.dmaReadWord.map Prod.snd = some s')
    : FlushKept s' (log.record s .dmaReadWord) := by
  simp only [PcieCtrl.dmaReadWord, Option.bind_eq_bind, Option.pure_def,
    Option.map_eq_some_iff, Fifo.bind_deq_eq_some, Option.some.injEq] at fires
  obtain ⟨_, ⟨v, outRQ, taken, rfl⟩, rfl⟩ := fires
  obtain ⟨credit, bound, order⟩ := inv
  simp only [PcieCtrl.wordsOut, taken, List.cons_append, List.length_cons] at credit bound order
  refine ⟨?_, ?_, ?_⟩
  · simp only [PcieCtrl.wordsOut]
    bv_omega
  · simp only [PcieCtrl.wordsOut]
    change _ + s.wordsToFlush ≤ 63
    omega
  · simp only [FlushLog.record, PcieCtrl.wordsOut, taken, order, List.head?_cons,
      Option.toList_some, List.append_assoc, List.singleton_append]

/-- The other events leave the flush and the words on their way alone; `writeReadBuffer` writes
the memory only.
-/
theorem flush_frame {e : Event} (fires : s.step e = some s')
    : (s'.reorder.dmaReadOutCntUp = s.reorder.dmaReadOutCntUp
        ∧ s'.reorder.dmaReadOutCntDn = s.reorder.dmaReadOutCntDn
        ∧ s'.wordsOut = s.wordsOut
        ∧ s'.reorder.readFlushTag = s.reorder.readFlushTag
        ∧ log.record s e = log)
      ∨ e = .flushReadTag ∨ e = .flushReadOrdered ∨ e = .relayFlushReadOrdered
      ∨ e = .dmaReadWord := by
  cases e with
  | writeReadBuffer =>
      obtain ⟨_, word, wordQ, doneQ, _, _, rfl⟩ := PcieCtrl.writeReadBuffer_cases fires
      exact .inl ⟨rfl, rfl, rfl, rfl, rfl⟩
  | flushReadTag => exact .inr (.inl rfl)
  | flushReadOrdered => exact .inr (.inr (.inl rfl))
  | relayFlushReadOrdered => exact .inr (.inr (.inr (.inl rfl)))
  | dmaReadWord => exact .inr (.inr (.inr (.inr rfl)))
  | _ =>
      have same := (step_unchanged fires).reorder (by simp [Event.parts])
      refine .inl ⟨by rw [same], by rw [same], ?_, by rw [same], rfl⟩
      rw [PcieCtrl.wordsOut, same]
      rfl

/-- Every event keeps the credit, with bursts of 1 to 8 words. -/
theorem FlushKept.step {e : Event} (inv : FlushKept s log)
    (burst : FlushesBurst (s, log) e) (fires : s.step e = some s')
    : FlushKept s' (log.record s e) := by
  rcases @flush_frame s s' log e fires with
    ⟨up, down, words, tag, unseen⟩ | rfl | rfl | rfl | rfl
  · rw [unseen]
    exact inv.of_same up down words tag
  · exact inv.flushReadTag burst fires
  · exact inv.flushReadOrdered fires
  · exact inv.relayFlushReadOrdered fires
  · exact inv.dmaReadWord fires

end Steps

-----------------------------------------------------------------------------------------
-- Finishing a burst
-----------------------------------------------------------------------------------------

/-- Each response under way finds room in the output queue; induction on the responses. -/
theorem FlushKept.drains {s : PcieCtrl} {log : FlushLog} (inv : FlushKept s log)
    : ∃ events s', (∀ e ∈ events, e.flushes) ∧ exec PcieCtrl.step s events = some s'
        ∧ FlushKept s' log ∧ s'.reorder.readReorder.respB.items = []
        ∧ s'.reorder.readFlushTag = s.reorder.readFlushTag := by
  induction waiting : s.reorder.readReorder.respB.items.length generalizing s with
  | zero =>
      exact ⟨[], s, nofun, rfl, inv, List.length_eq_zero_iff.mp waiting, rfl⟩
  | succ n ih =>
      obtain ⟨v, rest, items⟩ := List.exists_cons_of_length_eq_add_one waiting
      obtain ⟨respB, taken, left⟩ := Fifo.deq_of_items items
      have room : s.reorder.dmaReadOutQ.items.length < 64 := by
        have bound := inv.bound
        simp only [PcieCtrl.wordsOut, List.length_append] at bound
        omega
      obtain ⟨outQ, put⟩ := Fifo.enq_of_room room v
      have fires
          : s.flushReadOrdered
            = some { s with
                reorder.readReorder.respB := respB
                reorder.dmaReadOutQ := outQ } := by
        simp [PcieCtrl.flushReadOrdered, Bram2.getB, taken, put]
      have fewer : respB.items.length = n := by
        rw [items, List.length_cons] at waiting
        rw [left]
        exact Nat.succ.inj waiting
      obtain ⟨events, s', only, ran, kept, none, same⟩ := ih (inv.flushReadOrdered fires) fewer
      refine ⟨.flushReadOrdered :: events, s', ?_, ?_, kept, none, same⟩
      · intro e member
        rcases List.mem_cons.mp member with rfl | later
        · trivial
        · exact only e later
      · rw [exec, show s.step .flushReadOrdered = _ from fires]
        exact ran

/-- A burst under way is finished by reading its words and queueing the responses; induction on
the words to read.
-/
theorem FlushKept.finishes {s : PcieCtrl} {log : FlushLog} (inv : FlushKept s log)
    : ∃ events s', (∀ e ∈ events, e.flushes) ∧ exec PcieCtrl.step s events = some s'
        ∧ s'.reorder.readFlushTag.curword = 0 := by
  induction words : s.wordsToFlush generalizing s log with
  | zero =>
      refine ⟨[], s, nofun, rfl, ?_⟩
      rw [PcieCtrl.wordsToFlush] at words
      bv_omega
  | succ n ih =>
      obtain ⟨drain, mid, only, ran, kept, none, same⟩ := inv.drains
      have busy : mid.reorder.readFlushTag.curword ≠ 0 := by
        rw [same]
        intro idle
        rw [PcieCtrl.wordsToFlush, idle] at words
        cases words
      obtain ⟨respB, put⟩ := Fifo.enq_of_room
        (show mid.reorder.readReorder.respB.items.length < bramResponses by
          rw [none]
          decide)
        (mid.reorder.readReorder.mem (PcieCtrl.flushSlot mid.reorder.readFlushTag))
      have fires
          : mid.flushReadTag
            = some { mid with
                reorder.readReorder.respB := respB
                reorder.readFlushTag.curword :=
                  PcieCtrl.flushLeft mid.reorder.readFlushTag.curword
                reorder.dmaReadOutCntUp := mid.reorder.dmaReadOutCntUp + 1 } := by
        rw [PcieCtrl.flushReadTag, if_neg busy, Bram2.readB, put]
        rfl
      have next := kept.flushReadTag (fun idle => absurd idle busy) fires
      obtain ⟨events, s', onlyMore, ranMore, finished⟩ := ih next (by
        rw [PcieCtrl.wordsToFlush, ← same] at words
        simp only [PcieCtrl.wordsToFlush, toNat_flushLeft]
        omega)
      refine ⟨drain ++ .flushReadTag :: events, s', ?_, ?_, finished⟩
      · intro e member
        rcases List.mem_append.mp member with early | late
        · exact only e early
        · rcases List.mem_cons.mp late with rfl | later
          · trivial
          · exact onlyMore e later
      · rw [exec_append ran, exec, show mid.step .flushReadTag = _ from fires]
        exact ranMore

-----------------------------------------------------------------------------------------
-- Runs
-----------------------------------------------------------------------------------------

/-- In every run with bursts of 1 to 8 words, and whenever the user takes words, the counters
bound the words on their way to what the output queue has room for.
-/
theorem flush_credit_bounds {p : PowerUp} {state : PcieCtrl × FlushLog}
    (run : Reach (traced PcieCtrl.step FlushLog.record) FlushesBurst (mkPcieCtrl p, {}) state)
    : FlushCredit state.1 state.2 := by
  have inv : FlushKept state.1 state.2 := by
    refine run.invariant (P := fun state => FlushKept state.1 state.2) (flushKept_reset p) ?_
    intro state e state' inv burst fires
    obtain ⟨fired, recorded⟩ := traced_eq_some.mp fires
    rw [recorded]
    exact inv.step burst fired
  have finishes := inv.finishes
  obtain ⟨credit, bound, order⟩ := inv
  refine ⟨?_, ?_, ?_, order, finishes⟩
  · rw [credit, order, List.length_append, Nat.add_comm]
  · omega
  · simp only [PcieCtrl.wordsOut, List.length_append] at bound
    omega

/-- The tag pools behind `n` rounds of `insertFreeTag`. -/
def poolAfter (n : Nat) (few : n ≤ 128) : TagPool where
  freeTagCnt := BitVec.ofNat 8 n
  freeReadTagQ := ⟨(List.range n).map (BitVec.ofNat 8), by simpa using few⟩
  freeReadTagFQ := .empty
  freeWriteTagQ := ⟨(List.range n).map (fun i => BitVec.ofNat 8 i + 128), by simpa using few⟩

/-- The pools are filled before anything else happens, and a history that does not see it stays;
induction on the rounds.
-/
theorem reach_poolAfter {η : Type} {record : PcieCtrl → Event → η → η}
    {ok : PcieCtrl × η → Event → Prop} {log : η} (allowed : ∀ state, ok state .insertFreeTag)
    (unseen : ∀ s, record s .insertFreeTag log = log) (p : PowerUp) (n : Nat) (few : n ≤ 128)
    : Reach (traced PcieCtrl.step record) ok (mkPcieCtrl p, log)
        ({ mkPcieCtrl p with tags := poolAfter n few }, log) := by
  induction n with
  | zero => exact .refl
  | succ n ih =>
      have more : BitVec.ofNat 8 n ≠ 128 := by
        intro same
        have equal := congrArg BitVec.toNat same
        rw [BitVec.toNat_ofNat, Nat.mod_eq_of_lt (by omega)] at equal
        change n = 128 at equal
        omega
      have before := Nat.le_of_succ_le few
      have room : ((List.range n).map (BitVec.ofNat 8)).length < 128 := by
        rw [List.length_map, List.length_range]
        exact few
      have roomWrite : ((List.range n).map (fun i => BitVec.ofNat 8 i + 128)).length < 128 := by
        rw [List.length_map, List.length_range]
        exact few
      have readQ
          : (poolAfter n before).freeReadTagQ.enq (BitVec.ofNat 8 n)
            = some (poolAfter (n + 1) few).freeReadTagQ := by
        refine Fifo.enq_eq_some.mpr ⟨room, ?_⟩
        simp [poolAfter, List.range_succ]
      have writeQ
          : (poolAfter n before).freeWriteTagQ.enq (BitVec.ofNat 8 n + 128)
            = some (poolAfter (n + 1) few).freeWriteTagQ := by
        refine Fifo.enq_eq_some.mpr ⟨roomWrite, ?_⟩
        simp [poolAfter, List.range_succ]
      have next : BitVec.ofNat 8 n + 1 = BitVec.ofNat 8 (n + 1) := (BitVec.ofNat_add n 1).symm
      have fires
          : PcieCtrl.step { mkPcieCtrl p with tags := poolAfter n before } .insertFreeTag
            = some { mkPcieCtrl p with tags := poolAfter (n + 1) few } := by
        rw [PcieCtrl.step, PcieCtrl.insertFreeTag,
          if_pos (show (poolAfter n before).freeTagCnt ≠ 128 from more)]
        refine Option.bind_eq_some_iff.mpr ⟨_, readQ, ?_⟩
        refine Option.bind_eq_some_iff.mpr ⟨_, writeQ, ?_⟩
        simp only [poolAfter, next]
        rfl
      exact (ih before).tail (allowed _) (traced_eq_some.mpr ⟨fires, (unseen _).symm⟩)

/-- The schedule of a request for two words, up to its TLP. -/
def askTwoWords (addr : BitVec 32) : List Event :=
  [.dmaReadReq addr 2, .splitDmaReadReq, .splitDmaReadReq2, .relayBufIdxRead, .generateDmaReadTLP]

/-- The schedule of a completion of two words, in three beats, up to the tag's bit in `doneTagMap`.
-/
def receiveTwoWords (tag : BitVec 8) (first : BitVec 32) : List Event :=
  [.recvTLP ⟨first ++ (0#16 ++ tag ++ 0#8) ++ 0#32 ++ 0x4a000008#32, 0xffff, 0x004000⟩,
    .recvTLP ⟨4#32 ++ 3#32 ++ 2#32 ++ 1#32, 0xffff, 0⟩, .filterStatReadTLP, .procCompletionTLP,
    .recvTLP ⟨0#32 ++ 7#32 ++ 6#32 ++ 5#32, 0x0fff, 0x200000⟩, .procCompletionTLP,
    .relayReadBurst, .updateReadBurst1, .getTagMapReadA, .updateReadBurst2, .relayDmaReadrQ,
    .writeReadBuffer, .relayDmaReadrQ, .writeReadBuffer, .applyDoneMap]
  ++ (List.range 7).reverse.map .doneShifterStage ++ [.procDoneShift]

/-- The schedule that retires the oldest burst, up to the flush. -/
def retireOldest : List Event :=
  [.shiftOrder] ++ (List.range 7).reverse.map .orderShifterStage
  ++ [.forwardShiftOrderTagBypass, .forwardShifted, .compareOrder, .reqDoneTag, .forwardDoneTag]

/-- Two bursts of two words, the second of which is completed first, up to the flush. -/
def completeTwoBursts : List Event :=
  List.flatten [
    askTwoWords 0, askTwoWords 32, receiveTwoWords 1 13, receiveTwoWords 0 14, retireOldest,
    retireOldest]

/-- The schedule that flushes a word to the user. -/
def flushWord : List Event :=
  [.flushReadTag, .flushReadOrdered, .relayFlushReadOrdered, .dmaReadWord]

/-- A run that has flushed one burst of two words, and is in the middle of the next one. -/
theorem flush_credit_bounds_twoBursts
    : ∃ state : PcieCtrl × FlushLog,
        (state.1.reorder.dmaReadOutCntUp, state.1.reorder.readFlushTag.curword,
            state.2.requested.length, state.2.returned)
          = (3#8, 4#10, 3,
            [0x0300000002000000010000000e000000#128, 0x07000000060000000500000004000000#128])
        ∧ FlushCredit state.1 state.2 := by
  obtain ⟨state, run, seen⟩ := exec_reach_map (traced PcieCtrl.step FlushLog.record)
    FlushesBurst
    ({ mkPcieCtrl default with tags := poolAfter 128 (Nat.le_refl 128) }, {})
    (completeTwoBursts ++ flushWord ++ flushWord ++ [.flushReadTag])
    (fun state =>
      (state.1.reorder.dmaReadOutCntUp, state.1.reorder.readFlushTag.curword,
        state.2.requested.length, state.2.returned))
    (3#8, 4#10, 3,
      [0x0300000002000000010000000e000000#128, 0x07000000060000000500000004000000#128])
    (by decide +kernel)
  exact ⟨state, seen,
    flush_credit_bounds
      ((reach_poolAfter (fun _ => trivial) (fun _ => rfl) default 128 (Nat.le_refl 128)).trans
        run)⟩

end BluespecPcie
