import BluespecPcie.Bluespec.Streams
import BluespecPcie.PcieCtrl.Bursts
import BluespecPcie.PcieCtrl.FlushCredit

/-! The history of the read tags: the bursts for which they are taken, what comes back for them,
and how far it gets.
-/

namespace BluespecPcie

open Bluespec

-----------------------------------------------------------------------------------------
-- History
-----------------------------------------------------------------------------------------

namespace PcieCtrl

/-- The tag and the DWs of the burst that `splitDmaReadReq2` makes. -/
def burstMade (s : PcieCtrl) : Option (BitVec 8 × Nat) :=
  s.tags.freeReadTagQ.first.map
    (fun tag => (tag, 4 * (splitRead s.reads.dmaReadStartAddr s.reads.dmaReadWords).words.toNat))

/-- The tag and the DWs of the completion that `filterStatReadTLP` takes, if it takes one. -/
def completionTaken (s : PcieCtrl) : Option (BitVec 8 × Nat) :=
  match s.rx.tlpQ.first with
  | some tlp =>
      if ¬isRead (tlpType tlp) ∧ isCompletion (tlpType tlp) then
        some (completionTag tlp, (tlpLength tlp).toNat)
      else none
  | none => none

/-- Whether `compareOrder` retires a tag. -/
def retires (s : PcieCtrl) : Bool :=
  match s.order.curOrderTag with
  | some ot => s.isDone ot
  | none => s.order.orderShiftedQ.first.any s.isDone

/-- The tag that `compareOrder` retires, if it retires one. -/
def tagRetired (s : PcieCtrl) : Option (BitVec 8) :=
  if s.retires then s.order.orderTagBypassQ2.first else none

/-- The tag that `flushReadTag` takes up and gives back, if it takes up one. -/
def tagFreed (s : PcieCtrl) : Option (BitVec 8) :=
  if s.reorder.readFlushTag.curword = 0
      ∧ s.reorder.dmaReadOutCntUp - s.reorder.dmaReadOutCntDn < 56 then
    s.order.orderedReadDoneTagQ.first.map Prod.fst
  else none

end PcieCtrl

/-- The bursts with their tags and DWs, the completions with theirs, the tags of the words written
to the reorder buffer, the maps added to `doneTagMap`, the tags that have retired and those given
back, and the slots read from the reorder buffer.
-/
structure TagLog where
  bursts : List (BitVec 8 × Nat) := []
  returned : List (BitVec 8 × Nat) := []
  written : List (BitVec 8) := []
  shifted : List (BitVec 128) := []
  retired : List (BitVec 8) := []
  freed : List (BitVec 8) := []
  reads : List (BitVec 10) := []

namespace TagLog

/-- How an event extends the history; `s` is the state before it. -/
def record (s : PcieCtrl) (e : Event) (log : TagLog) : TagLog :=
  match e with
  | .splitDmaReadReq2 => { log with bursts := log.bursts ++ s.burstMade.toList }
  | .filterStatReadTLP => { log with returned := log.returned ++ s.completionTaken.toList }
  | .writeReadBuffer => { log with written := log.written ++ [s.bursts.tagWordsLeft.tag] }
  | .procDoneShift =>
      { log with shifted := log.shifted ++ s.order.doneShifter.outputFifo.items.head?.toList }
  | .compareOrder => { log with retired := log.retired ++ s.tagRetired.toList }
  | .flushReadTag =>
      { log with
        freed := log.freed ++ s.tagFreed.toList
        reads := log.reads ++ s.flushReads.toList }
  | _ => log

/-- The tags of the bursts, in order. -/
def tags (log : TagLog) : List (BitVec 8) := log.bursts.map Prod.fst

/-- The tags of the bursts that have not given them back. -/
def outstanding (log : TagLog) : List (BitVec 8) := log.tags.drop log.freed.length

/-- The tags of the bursts that have not retired. -/
def unretired (log : TagLog) : List (BitVec 8) := log.tags.drop log.retired.length

/-- The DWs requested with a tag, over all its uses. -/
def askedDWs (log : TagLog) (tag : BitVec 8) : Nat := (withLabel tag log.bursts).sum

/-- The DWs returned with a tag. -/
def returnedDWs (log : TagLog) (tag : BitVec 8) : Nat := (withLabel tag log.returned).sum

/-- The DWs of a tag that are written to the reorder buffer. -/
def writtenDWs (log : TagLog) (tag : BitVec 8) : Nat := 4 * log.written.count tag

/-- How often the bit of a tag is toggled in `doneTagMap`. -/
def toggles (log : TagLog) (tag : BitVec 8) : Nat :=
  log.shifted.countP (fun v => v.getLsbD tag.toNat)

/-- All data of a tag is in the reorder buffer. -/
def Received (log : TagLog) (tag : BitVec 8) : Prop := log.writtenDWs tag = log.askedDWs tag

instance (log : TagLog) (tag : BitVec 8) : Decidable (log.Received tag) :=
  inferInstanceAs (Decidable (_ = _))

/-- The bit of a tag is toggled for each of its bursts. -/
def Shifted (log : TagLog) (tag : BitVec 8) : Prop := log.toggles tag = log.tags.count tag

end TagLog

/-- The host returns with a tag no more than is requested with it, in completions of a multiple of
4 DWs.
-/
def HostAnswers (state : PcieCtrl × TagLog) : Event → Prop
  | .filterStatReadTLP =>
      ∀ completion ∈ state.1.completionTaken,
        0 < completion.2 ∧ completion.2 % 4 = 0
        ∧ state.2.returnedDWs completion.1 + completion.2 ≤ state.2.askedDWs completion.1
  | _ => True

instance (state : PcieCtrl × TagLog) (e : Event) : Decidable (HostAnswers state e) := by
  apply Event.casesOn (motive := fun e => Decidable (HostAnswers state e)) e <;> intros
  case filterStatReadTLP => exact Option.decidableForallMem _
  all_goals exact isTrue trivial

-----------------------------------------------------------------------------------------
-- What a firing adds to the history
-----------------------------------------------------------------------------------------

section

variable {s s' : PcieCtrl} {log : TagLog}

namespace PcieCtrl

theorem splitDmaReadReq_cases (fires : s.splitDmaReadReq = some s')
    : ∃ (req : DMAReq) (dmaReadReqQ : Fifo DMAReq 2),
        s' = { s with
          reads.dmaReadReqQ := dmaReadReqQ
          reads.dmaReadStartAddr := alignWord req.addr
          reads.dmaReadWords := req.words } := by
  unfold splitDmaReadReq at fires
  split at fires
  next =>
    obtain ⟨⟨req, dmaReadReqQ⟩, -, ⟨⟩⟩ := Option.bind_eq_some_iff.mp fires
    exact ⟨req, dmaReadReqQ, rfl⟩
  next => cases fires

theorem applyDoneMap_cases (fires : s.applyDoneMap = some s')
    : ∃ d readDoneTagQ doneShifter,
        s.bursts.readDoneTagQ.items = d :: readDoneTagQ.items
        ∧ s.order.doneShifter.rotateByteBy 1 (d.1.truncate 7) = some doneShifter
        ∧ s' = { s with
            bursts.readDoneTagQ := readDoneTagQ
            order.doneMap := s.order.doneMap.write d.1 d
            order.doneShifter := doneShifter } := by
  simp only [applyDoneMap, Option.bind_eq_bind, Option.pure_def, Fifo.bind_deq_eq_some] at fires
  obtain ⟨d, readDoneTagQ, taken, fires⟩ := fires
  obtain ⟨doneShifter, entered, ⟨⟩⟩ := Option.bind_eq_some_iff.mp fires
  exact ⟨d, readDoneTagQ, doneShifter, taken, entered, rfl⟩

/-- The first tag in line retires if it is done, and is recorded; else none is. -/
theorem compareOrder_retires (fires : s.compareOrder = some s')
    : (s.tagRetired = none ∧ s' = s)
      ∨ (s.tagRetired = none
        ∧ ∃ v orderShiftedQ,
            s.order.curOrderTag = none
            ∧ s.order.orderShiftedQ.items = v :: orderShiftedQ.items
            ∧ s' = { s with order.orderShiftedQ := orderShiftedQ, order.curOrderTag := some v })
      ∨ ∃ tag v orderShiftedQ orderTagBypassQ2 doneReorderedTagQ,
          s.tagRetired = some tag
          ∧ s.isDone v
          ∧ s.order.curOrderTag.toList ++ s.order.orderShiftedQ.items
            = v :: orderShiftedQ.items
          ∧ s.order.orderTagBypassQ2.items = tag :: orderTagBypassQ2.items
          ∧ doneReorderedTagQ.items = s.order.doneReorderedTagQ.items ++ [tag]
          ∧ s' = { s with
              order.orderTagMap := s.order.orderTagMap ^^^ v
              order.orderTagBypassQ2 := orderTagBypassQ2
              order.doneReorderedTagQ := doneReorderedTagQ
              order.orderShiftedQ := orderShiftedQ
              order.curOrderTag := none } := by
  rcases current : s.order.curOrderTag with _ | ot
  case none =>
    simp only [compareOrder, current, Fifo.bind_deq_eq_some, Option.bind_eq_bind] at fires
    obtain ⟨v, orderShiftedQ, taken, fires⟩ := fires
    have first : s.order.orderShiftedQ.first = some v := Fifo.first_eq_some.mpr ⟨_, taken⟩
    have retires : s.retires = s.isDone v := by
      simp only [retires, current, first, Option.any_some]
    split at fires
    next done =>
      simp only [retire, Option.bind_eq_bind, Option.pure_def, Option.bind_assoc,
        Option.bind_some, Fifo.bind_deq_eq_some, Fifo.bind_enq_eq_some,
        Option.some.injEq] at fires
      obtain ⟨tag, bypassQ, head, reorderedQ, _, put, rfl⟩ := fires
      refine .inr (.inr ⟨tag, v, orderShiftedQ, bypassQ, reorderedQ, ?_, done, taken, head, put,
        by rw [current]⟩)
      rw [tagRetired, retires, if_pos done, Fifo.first_eq_some.mpr ⟨_, head⟩]
    next waiting =>
      cases fires
      refine .inr (.inl ⟨?_, v, orderShiftedQ, rfl, taken, rfl⟩)
      rw [tagRetired, retires, if_neg waiting]
  case some =>
    have retires : s.retires = s.isDone ot := by simp only [retires, current]
    simp only [compareOrder, current] at fires
    split at fires
    next done =>
      simp only [retire, Option.bind_eq_bind, Option.pure_def, Option.bind_assoc,
        Option.bind_some, Fifo.bind_deq_eq_some, Fifo.bind_enq_eq_some,
        Option.some.injEq] at fires
      obtain ⟨tag, bypassQ, head, reorderedQ, _, put, rfl⟩ := fires
      refine .inr (.inr ⟨tag, ot, s.order.orderShiftedQ, bypassQ, reorderedQ, ?_, done, rfl,
        head, put, rfl⟩)
      rw [tagRetired, retires, if_pos done, Fifo.first_eq_some.mpr ⟨_, head⟩]
    next waiting =>
      cases fires
      refine .inl ⟨?_, rfl⟩
      rw [tagRetired, retires, if_neg waiting]

/-- The burst for which the first free tag is taken. -/
theorem burstMade_eq {tag : BitVec 8} {rest : List (BitVec 8)}
    (taken : s.tags.freeReadTagQ.items = tag :: rest)
    : s.burstMade
      = some (tag,
        4 * (splitRead s.reads.dmaReadStartAddr s.reads.dmaReadWords).words.toNat) := by
  rw [burstMade, Fifo.first_eq_some.mpr ⟨_, taken⟩]
  rfl

end PcieCtrl

namespace TagLog

/-- The tag of a burst is the last one taken. -/
theorem tags_burst {tag : BitVec 8} {dws : Nat} (made : s.burstMade = some (tag, dws))
    : (log.record s .splitDmaReadReq2).tags = log.tags ++ [tag] := by
  simp only [tags, record, made, Option.toList_some, List.map_append, List.map_singleton]

/-- The DWs of a burst are requested with its tag. -/
theorem askedDWs_burst {tag : BitVec 8} {dws : Nat} (made : s.burstMade = some (tag, dws))
    (other : BitVec 8)
    : (log.record s .splitDmaReadReq2).askedDWs other
      = log.askedDWs other + if tag = other then dws else 0 := by
  simp only [askedDWs, record, made, Option.toList_some, withLabel_snoc]
  split
  next => rw [List.sum_append, List.sum_singleton]
  next => rfl

/-- A word is written for the tag in `tagWordsLeft`. -/
theorem writtenDWs_word (other : BitVec 8)
    : (log.record s .writeReadBuffer).writtenDWs other
      = log.writtenDWs other + if s.bursts.tagWordsLeft.tag = other then 4 else 0 := by
  simp only [writtenDWs, record, List.count_append, List.count_singleton, beq_iff_eq]
  split
  next => rw [Nat.mul_add]
  next => rfl

/-- A tag with something requested has been taken. -/
theorem mem_tags_of_asked {tag : BitVec 8} (asked : 0 < log.askedDWs tag) : tag ∈ log.tags := by
  by_contra absent
  have none : withLabel tag log.bursts = [] := by
    rw [withLabel, List.map_eq_nil_iff, List.filter_eq_nil_iff]
    intro burst member same
    exact absent (List.mem_map.mpr ⟨burst, member, of_decide_eq_true same⟩)
  rw [askedDWs, none] at asked
  exact absurd asked (Nat.lt_irrefl 0)

end TagLog

end

-----------------------------------------------------------------------------------------
-- The property
-----------------------------------------------------------------------------------------

/-- Where the read tags are: each of them is free or is held by one burst, the bursts retire and
give back their tags in order; and a tag's bit in the two maps tells that its data is received and
its burst has not retired.
-/
structure TagsConserved (s : PcieCtrl) (log : TagLog) : Prop where
  inOrder : log.freed <+: log.retired ∧ log.retired <+: log.tags
  pool
    : (s.tags.freeReadTagQ.items ++ s.tags.freeReadTagFQ.items ++ log.outstanding).Perm
        ((List.range 128).map (BitVec.ofNat 8))
  bit
    : ∀ tag : BitVec 8, tag < 128 →
        ((s.order.doneTagMap ^^^ s.order.orderTagMap).getLsbD tag.toNat = true
          ↔ log.Received tag ∧ log.Shifted tag ∧ tag ∈ log.unretired)

end BluespecPcie
