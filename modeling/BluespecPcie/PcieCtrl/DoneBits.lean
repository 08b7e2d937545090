import BluespecPcie.PcieCtrl.BurstCounts
import BluespecPcie.PcieCtrl.TagFlow

/-! The bits of `doneTagMap`: a tag's bit is toggled once for each of its bursts, when all its data
is in the reorder buffer.
-/

namespace BluespecPcie

open Bluespec

namespace PcieCtrl

/-- The tags that are reported done and are not in the shifter yet. -/
def reportedTags (s : PcieCtrl) : List (BitVec 8) := s.bursts.readDoneTagQ.items.map Prod.fst

/-- How many maps in `doneShifter` have the bit of a tag. -/
def shiftingMaps (s : PcieCtrl) (tag : BitVec 8) : Nat :=
  (s.order.doneShifter.results leftShiftBits).countP (fun v => v.getLsbD tag.toNat)

end PcieCtrl

-----------------------------------------------------------------------------------------
-- The invariant
-----------------------------------------------------------------------------------------

/-- A tag's bit is toggled, or will be by a report or a map on its way, once for each burst but the
one whose data is not all received; `doneTagMap` has the parity of its toggles; no tag retires more
often than its bit is toggled; and its entry in `doneMap` has the tag itself from its first report
on.
-/
structure DoneBits (s : PcieCtrl) (log : TagLog) : Prop where
  toggled
    : ∀ tag : BitVec 8, tag < 128 →
        log.toggles tag + s.shiftingMaps tag + s.reportedTags.count tag
            + (if log.Received tag then 0 else 1)
          = log.tags.count tag
  parity
    : ∀ tag : BitVec 8, tag < 128 →
        s.order.doneTagMap.getLsbD tag.toNat = decide (log.toggles tag % 2 = 1)
  ahead : ∀ tag : BitVec 8, tag < 128 → log.retired.count tag ≤ log.toggles tag
  named
    : ∀ tag : BitVec 8, tag < 128 → 0 < log.toggles tag + s.shiftingMaps tag →
        (s.order.doneMap.mem tag).1 = tag
  bounded : ∀ tag ∈ s.reportedTags, tag < 128

section

variable {s s' : PcieCtrl} {log log' : TagLog}

/-- After reset no bit is set. -/
theorem doneBits_reset (p : PowerUp) : DoneBits (mkPcieCtrl p) {} := by
  have none (tag : BitVec 8) : (mkPcieCtrl p).shiftingMaps tag = 0 := by
    simp [PcieCtrl.shiftingMaps, mkPcieCtrl]
  refine ⟨?_, ?_, fun _ _ => Nat.le_refl _, ?_, ?_⟩
  · intro tag _
    rw [none]
    rfl
  · intro tag _
    simp [mkPcieCtrl, TagLog.toggles]
  · intro tag _ some
    rw [none] at some
    exact absurd some (Nat.lt_irrefl 0)
  · intro tag reported
    exact absurd reported List.not_mem_nil

/-- What does not concern the bits keeps them. -/
theorem DoneBits.frame (bits : DoneBits s log)
    (shifter : s'.order.doneShifter = s.order.doneShifter)
    (reported : s'.reportedTags = s.reportedTags)
    (doneTagMap : s'.order.doneTagMap = s.order.doneTagMap)
    (doneMap : s'.order.doneMap.mem = s.order.doneMap.mem)
    (bursts : log'.bursts = log.bursts) (written : log'.written = log.written)
    (shifted : log'.shifted = log.shifted) (retired : log'.retired = log.retired)
    : DoneBits s' log' := by
  obtain ⟨toggled, parity, ahead, named, bounded⟩ := bits
  have toggles (tag : BitVec 8) : log'.toggles tag = log.toggles tag := by
    rw [TagLog.toggles, shifted, TagLog.toggles]
  have shifting (tag : BitVec 8) : s'.shiftingMaps tag = s.shiftingMaps tag := by
    rw [PcieCtrl.shiftingMaps, shifter, PcieCtrl.shiftingMaps]
  have received (tag : BitVec 8) : log'.Received tag = log.Received tag := by
    rw [TagLog.Received, TagLog.writtenDWs, TagLog.askedDWs, written, bursts]
    rfl
  have tags : log'.tags = log.tags := by rw [TagLog.tags, bursts, TagLog.tags]
  refine ⟨?_, ?_, ?_, ?_, ?_⟩
  · intro tag within
    simp only [toggles, shifting, reported, received, tags]
    exact toggled tag within
  · intro tag within
    rw [doneTagMap, toggles]
    exact parity tag within
  · intro tag within
    rw [retired, toggles]
    exact ahead tag within
  · intro tag within
    rw [toggles, shifting, doneMap]
    exact named tag within
  · rw [reported]
    exact bounded

-----------------------------------------------------------------------------------------
-- What the bits say of a tag
-----------------------------------------------------------------------------------------

/-- All data of a tag that is not in line is received. -/
theorem DoneBits.received (bits : DoneBits s log) (flow : TagFlow s log) {tag : BitVec 8}
    (within : tag < 128) (absent : tag ∉ s.unretiredTags)
    : log.Received tag := by
  have toggled := bits.toggled tag within
  have ahead := bits.ahead tag within
  rw [flow.count_tags, if_neg absent] at toggled
  by_contra missing
  rw [if_neg missing] at toggled
  omega

/-- All data of the free tags is received. -/
theorem DoneBits.received_free (bits : DoneBits s log) (flow : TagFlow s log)
    : ∀ tag ∈ s.tags.freeReadTagQ.items, log.Received tag := by
  intro tag free
  have isFree : tag ∈ s.freeTags := List.mem_append_left _ free
  refine bits.received flow (flow.within (List.mem_append_left _ isFree)) ?_
  intro unretired
  exact (List.nodup_append.mp flow.apart).2.2 tag isFree tag
    (List.mem_append_right _ unretired) rfl

/-- A tag that has retired finds its own entry in `doneMap`. -/
theorem DoneBits.named_retired (bits : DoneBits s log) (flow : TagFlow s log)
    : ∀ tag ∈ s.order.doneReorderedTagQ.items, (s.order.doneMap.mem tag).1 = tag := by
  intro tag waiting
  have isRetired : tag ∈ s.retiredTags := List.mem_append_right _ waiting
  have within : tag < 128 :=
    flow.within (List.mem_append_right _ (List.mem_append_left _ isRetired))
  have once : 0 < log.retired.count tag := by
    refine List.count_pos_iff.mpr ?_
    rw [flow.retired]
    exact List.mem_append_right _ isRetired
  have ahead := bits.ahead tag within
  exact bits.named tag within (by omega)

/-- The bits of a tag differ exactly if its data is received, it is toggled for all of its bursts,
and the last of them has not retired.
-/
theorem DoneBits.differ_iff (bits : DoneBits s log) (flow : TagFlow s log) {tag : BitVec 8}
    (within : tag < 128)
    : (s.order.doneTagMap ^^^ s.order.orderTagMap).getLsbD tag.toNat = true
      ↔ log.Received tag ∧ log.Shifted tag ∧ tag ∈ s.unretiredTags := by
  have toggled := bits.toggled tag within
  have ahead := bits.ahead tag within
  have uses := flow.count_tags tag
  rw [BitVec.getLsbD_xor, bits.parity tag within, flow.parity tag within, TagLog.Shifted]
  have differ : (decide (log.toggles tag % 2 = 1) ^^ decide (log.retired.count tag % 2 = 1)) = true
      ↔ log.toggles tag % 2 ≠ log.retired.count tag % 2 := by
    rw [Bool.xor_iff_ne, ne_eq, decide_eq_decide]
    omega
  rw [differ]
  by_cases unretired : tag ∈ s.unretiredTags
  · rw [if_pos unretired] at uses
    by_cases received : log.Received tag
    · rw [if_pos received] at toggled
      simp only [received, unretired, true_and, and_true]
      omega
    · rw [if_neg received] at toggled
      simp only [received, false_and, iff_false, not_not]
      omega
  · rw [if_neg unretired] at uses
    simp only [unretired, and_false, iff_false, not_not]
    omega

-----------------------------------------------------------------------------------------
-- Steps
-----------------------------------------------------------------------------------------

/-- A burst takes a tag of which everything is received. -/
theorem DoneBits.splitDmaReadReq2 (bits : DoneBits s log) (kept : BurstCounts s log)
    (all : ∀ tag ∈ s.tags.freeReadTagQ.items, log.Received tag)
    (fires : s.splitDmaReadReq2 = some s')
    : DoneBits s' (log.record s .splitDmaReadReq2) := by
  obtain ⟨busy, tag, freeReadTagQ, _, _, _, taken, -, -, -, rfl⟩ :=
    PcieCtrl.splitDmaReadReq2_cases fires
  have received : log.Received tag := all tag (by simp [taken])
  have made := PcieCtrl.burstMade_eq taken
  have some := (splitRead_covers kept.aligned busy).nonempty
  obtain ⟨toggled, parity, ahead, named, bounded⟩ := bits
  refine ⟨?_, parity, ahead, named, bounded⟩
  intro other within
  have before := toggled other within
  have wants : (log.record s .splitDmaReadReq2).Received other
      ↔ log.writtenDWs other = log.askedDWs other
        + if tag = other then
            4 * (splitRead s.reads.dmaReadStartAddr s.reads.dmaReadWords).words.toNat
          else 0 := by
    rw [TagLog.Received, TagLog.askedDWs_burst made]
    rfl
  rw [TagLog.tags_burst made, List.count_append, List.count_singleton, ← before]
  change log.toggles other + s.shiftingMaps other + s.reportedTags.count other + _ = _
  by_cases mine : tag = other
  · subst mine
    have less : ¬(log.record s .splitDmaReadReq2).Received tag := by
      rw [wants, if_pos rfl]
      rw [TagLog.Received] at received
      omega
    rw [if_neg less, if_pos received, if_pos (beq_self_eq_true tag)]
  · have same : (log.record s .splitDmaReadReq2).Received other ↔ log.Received other := by
      rw [wants, if_neg mine]
      rfl
    simp only [same, beq_eq_false_iff_ne.mpr mine]
    rfl

/-- A word is written; with the last one of a burst its tag is reported. -/
theorem DoneBits.writeReadBuffer (bits : DoneBits s log) (kept : BurstCounts s log)
    (flow : TagFlow s log) (fires : s.writeReadBuffer = some s')
    : DoneBits s' (log.record s .writeReadBuffer) := by
  obtain ⟨busy, _, _, readDoneTagQ, -, reported, rfl⟩ := PcieCtrl.writeReadBuffer_cases fires
  obtain ⟨-, -, finished, owed⟩ := kept.word busy
  have taken : s.bursts.tagWordsLeft.tag ∈ log.tags := TagLog.mem_tags_of_asked (by omega)
  have mineWithin := flow.bounded _ taken
  obtain ⟨toggled, parity, ahead, named, bounded⟩ := bits
  have reports : readDoneTagQ.items.map Prod.fst
      = s.reportedTags ++ if s.bursts.tagWordsLeft.finished then [s.bursts.tagWordsLeft.tag]
        else [] := by
    split at reported
    next last =>
      rw [reported, if_pos last, List.map_append]
      rfl
    next more =>
      rw [reported, if_neg more, List.append_nil]
      rfl
  refine ⟨?_, parity, ahead, named, ?_⟩
  · intro other within
    have before := toggled other within
    change log.toggles other + s.shiftingMaps other + (readDoneTagQ.items.map Prod.fst).count other
      + _ = log.tags.count other
    rw [reports, List.count_append, ← before]
    have wants : (log.record s .writeReadBuffer).Received other
        ↔ log.writtenDWs other + (if s.bursts.tagWordsLeft.tag = other then 4 else 0)
          = log.askedDWs other := by
      rw [TagLog.Received, TagLog.writtenDWs_word]
      rfl
    by_cases mine : s.bursts.tagWordsLeft.tag = other
    · subst mine
      have missing : ¬log.Received s.bursts.tagWordsLeft.tag := by
        rw [TagLog.Received]
        omega
      rw [if_pos rfl] at wants
      rw [if_neg missing]
      by_cases last : s.bursts.tagWordsLeft.finished
      · rw [if_pos last, if_pos (wants.mpr (finished.mp last).symm), List.count_singleton_self]
        omega
      · rw [if_neg last, if_neg (fun all => last (finished.mpr (wants.mp all).symm)),
          List.count_nil]
        omega
    · have same : (log.record s .writeReadBuffer).Received other ↔ log.Received other := by
        rw [wants, if_neg mine]
        rfl
      have unreported : (if s.bursts.tagWordsLeft.finished then [s.bursts.tagWordsLeft.tag]
          else []).count other = 0 := by
        split
        · exact List.count_eq_zero.mpr (fun member => mine (List.mem_singleton.mp member).symm)
        · rfl
      simp only [same, unreported]
      rfl
  · intro other member
    change other ∈ readDoneTagQ.items.map Prod.fst at member
    rw [reports] at member
    rcases List.mem_append.mp member with old | new
    case inl => exact bounded other old
    case inr =>
      split at new
      next =>
        obtain rfl := List.mem_singleton.mp new
        exact mineWithin
      next => cases new

/-- The report of a tag goes to `doneMap`, and its map enters the shifter. -/
theorem DoneBits.applyDoneMap (bits : DoneBits s log) (fires : s.applyDoneMap = some s')
    : DoneBits s' log := by
  obtain ⟨d, readDoneTagQ, doneShifter, taken, entered, rfl⟩ := PcieCtrl.applyDoneMap_cases fires
  obtain ⟨toggled, parity, ahead, named, bounded⟩ := bits
  have reported : s.reportedTags = d.1 :: readDoneTagQ.items.map Prod.fst := by
    rw [PcieCtrl.reportedTags, taken]
    rfl
  have within : d.1 < 128 := bounded d.1 (by simp [reported])
  have shifted := results_oneHot within entered
  have more {other : BitVec 8} (inside : other < 128)
      : (doneShifter.results leftShiftBits).countP (fun v => v.getLsbD other.toNat)
        = s.shiftingMaps other + if d.1 = other then 1 else 0 := by
    rw [shifted, List.countP_append, List.countP_singleton, getLsbD_oneHot _ inside,
      PcieCtrl.shiftingMaps]
    simp only [decide_eq_true_eq]
  refine ⟨?_, parity, ahead, ?_, ?_⟩
  · intro other inside
    have before := toggled other inside
    change log.toggles other
        + (doneShifter.results leftShiftBits).countP (fun v => v.getLsbD other.toNat)
        + (readDoneTagQ.items.map Prod.fst).count other + _ = _
    rw [reported, List.count_cons] at before
    rw [more inside, ← before]
    simp only [beq_iff_eq]
    omega
  · intro other inside some
    change (Function.update s.order.doneMap.mem d.1 d other).1 = other
    change 0 < log.toggles other
      + (doneShifter.results leftShiftBits).countP (fun v => v.getLsbD other.toNat) at some
    rw [more inside] at some
    by_cases mine : other = d.1
    · rw [mine, Function.update_self]
    · rw [Function.update_of_ne mine]
      rw [if_neg (Ne.symm mine)] at some
      exact named other inside some
  · intro other member
    exact bounded other (reported ▸ List.mem_cons_of_mem _ member)

/-- The oldest map leaves the shifter and toggles `doneTagMap`. -/
theorem DoneBits.procDoneShift (bits : DoneBits s log) (fires : s.procDoneShift = some s')
    : DoneBits s' (log.record s .procDoneShift) := by
  obtain ⟨⟨v, doneShifter⟩, taken, ⟨⟩⟩ := Option.bind_eq_some_iff.mp fires
  obtain ⟨toggled, parity, ahead, named, bounded⟩ := bits
  have results
      : s.order.doneShifter.results leftShiftBits = v :: doneShifter.results leftShiftBits :=
    PipelineShifter.getVal_results taken
  have head : s.order.doneShifter.outputFifo.items.head? = some v := by
    obtain ⟨⟨w, rest⟩, out, same⟩ := Option.bind_eq_some_iff.mp taken
    cases same
    rw [Fifo.deq_eq_some.mp out]
    rfl
  have less (tag : BitVec 8)
      : s.shiftingMaps tag
        = (doneShifter.results leftShiftBits).countP (fun v => v.getLsbD tag.toNat)
          + if v.getLsbD tag.toNat then 1 else 0 := by
    rw [PcieCtrl.shiftingMaps, results, List.countP_cons]
  have more (tag : BitVec 8)
      : (log.record s .procDoneShift).toggles tag
        = log.toggles tag + if v.getLsbD tag.toNat then 1 else 0 := by
    simp only [TagLog.toggles, TagLog.record, head, Option.toList_some, List.countP_append,
      List.countP_singleton]
  refine ⟨?_, ?_, ?_, ?_, bounded⟩
  · intro tag within
    have before := toggled tag within
    rw [less] at before
    rw [more]
    change _ + (doneShifter.results leftShiftBits).countP (fun v => v.getLsbD tag.toNat)
      + s.reportedTags.count tag + (if log.Received tag then 0 else 1) = log.tags.count tag
    omega
  · intro tag within
    change (s.order.doneTagMap ^^^ v).getLsbD tag.toNat = _
    rw [BitVec.getLsbD_xor, parity tag within, more]
    cases v.getLsbD tag.toNat with
    | true =>
        simp only [if_true, Bool.xor_true]
        rw [← decide_not]
        exact decide_eq_decide.mpr (by omega)
    | false => simp
  · intro tag within
    rw [more]
    exact Nat.le_add_right_of_le (ahead tag within)
  · intro tag within some
    refine named tag within ?_
    rw [more] at some
    rw [less]
    change 0 < _ + (doneShifter.results leftShiftBits).countP (fun v => v.getLsbD tag.toNat) at some
    omega

theorem DoneBits.doneShifterStage {i : Nat} (bits : DoneBits s log)
    (fires : s.doneShifterStage i = some s')
    : DoneBits s' log := by
  obtain ⟨doneShifter, moved, ⟨⟩⟩ := Option.bind_eq_some_iff.mp fires
  obtain ⟨toggled, parity, ahead, named, bounded⟩ := bits
  have shifting (tag : BitVec 8)
      : (doneShifter.results leftShiftBits).countP (fun v => v.getLsbD tag.toNat)
        = s.shiftingMaps tag := by
    rw [PipelineShifter.doStage_results moved, PcieCtrl.shiftingMaps]
  refine ⟨?_, parity, ahead, ?_, bounded⟩
  · intro tag within
    change _ + (doneShifter.results leftShiftBits).countP (fun v => v.getLsbD tag.toNat) + _ + _ = _
    rw [shifting]
    exact toggled tag within
  · intro tag within
    change 0 < _ + (doneShifter.results leftShiftBits).countP (fun v => v.getLsbD tag.toNat) → _
    rw [shifting]
    exact named tag within

/-- A tag retires only if its bits differ, so it has been toggled once more than retired. -/
theorem DoneBits.compareOrder (bits : DoneBits s log) (flow : TagFlow s log)
    (fires : s.compareOrder = some s')
    : DoneBits s' (log.record s .compareOrder) := by
  rcases PcieCtrl.compareOrder_retires fires with
    ⟨none, rfl⟩ | ⟨none, _, _, -, -, rfl⟩ | ⟨tag, v, _, _, _, retires, done, first, taken, -, rfl⟩
  case inl =>
    refine bits.frame rfl rfl rfl rfl rfl rfl rfl ?_
    simp only [TagLog.record, none, Option.toList_none, List.append_nil]
  case inr.inl =>
    refine bits.frame rfl rfl rfl rfl rfl rfl rfl ?_
    simp only [TagLog.record, none, Option.toList_none, List.append_nil]
  case inr.inr =>
    obtain ⟨toggled, parity, ahead, named, bounded⟩ := bits
    refine ⟨toggled, parity, ?_, named, bounded⟩
    have maps := flow.maps
    rw [PcieCtrl.mapsInOrder, first, taken, List.cons_append, List.cons_append,
      List.map_cons] at maps
    obtain ⟨rfl, -⟩ := List.cons.inj maps
    have mineWithin : tag < 128 := flow.within (by simp [PcieCtrl.unretiredTags, taken])
    have differ := isDone_oneHot done
    rw [flow.parity tag mineWithin, parity tag mineWithin] at differ
    intro other within
    change (log.retired ++ s.tagRetired.toList).count other ≤ log.toggles other
    rw [retires, Option.toList_some, List.count_append, List.count_singleton]
    have before := ahead other within
    by_cases mine : tag = other
    · subst mine
      have fewer : log.retired.count tag ≠ log.toggles tag := fun same => differ (by rw [same])
      rw [if_pos (beq_self_eq_true tag)]
      omega
    · rw [if_neg (by simpa using mine)]
      exact before

/-- Every event keeps the bits. -/
theorem DoneBits.step {e : Event} (bits : DoneBits s log) (kept : BurstCounts s log)
    (flow : TagFlow s log) (fires : s.step e = some s')
    : DoneBits s' (log.record s e) := by
  have same := step_unchanged fires
  cases e with
  | splitDmaReadReq2 =>
      exact bits.splitDmaReadReq2 kept (bits.received_free flow) fires
  | writeReadBuffer => exact bits.writeReadBuffer kept flow fires
  | applyDoneMap => exact bits.applyDoneMap fires
  | procDoneShift => exact bits.procDoneShift fires
  | doneShifterStage i => exact bits.doneShifterStage fires
  | compareOrder => exact bits.compareOrder flow fires
  | procCompletionTLP =>
      obtain ⟨_, _, _, _, _, _, _, _, _, rfl⟩ := PcieCtrl.procCompletionTLP_cases fires
      exact bits.frame rfl rfl rfl rfl rfl rfl rfl rfl
  | filterStatReadTLP =>
      obtain ⟨_, _, _, _, _, _, _, ⟨_, _, _, _, _, rfl⟩ | ⟨_, _, _, _, rfl⟩
        | ⟨_, _, _, _, _, _, rfl⟩⟩ := PcieCtrl.filterStatReadTLP_cases fires
      all_goals exact bits.frame rfl rfl rfl rfl rfl rfl rfl rfl
  | relayReadBurst =>
      obtain ⟨⟨_, _⟩, _, rest⟩ := Option.bind_eq_some_iff.mp fires
      obtain ⟨_, _, ⟨⟩⟩ := Option.bind_eq_some_iff.mp rest
      exact bits.frame rfl rfl rfl rfl rfl rfl rfl rfl
  | updateReadBurst1 =>
      obtain ⟨_, rfl | ⟨_, _, _, _, _, _, _, _, _, _, rfl⟩⟩ := PcieCtrl.updateReadBurst1_cases fires
      all_goals exact bits.frame rfl rfl rfl rfl rfl rfl rfl rfl
  | getTagMapReadA =>
      obtain ⟨⟨_, _⟩, _, rest⟩ := Option.bind_eq_some_iff.mp fires
      obtain ⟨_, _, ⟨⟩⟩ := Option.bind_eq_some_iff.mp rest
      exact bits.frame rfl rfl rfl rfl rfl rfl rfl rfl
  | updateReadBurst2 =>
      obtain ⟨_, _, _, _, _, _, _, _, _, _, _, rfl⟩ := PcieCtrl.updateReadBurst2_cases fires
      exact bits.frame rfl rfl rfl rfl rfl rfl rfl rfl
  | relayDmaReadrQ =>
      obtain ⟨⟨_, _⟩, _, rest⟩ := Option.bind_eq_some_iff.mp fires
      obtain ⟨_, _, ⟨⟩⟩ := Option.bind_eq_some_iff.mp rest
      exact bits.frame rfl rfl rfl rfl rfl rfl rfl rfl
  | generateDmaReadTLP =>
      obtain ⟨_, _, _, _, _, _, _, _, _, _, rfl⟩ := PcieCtrl.generateDmaReadTLP_cases fires
      exact bits.frame rfl rfl rfl rfl rfl rfl rfl rfl
  | shiftOrder =>
      obtain ⟨⟨_, _⟩, _, rest⟩ := Option.bind_eq_some_iff.mp fires
      obtain ⟨_, _, last⟩ := Option.bind_eq_some_iff.mp rest
      obtain ⟨_, _, ⟨⟩⟩ := Option.bind_eq_some_iff.mp last
      exact bits.frame rfl rfl rfl rfl rfl rfl rfl rfl
  | forwardShiftOrderTagBypass =>
      obtain ⟨⟨_, _⟩, _, rest⟩ := Option.bind_eq_some_iff.mp fires
      obtain ⟨_, _, ⟨⟩⟩ := Option.bind_eq_some_iff.mp rest
      exact bits.frame rfl rfl rfl rfl rfl rfl rfl rfl
  | forwardShifted =>
      obtain ⟨⟨_, _⟩, _, rest⟩ := Option.bind_eq_some_iff.mp fires
      obtain ⟨_, _, ⟨⟩⟩ := Option.bind_eq_some_iff.mp rest
      exact bits.frame rfl rfl rfl rfl rfl rfl rfl rfl
  | orderShifterStage i =>
      obtain ⟨_, _, ⟨⟩⟩ := Option.bind_eq_some_iff.mp fires
      exact bits.frame rfl rfl rfl rfl rfl rfl rfl rfl
  | reqDoneTag =>
      simp only [PcieCtrl.step, PcieCtrl.reqDoneTag, Option.bind_eq_bind, Option.pure_def,
        Fifo.bind_deq_eq_some, Bram2.bind_readB_eq_some, Option.some.injEq] at fires
      obtain ⟨_, _, _, _, _, _, rfl⟩ := fires
      exact bits.frame rfl rfl rfl rfl rfl rfl rfl rfl
  | forwardDoneTag =>
      simp only [PcieCtrl.step, PcieCtrl.forwardDoneTag, Option.bind_eq_bind, Option.pure_def,
        Bram2.bind_getB_eq_some, Fifo.bind_enq_eq_some, Option.some.injEq] at fires
      obtain ⟨_, _, _, _, _, _, rfl⟩ := fires
      exact bits.frame rfl rfl rfl rfl rfl rfl rfl rfl
  | flushReadTag =>
      obtain ⟨_, _, _, _, _, _, _, _, _, rfl⟩ | rfl | ⟨_, _, _, rfl⟩ :=
        PcieCtrl.flushReadTag_cases fires
      all_goals exact bits.frame rfl rfl rfl rfl rfl rfl rfl rfl
  | _ =>
      have bursts := same.bursts (by simp [Event.parts])
      have order := same.order (by simp [Event.parts])
      refine bits.frame ?_ ?_ ?_ ?_ rfl rfl rfl rfl
      · rw [order]
      · rw [PcieCtrl.reportedTags, bursts, PcieCtrl.reportedTags]
      · rw [order]
      · rw [order]

end

end BluespecPcie
