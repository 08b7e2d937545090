import Mathlib.Data.List.Nodup
import Mathlib.Data.List.Perm.Basic
import BluespecPcie.PcieCtrl.TagLog

/-! The way of a read tag: it is taken for a burst, waits in line until it retires, is flushed, and
is free again; its map goes through `orderShifter` beside it.
-/

namespace BluespecPcie

open Bluespec

-----------------------------------------------------------------------------------------
-- Maps of one tag
-----------------------------------------------------------------------------------------

/-- `1 << tag`, the map of one tag. -/
def oneHot (tag : BitVec 8) : BitVec 128 := 1#128 <<< tag.toNat

theorem getLsbD_oneHot (tag : BitVec 8) {other : BitVec 8} (within : other < 128)
    : (oneHot tag).getLsbD other.toNat = decide (tag = other) := by
  have small : other.toNat < 128 := BitVec.lt_def.mp within
  rw [oneHot, BitVec.getLsbD_shiftLeft, BitVec.getLsbD_one]
  by_cases same : tag = other
  · simp [same, small]
  · have apart : tag.toNat ≠ other.toNat := fun equal => same (BitVec.eq_of_toNat_eq equal)
    rw [decide_eq_false same]
    simp only [small, decide_true, Bool.true_and, Bool.and_eq_false_iff, Bool.not_eq_false',
      decide_eq_true_eq, decide_eq_false_iff_not]
    omega

/-- What enters a shifter as 1, with a tag, leaves it as the map of the tag. -/
theorem results_oneHot {shifter shifter' : PipelineShifter 128 7} {tag : BitVec 8}
    (within : tag < 128) (entered : shifter.rotateByteBy 1 (tag.truncate 7) = some shifter')
    : shifter'.results leftShiftBits = shifter.results leftShiftBits ++ [oneHot tag] := by
  have small : tag.toNat < 128 := BitVec.lt_def.mp within
  rw [PipelineShifter.rotateByteBy_results (by decide) entered, finish_leftShiftBits,
    BitVec.truncate_eq_setWidth, BitVec.toNat_setWidth, Nat.mod_eq_of_lt small]
  rfl

/-- A bit of a map that is exclusive-or'ed with the map of a tag. -/
theorem getLsbD_xor_oneHot (v : BitVec 128) (tag : BitVec 8) {other : BitVec 8}
    (within : other < 128)
    : (v ^^^ oneHot tag).getLsbD other.toNat = (v.getLsbD other.toNat ^^ decide (tag = other)) := by
  rw [BitVec.getLsbD_xor, getLsbD_oneHot tag within]

/-- A tag is done if its bit differs in the two maps. -/
theorem isDone_oneHot {s : PcieCtrl} {tag : BitVec 8} (done : s.isDone (oneHot tag))
    : s.order.orderTagMap.getLsbD tag.toNat ≠ s.order.doneTagMap.getLsbD tag.toNat := by
  intro same
  have none : oneHot tag &&& (s.order.orderTagMap ^^^ s.order.doneTagMap) = 0#128 := by
    apply BitVec.eq_of_getLsbD_eq
    intro i small
    have bound : i < 2 ^ 8 := by omega
    have index : (BitVec.ofNat 8 i).toNat = i := by
      rw [BitVec.toNat_ofNat, Nat.mod_eq_of_lt bound]
    have inside : BitVec.ofNat 8 i < 128 := by
      rw [BitVec.lt_def, index]
      exact small
    rw [BitVec.getLsbD_and, BitVec.getLsbD_xor, BitVec.getLsbD_zero, ← index,
      getLsbD_oneHot tag inside]
    by_cases mine : tag = BitVec.ofNat 8 i
    · rw [← mine, same]
      simp
    · rw [decide_eq_false mine, Bool.false_and]
  rw [PcieCtrl.isDone, none] at done
  exact absurd done (by decide)

-----------------------------------------------------------------------------------------
-- Where the tags are
-----------------------------------------------------------------------------------------

namespace PcieCtrl

/-- The tags of the bursts that have not retired, oldest first. -/
def unretiredTags (s : PcieCtrl) : List (BitVec 8) :=
  s.order.orderTagBypassQ2.items ++ s.order.orderTagBypassQ1.items
    ++ s.order.dmaReadTagOrderQ.items ++ s.reads.dmaPageReadReqQ.items.map DMAReq.tag

/-- The tags that have retired and wait for the flush, oldest first. -/
def retiredTags (s : PcieCtrl) : List (BitVec 8) :=
  s.order.orderedReadDoneTagQ.items.map Prod.fst
    ++ s.order.doneMap.respB.items.map Prod.fst ++ s.order.doneReorderedTagQ.items

/-- The tags that are free. -/
def freeTags (s : PcieCtrl) : List (BitVec 8) :=
  s.tags.freeReadTagQ.items ++ s.tags.freeReadTagFQ.items

/-- The maps of tags that wait for `compareOrder`, oldest first. -/
def mapsInOrder (s : PcieCtrl) : List (BitVec 128) :=
  s.order.curOrderTag.toList ++ s.order.orderShiftedQ.items
    ++ s.order.orderShifter.results leftShiftBits

end PcieCtrl

/-- The tags from 0 on. -/
def firstTags (n : Nat) : List (BitVec 8) := (List.range n).map (BitVec.ofNat 8)

theorem nodup_firstTags {n : Nat} (few : n ≤ 128) : (firstTags n).Nodup := by
  refine List.Nodup.map_on ?_ List.nodup_range
  intro i member j member' same
  have equal := congrArg BitVec.toNat same
  rw [List.mem_range] at member member'
  rwa [BitVec.toNat_ofNat, BitVec.toNat_ofNat, Nat.mod_eq_of_lt (by omega),
    Nat.mod_eq_of_lt (by omega)] at equal

theorem lt_of_mem_firstTags {n : Nat} (few : n ≤ 128) {tag : BitVec 8} (member : tag ∈ firstTags n)
    : tag < 128 := by
  obtain ⟨i, within, rfl⟩ := List.mem_map.mp member
  rw [List.mem_range] at within
  rw [BitVec.lt_def, BitVec.toNat_ofNat, Nat.mod_eq_of_lt (by omega)]
  change i < 128
  omega

/-- The tags that were inserted are free, or with their bursts; the bursts retire in the order in
which they were made and are flushed in the order in which they retire; and `orderTagMap` has the
parity of how often a tag has retired.
-/
structure TagFlow (s : PcieCtrl) (log : TagLog) : Prop where
  few : s.tags.freeTagCnt.toNat ≤ 128
  pool
    : (s.freeTags ++ (s.retiredTags ++ s.unretiredTags)).Perm (firstTags s.tags.freeTagCnt.toNat)
  retired : log.retired = log.freed ++ s.retiredTags
  made : log.tags = log.retired ++ s.unretiredTags
  bounded : ∀ tag ∈ log.tags, tag < 128
  maps
    : s.mapsInOrder
      = (s.order.orderTagBypassQ2.items ++ s.order.orderTagBypassQ1.items).map oneHot
  parity
    : ∀ tag : BitVec 8, tag < 128 →
        s.order.orderTagMap.getLsbD tag.toNat = decide (log.retired.count tag % 2 = 1)

section

variable {s s' : PcieCtrl} {log log' : TagLog}

/-- After reset there is no tag yet. -/
theorem tagFlow_reset (p : PowerUp) : TagFlow (mkPcieCtrl p) {} := by
  refine ⟨Nat.zero_le _, .refl _, rfl, rfl, nofun, ?_, ?_⟩
  · simp [PcieCtrl.mapsInOrder, mkPcieCtrl]
  · intro tag _
    simp [mkPcieCtrl]

/-- What does not concern the tags keeps them. -/
theorem TagFlow.frame (flow : TagFlow s log) (count : s'.tags.freeTagCnt = s.tags.freeTagCnt)
    (free : s'.freeTags = s.freeTags) (retired : s'.retiredTags = s.retiredTags)
    (unretired : s'.unretiredTags = s.unretiredTags) (maps : s'.mapsInOrder = s.mapsInOrder)
    (bypass
      : s'.order.orderTagBypassQ2.items ++ s'.order.orderTagBypassQ1.items
        = s.order.orderTagBypassQ2.items ++ s.order.orderTagBypassQ1.items)
    (orderTagMap : s'.order.orderTagMap = s.order.orderTagMap)
    (bursts : log'.tags = log.tags) (logRetired : log'.retired = log.retired)
    (logFreed : log'.freed = log.freed)
    : TagFlow s' log' := by
  obtain ⟨few, pool, inRetired, made, bounded, mapped, parity⟩ := flow
  refine ⟨?_, ?_, ?_, ?_, ?_, ?_, ?_⟩
  · rw [count]
    exact few
  · rw [free, retired, unretired, count]
    exact pool
  · rw [logRetired, logFreed, retired]
    exact inRetired
  · rw [bursts, logRetired, unretired]
    exact made
  · rw [bursts]
    exact bounded
  · rw [maps, bypass]
    exact mapped
  · rw [orderTagMap, logRetired]
    exact parity

-----------------------------------------------------------------------------------------
-- What is known of a tag
-----------------------------------------------------------------------------------------

/-- No tag is in two places. -/
theorem TagFlow.apart (flow : TagFlow s log)
    : (s.freeTags ++ (s.retiredTags ++ s.unretiredTags)).Nodup :=
  flow.pool.nodup_iff.mpr (nodup_firstTags flow.few)

/-- The tags are below 128. -/
theorem TagFlow.within (flow : TagFlow s log) {tag : BitVec 8}
    (member : tag ∈ s.freeTags ++ (s.retiredTags ++ s.unretiredTags))
    : tag < 128 :=
  lt_of_mem_firstTags flow.few (flow.pool.mem_iff.mp member)

/-- How often a tag has been taken: as often as it has retired, and once more while it is in line.
-/
theorem TagFlow.count_tags (flow : TagFlow s log) (tag : BitVec 8)
    : log.tags.count tag = log.retired.count tag + if tag ∈ s.unretiredTags then 1 else 0 := by
  have once : s.unretiredTags.Nodup := by
    have apart := flow.apart
    rw [← List.append_assoc] at apart
    exact (List.nodup_append.mp apart).2.1
  rw [flow.made, List.count_append, once.count]

-----------------------------------------------------------------------------------------
-- Steps
-----------------------------------------------------------------------------------------

/-- The next tag is inserted. -/
theorem TagFlow.insertFreeTag (flow : TagFlow s log) (fires : s.insertFreeTag = some s')
    : TagFlow s' log := by
  obtain ⟨more, freeReadTagQ, freeWriteTagQ, put, -, rfl⟩ := PcieCtrl.insertFreeTag_cases fires
  obtain ⟨few, pool, retired, made, bounded, maps, parity⟩ := flow
  have below : s.tags.freeTagCnt.toNat < 128 := by bv_omega
  have next : (s.tags.freeTagCnt + 1).toNat = s.tags.freeTagCnt.toNat + 1 := by bv_omega
  refine ⟨?_, ?_, retired, made, bounded, maps, parity⟩
  · change (s.tags.freeTagCnt + 1).toNat ≤ 128
    omega
  · change ((freeReadTagQ.items ++ s.tags.freeReadTagFQ.items)
        ++ (s.retiredTags ++ s.unretiredTags)).Perm (firstTags (s.tags.freeTagCnt + 1).toNat)
    rw [put, next, firstTags, List.range_succ, List.map_append, List.map_singleton,
      BitVec.ofNat_toNat, BitVec.setWidth_eq]
    refine List.Perm.trans ?_ (pool.append_right _)
    rw [List.append_assoc, List.append_assoc]
    refine List.Perm.trans (List.perm_middle.trans ?_) (List.perm_append_singleton _ _).symm
    rw [PcieCtrl.freeTags, List.append_assoc]
    exact .refl _

/-- A tag given back moves to the queue of the free ones. -/
theorem TagFlow.relayFreeReadTag (flow : TagFlow s log) (fires : s.relayFreeReadTag = some s')
    : TagFlow s' log := by
  simp only [PcieCtrl.relayFreeReadTag, Option.bind_eq_bind, Option.pure_def,
    Fifo.bind_deq_eq_some, Fifo.bind_enq_eq_some, Option.some.injEq] at fires
  obtain ⟨tag, freeReadTagFQ, taken, freeReadTagQ, -, put, rfl⟩ := fires
  refine flow.frame rfl ?_ rfl rfl rfl rfl rfl rfl rfl rfl
  simp only [PcieCtrl.freeTags, taken, put, List.append_assoc, List.singleton_append]

/-- A free tag is taken for a burst, the last in line. -/
theorem TagFlow.splitDmaReadReq2 (flow : TagFlow s log) (fires : s.splitDmaReadReq2 = some s')
    : TagFlow s' (log.record s .splitDmaReadReq2) := by
  obtain ⟨-, tag, freeReadTagQ, dmaPageReadReqQ, _, _, taken, put, -, -, same⟩ :=
    PcieCtrl.splitDmaReadReq2_cases fires
  have burst : (log.record s .splitDmaReadReq2).tags = log.tags ++ [tag] :=
    TagLog.tags_burst (PcieCtrl.burstMade_eq taken)
  have within : tag < 128 := flow.within (by simp [PcieCtrl.freeTags, taken])
  obtain ⟨few, pool, retired, made, bounded, maps, parity⟩ := flow
  have longer : s'.unretiredTags = s.unretiredTags ++ [tag] := by
    rw [same]
    simp only [PcieCtrl.unretiredTags, put, List.map_append, List.map_singleton,
      List.append_assoc]
  subst same
  refine ⟨few, ?_, retired, ?_, ?_, maps, parity⟩
  · rw [longer]
    refine List.Perm.trans ?_ pool
    change ((freeReadTagQ.items ++ s.tags.freeReadTagFQ.items)
        ++ (s.retiredTags ++ (s.unretiredTags ++ [tag]))).Perm _
    rw [PcieCtrl.freeTags, taken, ← List.append_assoc, ← List.append_assoc]
    refine (List.perm_append_singleton _ _).trans ?_
    rw [List.append_assoc, List.cons_append, List.cons_append]
  · rw [longer, burst, made, List.append_assoc]
    rfl
  · rw [burst]
    intro other member
    rcases List.mem_append.mp member with old | new
    case inl => exact bounded other old
    case inr =>
      obtain rfl := List.mem_singleton.mp new
      exact within

/-- The read request of a burst is sent. -/
theorem TagFlow.generateDmaReadTLP (flow : TagFlow s log)
    (fires : s.generateDmaReadTLP = some s')
    : TagFlow s' log := by
  obtain ⟨req, dmaPageReadReqQ, _, _, dmaReadTagOrderQ, _, taken, -, put, -, rfl⟩ :=
    PcieCtrl.generateDmaReadTLP_cases fires
  refine flow.frame rfl rfl rfl ?_ rfl rfl rfl rfl rfl rfl
  simp only [PcieCtrl.unretiredTags, taken, put, List.map_cons, List.append_assoc,
    List.singleton_append]

/-- A tag goes on in line, and its map enters the shifter. -/
theorem TagFlow.shiftOrder (flow : TagFlow s log) (fires : s.shiftOrder = some s')
    : TagFlow s' log := by
  simp only [PcieCtrl.shiftOrder, Option.bind_eq_bind, Option.pure_def,
    Fifo.bind_deq_eq_some] at fires
  obtain ⟨tag, dmaReadTagOrderQ, taken, fires⟩ := fires
  obtain ⟨orderShifter, entered, fires⟩ := Option.bind_eq_some_iff.mp fires
  simp only [Fifo.bind_enq_eq_some, Option.some.injEq] at fires
  obtain ⟨orderTagBypassQ1, -, put, same⟩ := fires
  have within : tag < 128 := flow.within (by simp [PcieCtrl.unretiredTags, taken])
  have shifted := results_oneHot within entered
  obtain ⟨few, pool, retired, made, bounded, maps, parity⟩ := flow
  have line : s'.unretiredTags = s.unretiredTags := by
    rw [← same]
    simp only [PcieCtrl.unretiredTags, taken, put, List.append_assoc, List.singleton_append]
  subst same
  refine ⟨few, ?_, retired, ?_, bounded, ?_, parity⟩
  · rw [line]
    exact pool
  · rw [line]
    exact made
  · change s.order.curOrderTag.toList ++ s.order.orderShiftedQ.items
        ++ orderShifter.results leftShiftBits
      = (s.order.orderTagBypassQ2.items ++ orderTagBypassQ1.items).map oneHot
    rw [shifted, put, ← List.append_assoc, ← List.append_assoc, List.map_append, ← maps]
    rfl

theorem TagFlow.forwardShiftOrderTagBypass (flow : TagFlow s log)
    (fires : s.forwardShiftOrderTagBypass = some s')
    : TagFlow s' log := by
  simp only [PcieCtrl.forwardShiftOrderTagBypass, Option.bind_eq_bind, Option.pure_def,
    Fifo.bind_deq_eq_some, Fifo.bind_enq_eq_some, Option.some.injEq] at fires
  obtain ⟨tag, orderTagBypassQ1, taken, orderTagBypassQ2, -, put, rfl⟩ := fires
  have bypass : orderTagBypassQ2.items ++ orderTagBypassQ1.items
      = s.order.orderTagBypassQ2.items ++ s.order.orderTagBypassQ1.items := by
    rw [put, taken, List.append_assoc, List.singleton_append]
  refine flow.frame rfl rfl rfl ?_ rfl bypass rfl rfl rfl rfl
  simp only [PcieCtrl.unretiredTags, bypass]

theorem TagFlow.forwardShifted (flow : TagFlow s log) (fires : s.forwardShifted = some s')
    : TagFlow s' log := by
  simp only [PcieCtrl.forwardShifted, Option.bind_eq_bind, Option.pure_def] at fires
  obtain ⟨⟨v, orderShifter⟩, taken, fires⟩ := Option.bind_eq_some_iff.mp fires
  simp only [Fifo.bind_enq_eq_some, Option.some.injEq] at fires
  obtain ⟨orderShiftedQ, -, put, rfl⟩ := fires
  have results
      : s.order.orderShifter.results leftShiftBits = v :: orderShifter.results leftShiftBits :=
    PipelineShifter.getVal_results taken
  refine flow.frame rfl rfl rfl rfl ?_ rfl rfl rfl rfl rfl
  simp only [PcieCtrl.mapsInOrder, put, results, List.append_assoc, List.singleton_append]

theorem TagFlow.orderShifterStage {i : Nat} (flow : TagFlow s log)
    (fires : s.orderShifterStage i = some s')
    : TagFlow s' log := by
  obtain ⟨orderShifter, moved, ⟨⟩⟩ := Option.bind_eq_some_iff.mp fires
  refine flow.frame rfl rfl rfl rfl ?_ rfl rfl rfl rfl rfl
  simp only [PcieCtrl.mapsInOrder, PipelineShifter.doStage_results moved]

/-- The first tag in line retires, or waits in `curOrderTag`. -/
theorem TagFlow.compareOrder (flow : TagFlow s log) (fires : s.compareOrder = some s')
    : TagFlow s' (log.record s .compareOrder) := by
  rcases PcieCtrl.compareOrder_retires fires with
    ⟨none, rfl⟩ | ⟨none, v, orderShiftedQ, current, taken, rfl⟩
      | ⟨tag, v, orderShiftedQ, orderTagBypassQ2, doneReorderedTagQ, retires, -, first, taken, put,
        same⟩
  case inl =>
    refine flow.frame rfl rfl rfl rfl rfl rfl rfl rfl ?_ rfl
    simp only [TagLog.record, none, Option.toList_none, List.append_nil]
  case inr.inl =>
    refine flow.frame rfl rfl rfl rfl ?_ rfl rfl rfl ?_ rfl
    · simp only [PcieCtrl.mapsInOrder, current, taken, Option.toList_some, Option.toList_none,
        List.nil_append, List.singleton_append]
    · simp only [TagLog.record, none, Option.toList_none, List.append_nil]
  case inr.inr =>
    obtain ⟨few, pool, retired, made, bounded, maps, parity⟩ := flow
    have line : s.unretiredTags
        = tag :: (orderTagBypassQ2.items ++ s.order.orderTagBypassQ1.items
          ++ s.order.dmaReadTagOrderQ.items ++ s.reads.dmaPageReadReqQ.items.map DMAReq.tag) := by
      rw [PcieCtrl.unretiredTags, taken]
      rfl
    rw [PcieCtrl.mapsInOrder, first, taken, List.cons_append, List.cons_append,
      List.map_cons] at maps
    obtain ⟨rfl, mapsRest⟩ := List.cons.inj maps
    have more : (log.record s .compareOrder).retired = log.retired ++ [tag] := by
      simp only [TagLog.record, retires, Option.toList_some]
    have flushed : s'.retiredTags = s.retiredTags ++ [tag] := by
      rw [same]
      simp only [PcieCtrl.retiredTags, put, List.append_assoc]
    subst same
    rw [line] at pool made
    refine ⟨few, ?_, ?_, ?_, bounded, mapsRest, ?_⟩
    · rw [flushed, List.append_assoc]
      exact pool
    · rw [more, flushed, retired, List.append_assoc]
      rfl
    · rw [more, List.append_assoc]
      exact made
    · intro other within
      change (s.order.orderTagMap ^^^ oneHot tag).getLsbD other.toNat = _
      rw [getLsbD_xor_oneHot _ _ within, parity other within, more, List.count_append,
        List.count_singleton]
      by_cases mine : tag = other
      · simp only [mine, decide_true, Bool.xor_true, beq_self_eq_true, if_true]
        rw [← decide_not]
        exact decide_eq_decide.mpr (by omega)
      · simp [mine]

/-- The DWs of a retired tag are looked up; the entry has the tag itself. -/
theorem TagFlow.reqDoneTag (flow : TagFlow s log)
    (named : ∀ tag ∈ s.order.doneReorderedTagQ.items, (s.order.doneMap.mem tag).1 = tag)
    (fires : s.reqDoneTag = some s')
    : TagFlow s' log := by
  simp only [PcieCtrl.reqDoneTag, Option.bind_eq_bind, Option.pure_def, Fifo.bind_deq_eq_some,
    Bram2.bind_readB_eq_some, Option.some.injEq] at fires
  obtain ⟨tag, doneReorderedTagQ, taken, respB, -, asked, rfl⟩ := fires
  refine flow.frame rfl rfl ?_ rfl rfl rfl rfl rfl rfl rfl
  have same := named tag (by simp [taken])
  simp only [PcieCtrl.retiredTags, taken, asked, List.map_append, List.map_singleton, same,
    List.append_assoc, List.singleton_append]

theorem TagFlow.forwardDoneTag (flow : TagFlow s log) (fires : s.forwardDoneTag = some s')
    : TagFlow s' log := by
  simp only [PcieCtrl.forwardDoneTag, Option.bind_eq_bind, Option.pure_def,
    Bram2.bind_getB_eq_some, Fifo.bind_enq_eq_some, Option.some.injEq] at fires
  obtain ⟨d, respB, taken, orderedReadDoneTagQ, -, put, rfl⟩ := fires
  refine flow.frame rfl rfl ?_ rfl rfl rfl rfl rfl rfl rfl
  simp only [PcieCtrl.retiredTags, taken, put, List.map_append, List.map_cons, List.map_nil,
    List.append_assoc, List.cons_append, List.nil_append]

/-- The flush takes up a tag and gives it back, or goes on. -/
theorem TagFlow.flushReadTag (flow : TagFlow s log) (fires : s.flushReadTag = some s')
    : TagFlow s' (log.record s .flushReadTag) := by
  simp only [PcieCtrl.flushReadTag, Option.bind_eq_bind, Option.pure_def] at fires
  split_ifs at fires with idle room
  · simp only [Fifo.bind_deq_eq_some, Bram2.bind_readB_eq_some, Fifo.bind_enq_eq_some,
      Option.some.injEq] at fires
    obtain ⟨d, orderedReadDoneTagQ, taken, _, -, -, freeReadTagFQ, -, put, rfl⟩ := fires
    have freed : s.tagFreed = some d.1 := by
      rw [PcieCtrl.tagFreed, if_pos ⟨idle, room⟩, Fifo.first_eq_some.mpr ⟨_, taken⟩]
      rfl
    have line : s.retiredTags
        = d.1 :: (orderedReadDoneTagQ.items.map Prod.fst ++ s.order.doneMap.respB.items.map Prod.fst
          ++ s.order.doneReorderedTagQ.items) := by
      rw [PcieCtrl.retiredTags, taken]
      rfl
    obtain ⟨few, pool, retired, made, bounded, maps, parity⟩ := flow
    rw [line] at pool retired
    refine ⟨few, ?_, ?_, made, bounded, maps, parity⟩
    · change ((s.tags.freeReadTagQ.items ++ freeReadTagFQ.items) ++ _).Perm _
      rw [put, List.append_assoc, List.append_assoc]
      rw [PcieCtrl.freeTags, List.append_assoc] at pool
      exact pool
    · change log.retired = (log.freed ++ s.tagFreed.toList)
        ++ (orderedReadDoneTagQ.items.map Prod.fst ++ s.order.doneMap.respB.items.map Prod.fst
          ++ s.order.doneReorderedTagQ.items)
      rw [freed, retired, Option.toList_some, List.append_assoc log.freed]
      rfl
  · cases fires
    refine flow.frame rfl rfl rfl rfl rfl rfl rfl rfl rfl ?_
    have none : s.tagFreed = none := if_neg (fun both => room both.2)
    simp only [TagLog.record, none, Option.toList_none, List.append_nil]
  · simp only [Bram2.bind_readB_eq_some, Option.some.injEq] at fires
    obtain ⟨_, -, -, rfl⟩ := fires
    refine flow.frame rfl rfl rfl rfl rfl rfl rfl rfl rfl ?_
    have none : s.tagFreed = none := if_neg (fun both => idle both.1)
    simp only [TagLog.record, none, Option.toList_none, List.append_nil]

/-- Every event keeps the way of the tags, if retired tags find their own entry in `doneMap`. -/
theorem TagFlow.step {e : Event} (flow : TagFlow s log)
    (named : ∀ tag ∈ s.order.doneReorderedTagQ.items, (s.order.doneMap.mem tag).1 = tag)
    (fires : s.step e = some s')
    : TagFlow s' (log.record s e) := by
  have same := step_unchanged fires
  cases e with
  | insertFreeTag => exact flow.insertFreeTag fires
  | relayFreeReadTag => exact flow.relayFreeReadTag fires
  | splitDmaReadReq2 => exact flow.splitDmaReadReq2 fires
  | generateDmaReadTLP => exact flow.generateDmaReadTLP fires
  | shiftOrder => exact flow.shiftOrder fires
  | forwardShiftOrderTagBypass => exact flow.forwardShiftOrderTagBypass fires
  | forwardShifted => exact flow.forwardShifted fires
  | orderShifterStage i => exact flow.orderShifterStage fires
  | compareOrder => exact flow.compareOrder fires
  | reqDoneTag => exact flow.reqDoneTag named fires
  | forwardDoneTag => exact flow.forwardDoneTag fires
  | flushReadTag => exact flow.flushReadTag fires
  | dmaReadReq addr words =>
      obtain ⟨_, _, ⟨⟩⟩ := Option.bind_eq_some_iff.mp fires
      exact flow.frame rfl rfl rfl rfl rfl rfl rfl rfl rfl rfl
  | splitDmaReadReq =>
      obtain ⟨_, _, rfl⟩ := PcieCtrl.splitDmaReadReq_cases fires
      exact flow.frame rfl rfl rfl rfl rfl rfl rfl rfl rfl rfl
  | applyDoneMap =>
      obtain ⟨_, _, _, _, _, rfl⟩ := PcieCtrl.applyDoneMap_cases fires
      exact flow.frame rfl rfl rfl rfl rfl rfl rfl rfl rfl rfl
  | procDoneShift =>
      obtain ⟨_, _, ⟨⟩⟩ := Option.bind_eq_some_iff.mp fires
      exact flow.frame rfl rfl rfl rfl rfl rfl rfl rfl rfl rfl
  | doneShifterStage i =>
      obtain ⟨_, _, ⟨⟩⟩ := Option.bind_eq_some_iff.mp fires
      exact flow.frame rfl rfl rfl rfl rfl rfl rfl rfl rfl rfl
  | relayFreeWriteTag =>
      obtain ⟨_, _, _, _, _, rfl⟩ := PcieCtrl.relayFreeWriteTag_cases fires
      exact flow.frame rfl rfl rfl rfl rfl rfl rfl rfl rfl rfl
  | generateDataTLP =>
      obtain ⟨_, _, _, _, _, _, rfl⟩ | ⟨_, _, _, _, _, _, _, _, _, rfl⟩ :=
        PcieCtrl.generateDataTLP_cases fires
      all_goals exact flow.frame rfl rfl rfl rfl rfl rfl rfl rfl rfl rfl
  | _ =>
      have tags := same.tags (by simp [Event.parts])
      have reads := same.reads (by simp [Event.parts])
      have order := same.order (by simp [Event.parts])
      refine flow.frame ?_ ?_ ?_ ?_ ?_ ?_ ?_ rfl rfl rfl
      · rw [tags]
      · rw [PcieCtrl.freeTags, tags, PcieCtrl.freeTags]
      · rw [PcieCtrl.retiredTags, order, PcieCtrl.retiredTags]
      · rw [PcieCtrl.unretiredTags, order, reads, PcieCtrl.unretiredTags]
      · rw [PcieCtrl.mapsInOrder, order, PcieCtrl.mapsInOrder]
      · rw [order]
      · rw [order]

end

end BluespecPcie
