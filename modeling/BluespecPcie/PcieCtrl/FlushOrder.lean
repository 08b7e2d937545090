import BluespecPcie.PcieCtrl.TagConservation

/-! The flush reads the slots of the retired bursts, in the order in which they retire. -/

namespace BluespecPcie

open Bluespec

-----------------------------------------------------------------------------------------
-- Slots
-----------------------------------------------------------------------------------------

/-- The slots of a burst, `(tag<<3)|k`. -/
def burstSlots (burst : BitVec 8 × Nat) : List (BitVec 10) :=
  (List.range (burst.2 / 4)).map (fun k => (burst.1.zeroExtend 10 <<< 3) ||| BitVec.ofNat 10 k)

namespace TagLog

/-- The slots of the bursts that have retired, in order. -/
def retiredSlots (log : TagLog) : List (BitVec 10) :=
  (log.bursts.take log.retired.length).flatMap burstSlots

end TagLog

namespace PcieCtrl

/-- The slots of the burst under way that the flush has still to read. -/
def slotsToFlush (s : PcieCtrl) : List (BitVec 10) :=
  (burstSlots (s.reorder.readFlushTag.tag, s.reorder.readFlushTag.req.toNat)).drop
    ((s.reorder.readFlushTag.req.toNat - s.reorder.readFlushTag.curword.toNat) / 4)

/-- The DWs of the last burst of a tag. -/
def tagDWs (s : PcieCtrl) (tag : BitVec 8) : BitVec 10 := (s.bursts.tagMap.mem tag).1

/-- The retired tags with their DWs, on the way from `doneMap` to the flush. -/
def tagsLooked (s : PcieCtrl) : List (BitVec 8 × BitVec 10) :=
  s.order.orderedReadDoneTagQ.items ++ s.order.doneMap.respB.items

end PcieCtrl

/-- Once idle, the flush has no slot left. -/
theorem PcieCtrl.slotsToFlush_idle {s : PcieCtrl} (idle : s.reorder.readFlushTag.curword = 0)
    : s.slotsToFlush = [] := by
  rw [slotsToFlush, idle, List.drop_eq_nil_iff, burstSlots, List.length_map, List.length_range]
  exact Nat.le_refl _

open PcieCtrl in
/-- Of whole words, one less is left. -/
theorem PcieCtrl.toNat_flushLeft_four {left : BitVec 10} (four : left.toNat % 4 = 0)
    : (flushLeft left).toNat = left.toNat - 4 := by
  unfold flushLeft
  split
  next more => bv_omega
  next last =>
    have most : left.toNat ≤ 4 := Nat.le_of_not_lt last
    change 0 = _
    omega

open PcieCtrl in
/-- A read of the flush is that of the next slot. -/
theorem drop_burstSlots (tag : BitVec 8) {req left : BitVec 10} (some : left ≠ 0)
    (within : left.toNat ≤ req.toNat) (four : req.toNat % 4 = 0) (four' : left.toNat % 4 = 0)
    : (burstSlots (tag, req.toNat)).drop ((req.toNat - left.toNat) / 4)
      = ((tag.zeroExtend 10 <<< 3) ||| ((req - left) >>> 2))
        :: (burstSlots (tag, req.toNat)).drop ((req.toNat - (flushLeft left).toNat) / 4) := by
  have positive : 0 < left.toNat := by bv_omega
  have next := toNat_flushLeft_four four'
  have index : (req.toNat - (flushLeft left).toNat) / 4 = (req.toNat - left.toNat) / 4 + 1 := by
    omega
  have inside : (req.toNat - left.toNat) / 4 < (burstSlots (tag, req.toNat)).length := by
    rw [burstSlots, List.length_map, List.length_range]
    change _ < req.toNat / 4
    omega
  have place : BitVec.ofNat 10 ((req.toNat - left.toNat) / 4) = (req - left) >>> 2 := by
    apply BitVec.eq_of_toNat_eq
    have bound := req.isLt
    rw [BitVec.toNat_ushiftRight, BitVec.toNat_sub_of_le (BitVec.le_def.mpr within),
      BitVec.toNat_ofNat, Nat.shiftRight_eq_div_pow, Nat.mod_eq_of_lt (by omega)]
  rw [List.drop_eq_getElem_cons inside, index, ← place]
  congr 1
  simp only [burstSlots, List.getElem_map, List.getElem_range]

-----------------------------------------------------------------------------------------
-- The invariant
-----------------------------------------------------------------------------------------

/-- The DWs of a burst go with its tag until it is flushed; the flush reads just its slots. -/
structure FlushOrder (s : PcieCtrl) (log : TagLog) : Prop where
  cut : ∀ burst ∈ log.bursts, 0 < burst.2 ∧ burst.2 % 4 = 0 ∧ burst.2 ≤ 32
  sizes : ∀ burst ∈ log.bursts.drop log.freed.length, burst.2 = (s.tagDWs burst.1).toNat
  reported : ∀ d ∈ s.bursts.readDoneTagQ.items, d.2 = s.tagDWs d.1
  entered
    : ∀ tag : BitVec 8, tag < 128 → log.retired.count tag < log.toggles tag + s.shiftingMaps tag →
        (s.order.doneMap.mem tag).2 = s.tagDWs tag
  waiting : ∀ tag ∈ s.order.doneReorderedTagQ.items, (s.order.doneMap.mem tag).2 = s.tagDWs tag
  looked : ∀ d ∈ s.tagsLooked, d.2 = s.tagDWs d.1
  under
    : s.reorder.readFlushTag.curword.toNat ≤ s.reorder.readFlushTag.req.toNat
      ∧ s.reorder.readFlushTag.req.toNat ≤ 32
      ∧ s.reorder.readFlushTag.req.toNat % 4 = 0
      ∧ s.reorder.readFlushTag.curword.toNat % 4 = 0
      ∧ s.reorder.readFlushTag.tag < 128
  flushed
    : log.reads ++ s.slotsToFlush = (log.bursts.take log.freed.length).flatMap burstSlots

section

variable {s s' : PcieCtrl} {log log' : TagLog}

/-- After reset nothing is flushed. -/
theorem flushOrder_reset (p : PowerUp) : FlushOrder (mkPcieCtrl p) {} := by
  refine ⟨?_, ?_, ?_, ?_, ?_, ?_, ⟨Nat.le_refl 0, Nat.zero_le 32, rfl, rfl, ?_⟩, ?_⟩
  · exact fun burst member => absurd member List.not_mem_nil
  · exact fun burst member => absurd member List.not_mem_nil
  · exact fun d member => absurd member List.not_mem_nil
  · intro tag _ some
    have none : (mkPcieCtrl p).shiftingMaps tag = 0 := by
      simp [PcieCtrl.shiftingMaps, mkPcieCtrl]
    rw [none] at some
    exact absurd some (Nat.lt_irrefl 0)
  · exact fun tag member => absurd member List.not_mem_nil
  · exact fun d member => absurd member List.not_mem_nil
  · change (0 : BitVec 8) < 128
    decide
  · simp [PcieCtrl.slotsToFlush, burstSlots, mkPcieCtrl]

/-- What does not concern the flush keeps its order. -/
theorem FlushOrder.frame (order : FlushOrder s log) (dws : s'.tagDWs = s.tagDWs)
    (reported : s'.bursts.readDoneTagQ = s.bursts.readDoneTagQ)
    (shifting : s'.shiftingMaps = s.shiftingMaps)
    (doneMap : s'.order.doneMap.mem = s.order.doneMap.mem)
    (reordered : s'.order.doneReorderedTagQ = s.order.doneReorderedTagQ)
    (looked : s'.tagsLooked = s.tagsLooked)
    (flush : s'.reorder.readFlushTag = s.reorder.readFlushTag)
    (bursts : log'.bursts = log.bursts) (shifted : log'.shifted = log.shifted)
    (retired : log'.retired = log.retired) (freed : log'.freed = log.freed)
    (reads : log'.reads = log.reads)
    : FlushOrder s' log' := by
  obtain ⟨cut, sizes, inReported, entered, waiting, inLooked, under, flushed⟩ := order
  refine ⟨?_, ?_, ?_, ?_, ?_, ?_, ?_, ?_⟩
  · rw [bursts]
    exact cut
  · rw [bursts, freed, dws]
    exact sizes
  · rw [reported, dws]
    exact inReported
  · rw [retired, shifting, doneMap, dws]
    simp only [TagLog.toggles, shifted]
    exact entered
  · rw [reordered, doneMap, dws]
    exact waiting
  · rw [looked, dws]
    exact inLooked
  · rw [flush]
    exact under
  · rw [reads, bursts, freed, PcieCtrl.slotsToFlush, flush]
    exact flushed

-----------------------------------------------------------------------------------------
-- Which tags are out
-----------------------------------------------------------------------------------------

/-- The tags of the bursts that are not given back. -/
theorem TagFlow.tags_held (flow : TagFlow s log)
    : (log.bursts.drop log.freed.length).map Prod.fst = s.retiredTags ++ s.unretiredTags := by
  rw [List.map_drop]
  change log.tags.drop log.freed.length = _
  rw [flow.made, flow.retired, List.append_assoc, List.drop_left]

/-- As many bursts are given back as are made, at most. -/
theorem TagFlow.freed_le (flow : TagFlow s log) : log.freed.length ≤ log.bursts.length := by
  have made := congrArg List.length flow.made
  rw [flow.retired, TagLog.tags] at made
  simp only [List.length_map, List.length_append] at made
  omega

/-- A tag that is toggled once more than it has retired, or will be, is in line. -/
theorem DoneBits.mem_unretired (bits : DoneBits s log) (flow : TagFlow s log) {tag : BitVec 8}
    (within : tag < 128)
    (more : log.retired.count tag
      < log.toggles tag + s.shiftingMaps tag + s.reportedTags.count tag)
    : tag ∈ s.unretiredTags := by
  have toggled := bits.toggled tag within
  by_contra absent
  rw [flow.count_tags, if_neg absent] at toggled
  omega

/-- The tags reported done are in line. -/
theorem DoneBits.mem_unretired_reported (bits : DoneBits s log) (flow : TagFlow s log)
    {tag : BitVec 8} (reported : tag ∈ s.reportedTags)
    : tag ∈ s.unretiredTags := by
  have within := bits.bounded tag reported
  have ahead := bits.ahead tag within
  have some := List.count_pos_iff.mpr reported
  exact bits.mem_unretired flow within (by omega)

/-- A tag that is written has data on its way, so it is in line. -/
theorem TagsKept.mem_unretired_written (kept : TagsKept s log)
    (busy : s.bursts.tagWordsLeft.words > 0)
    : s.bursts.tagWordsLeft.tag ∈ s.unretiredTags := by
  obtain ⟨flow, counts, bits⟩ := kept
  obtain ⟨-, -, -, owed⟩ := counts.word busy
  have taken : s.bursts.tagWordsLeft.tag ∈ log.tags := TagLog.mem_tags_of_asked (by omega)
  by_contra absent
  have received := bits.received flow (flow.bounded _ taken) absent
  rw [TagLog.Received] at received
  omega

/-- The oldest burst that is not given back is the one of the first retired tag. -/
theorem FlushOrder.oldest (order : FlushOrder s log) (flow : TagFlow s log)
    {d : BitVec 8 × BitVec 10} {waiting : List (BitVec 8 × BitVec 10)}
    (taken : s.order.orderedReadDoneTagQ.items = d :: waiting)
    : ∃ burst rest,
        log.bursts.drop log.freed.length = burst :: rest ∧ burst.1 = d.1
        ∧ burst.2 = d.2.toNat := by
  have held := flow.tags_held
  rw [PcieCtrl.retiredTags, taken, List.map_cons, List.cons_append, List.cons_append,
    List.cons_append] at held
  obtain ⟨burst, rest, oldest, tag, -⟩ := List.map_eq_cons_iff.mp held
  refine ⟨burst, rest, oldest, tag, ?_⟩
  rw [order.sizes burst (by rw [oldest]; exact List.mem_cons_self), tag,
    order.looked d (by simp [PcieCtrl.tagsLooked, taken])]

-----------------------------------------------------------------------------------------
-- Steps
-----------------------------------------------------------------------------------------

/-- A burst opens the counts of its tag, which no burst under way uses. -/
theorem FlushOrder.splitDmaReadReq2 (order : FlushOrder s log) (kept : TagsKept s log)
    (fires : s.splitDmaReadReq2 = some s')
    : FlushOrder s' (log.record s .splitDmaReadReq2) := by
  obtain ⟨busy, tag, freeReadTagQ, _, _, _, taken, -, -, -, rfl⟩ :=
    PcieCtrl.splitDmaReadReq2_cases fires
  obtain ⟨flow, counts, bits⟩ := kept
  have covers := splitRead_covers counts.aligned busy
  have some := covers.nonempty
  have short := covers.short
  have made := PcieCtrl.burstMade_eq taken
  have isFree : tag ∈ s.freeTags := List.mem_append_left _ (by simp [taken])
  have apartTags := (List.nodup_append.mp flow.apart).2.2
  have other {t : BitVec 8} (held : t ∈ s.retiredTags ++ s.unretiredTags) : t ≠ tag :=
    fun same => apartTags tag isFree t held same.symm
  have inLine {t : BitVec 8} (unretired : t ∈ s.unretiredTags) : t ≠ tag :=
    other (List.mem_append_right _ unretired)
  have isRetired {t : BitVec 8} (retired : t ∈ s.retiredTags) : t ≠ tag :=
    other (List.mem_append_left _ retired)
  generalize (splitRead s.reads.dmaReadStartAddr s.reads.dmaReadWords) = split at *
  have size : (split.words <<< 2).toNat = 4 * split.words.toNat := by
    rw [BitVec.toNat_shiftLeft, Nat.shiftLeft_eq, Nat.mod_eq_of_lt (by omega)]
    omega
  have dws {t : BitVec 8} (mine : t ≠ tag)
      : (Function.update s.bursts.tagMap.mem tag (split.words <<< 2, 0) t).1 = s.tagDWs t := by
    rw [Function.update_of_ne mine, PcieCtrl.tagDWs]
  have more : (log.record s .splitDmaReadReq2).bursts
      = log.bursts ++ [(tag, 4 * split.words.toNat)] := by
    simp only [TagLog.record, made, Option.toList_some]
  obtain ⟨cut, sizes, reported, entered, waiting, looked, under, flushed⟩ := order
  refine ⟨?_, ?_, ?_, ?_, ?_, ?_, under, ?_⟩
  · rw [more]
    intro burst member
    rcases List.mem_append.mp member with old | new
    case inl => exact cut burst old
    case inr =>
      obtain rfl := List.mem_singleton.mp new
      change 0 < 4 * _ ∧ 4 * _ % 4 = 0 ∧ 4 * _ ≤ 32
      omega
  · rw [more]
    change ∀ burst ∈ (log.bursts ++ _).drop log.freed.length, _
    rw [List.drop_append_of_le_length flow.freed_le]
    intro burst member
    rcases List.mem_append.mp member with old | new
    case inl =>
      have held : burst.1 ∈ s.retiredTags ++ s.unretiredTags :=
        flow.tags_held ▸ List.mem_map_of_mem old
      exact (sizes burst old).trans (congrArg BitVec.toNat (dws (other held)).symm)
    case inr =>
      obtain rfl := List.mem_singleton.mp new
      change 4 * split.words.toNat
        = (Function.update s.bursts.tagMap.mem tag (split.words <<< 2, 0) tag).1.toNat
      rw [Function.update_self]
      exact size.symm
  · intro d member
    have unretired := bits.mem_unretired_reported flow (List.mem_map_of_mem member)
    exact (reported d member).trans (dws (inLine unretired)).symm
  · intro t within once
    have unretired := bits.mem_unretired flow within (Nat.lt_add_right _ once)
    exact (entered t within once).trans (dws (inLine unretired)).symm
  · intro t member
    exact (waiting t member).trans
      (dws (isRetired (List.mem_append_right _ member))).symm
  · intro d member
    have retired : d.1 ∈ s.retiredTags := by
      rw [PcieCtrl.retiredTags, ← List.map_append]
      exact List.mem_append_left _ (List.mem_map_of_mem member)
    exact (looked d member).trans (dws (isRetired retired)).symm
  · rw [more]
    change _ = ((log.bursts ++ _).take log.freed.length).flatMap burstSlots
    rw [List.take_append_of_le_length flow.freed_le]
    exact flushed

/-- The counts of a completion keep the DWs of its tag. -/
theorem FlushOrder.updateReadBurst2 (order : FlushOrder s log) (counts : BurstCounts s log)
    (fires : s.updateReadBurst2 = some s')
    : FlushOrder s' log := by
  obtain ⟨-, -, entry, _, burst, _, _, _, looked, taken, -, rfl⟩ :=
    PcieCtrl.updateReadBurst2_cases fires
  have reads := counts.reads
  rw [looked, taken, List.cons_append, List.map_cons] at reads
  have same : entry = s.bursts.tagMap.mem burst.1 := (List.cons.inj reads).1
  refine order.frame ?_ rfl rfl rfl rfl rfl rfl rfl rfl rfl rfl rfl
  funext tag
  change (Function.update s.bursts.tagMap.mem burst.1 _ tag).1 = (s.bursts.tagMap.mem tag).1
  by_cases mine : tag = burst.1
  · rw [mine, Function.update_self, same]
  · rw [Function.update_of_ne mine]

/-- A word is written; with the last one of a tag, the tag is reported with its DWs. -/
theorem FlushOrder.writeReadBuffer (order : FlushOrder s log) (counts : BurstCounts s log)
    (fires : s.writeReadBuffer = some s')
    : FlushOrder s' (log.record s .writeReadBuffer) := by
  obtain ⟨busy, _, _, readDoneTagQ, -, report, rfl⟩ := PcieCtrl.writeReadBuffer_cases fires
  obtain ⟨least, last, finished, owed⟩ := counts.word busy
  obtain ⟨cut, sizes, reported, entered, waiting, looked, under, flushed⟩ := order
  refine ⟨cut, sizes, ?_, entered, waiting, looked, under, flushed⟩
  intro d member
  change d ∈ readDoneTagQ.items at member
  split at report
  next all =>
    rw [report] at member
    rcases List.mem_append.mp member with old | new
    case inl => exact reported d old
    case inr =>
      obtain rfl := List.mem_singleton.mp new
      have taken : s.bursts.tagWordsLeft.tag ∈ log.tags := TagLog.mem_tags_of_asked (by omega)
      obtain ⟨balance, small⟩ := counts.counts _ taken
      rw [PcieCtrl.currentDWs, if_pos rfl, last all, finished.mp all] at balance
      obtain ⟨-, place, -⟩ := counts.current (by omega)
      rw [last all] at place
      apply BitVec.eq_of_toNat_eq
      change (s.bursts.tagWordsLeft.off + s.bursts.tagWordsLeft.ioff + 4).toNat
        = (s.bursts.tagMap.mem s.bursts.tagWordsLeft.tag).1.toNat
      bv_omega
  next =>
    rw [report] at member
    exact reported d member

/-- The report of a tag goes to `doneMap`. -/
theorem FlushOrder.applyDoneMap (order : FlushOrder s log) (bits : DoneBits s log)
    (fires : s.applyDoneMap = some s')
    : FlushOrder s' log := by
  obtain ⟨d, readDoneTagQ, doneShifter, taken, entering, rfl⟩ := PcieCtrl.applyDoneMap_cases fires
  obtain ⟨cut, sizes, reported, entered, waiting, looked, under, flushed⟩ := order
  have within : d.1 < 128 := bits.bounded d.1 (by simp [PcieCtrl.reportedTags, taken])
  have own : d.2 = s.tagDWs d.1 := reported d (by simp [taken])
  have entry (tag : BitVec 8) (old : tag ≠ d.1 → (s.order.doneMap.mem tag).2 = s.tagDWs tag)
      : (Function.update s.order.doneMap.mem d.1 d tag).2 = s.tagDWs tag := by
    by_cases mine : tag = d.1
    · rw [mine, Function.update_self]
      exact own
    · rw [Function.update_of_ne mine]
      exact old mine
  refine ⟨cut, sizes, ?_, ?_, ?_, looked, under, flushed⟩
  · intro other member
    exact reported other (taken ▸ List.mem_cons_of_mem _ member)
  · intro tag inside once
    refine entry tag ?_
    intro mine
    change _ < _ + (doneShifter.results leftShiftBits).countP (fun v => v.getLsbD tag.toNat) at once
    rw [results_oneHot within entering, List.countP_append, List.countP_singleton,
      getLsbD_oneHot _ inside, decide_eq_false (Ne.symm mine)] at once
    exact entered tag inside once
  · intro tag member
    exact entry tag (fun _ => waiting tag member)

/-- Maps that leave the shifter, or move in it, leave the entries of the tags as they are. -/
theorem FlushOrder.shifts (order : FlushOrder s log) (bits : DoneBits s log)
    (bits' : DoneBits s' log') (reported : s'.reportedTags = s.reportedTags)
    (dws : s'.tagDWs = s.tagDWs) (queue : s'.bursts.readDoneTagQ = s.bursts.readDoneTagQ)
    (doneMap : s'.order.doneMap.mem = s.order.doneMap.mem)
    (reordered : s'.order.doneReorderedTagQ = s.order.doneReorderedTagQ)
    (looked : s'.tagsLooked = s.tagsLooked)
    (flush : s'.reorder.readFlushTag = s.reorder.readFlushTag)
    (bursts : log'.bursts = log.bursts) (written : log'.written = log.written)
    (retired : log'.retired = log.retired) (freed : log'.freed = log.freed)
    (reads : log'.reads = log.reads)
    : FlushOrder s' log' := by
  have sums {tag : BitVec 8} (within : tag < 128)
      : log'.toggles tag + s'.shiftingMaps tag = log.toggles tag + s.shiftingMaps tag := by
    have before := bits.toggled tag within
    have after := bits'.toggled tag within
    have received : log'.Received tag ↔ log.Received tag := by
      rw [TagLog.Received, TagLog.writtenDWs, TagLog.askedDWs, written, bursts]
      rfl
    rw [reported, TagLog.tags, bursts] at after
    simp only [received] at after
    rw [TagLog.tags] at before
    omega
  obtain ⟨cut, sizes, inReported, entered, waiting, inLooked, under, flushed⟩ := order
  refine ⟨?_, ?_, ?_, ?_, ?_, ?_, ?_, ?_⟩
  · rw [bursts]
    exact cut
  · rw [bursts, freed, dws]
    exact sizes
  · rw [queue, dws]
    exact inReported
  · intro tag within once
    rw [retired, sums within] at once
    rw [doneMap, dws]
    exact entered tag within once
  · rw [reordered, doneMap, dws]
    exact waiting
  · rw [looked, dws]
    exact inLooked
  · rw [flush]
    exact under
  · rw [reads, bursts, freed, PcieCtrl.slotsToFlush, flush]
    exact flushed

theorem FlushOrder.procDoneShift (order : FlushOrder s log) (bits : DoneBits s log)
    (fires : s.procDoneShift = some s')
    : FlushOrder s' (log.record s .procDoneShift) := by
  have bits' := bits.procDoneShift fires
  obtain ⟨⟨_, _⟩, _, ⟨⟩⟩ := Option.bind_eq_some_iff.mp fires
  exact order.shifts bits bits' rfl rfl rfl rfl rfl rfl rfl rfl rfl rfl rfl rfl

theorem FlushOrder.doneShifterStage {i : Nat} (order : FlushOrder s log) (bits : DoneBits s log)
    (fires : s.doneShifterStage i = some s')
    : FlushOrder s' log := by
  have bits' := bits.doneShifterStage fires
  obtain ⟨_, _, ⟨⟩⟩ := Option.bind_eq_some_iff.mp fires
  exact order.shifts bits bits' rfl rfl rfl rfl rfl rfl rfl rfl rfl rfl rfl rfl

/-- A tag that retires has its own DWs in `doneMap`. -/
theorem FlushOrder.compareOrder (order : FlushOrder s log) (kept : TagsKept s log)
    (fires : s.compareOrder = some s')
    : FlushOrder s' (log.record s .compareOrder) := by
  obtain ⟨flow, -, bits⟩ := kept
  have bits' := bits.compareOrder flow fires
  have still (none : s.tagRetired = none) : (log.record s .compareOrder).retired = log.retired := by
    simp only [TagLog.record, none, Option.toList_none, List.append_nil]
  rcases PcieCtrl.compareOrder_retires fires with
    ⟨none, rfl⟩ | ⟨none, _, _, -, -, rfl⟩ | ⟨tag, v, _, _, reorderedQ, retires, -, -, taken, put,
      rfl⟩
  case inl =>
    exact order.frame rfl rfl rfl rfl rfl rfl rfl rfl rfl (still none) rfl rfl
  case inr.inl =>
    exact order.frame rfl rfl rfl rfl rfl rfl rfl rfl rfl (still none) rfl rfl
  case inr.inr =>
    have more : (log.record s .compareOrder).retired = log.retired ++ [tag] := by
      simp only [TagLog.record, retires, Option.toList_some]
    have within : tag < 128 := flow.within (by simp [PcieCtrl.unretiredTags, taken])
    -- It has been toggled once more than it had retired.
    have fewer : log.retired.count tag < log.toggles tag := by
      have ahead := bits'.ahead tag within
      rw [more, List.count_append, List.count_singleton_self] at ahead
      exact ahead
    obtain ⟨cut, sizes, reported, entered, waiting, looked, under, flushed⟩ := order
    refine ⟨cut, sizes, reported, ?_, ?_, looked, under, flushed⟩
    · intro other inside once
      rw [more, List.count_append] at once
      exact entered other inside (Nat.lt_of_le_of_lt (Nat.le_add_right _ _) once)
    · intro other member
      change other ∈ reorderedQ.items at member
      rw [put] at member
      rcases List.mem_append.mp member with old | new
      case inl => exact waiting other old
      case inr =>
        obtain rfl := List.mem_singleton.mp new
        exact entered other within (Nat.lt_add_right _ fewer)

/-- The DWs of a retired tag are looked up. -/
theorem FlushOrder.reqDoneTag (order : FlushOrder s log)
    (named : ∀ tag ∈ s.order.doneReorderedTagQ.items, (s.order.doneMap.mem tag).1 = tag)
    (fires : s.reqDoneTag = some s')
    : FlushOrder s' log := by
  simp only [PcieCtrl.reqDoneTag, Option.bind_eq_bind, Option.pure_def, Fifo.bind_deq_eq_some,
    Bram2.bind_readB_eq_some, Option.some.injEq] at fires
  obtain ⟨tag, doneReorderedTagQ, taken, respB, -, asked, rfl⟩ := fires
  obtain ⟨cut, sizes, reported, entered, waiting, looked, under, flushed⟩ := order
  refine ⟨cut, sizes, reported, entered, ?_, ?_, under, flushed⟩
  · intro other member
    exact waiting other (taken ▸ List.mem_cons_of_mem _ member)
  · intro d member
    change d ∈ s.order.orderedReadDoneTagQ.items ++ respB.items at member
    rw [asked, ← List.append_assoc] at member
    rcases List.mem_append.mp member with old | new
    case inl => exact looked d old
    case inr =>
      obtain rfl := List.mem_singleton.mp new
      have first : tag ∈ s.order.doneReorderedTagQ.items := by simp [taken]
      have own := waiting tag first
      change (s.order.doneMap.mem tag).2 = s.tagDWs (s.order.doneMap.mem tag).1
      rw [named tag first]
      exact own

theorem FlushOrder.forwardDoneTag (order : FlushOrder s log) (fires : s.forwardDoneTag = some s')
    : FlushOrder s' log := by
  simp only [PcieCtrl.forwardDoneTag, Option.bind_eq_bind, Option.pure_def,
    Bram2.bind_getB_eq_some, Fifo.bind_enq_eq_some, Option.some.injEq] at fires
  obtain ⟨d, respB, taken, orderedReadDoneTagQ, -, put, rfl⟩ := fires
  refine order.frame rfl rfl rfl rfl rfl ?_ rfl rfl rfl rfl rfl rfl
  simp only [PcieCtrl.tagsLooked, taken, put, List.append_assoc, List.singleton_append]

/-- The flush takes up the next retired burst and reads its first slot, idles, or reads the next
slot of the burst under way.
-/
theorem FlushOrder.moves (order : FlushOrder s log) (flow : TagFlow s log)
    (fires : s.flushReadTag = some s')
    : (∃ d slot,
        s.order.orderedReadDoneTagQ.items = d :: s'.order.orderedReadDoneTagQ.items
        ∧ s'.reorder.readFlushTag = { tag := d.1, req := d.2, curword := PcieCtrl.flushLeft d.2 }
        ∧ s.tagFreed = some d.1 ∧ s.flushReads = some slot
        ∧ s.slotsToFlush = [] ∧ burstSlots (d.1, d.2.toNat) = slot :: s'.slotsToFlush)
      ∨ (s' = s ∧ s.tagFreed = none ∧ s.flushReads = none)
      ∨ ∃ slot,
          s'.order = s.order
          ∧ s'.reorder.readFlushTag = { s.reorder.readFlushTag with
              curword := PcieCtrl.flushLeft s.reorder.readFlushTag.curword }
          ∧ s.tagFreed = none ∧ s.flushReads = some slot
          ∧ s.slotsToFlush = slot :: s'.slotsToFlush := by
  simp only [PcieCtrl.flushReadTag, Option.bind_eq_bind, Option.pure_def] at fires
  split_ifs at fires with idle room
  · simp only [Fifo.bind_deq_eq_some, Bram2.bind_readB_eq_some, Fifo.bind_enq_eq_some,
      Option.some.injEq] at fires
    obtain ⟨d, orderedReadDoneTagQ, taken, _, -, -, _, -, -, rfl⟩ := fires
    have first : s.order.orderedReadDoneTagQ.first = some d := Fifo.first_eq_some.mpr ⟨_, taken⟩
    obtain ⟨burst, rest, oldest, tag, dws⟩ := order.oldest flow taken
    obtain ⟨positive, four, short⟩ := order.cut burst
      (List.mem_of_mem_drop (i := log.freed.length) (by rw [oldest]; exact List.mem_cons_self))
    rw [dws] at positive four
    have some : d.2 ≠ 0 := by bv_omega
    have slots := drop_burstSlots d.1 some (Nat.le_refl _) four four
    rw [Nat.sub_self, BitVec.sub_self, BitVec.zero_ushiftRight, BitVec.or_zero] at slots
    refine .inl ⟨d, d.1.zeroExtend 10 <<< 3, taken, rfl, ?_, ?_, PcieCtrl.slotsToFlush_idle idle,
      slots⟩
    · rw [PcieCtrl.tagFreed, if_pos ⟨idle, room⟩, first]
      rfl
    · rw [PcieCtrl.flushReads, if_pos idle, if_pos room, first]
      rfl
  · cases fires
    refine .inr (.inl ⟨rfl, if_neg (fun both => room both.2), ?_⟩)
    rw [PcieCtrl.flushReads, if_pos idle, if_neg room]
  · simp only [Bram2.bind_readB_eq_some, Option.some.injEq] at fires
    obtain ⟨_, -, -, rfl⟩ := fires
    obtain ⟨most, -, four, four', -⟩ := order.under
    refine .inr (.inr ⟨PcieCtrl.flushSlot s.reorder.readFlushTag, rfl, rfl,
      if_neg (fun both => idle both.1), ?_,
      drop_burstSlots s.reorder.readFlushTag.tag idle most four four'⟩)
    rw [PcieCtrl.flushReads, if_neg idle]

theorem FlushOrder.flushReadTag (order : FlushOrder s log) (kept : TagsKept s log)
    (fires : s.flushReadTag = some s')
    : FlushOrder s' (log.record s .flushReadTag) := by
  obtain ⟨flow, counts, bits⟩ := kept
  have moves := order.moves flow fires
  have same : s'.bursts = s.bursts ∧ s'.order.doneShifter = s.order.doneShifter
      ∧ s'.order.doneMap = s.order.doneMap
      ∧ s'.order.doneReorderedTagQ = s.order.doneReorderedTagQ := by
    rcases PcieCtrl.flushReadTag_cases fires with ⟨_, _, _, _, _, _, _, _, _, rfl⟩ | rfl
      | ⟨_, _, _, rfl⟩
    all_goals exact ⟨rfl, rfl, rfl, rfl⟩
  obtain ⟨bursts, shifter, doneMap, reordered⟩ := same
  have dws : s'.tagDWs = s.tagDWs := by
    funext tag
    rw [PcieCtrl.tagDWs, bursts, PcieCtrl.tagDWs]
  have shifting : s'.shiftingMaps = s.shiftingMaps := by
    funext tag
    rw [PcieCtrl.shiftingMaps, shifter, PcieCtrl.shiftingMaps]
  have nextBurst {d : BitVec 8 × BitVec 10}
      (taken : s.order.orderedReadDoneTagQ.items = d :: s'.order.orderedReadDoneTagQ.items) :=
    order.oldest flow taken
  obtain ⟨cut, sizes, reported, entered, waiting, looked, under, flushed⟩ := order
  have reported' : ∀ d ∈ s'.bursts.readDoneTagQ.items, d.2 = s'.tagDWs d.1 := by
    rw [bursts, dws]
    exact reported
  have entered' : ∀ tag : BitVec 8, tag < 128 →
      log.retired.count tag < log.toggles tag + s'.shiftingMaps tag →
      (s'.order.doneMap.mem tag).2 = s'.tagDWs tag := by
    rw [shifting, doneMap, dws]
    exact entered
  have waiting' : ∀ tag ∈ s'.order.doneReorderedTagQ.items,
      (s'.order.doneMap.mem tag).2 = s'.tagDWs tag := by
    rw [reordered, doneMap, dws]
    exact waiting
  rcases moves with ⟨d, slot, taken, flush, freed, reads, idle, slots⟩ | ⟨rfl, unfreed, unread⟩
    | ⟨slot, line, flush, unfreed, reads, slots⟩
  case inl =>
    obtain ⟨burst, rest, oldest, tag, size⟩ := nextBurst taken
    have isRetired : d.1 ∈ s.retiredTags := by simp [PcieCtrl.retiredTags, taken]
    have within : d.1 < 128 :=
      flow.within (List.mem_append_right _ (List.mem_append_left _ isRetired))
    obtain ⟨-, four, short⟩ := cut burst
      (List.mem_of_mem_drop (i := log.freed.length) (by rw [oldest]; exact List.mem_cons_self))
    rw [size] at four short
    have left := PcieCtrl.toNat_flushLeft_four four
    refine ⟨cut, ?_, reported', entered', waiting', ?_, ?_, ?_⟩
    · rw [dws]
      change ∀ b ∈ log.bursts.drop (log.freed ++ s.tagFreed.toList).length, _
      rw [freed, Option.toList_some, List.length_append, List.length_singleton,
        ← List.tail_drop, oldest, List.tail_cons]
      intro b member
      exact sizes b (by rw [oldest]; exact List.mem_cons_of_mem _ member)
    · intro other member
      rw [dws]
      refine looked other ?_
      rw [PcieCtrl.tagsLooked, taken]
      rw [PcieCtrl.tagsLooked, doneMap] at member
      exact List.mem_cons_of_mem _ member
    · rw [flush]
      exact ⟨by simp only; omega, short, four, by simp only; omega, within⟩
    · change (log.reads ++ s.flushReads.toList) ++ s'.slotsToFlush
        = (log.bursts.take (log.freed ++ s.tagFreed.toList).length).flatMap burstSlots
      rw [idle, List.append_nil] at flushed
      rw [freed, reads, Option.toList_some, Option.toList_some, List.length_append,
        List.length_singleton, List.take_add, oldest, List.flatMap_append, ← flushed,
        List.append_assoc]
      refine congrArg (log.reads ++ ·) ?_
      change _ = ([burst].flatMap burstSlots)
      rw [List.flatMap_singleton, show burst = (d.1, d.2.toNat) from Prod.ext tag size, slots]
      rfl
  case inr.inl =>
    refine FlushOrder.frame ⟨cut, sizes, reported, entered, waiting, looked, under, flushed⟩
      rfl rfl rfl rfl rfl rfl rfl rfl rfl rfl ?_ ?_
    · simp only [TagLog.record, unfreed, Option.toList_none, List.append_nil]
    · simp only [TagLog.record, unread, Option.toList_none, List.append_nil]
  case inr.inr =>
    obtain ⟨most, short, four, four', within⟩ := under
    have left := PcieCtrl.toNat_flushLeft_four four'
    have same : (log.record s .flushReadTag).freed = log.freed := by
      simp only [TagLog.record, unfreed, Option.toList_none, List.append_nil]
    refine ⟨cut, ?_, reported', entered', waiting', ?_, ?_, ?_⟩
    · rw [same, dws]
      exact sizes
    · rw [PcieCtrl.tagsLooked, line, dws]
      exact looked
    · rw [flush]
      exact ⟨by simp only; omega, short, four, by simp only; omega, within⟩
    · rw [same]
      change (log.reads ++ s.flushReads.toList) ++ s'.slotsToFlush
        = (log.bursts.take log.freed.length).flatMap burstSlots
      rw [reads, Option.toList_some, List.append_assoc, ← flushed, slots]
      rfl

/-- Every event keeps the order of the flush. -/
theorem FlushOrder.step {e : Event} (order : FlushOrder s log) (kept : TagsKept s log)
    (fires : s.step e = some s')
    : FlushOrder s' (log.record s e) := by
  have same := step_unchanged fires
  cases e with
  | splitDmaReadReq2 => exact order.splitDmaReadReq2 kept fires
  | updateReadBurst2 => exact order.updateReadBurst2 kept.counts fires
  | writeReadBuffer => exact order.writeReadBuffer kept.counts fires
  | applyDoneMap => exact order.applyDoneMap kept.bits fires
  | procDoneShift => exact order.procDoneShift kept.bits fires
  | doneShifterStage i => exact order.doneShifterStage kept.bits fires
  | compareOrder => exact order.compareOrder kept fires
  | reqDoneTag => exact order.reqDoneTag (kept.bits.named_retired kept.flow) fires
  | forwardDoneTag => exact order.forwardDoneTag fires
  | flushReadTag => exact order.flushReadTag kept fires
  | procCompletionTLP =>
      obtain ⟨_, _, _, _, _, _, _, _, _, rfl⟩ := PcieCtrl.procCompletionTLP_cases fires
      exact order.frame rfl rfl rfl rfl rfl rfl rfl rfl rfl rfl rfl rfl
  | filterStatReadTLP =>
      obtain ⟨_, _, _, _, _, _, _, ⟨_, _, _, _, _, rfl⟩ | ⟨_, _, _, _, rfl⟩
        | ⟨_, _, _, _, _, _, rfl⟩⟩ := PcieCtrl.filterStatReadTLP_cases fires
      all_goals exact order.frame rfl rfl rfl rfl rfl rfl rfl rfl rfl rfl rfl rfl
  | relayReadBurst =>
      obtain ⟨⟨_, _⟩, _, rest⟩ := Option.bind_eq_some_iff.mp fires
      obtain ⟨_, _, ⟨⟩⟩ := Option.bind_eq_some_iff.mp rest
      exact order.frame rfl rfl rfl rfl rfl rfl rfl rfl rfl rfl rfl rfl
  | updateReadBurst1 =>
      obtain ⟨_, rfl | ⟨_, _, _, _, _, _, _, _, _, _, rfl⟩⟩ := PcieCtrl.updateReadBurst1_cases fires
      all_goals exact order.frame rfl rfl rfl rfl rfl rfl rfl rfl rfl rfl rfl rfl
  | getTagMapReadA =>
      simp only [PcieCtrl.step, PcieCtrl.getTagMapReadA, Option.bind_eq_bind, Option.pure_def,
        Bram2.bind_getB_eq_some, Fifo.bind_enq_eq_some, Option.some.injEq] at fires
      obtain ⟨_, _, _, _, _, _, rfl⟩ := fires
      exact order.frame rfl rfl rfl rfl rfl rfl rfl rfl rfl rfl rfl rfl
  | relayDmaReadrQ =>
      obtain ⟨⟨_, _⟩, _, rest⟩ := Option.bind_eq_some_iff.mp fires
      obtain ⟨_, _, ⟨⟩⟩ := Option.bind_eq_some_iff.mp rest
      exact order.frame rfl rfl rfl rfl rfl rfl rfl rfl rfl rfl rfl rfl
  | generateDmaReadTLP =>
      obtain ⟨_, _, _, _, _, _, _, _, _, _, rfl⟩ := PcieCtrl.generateDmaReadTLP_cases fires
      exact order.frame rfl rfl rfl rfl rfl rfl rfl rfl rfl rfl rfl rfl
  | shiftOrder =>
      obtain ⟨⟨_, _⟩, _, rest⟩ := Option.bind_eq_some_iff.mp fires
      obtain ⟨_, _, last⟩ := Option.bind_eq_some_iff.mp rest
      obtain ⟨_, _, ⟨⟩⟩ := Option.bind_eq_some_iff.mp last
      exact order.frame rfl rfl rfl rfl rfl rfl rfl rfl rfl rfl rfl rfl
  | forwardShiftOrderTagBypass =>
      obtain ⟨⟨_, _⟩, _, rest⟩ := Option.bind_eq_some_iff.mp fires
      obtain ⟨_, _, ⟨⟩⟩ := Option.bind_eq_some_iff.mp rest
      exact order.frame rfl rfl rfl rfl rfl rfl rfl rfl rfl rfl rfl rfl
  | forwardShifted =>
      obtain ⟨⟨_, _⟩, _, rest⟩ := Option.bind_eq_some_iff.mp fires
      obtain ⟨_, _, ⟨⟩⟩ := Option.bind_eq_some_iff.mp rest
      exact order.frame rfl rfl rfl rfl rfl rfl rfl rfl rfl rfl rfl rfl
  | orderShifterStage i =>
      obtain ⟨_, _, ⟨⟩⟩ := Option.bind_eq_some_iff.mp fires
      exact order.frame rfl rfl rfl rfl rfl rfl rfl rfl rfl rfl rfl rfl
  | flushReadOrdered =>
      obtain ⟨⟨_, _⟩, _, rest⟩ := Option.bind_eq_some_iff.mp fires
      obtain ⟨_, _, ⟨⟩⟩ := Option.bind_eq_some_iff.mp rest
      exact order.frame rfl rfl rfl rfl rfl rfl rfl rfl rfl rfl rfl rfl
  | relayFlushReadOrdered =>
      obtain ⟨⟨_, _⟩, _, rest⟩ := Option.bind_eq_some_iff.mp fires
      obtain ⟨_, _, ⟨⟩⟩ := Option.bind_eq_some_iff.mp rest
      exact order.frame rfl rfl rfl rfl rfl rfl rfl rfl rfl rfl rfl rfl
  | dmaReadWord =>
      obtain ⟨⟨_, _⟩, taken, ⟨⟩⟩ := Option.map_eq_some_iff.mp fires
      obtain ⟨⟨_, _⟩, _, ⟨⟩⟩ := Option.bind_eq_some_iff.mp taken
      exact order.frame rfl rfl rfl rfl rfl rfl rfl rfl rfl rfl rfl rfl
  | _ =>
      have bursts := same.bursts (by simp [Event.parts])
      have line := same.order (by simp [Event.parts])
      have reorder := same.reorder (by simp [Event.parts])
      refine order.frame ?_ ?_ ?_ ?_ ?_ ?_ ?_ rfl rfl rfl rfl rfl
      · funext tag
        rw [PcieCtrl.tagDWs, bursts, PcieCtrl.tagDWs]
      · rw [bursts]
      · funext tag
        rw [PcieCtrl.shiftingMaps, line, PcieCtrl.shiftingMaps]
      · rw [line]
      · rw [line]
      · rw [PcieCtrl.tagsLooked, line, PcieCtrl.tagsLooked]
      · rw [reorder]

end

-----------------------------------------------------------------------------------------
-- Runs
-----------------------------------------------------------------------------------------

/-- The flush reads slots of retired bursts only, in their order. -/
theorem FlushOrder.reads_prefix {s : PcieCtrl} {log : TagLog} (order : FlushOrder s log)
    (flow : TagFlow s log)
    : log.reads <+: log.retiredSlots := by
  have retired := congrArg List.length flow.retired
  rw [List.length_append] at retired
  have fewer : log.bursts.take log.freed.length <+: log.bursts.take log.retired.length := by
    refine List.take_prefix_take_left ?_
    omega
  exact (List.prefix_append _ _).trans (order.flushed ▸ fewer.flatMap burstSlots)

/-- The flush has read the slots of the first retired bursts, and those of all of them once it is
idle and no retired tag waits for it.
-/
structure FlushedInOrder (s : PcieCtrl) (log : TagLog) : Prop where
  inOrder : log.reads <+: log.retiredSlots
  drained : s.reorder.readFlushTag.curword = 0 → s.retiredTags = [] → log.reads = log.retiredSlots

section Runs

variable {p : PowerUp} {state : PcieCtrl × TagLog}

/-- In every run the flush keeps its order, beside the tags; induction on the run. -/
theorem flushOrder_of_reach
    (run : Reach (traced PcieCtrl.step TagLog.record) HostAnswers (mkPcieCtrl p, {}) state)
    : TagsKept state.1 state.2 ∧ FlushOrder state.1 state.2 := by
  refine run.invariant (P := fun state => TagsKept state.1 state.2 ∧ FlushOrder state.1 state.2)
    ⟨tagsKept_reset p, flushOrder_reset p⟩ ?_
  intro before e after ⟨kept, order⟩ answers fires
  obtain ⟨fired, recorded⟩ := traced_eq_some.mp fires
  rw [recorded]
  exact ⟨kept.step answers fired, order.step kept fired⟩

/-- With a host that returns what is requested, in whatever order its completions come back, the
flush reads the slots of the bursts in the order of the requests.
-/
theorem flush_reads_in_order
    (run : Reach (traced PcieCtrl.step TagLog.record) HostAnswers (mkPcieCtrl p, {}) state)
    : FlushedInOrder state.1 state.2 := by
  obtain ⟨kept, order⟩ := flushOrder_of_reach run
  have retired := congrArg List.length kept.flow.retired
  rw [List.length_append] at retired
  have flushed := order.flushed
  refine ⟨order.reads_prefix kept.flow, ?_⟩
  · intro idle none
    rw [PcieCtrl.slotsToFlush_idle idle, List.append_nil] at flushed
    rw [none, List.length_nil, Nat.add_zero] at retired
    rw [flushed, TagLog.retiredSlots, retired]

end Runs

/-- A run in which two bursts of two words are flushed, the second of which was completed first. -/
theorem flush_reads_in_order_twoBursts
    : ∃ state : PcieCtrl × TagLog,
        (state.2.written, state.2.reads, state.2.bursts)
          = ([1, 1, 0, 0], [0, 1, 8, 9], [(0, 8), (1, 8)])
        ∧ FlushedInOrder state.1 state.2 := by
  obtain ⟨state, run, seen⟩ := exec_reach_map (traced PcieCtrl.step TagLog.record) HostAnswers
    ({ mkPcieCtrl default with tags := poolAfter 128 (Nat.le_refl 128) }, {})
    (List.flatten [completeTwoBursts, flushWord, flushWord, flushWord, flushWord])
    (fun state => (state.2.written, state.2.reads, state.2.bursts))
    ([1, 1, 0, 0], [0, 1, 8, 9], [(0, 8), (1, 8)]) (by decide +kernel)
  exact ⟨state, seen, flush_reads_in_order
    ((reach_poolAfter (fun _ => trivial) (fun _ => rfl) default 128 (Nat.le_refl 128)).trans run)⟩

end BluespecPcie
