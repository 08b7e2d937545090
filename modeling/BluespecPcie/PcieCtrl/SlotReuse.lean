import BluespecPcie.PcieCtrl.FlushOrder

/-! If the completions of a tag come after its flush, no slot of the reorder buffer is written
before it is read.
-/

namespace BluespecPcie

open Bluespec

-----------------------------------------------------------------------------------------
-- Slots of different tags
-----------------------------------------------------------------------------------------

/-- A slot is its tag and its place. -/
theorem toNat_slot {tag : BitVec 8} {k : BitVec 10} (within : tag < 128) (small : k.toNat < 8)
    : ((tag.zeroExtend 10 <<< 3) ||| k).toNat = 8 * tag.toNat + k.toNat := by
  have bound : tag.toNat < 128 := BitVec.lt_def.mp within
  have place : k.toNat < 2 ^ 3 := small
  have shifted : (tag.zeroExtend 10 <<< 3).toNat = tag.toNat <<< 3 := by
    rw [BitVec.toNat_shiftLeft, BitVec.zeroExtend_eq_setWidth, BitVec.toNat_setWidth,
      Nat.shiftLeft_eq, Nat.shiftLeft_eq]
    omega
  rw [BitVec.toNat_or, shifted, ← Nat.shiftLeft_add_eq_or_of_lt place, Nat.shiftLeft_eq]
  omega

/-- Only slots of the same tag are the same. -/
theorem not_mem_burstSlots {tag : BitVec 8} {k : BitVec 10} (within : tag < 128)
    (small : k.toNat < 8) {burst : BitVec 8 × Nat} (within' : burst.1 < 128)
    (short : burst.2 ≤ 32) (other : burst.1 ≠ tag)
    : ((tag.zeroExtend 10 <<< 3) ||| k) ∉ burstSlots burst := by
  intro member
  obtain ⟨j, index, same⟩ := List.mem_map.mp member
  rw [List.mem_range] at index
  have place : (BitVec.ofNat 10 j).toNat = j := by
    rw [BitVec.toNat_ofNat, Nat.mod_eq_of_lt (by omega)]
  have equal := congrArg BitVec.toNat same
  rw [toNat_slot within' (by omega), toNat_slot within small, place] at equal
  exact other (BitVec.eq_of_toNat_eq (by omega))

/-- The slot of the word `k` of a tag's burst, `(tag<<3)|k`. -/
def slotOf (tag : BitVec 8) (k : Nat) : BitVec 10 := (tag.zeroExtend 10 <<< 3) ||| BitVec.ofNat 10 k

/-- Different places of a tag, and different tags, have different slots. -/
theorem slotOf_injective {tag other : BitVec 8} {j k : Nat} (within : tag < 128)
    (within' : other < 128) (small : j < 8) (small' : k < 8)
    (same : slotOf tag j = slotOf other k)
    : tag = other ∧ j = k := by
  have place {n : Nat} (few : n < 8) : (BitVec.ofNat 10 n).toNat = n := by
    rw [BitVec.toNat_ofNat, Nat.mod_eq_of_lt (by omega)]
  have equal := congrArg BitVec.toNat same
  rw [slotOf, slotOf, toNat_slot within (by rw [place small]; exact small),
    toNat_slot within' (by rw [place small']; exact small'), place small, place small'] at equal
  exact ⟨BitVec.eq_of_toNat_eq (by omega), by omega⟩

/-- Where `writeReadBuffer` puts a word, as a slot of its tag. -/
theorem writeoff_eq_slotOf (t : TagWordsLeft)
    : ∃ k, PcieCtrl.writeoff t = slotOf t.tag k ∧ k = (t.off + t.ioff).toNat / 4 := by
  refine ⟨_, ?_, rfl⟩
  have place : (t.off + t.ioff) >>> 2 = BitVec.ofNat 10 ((t.off + t.ioff).toNat / 4) := by
    apply BitVec.eq_of_toNat_eq
    rw [BitVec.toNat_ushiftRight, Nat.shiftRight_eq_div_pow, BitVec.toNat_ofNat]
    omega
  rw [PcieCtrl.writeoff, place, slotOf]

-----------------------------------------------------------------------------------------
-- The condition and the invariant
-----------------------------------------------------------------------------------------

/-- A completion is taken only when no flush of its tag is under way. -/
def FlushedBefore (s : PcieCtrl) : Event → Prop
  | .filterStatReadTLP =>
      ∀ completion ∈ s.completionTaken,
        s.reorder.readFlushTag.curword ≠ 0 → s.reorder.readFlushTag.tag ≠ completion.1
  | _ => True

instance (s : PcieCtrl) (e : Event) : Decidable (FlushedBefore s e) := by
  apply Event.casesOn (motive := fun e => Decidable (FlushedBefore s e)) e <;> intros
  case filterStatReadTLP => exact Option.decidableForallMem _
  all_goals exact isTrue trivial

/-- The slots of the retired bursts that the flush has still to read. -/
def TagLog.unread (log : TagLog) : List (BitVec 10) := log.retiredSlots.drop log.reads.length

/-- No completion of a tag that is being flushed is on its way. -/
def FlushApart (s : PcieCtrl) (log : TagLog) : Prop :=
  s.reorder.readFlushTag.curword ≠ 0 →
    log.returnedDWs s.reorder.readFlushTag.tag = log.writtenDWs s.reorder.readFlushTag.tag

section

variable {s s' : PcieCtrl} {log : TagLog}

/-- Where `writeReadBuffer` puts a word: behind the words of its tag's last burst that are written
already, and inside the burst.
-/
theorem BurstCounts.place (counts : BurstCounts s log) (busy : s.bursts.tagWordsLeft.words > 0)
    : (s.bursts.tagWordsLeft.off + s.bursts.tagWordsLeft.ioff).toNat
          + log.askedDWs s.bursts.tagWordsLeft.tag
        = log.writtenDWs s.bursts.tagWordsLeft.tag + (s.tagDWs s.bursts.tagWordsLeft.tag).toNat
      ∧ (s.bursts.tagWordsLeft.off + s.bursts.tagWordsLeft.ioff).toNat + 4
        ≤ (s.tagDWs s.bursts.tagWordsLeft.tag).toNat
      ∧ (s.tagDWs s.bursts.tagWordsLeft.tag).toNat ≤ 32 := by
  obtain ⟨least, -, -, owed⟩ := counts.word busy
  obtain ⟨-, place, -⟩ := counts.current (by omega)
  have taken : s.bursts.tagWordsLeft.tag ∈ log.tags := TagLog.mem_tags_of_asked (by omega)
  obtain ⟨balance, small⟩ := counts.counts _ taken
  have asked := counts.asked s.bursts.tagWordsLeft.tag
  have returned := counts.returned s.bursts.tagWordsLeft.tag
  rw [PcieCtrl.currentDWs, if_pos rfl] at balance returned
  have sum : (s.bursts.tagWordsLeft.off + s.bursts.tagWordsLeft.ioff).toNat
      = s.bursts.tagWordsLeft.off.toNat + s.bursts.tagWordsLeft.ioff.toNat := by
    bv_omega
  rw [sum, PcieCtrl.tagDWs]
  omega

/-- The unread slots are those left of the burst that is being flushed, and those of the retired
bursts behind it.
-/
theorem FlushOrder.unread_eq (order : FlushOrder s log) (flow : TagFlow s log)
    : log.unread
      = s.slotsToFlush
        ++ ((log.bursts.drop log.freed.length).take s.retiredTags.length).flatMap burstSlots := by
  have retired := congrArg List.length flow.retired
  rw [List.length_append] at retired
  rw [TagLog.unread, TagLog.retiredSlots, retired, List.take_add, List.flatMap_append,
    ← order.flushed, List.append_assoc, List.drop_left]

/-- The tags of the retired bursts that wait for the flush. -/
theorem TagFlow.tags_waiting (flow : TagFlow s log)
    : ((log.bursts.drop log.freed.length).take s.retiredTags.length).map Prod.fst
      = s.retiredTags := by
  rw [List.map_take, flow.tags_held, List.take_left]

/-- Only `flushReadTag` moves the flush. -/
theorem readFlushTag_unchanged {e : Event} (fires : s.step e = some s') (other : e ≠ .flushReadTag)
    : s'.reorder.readFlushTag = s.reorder.readFlushTag := by
  rcases @flush_frame s s' {} e fires with ⟨_, _, _, same, _⟩ | rfl | rfl | rfl | rfl
  case inl => exact same
  case inr.inl => exact absurd rfl other
  case inr.inr.inl =>
    obtain ⟨⟨_, _⟩, _, rest⟩ := Option.bind_eq_some_iff.mp fires
    obtain ⟨_, _, ⟨⟩⟩ := Option.bind_eq_some_iff.mp rest
    rfl
  case inr.inr.inr.inl =>
    obtain ⟨⟨_, _⟩, _, rest⟩ := Option.bind_eq_some_iff.mp fires
    obtain ⟨_, _, ⟨⟩⟩ := Option.bind_eq_some_iff.mp rest
    rfl
  case inr.inr.inr.inr =>
    obtain ⟨⟨_, _⟩, taken, ⟨⟩⟩ := Option.map_eq_some_iff.mp fires
    obtain ⟨⟨_, _⟩, _, ⟨⟩⟩ := Option.bind_eq_some_iff.mp taken
    rfl

-----------------------------------------------------------------------------------------
-- Steps
-----------------------------------------------------------------------------------------

/-- A completion is taken, of a tag that is not being flushed. -/
theorem FlushApart.filterStatReadTLP (apart : FlushApart s log)
    (before : FlushedBefore s .filterStatReadTLP) (fires : s.step .filterStatReadTLP = some s')
    : FlushApart s' (log.record s .filterStatReadTLP) := by
  have flush := readFlushTag_unchanged fires (by decide)
  rw [FlushApart, flush]
  intro busy
  change (withLabel s.reorder.readFlushTag.tag
    (log.returned ++ s.completionTaken.toList)).sum = log.writtenDWs s.reorder.readFlushTag.tag
  rw [← apart busy]
  rcases taken : s.completionTaken with _ | ⟨tag, dws⟩
  case none => rw [Option.toList_none, List.append_nil, TagLog.returnedDWs]
  case some =>
    rw [Option.toList_some, withLabel_snoc, if_neg (before _ taken busy).symm, TagLog.returnedDWs]

/-- A word is written, of a tag that is not being flushed. -/
theorem FlushApart.writeReadBuffer (apart : FlushApart s log) (counts : BurstCounts s log)
    (fires : s.step .writeReadBuffer = some s')
    : FlushApart s' (log.record s .writeReadBuffer) := by
  have flush := readFlushTag_unchanged fires (by decide)
  obtain ⟨busy, _⟩ := PcieCtrl.writeReadBuffer_cases fires
  obtain ⟨least, -, -, -⟩ := counts.word busy
  have returned := counts.returned s.bursts.tagWordsLeft.tag
  rw [PcieCtrl.currentDWs, if_pos rfl] at returned
  rw [FlushApart, flush]
  intro flushing
  have before := apart flushing
  change log.returnedDWs s.reorder.readFlushTag.tag
    = (log.record s .writeReadBuffer).writtenDWs s.reorder.readFlushTag.tag
  rw [TagLog.writtenDWs_word, if_neg (fun same => by rw [← same] at before; omega)]
  exact before

/-- All data of a burst that the flush takes up is written. -/
theorem FlushApart.flushReadTag (apart : FlushApart s log) (kept : TagsKept s log)
    (fires : s.step .flushReadTag = some s')
    : FlushApart s' (log.record s .flushReadTag) := by
  obtain ⟨flow, counts, bits⟩ := kept
  rcases PcieCtrl.flushReadTag_cases fires with
    ⟨_, _, d, _, _, _, taken, _, _, rfl⟩ | rfl | ⟨busy, _, _, rfl⟩
  case inl =>
    intro _
    change log.returnedDWs d.1 = log.writtenDWs d.1
    have isRetired : d.1 ∈ s.retiredTags := by simp [PcieCtrl.retiredTags, taken]
    have within : d.1 < 128 :=
      flow.within (List.mem_append_right _ (List.mem_append_left _ isRetired))
    have received := bits.received flow within (fun unretired =>
      (List.nodup_append.mp (List.nodup_append.mp flow.apart).2.1).2.2 d.1 isRetired d.1
        unretired rfl)
    obtain ⟨quiet, still⟩ := counts.quiet received
    have returned := counts.returned d.1
    omega
  case inr.inl => exact apart
  case inr.inr => exact fun _ => apart busy

/-- Every event keeps completions apart from the flush. -/
theorem FlushApart.step {e : Event} (apart : FlushApart s log) (kept : TagsKept s log)
    (before : FlushedBefore s e) (fires : s.step e = some s')
    : FlushApart s' (log.record s e) := by
  cases e
  case filterStatReadTLP => exact apart.filterStatReadTLP before fires
  case writeReadBuffer => exact apart.writeReadBuffer kept.counts fires
  case flushReadTag => exact apart.flushReadTag kept fires
  all_goals
    have flush := readFlushTag_unchanged fires (by simp)
    rw [FlushApart, flush]
    exact apart

/-- The burst that is written is none whose slots are still to be read. -/
theorem FlushApart.written_apart (apart : FlushApart s log) (kept : TagsKept s log)
    (busy : s.bursts.tagWordsLeft.words > 0)
    : s.bursts.tagWordsLeft.tag ∉ s.retiredTags
      ∧ (s.reorder.readFlushTag.curword ≠ 0 →
          s.bursts.tagWordsLeft.tag ≠ s.reorder.readFlushTag.tag) := by
  have unretired := kept.mem_unretired_written busy
  obtain ⟨least, -, -, -⟩ := kept.counts.word busy
  have returned := kept.counts.returned s.bursts.tagWordsLeft.tag
  rw [PcieCtrl.currentDWs, if_pos rfl] at returned
  refine ⟨?_, ?_⟩
  · intro retired
    exact (List.nodup_append.mp (List.nodup_append.mp kept.flow.apart).2.1).2.2 _ retired _
      unretired rfl
  · intro flushing same
    have before := apart flushing
    rw [← same] at before
    omega

/-- No slot is written that the flush has still to read. -/
theorem FlushApart.unwritten (apart : FlushApart s log) (kept : TagsKept s log)
    (order : FlushOrder s log) (fires : s.writeReadBuffer = some s')
    : PcieCtrl.writeoff s.bursts.tagWordsLeft ∉ log.unread := by
  obtain ⟨busy, -⟩ := PcieCtrl.writeReadBuffer_cases fires
  obtain ⟨notRetired, notFlushed⟩ := apart.written_apart kept busy
  obtain ⟨-, inside, small⟩ := kept.counts.place busy
  have within : s.bursts.tagWordsLeft.tag < 128 :=
    kept.flow.within (List.mem_append_right _ (List.mem_append_right _
      (kept.mem_unretired_written busy)))
  have few : ((s.bursts.tagWordsLeft.off + s.bursts.tagWordsLeft.ioff) >>> 2).toNat < 8 := by
    rw [BitVec.toNat_ushiftRight, Nat.shiftRight_eq_div_pow]
    omega
  obtain ⟨most, short, -, -, flushWithin⟩ := order.under
  rw [order.unread_eq kept.flow]
  intro member
  rcases List.mem_append.mp member with flushing | waiting
  case inl =>
    by_cases idle : s.reorder.readFlushTag.curword = 0
    · rw [PcieCtrl.slotsToFlush_idle idle] at flushing
      exact absurd flushing List.not_mem_nil
    · exact not_mem_burstSlots within few flushWithin short (notFlushed idle).symm
        (List.mem_of_mem_drop flushing)
  case inr =>
    obtain ⟨burst, inBursts, slot⟩ := List.mem_flatMap.mp waiting
    have retired : burst.1 ∈ s.retiredTags :=
      kept.flow.tags_waiting ▸ List.mem_map_of_mem inBursts
    have made : burst ∈ log.bursts := List.mem_of_mem_drop (List.mem_of_mem_take inBursts)
    refine not_mem_burstSlots within few ?_ (order.cut burst made).2.2 ?_ slot
    · exact kept.flow.bounded _ (List.mem_map_of_mem made)
    · exact fun same => notRetired (same ▸ retired)

-----------------------------------------------------------------------------------------
-- The slots that hold data
-----------------------------------------------------------------------------------------

/-- The slot is that of a word which is written, of a burst that has not retired. -/
def TagLog.Stored (log : TagLog) (slot : BitVec 10) : Prop :=
  ∃ burst ∈ log.bursts.drop log.retired.length, ∃ k,
    slot = slotOf burst.1 k
    ∧ 4 * (k + 1) + log.askedDWs burst.1 ≤ log.writtenDWs burst.1 + burst.2

/-- The history of the tags, and the slots of the reorder buffer that are written and that the flush
has not read since.
-/
structure SlotLog where
  tags : TagLog := {}
  full : List (BitVec 10) := []

/-- A word fills its slot; a read of the flush empties one. -/
def SlotLog.record (s : PcieCtrl) (e : Event) (log : SlotLog) : SlotLog where
  tags := log.tags.record s e
  full :=
    match e with
    | .writeReadBuffer => log.full ++ [PcieCtrl.writeoff s.bursts.tagWordsLeft]
    | .flushReadTag => log.full.filter (fun slot => s.flushReads ≠ some slot)
    | _ => log.full

/-- A slot that holds data is one of a retired burst that the flush has still to read, or one of a
burst that has not retired.
-/
def SlotLog.Known (log : SlotLog) : Prop :=
  ∀ slot ∈ log.full, slot ∈ log.tags.unread ∨ log.tags.Stored slot

/-- The bursts that have not retired are those of the unretired tags. -/
theorem TagFlow.tags_unretired (flow : TagFlow s log)
    : (log.bursts.drop log.retired.length).map Prod.fst = s.unretiredTags := by
  rw [List.map_drop]
  change log.tags.drop log.retired.length = _
  rw [flow.made, List.drop_left]

/-- As many bursts retire as are made, at most. -/
theorem TagFlow.retired_le (flow : TagFlow s log) : log.retired.length ≤ log.bursts.length := by
  have made := congrArg List.length flow.made
  rw [TagLog.tags, List.length_map, List.length_append] at made
  omega

/-- A burst that has not retired has the DWs that `tagMap` has for its tag. -/
theorem FlushOrder.size_unretired (order : FlushOrder s log) (flow : TagFlow s log)
    {burst : BitVec 8 × Nat} (member : burst ∈ log.bursts.drop log.retired.length)
    : burst.2 = (s.tagDWs burst.1).toNat := by
  refine order.sizes burst ?_
  rw [flow.retired, List.length_append, ← List.drop_drop] at member
  exact List.mem_of_mem_drop member

/-- The word that `writeReadBuffer` writes is one of a burst that has not retired. -/
theorem TagsKept.burst_written (kept : TagsKept s log) (busy : s.bursts.tagWordsLeft.words > 0)
    : ∃ burst ∈ log.bursts.drop log.retired.length, burst.1 = s.bursts.tagWordsLeft.tag := by
  have unretired := kept.mem_unretired_written busy
  rw [← kept.flow.tags_unretired] at unretired
  exact List.mem_map.mp unretired

section Slots

variable {full : List (BitVec 10)}

/-- A burst takes a tag of which no slot is in use. -/
theorem SlotLog.Known.splitDmaReadReq2 (known : SlotLog.Known ⟨log, full⟩) (flow : TagFlow s log)
    (fires : s.splitDmaReadReq2 = some s')
    : SlotLog.Known ⟨log.record s .splitDmaReadReq2, full⟩ := by
  obtain ⟨_, tag, _, _, _, _, taken, -⟩ := PcieCtrl.splitDmaReadReq2_cases fires
  have made := PcieCtrl.burstMade_eq taken
  have isFree : tag ∈ s.freeTags := List.mem_append_left _ (by simp [taken])
  have apartTags := (List.nodup_append.mp flow.apart).2.2
  have bursts : (log.record s .splitDmaReadReq2).bursts = log.bursts ++ s.burstMade.toList := rfl
  intro slot member
  rcases known slot member with unread | ⟨burst, held, k, same, fits⟩
  case inl =>
    refine .inl ?_
    change slot ∈ (((log.bursts ++ s.burstMade.toList).take log.retired.length).flatMap
      burstSlots).drop log.reads.length
    rw [List.take_append_of_le_length flow.retired_le]
    exact unread
  case inr =>
    refine .inr ⟨burst, ?_, k, same, ?_⟩
    · rw [bursts]
      change burst ∈ (log.bursts ++ _).drop log.retired.length
      rw [List.drop_append_of_le_length flow.retired_le]
      exact List.mem_append_left _ held
    · have unretired : burst.1 ∈ s.unretiredTags := flow.tags_unretired ▸ List.mem_map_of_mem held
      have other : tag ≠ burst.1 := apartTags tag isFree burst.1 (List.mem_append_right _ unretired)
      rw [TagLog.askedDWs_burst made, if_neg other]
      exact fits

/-- A word fills the slot of its place. -/
theorem SlotLog.Known.writeReadBuffer (known : SlotLog.Known ⟨log, full⟩) (kept : TagsKept s log)
    (order : FlushOrder s log) (fires : s.writeReadBuffer = some s')
    : SlotLog.Known ⟨log.record s .writeReadBuffer,
        full ++ [PcieCtrl.writeoff s.bursts.tagWordsLeft]⟩ := by
  obtain ⟨busy, -⟩ := PcieCtrl.writeReadBuffer_cases fires
  obtain ⟨place, -, -⟩ := kept.counts.place busy
  obtain ⟨k, slot, index⟩ := writeoff_eq_slotOf s.bursts.tagWordsLeft
  obtain ⟨mine, held, tag⟩ := kept.burst_written busy
  have size := order.size_unretired kept.flow held
  intro other member
  rcases List.mem_append.mp member with old | new
  case inl =>
    rcases known other old with unread | ⟨burst, held', k', same, fits⟩
    case inl => exact .inl unread
    case inr =>
      refine .inr ⟨burst, held', k', same, Nat.le_trans fits ?_⟩
      rw [TagLog.writtenDWs_word]
      exact Nat.add_le_add_right (Nat.le_add_right _ _) _
  case inr =>
    obtain rfl := List.mem_singleton.mp new
    refine .inr ⟨mine, held, k, tag ▸ slot, ?_⟩
    rw [TagLog.writtenDWs_word, size, tag, if_pos rfl]
    change 4 * (k + 1) + log.askedDWs s.bursts.tagWordsLeft.tag ≤ _
    omega

/-- The slots of a burst that retires are to be read. -/
theorem SlotLog.Known.compareOrder (known : SlotLog.Known ⟨log, full⟩) (kept : TagsKept s log)
    (order : FlushOrder s log)
    : SlotLog.Known ⟨log.record s .compareOrder, full⟩ := by
  have read : log.reads.length ≤ ((log.bursts.take log.retired.length).flatMap burstSlots).length :=
    (order.reads_prefix kept.flow).length_le
  have unread : (log.record s .compareOrder).unread
      = log.unread
        ++ ((log.bursts.drop log.retired.length).take s.tagRetired.toList.length).flatMap
          burstSlots := by
    change ((log.bursts.take (log.retired ++ s.tagRetired.toList).length).flatMap burstSlots).drop
      log.reads.length = _
    rw [List.length_append, List.take_add, List.flatMap_append,
      List.drop_append_of_le_length read, TagLog.unread, TagLog.retiredSlots]
  intro slot member
  rcases known slot member with before | ⟨burst, held, k, same, fits⟩
  case inl =>
    rw [unread]
    exact .inl (List.mem_append_left _ before)
  case inr =>
    rw [← List.take_append_drop s.tagRetired.toList.length (log.bursts.drop _)] at held
    rcases List.mem_append.mp held with retires | stays
    case inl =>
      have asked := kept.counts.asked burst.1
      have returned := kept.counts.returned burst.1
      change 4 * (k + 1) + log.askedDWs burst.1 ≤ log.writtenDWs burst.1 + burst.2 at fits
      rw [unread]
      refine .inl (List.mem_append_right _ (List.mem_flatMap.mpr ⟨burst, retires, ?_⟩))
      exact List.mem_map.mpr ⟨k, List.mem_range.mpr (by omega), same.symm⟩
    case inr =>
      refine .inr ⟨burst, ?_, k, same, fits⟩
      change burst ∈ log.bursts.drop (log.retired ++ s.tagRetired.toList).length
      rw [List.length_append, ← List.drop_drop]
      exact stays

/-- The slot that the flush reads is the first one to be read. -/
theorem SlotLog.Known.flushReadTag (known : SlotLog.Known ⟨log, full⟩) (kept : TagsKept s log)
    (order : FlushOrder s log) (fires : s.flushReadTag = some s')
    : SlotLog.Known ⟨log.record s .flushReadTag,
        full.filter (fun slot => s.flushReads ≠ some slot)⟩ := by
  have order' := order.flushReadTag kept fires
  have flow' := kept.flow.flushReadTag fires
  obtain ⟨rest, slots⟩ := order'.reads_prefix flow'
  change (log.reads ++ s.flushReads.toList) ++ rest = log.retiredSlots at slots
  have unread : log.unread = s.flushReads.toList ++ rest := by
    rw [TagLog.unread, ← slots, List.append_assoc, List.drop_left]
  have unread' : (log.record s .flushReadTag).unread = rest := by
    change log.retiredSlots.drop (log.reads ++ s.flushReads.toList).length = rest
    rw [← slots, List.drop_left]
  intro slot member
  obtain ⟨inFull, notRead⟩ := List.mem_filter.mp member
  rcases known slot inFull with before | stored
  case inl =>
    rw [unread] at before
    rcases List.mem_append.mp before with now | later
    case inl => exact absurd (Option.mem_toList.mp now) (of_decide_eq_true notRead)
    case inr =>
      refine .inl ?_
      rw [unread']
      exact later
  case inr => exact .inr stored

end Slots

/-- Every event keeps what is known of the slots that hold data. -/
theorem SlotLog.Known.step {e : Event} {slots : SlotLog} (known : slots.Known)
    (kept : TagsKept s slots.tags) (order : FlushOrder s slots.tags) (fires : s.step e = some s')
    : (slots.record s e).Known := by
  cases e with
  | splitDmaReadReq2 => exact SlotLog.Known.splitDmaReadReq2 known kept.flow fires
  | writeReadBuffer => exact SlotLog.Known.writeReadBuffer known kept order fires
  | compareOrder => exact SlotLog.Known.compareOrder known kept order
  | flushReadTag => exact SlotLog.Known.flushReadTag known kept order fires
  | _ => exact known

/-- No slot is written that holds data of a burst which has not retired. -/
theorem TagsKept.unstored (kept : TagsKept s log) (order : FlushOrder s log)
    (fires : s.writeReadBuffer = some s')
    : ¬log.Stored (PcieCtrl.writeoff s.bursts.tagWordsLeft) := by
  obtain ⟨busy, -⟩ := PcieCtrl.writeReadBuffer_cases fires
  obtain ⟨place, inside, small⟩ := kept.counts.place busy
  obtain ⟨k, slot, index⟩ := writeoff_eq_slotOf s.bursts.tagWordsLeft
  have within := kept.flow.within (List.mem_append_right _ (List.mem_append_right _
    (kept.mem_unretired_written busy)))
  rintro ⟨burst, held, k', same, fits⟩
  have made : burst ∈ log.bursts := List.mem_of_mem_drop held
  have within' := kept.flow.bounded burst.1 (List.mem_map_of_mem made)
  have asked := kept.counts.asked burst.1
  have returned := kept.counts.returned burst.1
  have short := (order.cut burst made).2.2
  have size := order.size_unretired kept.flow held
  obtain ⟨tag, atPlace⟩ := slotOf_injective within within' (show k < 8 by omega)
    (show k' < 8 by omega) (slot.symm.trans same)
  rw [size, ← tag] at fits
  omega

end

-----------------------------------------------------------------------------------------
-- Runs
-----------------------------------------------------------------------------------------

section Runs

variable {p : PowerUp} {state : PcieCtrl × TagLog}

/-- In every run whose completions come after the flush of their tag, the flush keeps its order and
no completion of its tag is on its way; induction on the run.
-/
theorem flushApart_of_reach
    (run : Reach (traced PcieCtrl.step TagLog.record)
      (fun state e => HostAnswers state e ∧ FlushedBefore state.1 e) (mkPcieCtrl p, {}) state)
    : TagsKept state.1 state.2 ∧ FlushOrder state.1 state.2 ∧ FlushApart state.1 state.2 := by
  refine run.invariant (P := fun state => TagsKept state.1 state.2 ∧ FlushOrder state.1 state.2
    ∧ FlushApart state.1 state.2) ⟨tagsKept_reset p, flushOrder_reset p, ?_⟩ ?_
  · exact fun flushing => absurd rfl flushing
  · intro before e after ⟨kept, order, apart⟩ ⟨answers, flushed⟩ fires
    obtain ⟨fired, recorded⟩ := traced_eq_some.mp fires
    rw [recorded]
    exact ⟨kept.step answers fired, order.step kept fired, apart.step kept flushed fired⟩

/-- If completions come after the flush of their tag, `writeReadBuffer` never writes a slot that
holds data which the flush has still to read, of a retired burst or of one that is still being
received, however tags are used again.
-/
theorem unread_slots_unwritten {state : PcieCtrl × SlotLog}
    (run : Reach (traced PcieCtrl.step SlotLog.record)
      (fun state e => HostAnswers (state.1, state.2.tags) e ∧ FlushedBefore state.1 e)
      (mkPcieCtrl p, {}) state)
    {s' : PcieCtrl} (fires : state.1.writeReadBuffer = some s')
    : PcieCtrl.writeoff state.1.bursts.tagWordsLeft ∉ state.2.full
      ∧ PcieCtrl.writeoff state.1.bursts.tagWordsLeft ∉ state.2.tags.unread := by
  have run' : Reach (traced PcieCtrl.step TagLog.record)
      (fun state e => HostAnswers state e ∧ FlushedBefore state.1 e) (mkPcieCtrl p, {})
      (state.1, state.2.tags) :=
    run.retain (f := SlotLog.tags) (fun _ _ _ => rfl) (fun _ _ _ allowed => allowed)
  obtain ⟨kept, order, apart⟩ := flushApart_of_reach run'
  have known : state.2.Known := by
    refine (run.invariant (P := fun state => (TagsKept state.1 state.2.tags
      ∧ FlushOrder state.1 state.2.tags) ∧ state.2.Known)
      ⟨⟨tagsKept_reset p, flushOrder_reset p⟩, fun _ member => absurd member List.not_mem_nil⟩
      ?_).2
    rintro before e after ⟨⟨kept, order⟩, known⟩ ⟨answers, -⟩ fires
    obtain ⟨fired, recorded⟩ := traced_eq_some.mp fires
    rw [recorded]
    exact ⟨⟨kept.step answers fired, order.step kept fired⟩, known.step kept order fired⟩
  have unread := apart.unwritten kept order fires
  refine ⟨?_, unread⟩
  intro full
  rcases known _ full with toRead | stored
  case inl => exact unread toRead
  case inr => exact kept.unstored order fires stored

end Runs

/-- A run that writes slot 9 while slots 0 and 1 hold the words of a burst that has retired, and
slot 8 one of a burst that is being received.
-/
theorem unread_slots_unwritten_fourthWord
    : ∃ (state : PcieCtrl × SlotLog) (s' : PcieCtrl),
        state.1.writeReadBuffer = some s'
        ∧ (PcieCtrl.writeoff state.1.bursts.tagWordsLeft, state.2.full, state.2.tags.unread)
          = (9, [0, 1, 8], [0, 1])
        ∧ PcieCtrl.writeoff state.1.bursts.tagWordsLeft ∉ state.2.full
        ∧ PcieCtrl.writeoff state.1.bursts.tagWordsLeft ∉ state.2.tags.unread := by
  obtain ⟨state, run, seen⟩ := exec_reach_map (traced PcieCtrl.step SlotLog.record)
    (fun state e => HostAnswers (state.1, state.2.tags) e ∧ FlushedBefore state.1 e)
    ({ mkPcieCtrl default with tags := poolAfter 128 (Nat.le_refl 128) }, {})
    (List.flatten [
      askTwoWords 0, receiveTwoWords 0 13, retireOldest, askTwoWords 32,
      (receiveTwoWords 1 14).take 13])
    (fun state => (state.1.writeReadBuffer.isSome,
      (PcieCtrl.writeoff state.1.bursts.tagWordsLeft, state.2.full, state.2.tags.unread)))
    (true, (9, [0, 1, 8], [0, 1])) (by decide +kernel)
  obtain ⟨enabled, slots⟩ := Prod.mk.inj seen
  obtain ⟨s', fires⟩ := Option.isSome_iff_exists.mp enabled
  exact ⟨state, s', fires, slots, unread_slots_unwritten
    ((reach_poolAfter (fun _ => ⟨trivial, trivial⟩) (fun _ => rfl) default 128
      (Nat.le_refl 128)).trans run) fires⟩

end BluespecPcie
