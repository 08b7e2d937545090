import BluespecPcie.PcieCtrl.ReadWords
import BluespecPcie.PcieCtrl.SlotReuse

/-! The words of the reorder buffer: the slots of a tag hold the words stored for its last burst,
and the flush requests the words of the bursts in order.
-/

namespace BluespecPcie

open Bluespec

-----------------------------------------------------------------------------------------
-- Slots and stored words
-----------------------------------------------------------------------------------------

/-- The whole words of `dws` DWs. -/
def wholeWords (dws : Nat) : Nat := dws / 4

/-- The word `i` stored with a tag is in the slot of its place `k` in the last burst of the tag. -/
structure ReorderHolds (s : PcieCtrl) (tags : TagLog) (stored : List (BitVec 8 × DMAWord))
    : Prop where
  written : stored.map Prod.fst = tags.written
  slots
    : ∀ tag ∈ tags.tags, ∀ i k,
        4 * i + (s.tagDWs tag).toNat = tags.askedDWs tag + 4 * k →
        4 * (i + 1) ≤ tags.writtenDWs tag →
        (withLabel tag stored)[i]? = some (s.reorder.readReorder.mem (slotOf tag k))

/-- The words requested by the flush, and those in the slots that it has still to read, are the
words `asked` of the bursts whose tags are given back.
-/
def FlushWords (s : PcieCtrl) (tags : TagLog) (flush : FlushLog) (asked : List DMAWord) : Prop :=
  flush.requested ++ s.slotsToFlush.map s.reorder.readReorder.mem
    = asked.take (runLabels wholeWords (tags.bursts.take tags.freed.length)).length

section

variable {s s' : PcieCtrl} {tags tags' : TagLog} {stored : List (BitVec 8 × DMAWord)}
  {flush : FlushLog} {asked : List DMAWord}

theorem reorderHolds_reset (p : PowerUp) : ReorderHolds (mkPcieCtrl p) {} [] :=
  ⟨rfl, fun _ member => absurd member List.not_mem_nil⟩

/-- What does not concern the slots keeps their words. -/
theorem ReorderHolds.frame (holds : ReorderHolds s tags stored) (dws : s'.tagDWs = s.tagDWs)
    (mem : s'.reorder.readReorder.mem = s.reorder.readReorder.mem)
    (bursts : tags'.bursts = tags.bursts) (written : tags'.written = tags.written)
    : ReorderHolds s' tags' stored := by
  obtain ⟨inWritten, slots⟩ := holds
  refine ⟨inWritten.trans written.symm, ?_⟩
  rw [TagLog.tags, bursts, dws, mem]
  intro tag member i k place fits
  rw [TagLog.askedDWs, bursts] at place
  rw [TagLog.writtenDWs, written] at fits
  exact slots tag member i k place fits

/-- As many words of a tag are stored as are written. -/
theorem ReorderHolds.length (holds : ReorderHolds s tags stored) (tag : BitVec 8)
    : tags.writtenDWs tag = 4 * (withLabel tag stored).length := by
  rw [TagLog.writtenDWs, ← holds.written, withLabel, List.length_map, List.count_eq_countP,
    List.countP_map, List.countP_eq_length_filter]
  congr 3

-----------------------------------------------------------------------------------------
-- Steps
-----------------------------------------------------------------------------------------

/-- A word goes to the slot of its place. -/
theorem ReorderHolds.writeReadBuffer (holds : ReorderHolds s tags stored) (kept : TagsKept s tags)
    (fires : s.writeReadBuffer = some s')
    : ReorderHolds s' (tags.record s .writeReadBuffer)
        (stored ++ s.wordStored .writeReadBuffer) := by
  obtain ⟨busy, word, _, _, first, -, same⟩ := PcieCtrl.writeReadBuffer_cases fires
  obtain ⟨flow, counts, -⟩ := kept
  obtain ⟨least, -, -, owed⟩ := counts.word busy
  obtain ⟨place, inside, small⟩ := counts.place busy
  have dws : s'.tagDWs = s.tagDWs := by
    rw [same]
    rfl
  have mem : s'.reorder.readReorder.mem
      = Function.update s.reorder.readReorder.mem (PcieCtrl.writeoff s.bursts.tagWordsLeft)
          word.word := by
    rw [same]
    rfl
  have own : s.wordStored .writeReadBuffer = [(s.bursts.tagWordsLeft.tag, word.word)] := by
    rw [PcieCtrl.wordStored, Fifo.first_eq_some.mpr ⟨_, first⟩]
    rfl
  have lengths := holds.length
  obtain ⟨written, slots⟩ := holds
  obtain ⟨k₀, slot, index⟩ := writeoff_eq_slotOf s.bursts.tagWordsLeft
  have taken : s.bursts.tagWordsLeft.tag ∈ tags.tags := TagLog.mem_tags_of_asked (by omega)
  refine ⟨?_, ?_⟩
  · rw [own, List.map_append, written]
    rfl
  · intro tag member i k relation fits
    have member : tag ∈ tags.tags := member
    have within := flow.bounded tag member
    have mineWithin := flow.bounded _ taken
    have most := counts.asked tag
    have returned := counts.returned tag
    obtain ⟨-, few⟩ := counts.counts tag member
    rw [dws] at relation
    change 4 * i + (s.tagDWs tag).toNat = tags.askedDWs tag + 4 * k at relation
    rw [TagLog.writtenDWs_word] at fits
    rw [own, mem, slot, withLabel_snoc]
    change (s.tagDWs tag).toNat ≤ 32 at few
    by_cases mine : s.bursts.tagWordsLeft.tag = tag
    · subst mine
      rw [if_pos rfl] at fits ⊢
      have count := lengths s.bursts.tagWordsLeft.tag
      by_cases last : i = (withLabel s.bursts.tagWordsLeft.tag stored).length
      · have here : k = k₀ := by omega
        rw [here, Function.update_self, last, List.getElem?_concat_length]
      · have earlier : i < (withLabel s.bursts.tagWordsLeft.tag stored).length := by omega
        have elsewhere
            : slotOf s.bursts.tagWordsLeft.tag k ≠ slotOf s.bursts.tagWordsLeft.tag k₀ := by
          intro equal
          have clash := (slotOf_injective within within (by omega) (by omega) equal).2
          omega
        rw [Function.update_of_ne elsewhere, List.getElem?_append_left earlier]
        exact slots _ taken i k relation (by omega)
    · rw [if_neg mine] at fits ⊢
      have elsewhere : slotOf tag k ≠ slotOf s.bursts.tagWordsLeft.tag k₀ := by
        intro equal
        exact mine (slotOf_injective within mineWithin (by omega) (by omega) equal).1.symm
      rw [Function.update_of_ne elsewhere]
      exact slots tag member i k relation (by omega)

/-- A burst opens the slots of a tag of which everything was received. -/
theorem ReorderHolds.splitDmaReadReq2 (holds : ReorderHolds s tags stored) (kept : TagsKept s tags)
    (fires : s.splitDmaReadReq2 = some s')
    : ReorderHolds s' (tags.record s .splitDmaReadReq2) stored := by
  obtain ⟨busy, tag, freeReadTagQ, _, _, _, taken, -, -, -, same⟩ :=
    PcieCtrl.splitDmaReadReq2_cases fires
  obtain ⟨flow, counts, bits⟩ := kept
  have received : tags.Received tag := bits.received_free flow tag (by simp [taken])
  have made := PcieCtrl.burstMade_eq taken
  have covers := splitRead_covers counts.aligned busy
  have short := covers.short
  have dws (t : BitVec 8)
      : s'.tagDWs t
        = if t = tag then
            (splitRead s.reads.dmaReadStartAddr s.reads.dmaReadWords).words <<< 2
          else s.tagDWs t := by
    rw [same]
    change (Function.update s.bursts.tagMap.mem tag _ t).1 = _
    by_cases mine : t = tag
    · rw [mine, Function.update_self, if_pos rfl]
    · rw [Function.update_of_ne mine, if_neg mine, PcieCtrl.tagDWs]
  have mem : s'.reorder = s.reorder := by rw [same]
  have written : (tags.record s .splitDmaReadReq2).written = tags.written := rfl
  generalize splitRead s.reads.dmaReadStartAddr s.reads.dmaReadWords = split at *
  have size : (split.words <<< 2).toNat = 4 * split.words.toNat := by
    rw [BitVec.toNat_shiftLeft, Nat.shiftLeft_eq, Nat.mod_eq_of_lt (by omega)]
    omega
  obtain ⟨inWritten, slots⟩ := holds
  refine ⟨inWritten, ?_⟩
  intro other member i k relation fits
  rw [TagLog.askedDWs_burst made, dws] at relation
  rw [TagLog.tags_burst made] at member
  rw [TagLog.writtenDWs, written, ← TagLog.writtenDWs] at fits
  rw [mem]
  by_cases mine : other = tag
  · subst mine
    rw [if_pos rfl, if_pos rfl, size] at relation
    rw [TagLog.Received] at received
    omega
  · rw [if_neg mine, if_neg (Ne.symm mine)] at relation
    rcases List.mem_append.mp member with old | new
    case inl => exact slots other old i k relation fits
    case inr => exact absurd (List.mem_singleton.mp new) mine

/-- The counts of a completion keep the DWs of its tag. -/
theorem BurstCounts.tagDWs_updateReadBurst2 (counts : BurstCounts s tags)
    (fires : s.updateReadBurst2 = some s')
    : s'.tagDWs = s.tagDWs := by
  obtain ⟨-, -, entry, _, burst, _, _, _, looked, taken, -, rfl⟩ :=
    PcieCtrl.updateReadBurst2_cases fires
  have reads := counts.reads
  rw [looked, taken, List.cons_append, List.map_cons] at reads
  have same : entry = s.bursts.tagMap.mem burst.1 := (List.cons.inj reads).1
  funext tag
  change (Function.update s.bursts.tagMap.mem burst.1 _ tag).1 = (s.bursts.tagMap.mem tag).1
  by_cases mine : tag = burst.1
  · rw [mine, Function.update_self, same]
  · rw [Function.update_of_ne mine]

/-- Only a split and a completion's counts change the DWs of tags, and not those of a tag that
is counted.
-/
theorem tagDWs_unchanged {e : Event} (counts : BurstCounts s tags) (fires : s.step e = some s')
    (notSplit : e ≠ .splitDmaReadReq2)
    : s'.tagDWs = s.tagDWs := by
  cases e with
  | splitDmaReadReq2 => exact absurd rfl notSplit
  | updateReadBurst2 => exact counts.tagDWs_updateReadBurst2 fires
  | procCompletionTLP =>
      obtain ⟨_, _, _, _, _, _, _, _, _, rfl⟩ := PcieCtrl.procCompletionTLP_cases fires
      rfl
  | filterStatReadTLP =>
      obtain ⟨_, _, _, _, _, _, _, ⟨_, _, _, _, _, rfl⟩ | ⟨_, _, _, _, rfl⟩
        | ⟨_, _, _, _, _, _, rfl⟩⟩ := PcieCtrl.filterStatReadTLP_cases fires
      all_goals rfl
  | relayReadBurst =>
      obtain ⟨⟨_, _⟩, _, rest⟩ := Option.bind_eq_some_iff.mp fires
      obtain ⟨_, _, ⟨⟩⟩ := Option.bind_eq_some_iff.mp rest
      rfl
  | updateReadBurst1 =>
      obtain ⟨_, rfl | ⟨_, _, _, _, _, _, _, _, _, _, rfl⟩⟩ := PcieCtrl.updateReadBurst1_cases fires
      all_goals rfl
  | getTagMapReadA =>
      simp only [PcieCtrl.step, PcieCtrl.getTagMapReadA, Option.bind_eq_bind, Option.pure_def,
        Bram2.bind_getB_eq_some, Fifo.bind_enq_eq_some, Option.some.injEq] at fires
      obtain ⟨_, _, _, _, _, _, rfl⟩ := fires
      rfl
  | relayDmaReadrQ =>
      obtain ⟨⟨_, _⟩, _, rest⟩ := Option.bind_eq_some_iff.mp fires
      obtain ⟨_, _, ⟨⟩⟩ := Option.bind_eq_some_iff.mp rest
      rfl
  | writeReadBuffer =>
      obtain ⟨_, _, _, _, _, _, rfl⟩ := PcieCtrl.writeReadBuffer_cases fires
      rfl
  | applyDoneMap =>
      obtain ⟨_, _, _, _, _, rfl⟩ := PcieCtrl.applyDoneMap_cases fires
      rfl
  | _ =>
      have bursts := (step_unchanged fires).bursts (by simp [Event.parts])
      funext tag
      rw [PcieCtrl.tagDWs, bursts, PcieCtrl.tagDWs]

/-- Only `writeReadBuffer` writes the reorder buffer. -/
theorem readReorder_unchanged {e : Event} (fires : s.step e = some s')
    (notWrite : e ≠ .writeReadBuffer)
    : s'.reorder.readReorder.mem = s.reorder.readReorder.mem := by
  cases e with
  | writeReadBuffer => exact absurd rfl notWrite
  | flushReadTag =>
      obtain ⟨_, _, _, _, _, _, _, _, _, rfl⟩ | rfl | ⟨_, _, _, rfl⟩ :=
        PcieCtrl.flushReadTag_cases fires
      all_goals rfl
  | flushReadOrdered =>
      simp only [PcieCtrl.step, PcieCtrl.flushReadOrdered, Option.bind_eq_bind, Option.pure_def,
        Bram2.bind_getB_eq_some, Fifo.bind_enq_eq_some, Option.some.injEq] at fires
      obtain ⟨_, _, _, _, _, _, rfl⟩ := fires
      rfl
  | relayFlushReadOrdered =>
      obtain ⟨⟨_, _⟩, _, rest⟩ := Option.bind_eq_some_iff.mp fires
      obtain ⟨_, _, ⟨⟩⟩ := Option.bind_eq_some_iff.mp rest
      rfl
  | dmaReadWord =>
      obtain ⟨⟨_, _⟩, taken, ⟨⟩⟩ := Option.map_eq_some_iff.mp fires
      obtain ⟨⟨_, _⟩, _, ⟨⟩⟩ := Option.bind_eq_some_iff.mp taken
      rfl
  | _ =>
      have reorder := (step_unchanged fires).reorder (by simp [Event.parts])
      rw [reorder]

/-- Every event keeps the words of the slots. -/
theorem ReorderHolds.step {e : Event} (holds : ReorderHolds s tags stored)
    (kept : TagsKept s tags) (fires : s.step e = some s')
    : ReorderHolds s' (tags.record s e) (stored ++ s.wordStored e) := by
  by_cases write : e = .writeReadBuffer
  · subst write
    exact holds.writeReadBuffer kept fires
  · have mem := readReorder_unchanged fires write
    by_cases split : e = .splitDmaReadReq2
    · subst split
      rw [show s.wordStored .splitDmaReadReq2 = [] from rfl, List.append_nil]
      exact holds.splitDmaReadReq2 kept fires
    · have dws := tagDWs_unchanged kept.counts fires split
      cases e
      case writeReadBuffer => exact absurd rfl write
      case splitDmaReadReq2 => exact absurd rfl split
      all_goals
        simp only [PcieCtrl.wordStored, List.append_nil]
        exact holds.frame dws mem rfl rfl

-----------------------------------------------------------------------------------------
-- The words of a burst
-----------------------------------------------------------------------------------------

/-- The DWs of whole words, in words. -/
theorem sum_wholeWords {dws : List Nat} (fours : ∀ n ∈ dws, n % 4 = 0)
    : 4 * (dws.map wholeWords).sum = dws.sum := by
  induction dws with
  | nil => rfl
  | cons n dws ih =>
      have four := fours n List.mem_cons_self
      have rest := ih (fun other member => fours other (List.mem_cons_of_mem _ member))
      rw [List.map_cons, List.sum_cons, List.sum_cons, Nat.mul_add, rest, wholeWords]
      omega

/-- The slots of the oldest burst that waits for the flush hold its words, if the words stored with
each tag are the first of the words asked for with it.
-/
theorem ReorderHolds.oldest (holds : ReorderHolds s tags stored) (kept : TagsKept s tags)
    (order : FlushOrder s tags) {d : BitVec 8 × BitVec 10}
    {waiting : List (BitVec 8 × BitVec 10)}
    (first : s.order.orderedReadDoneTagQ.items = d :: waiting)
    (enough : (runLabels wholeWords tags.bursts).length ≤ asked.length)
    (received
      : ∀ tag, withLabel tag stored
          <+: withLabel tag ((runLabels wholeWords tags.bursts).zip asked))
    : ∃ rest,
        tags.bursts.drop tags.freed.length = (d.1, d.2.toNat) :: rest
        ∧ (burstSlots (d.1, d.2.toNat)).map s.reorder.readReorder.mem
          = (asked.drop (runLabels wholeWords (tags.bursts.take tags.freed.length)).length).take
              (wholeWords d.2.toNat) := by
  obtain ⟨flow, counts, bits⟩ := kept
  obtain ⟨burst, rest, oldest, tag, dws⟩ := order.oldest flow first
  obtain rfl : burst = (d.1, d.2.toNat) := Prod.ext tag dws
  have isRetired : d.1 ∈ s.retiredTags := by simp [PcieCtrl.retiredTags, first]
  have within : d.1 < 128 :=
    flow.within (List.mem_append_right _ (List.mem_append_left _ isRetired))
  have complete := bits.received flow within (fun unretired =>
    (List.nodup_append.mp (List.nodup_append.mp flow.apart).2.1).2.2 d.1 isRetired d.1
      unretired rfl)
  rw [TagLog.Received] at complete
  -- No other burst that is not given back has the tag.
  have last : ∀ run ∈ rest, run.1 ≠ d.1 := by
    have held := flow.tags_held
    rw [oldest, List.map_cons] at held
    have once := (List.nodup_append.mp flow.apart).2.1
    rw [← held] at once
    exact fun run member same =>
      (List.nodup_cons.mp once).1 (same ▸ List.mem_map_of_mem member)
  generalize made : tags.bursts.take tags.freed.length = front
  have bursts : tags.bursts = front ++ (d.1, d.2.toNat) :: rest := by
    rw [← made, ← oldest, List.take_append_drop]
  have inBursts : (d.1, d.2.toNat) ∈ tags.bursts := by simp [bursts]
  have fours : ∀ n ∈ withLabel d.1 front, n % 4 = 0 := by
    intro n member
    obtain ⟨run, kept, rfl⟩ := List.mem_map.mp member
    exact (order.cut run (by
      rw [bursts]
      exact List.mem_append_left _ (List.mem_filter.mp kept).1)).2.1
  have none : withLabel d.1 rest = [] := by
    rw [withLabel, List.map_eq_nil_iff, List.filter_eq_nil_iff]
    exact fun run member same => last run member (of_decide_eq_true same)
  have total : tags.askedDWs d.1 = (withLabel d.1 front).sum + d.2.toNat := by
    rw [TagLog.askedDWs, bursts, withLabel_append, withLabel_cons, if_pos rfl, none,
      List.sum_append, List.sum_singleton]
  have base := sum_wholeWords fours
  have before : (withLabel d.1 ((runLabels wholeWords front).zip asked)).length
      = ((withLabel d.1 front).map wholeWords).sum := by
    refine length_withLabel_runs wholeWords d.1 (Nat.le_trans ?_ enough)
    have first : runLabels wholeWords front <+: runLabels wholeWords tags.bursts :=
      runLabels_prefix ⟨(d.1, d.2.toNat) :: rest, bursts.symm⟩
    exact first.length_le
  have mine := received d.1
  rw [bursts, withLabel_lastRun wholeWords last] at mine
  have size : (s.tagDWs d.1).toNat = d.2.toNat := by
    rw [order.looked d (by simp [PcieCtrl.tagsLooked, first])]
  obtain ⟨-, four, -⟩ := order.cut _ inBursts
  refine ⟨rest, oldest, ?_⟩
  have stored : ∀ k, k < wholeWords d.2.toNat →
      ((asked.drop (runLabels wholeWords front).length).take (wholeWords d.2.toNat))[k]?
        = some (s.reorder.readReorder.mem (slotOf d.1 k)) := by
    intro k few
    rw [wholeWords] at few
    have held := holds.slots d.1 (List.mem_map_of_mem inBursts)
      (((withLabel d.1 front).map wholeWords).sum + k) k (by rw [size, total]; omega)
      (by rw [complete, total]; simp only at four; omega)
    obtain ⟨more, joined⟩ := mine
    have bound := (List.getElem?_eq_some_iff.mp held).1
    have inside := congrArg
      (fun xs => xs[((withLabel d.1 front).map wholeWords).sum + k]?) joined
    simp only [List.getElem?_append_left bound] at inside
    rw [held, List.getElem?_append_right (by rw [before]; omega), before,
      Nat.add_sub_cancel_left] at inside
    exact inside.symm
  apply List.ext_getElem?
  intro k
  by_cases few : k < wholeWords d.2.toNat
  · rw [stored k few, List.getElem?_map, burstSlots, List.getElem?_map,
      List.getElem?_range (show k < (d.1, d.2.toNat).2 / 4 from few)]
    rfl
  · rw [List.getElem?_eq_none, List.getElem?_eq_none]
    · rw [List.length_take]
      omega
    · rw [List.length_map, burstSlots, List.length_map, List.length_range]
      exact Nat.le_of_not_lt few

-----------------------------------------------------------------------------------------
-- The words that the flush requests
-----------------------------------------------------------------------------------------

theorem flushWords_reset (p : PowerUp) : FlushWords (mkPcieCtrl p) {} {} [] := by
  rw [FlushWords, PcieCtrl.slotsToFlush_idle rfl]
  rfl

/-- Words asked for later do not concern the flush. -/
theorem FlushWords.widen {asked' : List DMAWord} (words : FlushWords s tags flush asked)
    (enough : (runLabels wholeWords (tags.bursts.take tags.freed.length)).length ≤ asked.length)
    (more : asked <+: asked')
    : FlushWords s tags flush asked' := by
  obtain ⟨rest, rfl⟩ := more
  rw [FlushWords, List.take_append_of_le_length enough]
  exact words

/-- The flush takes up the words of the oldest burst, or requests the next of that under way. -/
theorem FlushWords.flushReadTag (words : FlushWords s tags flush asked)
    (holds : ReorderHolds s tags stored) (kept : TagsKept s tags) (order : FlushOrder s tags)
    (enough : (runLabels wholeWords tags.bursts).length ≤ asked.length)
    (received
      : ∀ tag, withLabel tag stored
          <+: withLabel tag ((runLabels wholeWords tags.bursts).zip asked))
    (fires : s.flushReadTag = some s')
    : FlushWords s' (tags.record s .flushReadTag) (flush.record s .flushReadTag) asked := by
  have mem : s'.reorder.readReorder.mem = s.reorder.readReorder.mem :=
    readReorder_unchanged (e := .flushReadTag) fires (by decide)
  rw [FlushWords] at words ⊢
  rw [mem]
  rcases order.moves kept.flow fires with ⟨d, slot, taken, _, freed, reads, idle, slots⟩
    | ⟨rfl, unfreed, unread⟩ | ⟨slot, _, _, unfreed, reads, slots⟩
  case inl =>
    obtain ⟨rest, oldest, burst⟩ := holds.oldest kept order taken enough received
    rw [slots, List.map_cons] at burst
    rw [idle, List.map_nil, List.append_nil] at words
    change (flush.requested ++ (s.flushReads.map s.reorder.readReorder.mem).toList) ++ _
      = asked.take (runLabels wholeWords
        (tags.bursts.take (tags.freed ++ s.tagFreed.toList).length)).length
    rw [reads, freed, Option.map_some, Option.toList_some, Option.toList_some, List.length_append,
      List.length_singleton, List.append_assoc, List.singleton_append, burst, words, List.take_add,
      oldest, List.take_one, List.head?_cons, Option.toList_some, runLabels_append,
      runLabels_singleton, List.length_append, List.length_replicate, List.take_add]
  case inr.inl =>
    change (flush.requested ++ (s'.flushReads.map s'.reorder.readReorder.mem).toList) ++ _
      = asked.take (runLabels wholeWords
        (tags.bursts.take (tags.freed ++ s'.tagFreed.toList).length)).length
    rw [unread, unfreed, Option.map_none, Option.toList_none, Option.toList_none, List.append_nil,
      List.append_nil]
    exact words
  case inr.inr =>
    change (flush.requested ++ (s.flushReads.map s.reorder.readReorder.mem).toList) ++ _
      = asked.take (runLabels wholeWords
        (tags.bursts.take (tags.freed ++ s.tagFreed.toList).length)).length
    rw [slots, List.map_cons] at words
    rw [reads, unfreed, Option.map_some, Option.toList_some, Option.toList_none, List.append_nil,
      List.append_assoc, List.singleton_append, words]

/-- A word that is stored changes no slot that the flush has still to read. -/
theorem FlushWords.writeReadBuffer (words : FlushWords s tags flush asked)
    (kept : TagsKept s tags) (order : FlushOrder s tags) (apart : FlushApart s tags)
    (fires : s.writeReadBuffer = some s')
    : FlushWords s' tags flush asked := by
  have unwritten := apart.unwritten kept order fires
  rw [order.unread_eq kept.flow] at unwritten
  obtain ⟨_, word, _, _, _, _, rfl⟩ := PcieCtrl.writeReadBuffer_cases fires
  rw [FlushWords] at words ⊢
  refine Eq.trans (congrArg (flush.requested ++ ·) ?_) words
  refine List.map_congr_left ?_
  intro slot member
  change Function.update s.reorder.readReorder.mem (PcieCtrl.writeoff s.bursts.tagWordsLeft)
    word.word slot = _
  rw [Function.update_of_ne]
  rintro rfl
  exact unwritten (List.mem_append_left _ member)

/-- Every event keeps the words of the flush. -/
theorem FlushWords.step {e : Event} (words : FlushWords s tags flush asked)
    (holds : ReorderHolds s tags stored) (kept : TagsKept s tags) (order : FlushOrder s tags)
    (apart : FlushApart s tags)
    (enough : (runLabels wholeWords tags.bursts).length ≤ asked.length)
    (received
      : ∀ tag, withLabel tag stored
          <+: withLabel tag ((runLabels wholeWords tags.bursts).zip asked))
    (fires : s.step e = some s')
    : FlushWords s' (tags.record s e) (flush.record s e) asked := by
  by_cases reads : e = .flushReadTag
  · subst reads
    exact words.flushReadTag holds kept order enough received fires
  · have slots : s'.slotsToFlush = s.slotsToFlush := by
      rw [PcieCtrl.slotsToFlush, readFlushTag_unchanged fires reads, PcieCtrl.slotsToFlush]
    have freed : (tags.record s e).freed = tags.freed := by
      cases e
      case flushReadTag => exact absurd rfl reads
      all_goals rfl
    have requested : (flush.record s e).requested = flush.requested := by
      cases e
      case flushReadTag => exact absurd rfl reads
      all_goals rfl
    have first : (tags.record s e).bursts.take tags.freed.length
        = tags.bursts.take tags.freed.length := by
      cases e
      case splitDmaReadReq2 =>
        change (tags.bursts ++ s.burstMade.toList).take _ = _
        rw [List.take_append_of_le_length kept.flow.freed_le]
      all_goals rfl
    by_cases write : e = .writeReadBuffer
    · subst write
      exact words.writeReadBuffer kept order apart fires
    · have mem := readReorder_unchanged fires write
      rw [FlushWords] at words ⊢
      rw [slots, freed, requested, first, mem]
      exact words

end

end BluespecPcie
