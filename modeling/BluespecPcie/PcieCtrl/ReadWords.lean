import BluespecPcie.Host.Memory
import BluespecPcie.PcieCtrl.Requests
import BluespecPcie.PcieCtrl.TagConservation

/-! The data of completions, cut into words: each word reaches the reorder buffer with the tag of
the completion that it came in.
-/

namespace BluespecPcie

open Bluespec

-----------------------------------------------------------------------------------------
-- History
-----------------------------------------------------------------------------------------

/-- The payload DWs of words, each with the tag of its word. -/
def taggedDWs (words : List (BitVec 8 × DMAWord)) : List (BitVec 8 × BitVec 32) :=
  words.flatMap (fun w => (wordDWs w.2).map (fun dw => (w.1, dw)))

theorem taggedDWs_append (xs ys : List (BitVec 8 × DMAWord))
    : taggedDWs (xs ++ ys) = taggedDWs xs ++ taggedDWs ys :=
  List.flatMap_append

namespace PcieCtrl

/-- The payload DWs that an event takes from the receive queue, with the tag of their completion:
the first one with the header, and the others four to a beat.
-/
def payloadTaken (s : PcieCtrl) : Event → List (BitVec 8 × BitVec 32)
  | .filterStatReadTLP =>
      match s.rx.tlpQ.first with
      | some tlp =>
          if ¬isRead (tlpType tlp) ∧ isCompletion (tlpType tlp) then
            [(completionTag tlp, dword tlp 3)]
          else []
      | none => []
  | .procCompletionTLP =>
      s.rx.tlpQ.first.toList.flatMap (fun tlp =>
        ((beatDWs tlp).take s.rx.completionRecvLength.toNat).map
          (fun dw => (s.rx.completionRecvTag, dw)))
  | _ => []

/-- The word that an event writes to the reorder buffer, with the tag whose slot it goes to. -/
def wordStored (s : PcieCtrl) : Event → List (BitVec 8 × DMAWord)
  | .writeReadBuffer =>
      s.bursts.dmaReadWordRQ.first.toList.map (fun w => (s.bursts.tagWordsLeft.tag, w.word))
  | _ => []

/-- The words on their way to the reorder buffer, oldest first. -/
def wordsQueued (s : PcieCtrl) : List (BitVec 8 × DMAWord) :=
  (s.bursts.dmaReadWordRQ.items ++ s.bursts.dmaReadWordQ.items).map (fun w => (w.tag, w.word))

/-- The words of the completion under way that are not complete yet. -/
def wordsToCome (s : PcieCtrl) : Nat := (s.rx.completionRecvLength.toNat + 1) / 4

/-- The DW that waits for the rest of its word. -/
def openDW (s : PcieCtrl) : List (BitVec 8 × BitVec 32) :=
  if s.rx.completionRecvLength = 0 then []
  else [(s.rx.completionRecvTag, reverseEndian s.rx.dmaReadBuffer)]

/-- What the words and their tags depend on. -/
def wordSide (s : PcieCtrl)
    : (BitVec 10 × BitVec 8 × BitVec 32) × List (BitVec 8 × DMAWord) × TagWordsLeft
      × List (BitVec 8 × BitVec 10) :=
  ((s.rx.completionRecvLength, s.rx.completionRecvTag, s.rx.dmaReadBuffer), s.wordsQueued,
    s.bursts.tagWordsLeft, s.burstsQueued)

end PcieCtrl

/-- The payload DWs taken from the receive queue, and the words written to the reorder buffer. -/
structure WordLog where
  payload : List (BitVec 8 × BitVec 32) := []
  stored : List (BitVec 8 × DMAWord) := []

/-- How an event extends the history; `s` is the state before it. -/
def WordLog.record (s : PcieCtrl) (e : Event) (log : WordLog) : WordLog where
  payload := log.payload ++ s.payloadTaken e
  stored := log.stored ++ s.wordStored e

-----------------------------------------------------------------------------------------
-- The invariant
-----------------------------------------------------------------------------------------

/-- The payload so far is the words stored, those on their way, and a DW of the word under way; and
the words on their way have the tags of the completions that wait for them.
-/
structure WordsPaired (s : PcieCtrl) (log : WordLog) : Prop where
  length : s.rx.completionRecvLength = 0 ∨ s.rx.completionRecvLength.toNat % 4 = 3
  labels
    : s.wordsQueued.map Prod.fst ++ List.replicate s.wordsToCome s.rx.completionRecvTag
      = List.replicate (s.bursts.tagWordsLeft.words.toNat / 4) s.bursts.tagWordsLeft.tag
        ++ runLabels (fun dws => dws.toNat / 4) s.burstsQueued
  payload : log.payload = taggedDWs (log.stored ++ s.wordsQueued) ++ s.openDW

section

variable {s s' : PcieCtrl} {log log' : WordLog} {tags : TagLog}

/-- After reset nothing is on its way. -/
theorem wordsPaired_reset (p : PowerUp) : WordsPaired (mkPcieCtrl p) {} := by
  refine ⟨.inl rfl, ?_, ?_⟩
  · simp [PcieCtrl.wordsQueued, PcieCtrl.wordsToCome, PcieCtrl.burstsQueued, mkPcieCtrl, runLabels]
  · simp [PcieCtrl.wordsQueued, PcieCtrl.openDW, mkPcieCtrl, taggedDWs]

/-- What does not concern the words keeps them. -/
theorem WordsPaired.frame (paired : WordsPaired s log) (same : s'.wordSide = s.wordSide)
    (payload : log'.payload = log.payload) (stored : log'.stored = log.stored)
    : WordsPaired s' log' := by
  simp only [PcieCtrl.wordSide, Prod.mk.injEq] at same
  obtain ⟨⟨len, tag, buffer⟩, words, current, bursts⟩ := same
  obtain ⟨length, labels, dws⟩ := paired
  refine ⟨?_, ?_, ?_⟩
  · rw [len]
    exact length
  · rw [words, PcieCtrl.wordsToCome, len, tag, current, bursts]
    exact labels
  · rw [payload, stored, words, PcieCtrl.openDW, len, tag, buffer]
    exact dws

/-- The word that a beat completes has the DW that waited for it and the first three of the beat. -/
theorem wordDWs_completedWord (tlp : BitVec 128)
    : wordDWs (s.completedWord tlp).word
      = [reverseEndian s.rx.dmaReadBuffer, dword tlp 0, dword tlp 1, dword tlp 2] := by
  obtain ⟨first, second, third, fourth⟩ := dword_packDWs (reverseEndian (dword tlp 2))
    (reverseEndian (dword tlp 1)) (reverseEndian (dword tlp 0)) s.rx.dmaReadBuffer
  change [reverseEndian (dword (packDWs _ _ _ _) 0), reverseEndian (dword (packDWs _ _ _ _) 1),
    reverseEndian (dword (packDWs _ _ _ _) 2), reverseEndian (dword (packDWs _ _ _ _) 3)] = _
  rw [first, second, third, fourth, reverseEndian_reverseEndian, reverseEndian_reverseEndian,
    reverseEndian_reverseEndian]

-----------------------------------------------------------------------------------------
-- Steps
-----------------------------------------------------------------------------------------

/-- A header beat opens a completion of whole words, or is none of a completion. -/
theorem WordsPaired.filterStatReadTLP (paired : WordsPaired s log)
    (answers : HostAnswers (s, tags) .filterStatReadTLP) (fires : s.filterStatReadTLP = some s')
    : WordsPaired s' (log.record s .filterStatReadTLP) := by
  obtain ⟨idle, tlp, tlpQ, keep, tlpKeepQ, first, -, done⟩ :=
    PcieCtrl.filterStatReadTLP_cases fires
  have isFirst : s.rx.tlpQ.first = some tlp := Fifo.first_eq_some.mpr ⟨_, first⟩
  have stored : (log.record s .filterStatReadTLP).stored = log.stored := List.append_nil _
  rcases done with ⟨_, _, read, _, _, rfl⟩ | ⟨_, _, other, _, rfl⟩ | ⟨wordQ, readBurstQ, notRead,
    completion, short, added, same⟩
  case inl =>
    have none : s.payloadTaken .filterStatReadTLP = [] := by
      simp only [PcieCtrl.payloadTaken, isFirst, read, not_true_eq_false, false_and, if_false]
    refine paired.frame rfl ?_ stored
    rw [WordLog.record, none, List.append_nil]
  case inr.inl =>
    have none : s.payloadTaken .filterStatReadTLP = [] := by
      simp only [PcieCtrl.payloadTaken, isFirst]
      exact if_neg (fun both => other.elim both.1 (fun no => no both.2))
    refine paired.frame rfl ?_ stored
    rw [WordLog.record, none, List.append_nil]
  case inr.inr =>
    have taken : s.completionTaken = some (completionTag tlp, (tlpLength tlp).toNat) := by
      rw [PcieCtrl.completionTaken, isFirst]
      exact if_pos ⟨notRead, completion⟩
    have payload : s.payloadTaken .filterStatReadTLP = [(completionTag tlp, dword tlp 3)] := by
      simp only [PcieCtrl.payloadTaken, isFirst]
      exact if_pos ⟨notRead, completion⟩
    obtain ⟨positive, four, -⟩ := answers _ taken
    simp only at positive four
    have long : ¬tlpLength tlp ≤ 1 := by
      rw [BitVec.le_def]
      change ¬(tlpLength tlp).toNat ≤ 1
      omega
    rw [if_neg long] at short
    subst short
    have left : (tlpLength tlp - 1).toNat = (tlpLength tlp).toNat - 1 := by bv_omega
    have busy : tlpLength tlp - 1 ≠ 0 := by bv_omega
    have toCome : s'.wordsToCome = (tlpLength tlp).toNat / 4 := by
      rw [same]
      change ((tlpLength tlp - 1).toNat + 1) / 4 = _
      rw [left]
      omega
    have none : s.wordsToCome = 0 := by
      rw [PcieCtrl.wordsToCome, idle]
      rfl
    have queue : s'.burstsQueued = s.burstsQueued ++ [(completionTag tlp, tlpLength tlp)] := by
      rw [same]
      simp only [PcieCtrl.burstsQueued, added, List.append_assoc]
    have words : s'.wordsQueued = s.wordsQueued := by
      rw [same]
      rfl
    obtain ⟨-, labels, dws⟩ := paired
    rw [none, List.replicate_zero, List.append_nil] at labels
    refine ⟨.inr ?_, ?_, ?_⟩
    · rw [same]
      change (tlpLength tlp - 1).toNat % 4 = 3
      omega
    · rw [words, labels, toCome, queue, runLabels_append, runLabels_singleton, ← List.append_assoc,
        same]
    · have idleDW : s.openDW = [] := if_pos idle
      have openDW : s'.openDW = [(completionTag tlp, dword tlp 3)] := by
        rw [same, PcieCtrl.openDW, if_neg busy, reverseEndian_reverseEndian]
      rw [idleDW, List.append_nil] at dws
      rw [stored, words, openDW, WordLog.record, payload, dws]

/-- A payload beat completes a word, and its last DW starts the next one. -/
theorem WordsPaired.procCompletionTLP (paired : WordsPaired s log)
    (fires : s.procCompletionTLP = some s')
    : WordsPaired s' (log.record s .procCompletionTLP) := by
  obtain ⟨busy, tlp, tlpQ, keep, tlpKeepQ, wordQ, first, -, added, same⟩ :=
    PcieCtrl.procCompletionTLP_cases fires
  have isFirst : s.rx.tlpQ.first = some tlp := Fifo.first_eq_some.mpr ⟨_, first⟩
  have positive : 0 < s.rx.completionRecvLength.toNat := BitVec.lt_def.mp busy
  have some : s.rx.completionRecvLength ≠ 0 := by bv_omega
  obtain ⟨length, labels, dws⟩ := paired
  have three := length.resolve_left some
  have stored : (log.record s .procCompletionTLP).stored = log.stored := List.append_nil _
  have words : s'.wordsQueued
      = s.wordsQueued ++ [(s.rx.completionRecvTag, (s.completedWord tlp).word)] := by
    rw [same]
    simp only [PcieCtrl.wordsQueued, added, ← List.append_assoc, List.map_append,
      List.map_singleton]
    rfl
  have left : s'.rx.completionRecvLength.toNat = s.rx.completionRecvLength.toNat - 4 := by
    rw [same]
    simp only
    split
    next more =>
      rw [BitVec.toNat_sub_of_le more]
      rfl
    next less =>
      have fewer : ¬4 ≤ s.rx.completionRecvLength.toNat := fun le => less (BitVec.le_def.mpr le)
      change 0 = _
      omega
  have toCome : s.wordsToCome = s'.wordsToCome + 1 := by
    rw [PcieCtrl.wordsToCome, PcieCtrl.wordsToCome, left]
    omega
  have tag : s'.rx.completionRecvTag = s.rx.completionRecvTag := by rw [same]
  have openDW : s.openDW = [(s.rx.completionRecvTag, reverseEndian s.rx.dmaReadBuffer)] :=
    if_neg some
  have taken : s.payloadTaken .procCompletionTLP
      = ((beatDWs tlp).take s.rx.completionRecvLength.toNat).map
        (fun dw => (s.rx.completionRecvTag, dw)) := by
    simp only [PcieCtrl.payloadTaken, isFirst, Option.toList_some, List.flatMap_singleton]
  refine ⟨?_, ?_, ?_⟩
  · by_cases last : s.rx.completionRecvLength.toNat = 3
    · refine .inl (BitVec.eq_of_toNat_eq ?_)
      rw [left, last]
      rfl
    · refine .inr ?_
      rw [left]
      omega
  · rw [toCome, List.replicate_succ] at labels
    rw [words, tag, List.map_append, List.append_assoc]
    refine labels.trans ?_
    rw [same]
    rfl
  · rw [stored, words, ← List.append_assoc, taggedDWs_append, WordLog.record, taken, dws, openDW]
    have own : taggedDWs [(s.rx.completionRecvTag, (s.completedWord tlp).word)]
        = [(s.rx.completionRecvTag, reverseEndian s.rx.dmaReadBuffer),
          (s.rx.completionRecvTag, dword tlp 0), (s.rx.completionRecvTag, dword tlp 1),
          (s.rx.completionRecvTag, dword tlp 2)] := by
      rw [taggedDWs, List.flatMap_singleton, wordDWs_completedWord]
      rfl
    rw [own]
    -- The beat ends the completion, or its fourth DW waits for the next beat.
    by_cases last : s.rx.completionRecvLength.toNat = 3
    · have finished : s'.rx.completionRecvLength = 0 := by
        refine BitVec.eq_of_toNat_eq ?_
        rw [left, last]
        rfl
      rw [PcieCtrl.openDW, if_pos finished, last, beatDWs]
      simp
    · have more : s'.rx.completionRecvLength ≠ 0 := by
        intro finished
        rw [finished] at left
        change 0 = _ at left
        omega
      have all : (beatDWs tlp).take s.rx.completionRecvLength.toNat = beatDWs tlp := by
        refine List.take_of_length_le ?_
        rw [length_beatDWs]
        omega
      have buffer : s'.rx.dmaReadBuffer = reverseEndian (dword tlp 3) := by rw [same]
      rw [PcieCtrl.openDW, if_neg more, tag, buffer, reverseEndian_reverseEndian, all, beatDWs]
      simp

/-- The oldest completion becomes the current one, with all its words. -/
theorem WordsPaired.updateReadBurst2 (paired : WordsPaired s log) (kept : BurstCounts s tags)
    (fires : s.updateReadBurst2 = some s')
    : WordsPaired s' log := by
  have kept' := kept.updateReadBurst2 fires
  obtain ⟨idle, -, counts, _, burst, updQ, _, _, -, taken, -, same⟩ :=
    PcieCtrl.updateReadBurst2_cases fires
  have queue : s.burstsQueued = burst :: s'.burstsQueued := by
    rw [same]
    simp only [PcieCtrl.burstsQueued, taken, List.cons_append]
  have current : s'.bursts.tagWordsLeft.tag = burst.1 := by rw [same]
  -- All DWs of the completion are before `writeReadBuffer` now.
  have words : s'.bursts.tagWordsLeft.words.toNat = burst.2.toNat := by
    have before := kept.returned burst.1
    have after := kept'.returned burst.1
    have none : s.currentDWs burst.1 = 0 := by
      rw [PcieCtrl.currentDWs, idle]
      split <;> rfl
    have queued : s.queuedDWs burst.1 = burst.2.toNat + s'.queuedDWs burst.1 := by
      rw [PcieCtrl.queuedDWs, queue, withLabel_cons, if_pos rfl]
      rfl
    rw [PcieCtrl.currentDWs, if_pos current] at after
    omega
  obtain ⟨length, labels, dws⟩ := paired
  have still : s'.wordsQueued = s.wordsQueued ∧ s'.rx = s.rx := by
    rw [same]
    exact ⟨rfl, rfl⟩
  rw [idle, queue] at labels
  refine ⟨?_, ?_, ?_⟩
  · rw [still.2]
    exact length
  · rw [still.1, PcieCtrl.wordsToCome, still.2, words, current]
    exact labels
  · rw [still.1, PcieCtrl.openDW, still.2]
    exact dws

/-- The oldest word is one of the current completion. -/
theorem WordsPaired.oldest (paired : WordsPaired s log)
    (least : 4 ≤ s.bursts.tagWordsLeft.words.toNat) {word : DMAWordTagged}
    {rest : List DMAWordTagged} (first : s.bursts.dmaReadWordRQ.items = word :: rest)
    : word.tag = s.bursts.tagWordsLeft.tag := by
  have labels := paired.labels
  obtain ⟨n, size⟩ : ∃ n, s.bursts.tagWordsLeft.words.toNat / 4 = n + 1 :=
    ⟨s.bursts.tagWordsLeft.words.toNat / 4 - 1, by omega⟩
  rw [PcieCtrl.wordsQueued, first, size, List.replicate_succ, List.cons_append, List.map_cons,
    List.map_cons, List.cons_append, List.cons_append] at labels
  exact (List.cons.inj labels).1

/-- The oldest word is written to a slot of its tag. -/
theorem WordsPaired.writeReadBuffer (paired : WordsPaired s log) (kept : BurstCounts s tags)
    (fires : s.writeReadBuffer = some s')
    : WordsPaired s' (log.record s .writeReadBuffer) := by
  obtain ⟨busy, word, wordRQ, _, first, -, same⟩ := PcieCtrl.writeReadBuffer_cases fires
  obtain ⟨least, last, -, -⟩ := kept.word busy
  have tag := paired.oldest least first
  have isFirst : s.bursts.dmaReadWordRQ.first = some word := Fifo.first_eq_some.mpr ⟨_, first⟩
  have stored : (log.record s .writeReadBuffer).stored
      = log.stored ++ [(word.tag, word.word)] := by
    rw [WordLog.record, PcieCtrl.wordStored, isFirst, tag]
    rfl
  have payload : (log.record s .writeReadBuffer).payload = log.payload := List.append_nil _
  have words : s.wordsQueued = (word.tag, word.word) :: s'.wordsQueued := by
    rw [same]
    simp only [PcieCtrl.wordsQueued, first, List.cons_append, List.map_cons]
  have left : s'.bursts.tagWordsLeft.words.toNat = s.bursts.tagWordsLeft.words.toNat - 4 := by
    rw [same]
    simp only
    split
    next finished =>
      rw [last finished]
      rfl
    next => bv_omega
  have still : s'.rx = s.rx ∧ s'.bursts.tagWordsLeft.tag = s.bursts.tagWordsLeft.tag
      ∧ s'.burstsQueued = s.burstsQueued := by
    rw [same]
    exact ⟨rfl, rfl, rfl⟩
  obtain ⟨length, labels, dws⟩ := paired
  have count : s.bursts.tagWordsLeft.words.toNat / 4
      = s'.bursts.tagWordsLeft.words.toNat / 4 + 1 := by
    rw [left]
    omega
  rw [words, count, List.replicate_succ, List.map_cons, List.cons_append,
    List.cons_append] at labels
  refine ⟨?_, ?_, ?_⟩
  · rw [still.1]
    exact length
  · rw [PcieCtrl.wordsToCome, still.1, still.2.1, still.2.2]
    exact (List.cons.inj labels).2
  · have openDW : s'.openDW = s.openDW := by
      rw [PcieCtrl.openDW, still.1]
      rfl
    rw [payload, dws, words, stored, openDW, List.append_assoc]
    rfl

/-- Every event keeps the words paired with their tags. -/
theorem WordsPaired.step {e : Event} (paired : WordsPaired s log) (kept : BurstCounts s tags)
    (answers : HostAnswers (s, tags) e) (fires : s.step e = some s')
    : WordsPaired s' (log.record s e) := by
  have unchanged := step_unchanged fires
  have nothing (taken : s.payloadTaken e = []) (stored : s.wordStored e = [])
      : (log.record s e).payload = log.payload ∧ (log.record s e).stored = log.stored := by
    rw [WordLog.record, taken, stored, List.append_nil, List.append_nil]
    exact ⟨rfl, rfl⟩
  cases e with
  | filterStatReadTLP => exact paired.filterStatReadTLP answers fires
  | procCompletionTLP => exact paired.procCompletionTLP fires
  | updateReadBurst2 =>
      obtain ⟨payload, stored⟩ := nothing rfl rfl
      exact (paired.updateReadBurst2 kept fires).frame rfl payload stored
  | writeReadBuffer => exact paired.writeReadBuffer kept fires
  | recvTLP b =>
      obtain ⟨payload, stored⟩ := nothing rfl rfl
      rcases PcieCtrl.recvTLP_cases fires with ⟨_, rfl⟩ | ⟨_, _, _, _, _, _, _, rfl⟩
      all_goals exact paired.frame rfl payload stored
  | procTLP =>
      obtain ⟨payload, stored⟩ := nothing rfl rfl
      obtain ⟨_, _, _, _, ⟨_, _, _, _, _, _, rfl⟩ | ⟨_, _, _, _, rfl⟩ | ⟨_, _, _, _, rfl⟩
        | ⟨_, _, rfl⟩⟩ := PcieCtrl.procTLP_cases fires
      all_goals exact paired.frame rfl payload stored
  | procIOWrite =>
      obtain ⟨payload, stored⟩ := nothing rfl rfl
      obtain ⟨_, _, _, _, _, ⟨_, rfl⟩ | ⟨_, _, rfl⟩ | ⟨_, _, _, _, rfl⟩⟩ :=
        PcieCtrl.procIOWrite_cases fires
      all_goals exact paired.frame rfl payload stored
  | splitDmaReadReq2 =>
      obtain ⟨payload, stored⟩ := nothing rfl rfl
      obtain ⟨_, _, _, _, _, _, _, _, _, _, rfl⟩ := PcieCtrl.splitDmaReadReq2_cases fires
      exact paired.frame rfl payload stored
  | relayReadBurst =>
      obtain ⟨payload, stored⟩ := nothing rfl rfl
      simp only [PcieCtrl.step, PcieCtrl.relayReadBurst, Option.bind_eq_bind, Option.pure_def,
        Fifo.bind_deq_eq_some, Fifo.bind_enq_eq_some, Option.some.injEq] at fires
      obtain ⟨burst, readBurstQ, taken, readBurst2Q, -, put, rfl⟩ := fires
      refine paired.frame ?_ payload stored
      simp only [PcieCtrl.wordSide, PcieCtrl.wordsQueued, PcieCtrl.burstsQueued, taken, put,
        List.append_assoc, List.singleton_append]
  | updateReadBurst1 =>
      obtain ⟨payload, stored⟩ := nothing rfl rfl
      obtain ⟨_, rfl | ⟨_, _, _, _, _, taken, _, _, _, put, rfl⟩⟩ :=
        PcieCtrl.updateReadBurst1_cases fires
      · exact paired.frame rfl payload stored
      · refine paired.frame ?_ payload stored
        simp only [PcieCtrl.wordSide, PcieCtrl.wordsQueued, PcieCtrl.burstsQueued, taken, put,
          List.append_assoc, List.singleton_append]
  | getTagMapReadA =>
      obtain ⟨payload, stored⟩ := nothing rfl rfl
      obtain ⟨⟨_, _⟩, _, rest⟩ := Option.bind_eq_some_iff.mp fires
      obtain ⟨_, _, ⟨⟩⟩ := Option.bind_eq_some_iff.mp rest
      exact paired.frame rfl payload stored
  | relayDmaReadrQ =>
      obtain ⟨payload, stored⟩ := nothing rfl rfl
      simp only [PcieCtrl.step, PcieCtrl.relayDmaReadrQ, Option.bind_eq_bind, Option.pure_def,
        Fifo.bind_deq_eq_some, Fifo.bind_enq_eq_some, Option.some.injEq] at fires
      obtain ⟨word, wordQ, taken, wordRQ, -, put, rfl⟩ := fires
      refine paired.frame ?_ payload stored
      simp only [PcieCtrl.wordSide, PcieCtrl.wordsQueued, PcieCtrl.burstsQueued, taken, put,
        List.append_assoc, List.singleton_append]
  | applyDoneMap =>
      obtain ⟨payload, stored⟩ := nothing rfl rfl
      obtain ⟨_, _, _, _, _, rfl⟩ := PcieCtrl.applyDoneMap_cases fires
      exact paired.frame rfl payload stored
  | _ =>
      obtain ⟨payload, stored⟩ := nothing rfl rfl
      have bursts := unchanged.bursts (by simp [Event.parts])
      have rx := unchanged.rx (by simp [Event.parts])
      refine paired.frame ?_ payload stored
      rw [PcieCtrl.wordSide, PcieCtrl.wordsQueued, PcieCtrl.burstsQueued, bursts, rx]
      rfl

end

end BluespecPcie
