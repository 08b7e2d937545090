import BluespecPcie.PcieCtrl.TagLog

/-! The DWs of a tag, from the request to the reorder buffer: the counts in `tagMap` say how many of
them are still to come.
-/

namespace BluespecPcie

open Bluespec

namespace PcieCtrl

/-- The completions on their way to `tagWordsLeft`, oldest first. -/
def burstsQueued (s : PcieCtrl) : List (BitVec 8 × BitVec 10) :=
  s.bursts.burstUpdReqQ.items ++ s.bursts.readBurst2Q.items ++ s.bursts.readBurstQ.items

/-- The DWs of a tag in the completions on their way. -/
def queuedDWs (s : PcieCtrl) (tag : BitVec 8) : Nat :=
  ((withLabel tag s.burstsQueued).map BitVec.toNat).sum

/-- The DWs of a tag that `writeReadBuffer` has before it. -/
def currentDWs (s : PcieCtrl) (tag : BitVec 8) : Nat :=
  if s.bursts.tagWordsLeft.tag = tag then s.bursts.tagWordsLeft.words.toNat else 0

/-- What the counts depend on. -/
def burstSide (s : PcieCtrl)
    : (List (BitVec 8 × BitVec 10) × List (BitVec 8 × BitVec 10) × List (BitVec 8 × BitVec 10))
      × ((BitVec 8 → BitVec 10 × BitVec 10) × List (BitVec 10 × BitVec 10)
        × List (BitVec 10 × BitVec 10))
      × List (BitVec 8) × TagWordsLeft × BitVec 32 :=
  ((s.bursts.burstUpdReqQ.items, s.bursts.readBurst2Q.items, s.bursts.readBurstQ.items),
    (s.bursts.tagMap.mem, s.bursts.tagMap.respB.items, s.bursts.tagMapReadAQ.items),
    s.bursts.readCompletionsb.items, s.bursts.tagWordsLeft, s.reads.dmaReadStartAddr)

end PcieCtrl

-----------------------------------------------------------------------------------------
-- The invariant
-----------------------------------------------------------------------------------------

/-- What is returned is written, or it is on its way; and for each tag `tagMap` has the DWs of its
last burst and how many of them are written or before `writeReadBuffer`.
-/
structure BurstCounts (s : PcieCtrl) (log : TagLog) : Prop where
  asked : ∀ tag, log.returnedDWs tag ≤ log.askedDWs tag
  returned
    : ∀ tag, log.returnedDWs tag = log.writtenDWs tag + s.currentDWs tag + s.queuedDWs tag
  fours : ∀ burst ∈ s.burstsQueued, 0 < burst.2.toNat ∧ burst.2.toNat % 4 = 0
  counts
    : ∀ tag ∈ log.tags,
        log.askedDWs tag + (s.bursts.tagMap.mem tag).2.toNat
          = log.writtenDWs tag + s.currentDWs tag + (s.bursts.tagMap.mem tag).1.toNat
        ∧ (s.bursts.tagMap.mem tag).1.toNat ≤ 32
  current
    : 0 < s.bursts.tagWordsLeft.words.toNat →
        s.bursts.tagWordsLeft.words.toNat % 4 = 0
        ∧ s.bursts.tagWordsLeft.off.toNat + s.bursts.tagWordsLeft.ioff.toNat
            + s.bursts.tagWordsLeft.words.toNat
          = (s.bursts.tagMap.mem s.bursts.tagWordsLeft.tag).2.toNat
        ∧ s.bursts.tagWordsLeft.req = (s.bursts.tagMap.mem s.bursts.tagWordsLeft.tag).1
  reads
    : s.bursts.tagMapReadAQ.items ++ s.bursts.tagMap.respB.items
      = s.bursts.burstUpdReqQ.items.map (fun burst => s.bursts.tagMap.mem burst.1)
  board : s.bursts.readCompletionsb.items = s.bursts.burstUpdReqQ.items.map Prod.fst
  apart : s.bursts.readCompletionsb.items.Nodup
  aligned : WordAligned s.reads.dmaReadStartAddr

section

variable {s s' : PcieCtrl} {log log' : TagLog}

/-- After reset nothing is on its way. -/
theorem burstCounts_reset (p : PowerUp) : BurstCounts (mkPcieCtrl p) {} := by
  refine ⟨fun _ => Nat.le_refl _, ?_, nofun, nofun, nofun, rfl, rfl, List.nodup_nil, rfl⟩
  intro tag
  simp [PcieCtrl.currentDWs, PcieCtrl.queuedDWs, PcieCtrl.burstsQueued, mkPcieCtrl,
    TagLog.returnedDWs, TagLog.writtenDWs]

/-- What does not concern the counts keeps them. -/
theorem BurstCounts.frame (kept : BurstCounts s log) (same : s'.burstSide = s.burstSide)
    (bursts : log'.bursts = log.bursts) (returned : log'.returned = log.returned)
    (written : log'.written = log.written)
    : BurstCounts s' log' := by
  simp only [PcieCtrl.burstSide, Prod.mk.injEq] at same
  obtain ⟨⟨upd, burst2, burst⟩, ⟨map, resp, readA⟩, board, current, start⟩ := same
  have asked' (tag : BitVec 8) : log'.askedDWs tag = log.askedDWs tag := by
    rw [TagLog.askedDWs, bursts, TagLog.askedDWs]
  have returned' (tag : BitVec 8) : log'.returnedDWs tag = log.returnedDWs tag := by
    rw [TagLog.returnedDWs, returned, TagLog.returnedDWs]
  have written' (tag : BitVec 8) : log'.writtenDWs tag = log.writtenDWs tag := by
    rw [TagLog.writtenDWs, written, TagLog.writtenDWs]
  have queued : s'.burstsQueued = s.burstsQueued := by
    rw [PcieCtrl.burstsQueued, upd, burst2, burst, PcieCtrl.burstsQueued]
  have queuedDWs (tag : BitVec 8) : s'.queuedDWs tag = s.queuedDWs tag := by
    rw [PcieCtrl.queuedDWs, queued, PcieCtrl.queuedDWs]
  have currentDWs (tag : BitVec 8) : s'.currentDWs tag = s.currentDWs tag := by
    rw [PcieCtrl.currentDWs, current, PcieCtrl.currentDWs]
  have tags : log'.tags = log.tags := by rw [TagLog.tags, bursts, TagLog.tags]
  refine ⟨?_, ?_, ?_, ?_, ?_, ?_, ?_, ?_, ?_⟩
  · intro tag
    rw [asked', returned']
    exact kept.asked tag
  · intro tag
    rw [returned', written', currentDWs, queuedDWs]
    exact kept.returned tag
  · rw [queued]
    exact kept.fours
  · intro tag member
    rw [asked', written', currentDWs, map]
    exact kept.counts tag (tags ▸ member)
  · rw [current, map]
    exact kept.current
  · rw [readA, resp, upd, map]
    exact kept.reads
  · rw [board, upd]
    exact kept.board
  · rw [board]
    exact kept.apart
  · rw [start]
    exact kept.aligned

-----------------------------------------------------------------------------------------
-- What is left of a tag
-----------------------------------------------------------------------------------------

/-- A completion on its way counts for its tag. -/
theorem PcieCtrl.le_queuedDWs {burst : BitVec 8 × BitVec 10} (member : burst ∈ s.burstsQueued)
    : burst.2.toNat ≤ s.queuedDWs burst.1 := by
  obtain ⟨front, back, split⟩ := List.append_of_mem (mem_withLabel member)
  rw [queuedDWs, split, List.map_append, List.sum_append, List.map_cons, List.sum_cons]
  omega

/-- A tag of which everything is written has nothing on its way. -/
theorem BurstCounts.quiet (kept : BurstCounts s log) {tag : BitVec 8} (all : log.Received tag)
    : s.currentDWs tag = 0 ∧ s.queuedDWs tag = 0 := by
  have asked := kept.asked tag
  have returned := kept.returned tag
  rw [TagLog.Received] at all
  omega

/-- The word that `writeReadBuffer` writes: with the last one of its completion it finishes, if
everything of its tag is written with it.
-/
theorem BurstCounts.word (kept : BurstCounts s log) (busy : s.bursts.tagWordsLeft.words > 0)
    : 4 ≤ s.bursts.tagWordsLeft.words.toNat
      ∧ (s.bursts.tagWordsLeft.finished → s.bursts.tagWordsLeft.words.toNat = 4)
      ∧ (s.bursts.tagWordsLeft.finished
        ↔ log.askedDWs s.bursts.tagWordsLeft.tag
          = log.writtenDWs s.bursts.tagWordsLeft.tag + 4)
      ∧ log.writtenDWs s.bursts.tagWordsLeft.tag + 4 ≤ log.askedDWs s.bursts.tagWordsLeft.tag := by
  have positive : 0 < s.bursts.tagWordsLeft.words.toNat := BitVec.lt_def.mp busy
  obtain ⟨four, done, req⟩ := kept.current positive
  have asked := kept.asked s.bursts.tagWordsLeft.tag
  have returned := kept.returned s.bursts.tagWordsLeft.tag
  rw [PcieCtrl.currentDWs, if_pos rfl] at returned
  have taken : s.bursts.tagWordsLeft.tag ∈ log.tags :=
    TagLog.mem_tags_of_asked (by omega)
  obtain ⟨counts, most⟩ := kept.counts _ taken
  rw [PcieCtrl.currentDWs, if_pos rfl] at counts
  have within : s.bursts.tagWordsLeft.off.toNat + s.bursts.tagWordsLeft.ioff.toNat + 4 < 1024 := by
    omega
  have sum : (s.bursts.tagWordsLeft.off + s.bursts.tagWordsLeft.ioff + 4).toNat
      = s.bursts.tagWordsLeft.off.toNat + s.bursts.tagWordsLeft.ioff.toNat + 4 := by
    bv_omega
  have isFinished : s.bursts.tagWordsLeft.finished
      ↔ s.bursts.tagWordsLeft.words.toNat ≤ 4
        ∧ s.bursts.tagWordsLeft.req.toNat
          ≤ s.bursts.tagWordsLeft.off.toNat + s.bursts.tagWordsLeft.ioff.toNat + 4 := by
    rw [TagWordsLeft.finished, BitVec.le_def, ge_iff_le, BitVec.le_def, sum]
    rfl
  rw [isFinished, req]
  refine ⟨by omega, by omega, ?_, by omega⟩
  constructor
  · intro both
    omega
  · intro all
    omega

-----------------------------------------------------------------------------------------
-- Steps
-----------------------------------------------------------------------------------------

/-- A completion is taken, of a tag for which the host still owes its DWs. -/
theorem BurstCounts.filterStatReadTLP (kept : BurstCounts s log)
    (answers : HostAnswers (s, log) .filterStatReadTLP) (fires : s.filterStatReadTLP = some s')
    : BurstCounts s' (log.record s .filterStatReadTLP) := by
  obtain ⟨-, tlp, tlpQ, keep, tlpKeepQ, first, -, done⟩ := PcieCtrl.filterStatReadTLP_cases fires
  have isFirst : s.rx.tlpQ.first = some tlp := Fifo.first_eq_some.mpr ⟨_, first⟩
  rcases done with ⟨_, _, read, _, _, rfl⟩ | ⟨_, _, other, _, rfl⟩ | ⟨_, readBurstQ, notRead,
    completion, -, added, same⟩
  case inl =>
    have none : s.completionTaken = none := by
      rw [PcieCtrl.completionTaken, isFirst]
      exact if_neg (fun both => both.1 read)
    refine kept.frame rfl rfl ?_ rfl
    simp [TagLog.record, none]
  case inr.inl =>
    have none : s.completionTaken = none := by
      rw [PcieCtrl.completionTaken, isFirst]
      exact if_neg (fun both => other.elim both.1 (fun no => no both.2))
    refine kept.frame rfl rfl ?_ rfl
    simp [TagLog.record, none]
  case inr.inr =>
    have taken : s.completionTaken = some (completionTag tlp, (tlpLength tlp).toNat) := by
      rw [PcieCtrl.completionTaken, isFirst]
      exact if_pos ⟨notRead, completion⟩
    obtain ⟨positive, four, owed⟩ := answers _ taken
    obtain ⟨asked, returned, fours, counts, current, reads, board, apart, aligned⟩ := kept
    have queue : s'.burstsQueued = s.burstsQueued ++ [(completionTag tlp, tlpLength tlp)] := by
      rw [same]
      simp only [PcieCtrl.burstsQueued, added, List.append_assoc]
    have longer (tag : BitVec 8)
        : s'.queuedDWs tag
          = s.queuedDWs tag + if completionTag tlp = tag then (tlpLength tlp).toNat else 0 := by
      rw [PcieCtrl.queuedDWs, queue, withLabel_snoc, PcieCtrl.queuedDWs]
      split
      next => rw [List.map_append, List.sum_append, List.map_singleton, List.sum_singleton]
      next => rfl
    have more (tag : BitVec 8)
        : (log.record s .filterStatReadTLP).returnedDWs tag
          = log.returnedDWs tag
            + if completionTag tlp = tag then (tlpLength tlp).toNat else 0 := by
      simp only [TagLog.record, taken, Option.toList_some, TagLog.returnedDWs, withLabel_snoc]
      split
      next => rw [List.sum_append, List.sum_singleton]
      next => rfl
    subst same
    refine ⟨?_, ?_, ?_, counts, current, reads, board, apart, aligned⟩
    · intro tag
      rw [more]
      split
      next mine =>
        subst mine
        exact owed
      next => exact asked tag
    · intro tag
      rw [more, returned, longer, Nat.add_assoc]
      rfl
    · intro burst member
      rw [queue] at member
      rcases List.mem_append.mp member with old | new
      case inl => exact fours burst old
      case inr =>
        obtain rfl := List.mem_singleton.mp new
        exact ⟨positive, four⟩

/-- A completion moves on in the queues. -/
theorem BurstCounts.queued (kept : BurstCounts s log)
    (same : s'.burstsQueued = s.burstsQueued)
    (map : s'.bursts.tagMap.mem = s.bursts.tagMap.mem)
    (current : s'.bursts.tagWordsLeft = s.bursts.tagWordsLeft)
    (start : s'.reads.dmaReadStartAddr = s.reads.dmaReadStartAddr)
    (reads
      : s'.bursts.tagMapReadAQ.items ++ s'.bursts.tagMap.respB.items
        = s'.bursts.burstUpdReqQ.items.map (fun burst => s.bursts.tagMap.mem burst.1))
    (board : s'.bursts.readCompletionsb.items = s'.bursts.burstUpdReqQ.items.map Prod.fst)
    (apart : s'.bursts.readCompletionsb.items.Nodup)
    : BurstCounts s' log := by
  refine ⟨kept.asked, ?_, ?_, ?_, ?_, ?_, board, apart, ?_⟩
  · intro tag
    rw [PcieCtrl.queuedDWs, same, PcieCtrl.currentDWs, current]
    exact kept.returned tag
  · rw [same]
    exact kept.fours
  · intro tag member
    rw [map, PcieCtrl.currentDWs, current]
    exact kept.counts tag member
  · rw [map, current]
    exact kept.current
  · rw [map]
    exact reads
  · rw [start]
    exact kept.aligned

theorem BurstCounts.relayReadBurst (kept : BurstCounts s log)
    (fires : s.relayReadBurst = some s')
    : BurstCounts s' log := by
  simp only [PcieCtrl.relayReadBurst, Option.bind_eq_bind, Option.pure_def,
    Fifo.bind_deq_eq_some, Fifo.bind_enq_eq_some, Option.some.injEq] at fires
  obtain ⟨burst, readBurstQ, taken, readBurst2Q, -, put, rfl⟩ := fires
  refine kept.queued ?_ rfl rfl rfl kept.reads kept.board kept.apart
  simp only [PcieCtrl.burstsQueued, taken, put, List.append_assoc, List.singleton_append]

/-- The counts of a completion are looked up when none of its tag is in between. -/
theorem BurstCounts.updateReadBurst1 (kept : BurstCounts s log)
    (fires : s.updateReadBurst1 = some s')
    : BurstCounts s' log := by
  obtain ⟨-, rfl | ⟨burst, readBurst2Q, respB, readCompletionsb, burstUpdReqQ, taken, absent,
    asked, marked, put, rfl⟩⟩ := PcieCtrl.updateReadBurst1_cases fires
  case inl => exact kept
  case inr =>
    refine kept.queued ?_ rfl rfl rfl ?_ ?_ ?_
    · simp only [PcieCtrl.burstsQueued, taken, put, List.append_assoc, List.singleton_append]
    · change s.bursts.tagMapReadAQ.items ++ respB.items = burstUpdReqQ.items.map _
      rw [asked, put, List.map_append, ← List.append_assoc, kept.reads]
      rfl
    · change readCompletionsb.items = burstUpdReqQ.items.map Prod.fst
      rw [marked, put, List.map_append, kept.board]
      rfl
    · change readCompletionsb.items.Nodup
      rw [marked]
      exact List.nodup_append.mpr ⟨kept.apart, List.nodup_singleton _, by
        rintro tag old _ new rfl
        exact absent (List.mem_singleton.mp new ▸ old)⟩

theorem BurstCounts.getTagMapReadA (kept : BurstCounts s log)
    (fires : s.getTagMapReadA = some s')
    : BurstCounts s' log := by
  simp only [PcieCtrl.getTagMapReadA, Option.bind_eq_bind, Option.pure_def,
    Bram2.bind_getB_eq_some, Fifo.bind_enq_eq_some, Option.some.injEq] at fires
  obtain ⟨v, respB, taken, tagMapReadAQ, -, put, rfl⟩ := fires
  refine kept.queued rfl rfl rfl rfl ?_ kept.board kept.apart
  have reads := kept.reads
  rw [taken] at reads
  change tagMapReadAQ.items ++ respB.items = _
  rw [put, List.append_assoc, List.singleton_append]
  exact reads

/-- The counts of a completion whose DWs fit under the total. -/
theorem PcieCtrl.burstCounts_eq {req done words : BitVec 10}
    (fits : done.toNat + words.toNat ≤ req.toNat) (small : req.toNat ≤ 32)
    : PcieCtrl.burstCounts req done words = (done + words, words) := by
  have sum : (done + words).toNat = done.toNat + words.toNat := by bv_omega
  rw [PcieCtrl.burstCounts]
  split
  next all =>
    have least : req.toNat ≤ (done + words).toNat := BitVec.le_def.mp all
    have same : req = done + words := BitVec.eq_of_toNat_eq (by omega)
    have rest : done + words - done = words := by
      rw [BitVec.add_comm, BitVec.add_sub_cancel]
    rw [same, rest]
  next => rfl

/-- The oldest completion becomes the current one: it fits under the total of its tag. -/
theorem BurstCounts.updateReadBurst2 (kept : BurstCounts s log)
    (fires : s.updateReadBurst2 = some s')
    : BurstCounts s' log := by
  obtain ⟨idle, -, ⟨req, done⟩, tagMapReadAQ, ⟨tag, words⟩, burstUpdReqQ, marked,
    readCompletionsb, looked, taken, unmarked, same⟩ := PcieCtrl.updateReadBurst2_cases fires
  obtain ⟨asked, returned, fours, counts, -, reads, board, apart, aligned⟩ := kept
  let rest := burstUpdReqQ.items ++ s.bursts.readBurst2Q.items ++ s.bursts.readBurstQ.items
  have none (other : BitVec 8) : s.currentDWs other = 0 := by
    rw [PcieCtrl.currentDWs, idle]
    split <;> rfl
  have queue : s.burstsQueued = (tag, words) :: rest := by
    rw [PcieCtrl.burstsQueued, taken]
    rfl
  have less (other : BitVec 8)
      : s.queuedDWs other
        = (if tag = other then words.toNat else 0)
          + ((withLabel other rest).map BitVec.toNat).sum := by
    rw [PcieCtrl.queuedDWs, queue, withLabel_cons]
    split
    next => rfl
    next => rw [Nat.zero_add]
  rw [looked, taken, List.cons_append, List.map_cons] at reads
  obtain ⟨entry, readsRest⟩ := List.cons.inj reads
  rw [taken, unmarked, List.map_cons] at board
  obtain ⟨rfl, boardRest⟩ := List.cons.inj board
  rw [unmarked] at apart
  obtain ⟨absent, apartRest⟩ := List.nodup_cons.mp apart
  have size : 0 < words.toNat ∧ words.toNat % 4 = 0 := fours (marked, words) (by simp [queue])
  have owed := asked marked
  have sum := returned marked
  rw [none, less, if_pos rfl] at sum
  have total := counts marked (TagLog.mem_tags_of_asked (by omega))
  rw [none, ← entry] at total
  obtain ⟨balance, small⟩ : log.askedDWs marked + done.toNat
      = log.writtenDWs marked + 0 + req.toNat ∧ req.toNat ≤ 32 := total
  have fits : done.toNat + words.toNat ≤ req.toNat := by omega
  have moved : (done + words).toNat = done.toNat + words.toNat := by bv_omega
  simp only [PcieCtrl.burstCounts_eq fits small] at same
  subst same
  refine ⟨asked, ?_, ?_, ?_, ?_, ?_, boardRest, apartRest, aligned⟩
  · intro other
    change log.returnedDWs other = log.writtenDWs other + (if marked = other then words.toNat else 0)
      + ((withLabel other rest).map BitVec.toNat).sum
    rw [returned, none, less]
    omega
  · intro burst member
    exact fours burst (queue ▸ List.mem_cons_of_mem _ member)
  · intro other member
    change log.askedDWs other
          + (Function.update s.bursts.tagMap.mem marked (req, done + words) other).2.toNat
        = log.writtenDWs other + (if marked = other then words.toNat else 0)
          + (Function.update s.bursts.tagMap.mem marked (req, done + words) other).1.toNat
      ∧ (Function.update s.bursts.tagMap.mem marked (req, done + words) other).1.toNat ≤ 32
    by_cases mine : other = marked
    · subst mine
      rw [Function.update_self, if_pos rfl]
      refine ⟨?_, small⟩
      change log.askedDWs other + (done + words).toNat
        = log.writtenDWs other + words.toNat + req.toNat
      omega
    · rw [Function.update_of_ne mine, if_neg (Ne.symm mine)]
      have before := counts other member
      rw [none] at before
      exact before
  · intro positive
    change words.toNat % 4 = 0
      ∧ done.toNat + 0 + words.toNat
        = (Function.update s.bursts.tagMap.mem marked (req, done + words) marked).2.toNat
      ∧ req = (Function.update s.bursts.tagMap.mem marked (req, done + words) marked).1
    rw [Function.update_self]
    exact ⟨size.2, moved.symm, rfl⟩
  · change tagMapReadAQ.items ++ s.bursts.tagMap.respB.items
      = burstUpdReqQ.items.map
        (fun burst => Function.update s.bursts.tagMap.mem marked (req, done + words) burst.1)
    rw [readsRest]
    refine List.map_congr_left ?_
    intro burst member
    have other : burst.1 ≠ marked := by
      intro mine
      exact absent (boardRest ▸ mine ▸ List.mem_map_of_mem member)
    rw [Function.update_of_ne other]

/-- A word of the current completion is written. -/
theorem BurstCounts.writeReadBuffer (kept : BurstCounts s log)
    (fires : s.writeReadBuffer = some s')
    : BurstCounts s' (log.record s .writeReadBuffer) := by
  obtain ⟨busy, _, _, _, -, -, rfl⟩ := PcieCtrl.writeReadBuffer_cases fires
  obtain ⟨least, last, -, -⟩ := kept.word busy
  obtain ⟨asked, returned, fours, counts, current, reads, board, apart, aligned⟩ := kept
  obtain ⟨four, place, total⟩ := current (by omega)
  have left
      : (if s.bursts.tagWordsLeft.finished then 0 else s.bursts.tagWordsLeft.words - 4).toNat
        = s.bursts.tagWordsLeft.words.toNat - 4 := by
    split
    next finished =>
      rw [last finished]
      rfl
    next => bv_omega
  have moved (other : BitVec 8)
      : (if s.bursts.tagWordsLeft.tag = other then 4 else 0)
          + (if s.bursts.tagWordsLeft.tag = other then
              (if s.bursts.tagWordsLeft.finished then 0
                else s.bursts.tagWordsLeft.words - 4).toNat
            else 0)
        = s.currentDWs other := by
    rw [left, PcieCtrl.currentDWs]
    split <;> omega
  refine ⟨asked, ?_, fours, ?_, ?_, reads, board, apart, aligned⟩
  · intro other
    change log.returnedDWs other = _ + _ + s.queuedDWs other
    rw [returned, ← moved, TagLog.writtenDWs_word, ← Nat.add_assoc (log.writtenDWs other)]
    rfl
  · intro other member
    obtain ⟨balance, small⟩ := counts other member
    refine ⟨?_, small⟩
    rw [← moved, ← Nat.add_assoc] at balance
    rw [TagLog.writtenDWs_word]
    exact balance
  · change 0 < (if s.bursts.tagWordsLeft.finished then 0
        else s.bursts.tagWordsLeft.words - 4).toNat →
      (if s.bursts.tagWordsLeft.finished then 0
        else s.bursts.tagWordsLeft.words - 4).toNat % 4 = 0
      ∧ s.bursts.tagWordsLeft.off.toNat + (s.bursts.tagWordsLeft.ioff + 4).toNat
          + (if s.bursts.tagWordsLeft.finished then 0
            else s.bursts.tagWordsLeft.words - 4).toNat
        = (s.bursts.tagMap.mem s.bursts.tagWordsLeft.tag).2.toNat
      ∧ s.bursts.tagWordsLeft.req = (s.bursts.tagMap.mem s.bursts.tagWordsLeft.tag).1
    rw [left]
    intro positive
    have within : (s.bursts.tagMap.mem s.bursts.tagWordsLeft.tag).2.toNat < 1024 :=
      BitVec.isLt _
    have next : (s.bursts.tagWordsLeft.ioff + 4).toNat = s.bursts.tagWordsLeft.ioff.toNat + 4 := by
      bv_omega
    exact ⟨by omega, by omega, total⟩

/-- A request is cut at an aligned address. -/
theorem BurstCounts.splitDmaReadReq (kept : BurstCounts s log)
    (fires : s.splitDmaReadReq = some s')
    : BurstCounts s' log := by
  obtain ⟨req, _, rfl⟩ := PcieCtrl.splitDmaReadReq_cases fires
  obtain ⟨asked, returned, fours, counts, current, reads, board, apart, -⟩ := kept
  exact ⟨asked, returned, fours, counts, current, reads, board, apart, wordAligned_alignWord _⟩

/-- A burst takes a tag of which everything is written, and opens its counts. -/
theorem BurstCounts.splitDmaReadReq2 (kept : BurstCounts s log)
    (all : ∀ tag ∈ s.tags.freeReadTagQ.items, log.Received tag)
    (fires : s.splitDmaReadReq2 = some s')
    : BurstCounts s' (log.record s .splitDmaReadReq2) := by
  obtain ⟨busy, tag, freeReadTagQ, _, _, _, taken, -, -, -, rfl⟩ :=
    PcieCtrl.splitDmaReadReq2_cases fires
  have received : log.Received tag := all tag (by simp [taken])
  obtain ⟨quiet, still⟩ := kept.quiet received
  have covers := splitRead_covers kept.aligned busy
  obtain ⟨asked, returned, fours, counts, current, reads, board, apart, -⟩ := kept
  have made := PcieCtrl.burstMade_eq taken
  have absent : ∀ burst ∈ s.burstsQueued, burst.1 ≠ tag := by
    intro burst member mine
    have some := PcieCtrl.le_queuedDWs member
    have positive := (fours burst member).1
    rw [mine, still] at some
    omega
  generalize (splitRead s.reads.dmaReadStartAddr s.reads.dmaReadWords) = split at *
  have short := covers.short
  have size : (split.words <<< 2).toNat = 4 * split.words.toNat := by
    rw [BitVec.toNat_shiftLeft, Nat.shiftLeft_eq, Nat.mod_eq_of_lt (by omega)]
    omega
  refine ⟨?_, returned, fours, ?_, ?_, ?_, board, apart, covers.aligned⟩
  · intro other
    rw [TagLog.askedDWs_burst made]
    exact Nat.le_add_right_of_le (asked other)
  · intro other member
    rw [TagLog.tags_burst made] at member
    rw [TagLog.askedDWs_burst made]
    change log.askedDWs other + (if tag = other then 4 * split.words.toNat else 0)
          + (Function.update s.bursts.tagMap.mem tag (split.words <<< 2, 0) other).2.toNat
        = log.writtenDWs other + s.currentDWs other
          + (Function.update s.bursts.tagMap.mem tag (split.words <<< 2, 0) other).1.toNat
      ∧ (Function.update s.bursts.tagMap.mem tag (split.words <<< 2, 0) other).1.toNat ≤ 32
    by_cases mine : other = tag
    · subst mine
      rw [Function.update_self, if_pos rfl, quiet]
      change _ + 0 = _ + (split.words <<< 2).toNat ∧ (split.words <<< 2).toNat ≤ 32
      rw [TagLog.Received] at received
      omega
    · rw [Function.update_of_ne mine, if_neg (Ne.symm mine)]
      rcases List.mem_append.mp member with old | new
      case inl => exact counts other old
      case inr => exact absurd (List.mem_singleton.mp new) mine
  · intro positive
    have other : s.bursts.tagWordsLeft.tag ≠ tag := by
      intro mine
      rw [PcieCtrl.currentDWs, if_pos mine] at quiet
      exact absurd quiet (Nat.ne_of_gt positive)
    change _ ∧ _ = (Function.update s.bursts.tagMap.mem tag (split.words <<< 2, 0)
        s.bursts.tagWordsLeft.tag).2.toNat
      ∧ _ = (Function.update s.bursts.tagMap.mem tag (split.words <<< 2, 0)
        s.bursts.tagWordsLeft.tag).1
    rw [Function.update_of_ne other]
    exact current positive
  · change _ = s.bursts.burstUpdReqQ.items.map
      (fun burst => Function.update s.bursts.tagMap.mem tag (split.words <<< 2, 0) burst.1)
    refine reads.trans (List.map_congr_left ?_)
    intro burst member
    have queued : burst ∈ s.burstsQueued := by
      rw [PcieCtrl.burstsQueued, List.append_assoc]
      exact List.mem_append_left _ member
    rw [Function.update_of_ne (absent burst queued)]

/-- Every event keeps the counts, if everything of the free tags is written. -/
theorem BurstCounts.step {e : Event} (kept : BurstCounts s log)
    (all : ∀ tag ∈ s.tags.freeReadTagQ.items, log.Received tag)
    (answers : HostAnswers (s, log) e) (fires : s.step e = some s')
    : BurstCounts s' (log.record s e) := by
  have same := step_unchanged fires
  cases e with
  | filterStatReadTLP => exact kept.filterStatReadTLP answers fires
  | relayReadBurst => exact kept.relayReadBurst fires
  | updateReadBurst1 => exact kept.updateReadBurst1 fires
  | getTagMapReadA => exact kept.getTagMapReadA fires
  | updateReadBurst2 => exact kept.updateReadBurst2 fires
  | writeReadBuffer => exact kept.writeReadBuffer fires
  | splitDmaReadReq => exact kept.splitDmaReadReq fires
  | splitDmaReadReq2 => exact kept.splitDmaReadReq2 all fires
  | procCompletionTLP =>
      obtain ⟨_, _, _, _, _, _, _, _, _, rfl⟩ := PcieCtrl.procCompletionTLP_cases fires
      exact kept.frame rfl rfl rfl rfl
  | relayDmaReadrQ =>
      obtain ⟨⟨_, _⟩, _, rest⟩ := Option.bind_eq_some_iff.mp fires
      obtain ⟨_, _, ⟨⟩⟩ := Option.bind_eq_some_iff.mp rest
      exact kept.frame rfl rfl rfl rfl
  | applyDoneMap =>
      obtain ⟨_, _, _, _, _, rfl⟩ := PcieCtrl.applyDoneMap_cases fires
      exact kept.frame rfl rfl rfl rfl
  | dmaReadReq addr words =>
      obtain ⟨_, _, ⟨⟩⟩ := Option.bind_eq_some_iff.mp fires
      exact kept.frame rfl rfl rfl rfl
  | generateDmaReadTLP =>
      obtain ⟨_, _, _, _, _, _, _, _, _, _, rfl⟩ := PcieCtrl.generateDmaReadTLP_cases fires
      exact kept.frame rfl rfl rfl rfl
  | _ =>
      have bursts := same.bursts (by simp [Event.parts])
      have reads := same.reads (by simp [Event.parts])
      refine kept.frame ?_ rfl rfl rfl
      rw [PcieCtrl.burstSide, bursts, reads, PcieCtrl.burstSide]

end

end BluespecPcie
