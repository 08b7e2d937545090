import BluespecPcie.Dma.WriteHelper

/-! `mkDMAWriteHelper`: where its 32 write tags are. -/

namespace BluespecPcie

open Bluespec

-----------------------------------------------------------------------------------------
-- The account of the tags
-----------------------------------------------------------------------------------------

namespace DMAWriteHelper

/-- The write tags, `32+dmaWriteTagInit` for each value below `dmaWriteTagCount`. -/
def writeTag (k : Nat) : BitVec 8 := 32 + BitVec.ofNat 8 k

/-- The tags that `initDmaTagW` has put into use. -/
def issued (m : DMAWriteHelper) : List (BitVec 8) :=
  (List.range m.dmaWriteTagInit.toNat).map writeTag

/-- The tag of the burst in progress. -/
def inProgress (m : DMAWriteHelper) : List (BitVec 8) :=
  if 0 < m.dmaCurWriteLeft then [m.dmaCurTag] else []

/-- Each write tag is free or that of the burst in progress, and one is free if there is no
burst in progress.
-/
structure TagsKept (m : DMAWriteHelper) : Prop where
  kept
    : ∀ k < 32,
        writeTag k ∈ m.dmaWriteFreeTagQ.items
        ∨ (0 < m.dmaCurWriteLeft ∧ m.dmaCurTag = writeTag k)
  free : m.dmaCurWriteLeft = 0 → m.dmaWriteFreeTagQ.items ≠ []

/-- The tags taken by flushes without words, the oldest first. -/
def recordEmptyFlush {σ : Type} (s : DMAWriteHelper × σ) (e : DMAWriteHelperEvent)
    (taken : List (BitVec 8))
    : List (BitVec 8) :=
  match e with
  | .rule .genPcieFlush =>
      if s.1.qcount = 0 then taken ++ s.1.dmaWriteFreeTagQ.first.toList else taken
  | _ => taken

/-- Every tag in use is free, in the burst in progress or taken by a flush without words. -/
structure TagLedger (m : DMAWriteHelper) (taken : List (BitVec 8)) : Prop where
  tags : (m.dmaWriteFreeTagQ.items ++ m.inProgress ++ taken).Perm m.issued
  counted : m.dmaWriteTagInit.toNat ≤ 32
  initialised : m.dmaWriteTagInitDone = true → m.dmaWriteTagInit.toNat = 32

variable {m m' : DMAWriteHelper} {taken : List (BitVec 8)} {call : Option DmaWriteCall}

/-- The write tags differ. -/
theorem writeTag_inj {i j : Nat} (first : i < 32) (second : j < 32)
    (same : writeTag i = writeTag j)
    : i = j := by
  unfold writeTag at same
  bv_omega

theorem nodup_issued (m : DMAWriteHelper) (counted : m.dmaWriteTagInit.toNat ≤ 32)
    : m.issued.Nodup := by
  refine List.Nodup.map_on ?_ List.nodup_range
  intro i first j second same
  rw [List.mem_range] at first second
  exact writeTag_inj (by omega) (by omega) same

theorem mem_issued (m : DMAWriteHelper) (tag : BitVec 8)
    : tag ∈ m.issued ↔ ∃ k < m.dmaWriteTagInit.toNat, tag = writeTag k := by
  simp [issued, eq_comm]

theorem inProgress_idle (idle : m.dmaCurWriteLeft = 0) : m.inProgress = [] := by
  rw [inProgress, idle]
  rfl

theorem TagLedger.init : TagLedger mkDMAWriteHelper [] :=
  ⟨.refl _, Nat.zero_le _, nofun⟩

/-- A further tag is put into use, free. -/
theorem TagLedger.initDmaTagW (ledger : TagLedger m taken) (fires : m.initDmaTagW = some m')
    : TagLedger m' taken := by
  obtain ⟨tags, counted, -⟩ := ledger
  unfold DMAWriteHelper.initDmaTagW at fires
  split at fires
  next more =>
    obtain ⟨below, active⟩ := more
    obtain ⟨dmaWriteFreeTagQ, added, ⟨⟩⟩ := Option.bind_eq_some_iff.mp fires
    have below : m.dmaWriteTagInit.toNat < 32 := below
    have next : (m.dmaWriteTagInit + 1).toNat = m.dmaWriteTagInit.toNat + 1 := by bv_omega
    refine ⟨?_, ?_, ?_⟩
    · change (dmaWriteFreeTagQ.items ++ m.inProgress ++ taken).Perm
        ((List.range (m.dmaWriteTagInit + 1).toNat).map writeTag)
      rw [(Fifo.enq_eq_some.mp added).2, next, List.range_succ, List.map_append]
      have here : writeTag m.dmaWriteTagInit.toNat = 32 + m.dmaWriteTagInit := by
        rw [writeTag, BitVec.ofNat_toNat, BitVec.setWidth_eq]
      rw [List.map_singleton, here, List.append_assoc, List.append_assoc]
      refine List.Perm.trans ?_ (tags.append_right _)
      rw [List.append_assoc, List.append_assoc]
      exact (List.perm_append_comm.trans (.of_eq (List.append_assoc _ _ _))).append_left _
    · change (m.dmaWriteTagInit + 1).toNat ≤ 32
      omega
    · intro done
      change (m.dmaWriteTagInit + 1).toNat = 32
      rw [next]
      by_cases last : dmaWriteTagCount - 1 ≤ m.dmaWriteTagInit
      · have reached : 31 ≤ m.dmaWriteTagInit.toNat := last
        omega
      · have before : m.dmaWriteTagInitDone = true := by
          simpa only [last, if_false] using done
        exact absurd (before.symm.trans active) nofun
  next => cases fires

/-- A full burst takes a free tag. -/
theorem TagLedger.genPcieWrite (ledger : TagLedger m taken)
    (fires : m.genPcieWrite = some (m', call))
    : TagLedger m' taken := by
  obtain ⟨tags, counted, initialised⟩ := ledger
  unfold DMAWriteHelper.genPcieWrite at fires
  split at fires
  next ready =>
    obtain ⟨⟨tag, dmaWriteFreeTagQ⟩, first, fires⟩ := Option.bind_eq_some_iff.mp fires
    obtain ⟨writeDoneQ, _, ⟨⟩⟩ := Option.bind_eq_some_iff.mp fires
    refine ⟨?_, counted, initialised⟩
    rw [Fifo.deq_eq_some.mp first, inProgress_idle ready.1, List.append_nil] at tags
    refine List.Perm.trans ?_ tags
    exact (List.perm_append_singleton tag dmaWriteFreeTagQ.items).append_right taken
  next => cases fires

/-- The burst of a flush takes a free tag, for good if the burst has no words. -/
theorem TagLedger.genPcieFlush {σ : Type} {p : σ} (ledger : TagLedger m taken)
    (fires : m.genPcieFlush = some (m', call))
    : TagLedger m' (recordEmptyFlush (m, p) (.rule .genPcieFlush) taken) := by
  obtain ⟨tags, counted, initialised⟩ := ledger
  unfold DMAWriteHelper.genPcieFlush at fires
  split at fires
  next ready =>
    obtain ⟨⟨tag, dmaWriteFreeTagQ⟩, first, fires⟩ := Option.bind_eq_some_iff.mp fires
    obtain ⟨writeDoneQ, _, ⟨⟩⟩ := Option.bind_eq_some_iff.mp fires
    have head := Fifo.deq_eq_some.mp first
    rw [head, inProgress_idle ready.1, List.append_nil] at tags
    refine ⟨List.Perm.trans ?_ tags, counted, initialised⟩
    simp only [recordEmptyFlush]
    split
    next none =>
      rw [Fifo.first, head, inProgress_idle none, List.append_nil]
      refine List.Perm.trans ?_ (List.perm_append_singleton tag (dmaWriteFreeTagQ.items ++ taken))
      exact .of_eq (List.append_assoc _ _ _).symm
    next words =>
      have some : 0 < m.qcount := by bv_omega
      have current : inProgress { m with
          dmaWriteFreeTagQ
          dmaCurTag := tag
          dmaCurWriteLeft := m.qcount
          dmaWriteHostOff := m.dmaWriteHostOff + m.qcount.setWidth 32 * 16
          dmaWriteLeftWords := 0
          writeBufferFlush := false
          dmaWriteHostStartOff := none
          writeDoneQ
          dmaCurBufferWriteCnt := 0 } = [tag] := if_pos some
      rw [current]
      exact (List.perm_append_singleton tag dmaWriteFreeTagQ.items).append_right taken
  next => cases fires

/-- The last word of a burst frees its tag. -/
theorem TagLedger.doPcieWrite (ledger : TagLedger m taken)
    (fires : m.doPcieWrite = some (m', call))
    : TagLedger m' taken := by
  obtain ⟨tags, counted, initialised⟩ := ledger
  unfold DMAWriteHelper.doPcieWrite at fires
  split at fires
  next busy =>
    obtain ⟨⟨d, writeBufferDataQ⟩, _, fires⟩ := Option.bind_eq_some_iff.mp fires
    obtain ⟨dmaWriteFreeTagQ, freed, ⟨⟩⟩ := Option.bind_eq_some_iff.mp fires
    refine ⟨List.Perm.trans ?_ tags, counted, initialised⟩
    have here : m.inProgress = [m.dmaCurTag] := if_pos busy
    unfold DMAWriteHelper.freeTag at freed
    split at freed
    next last =>
      rw [(Fifo.enq_eq_some.mp freed).2, here]
      have none : m.dmaCurWriteLeft - 1 = 0 := by rw [last]; rfl
      rw [inProgress_idle none, List.append_nil]
    next more =>
      cases freed
      have still : 0 < m.dmaCurWriteLeft - 1 := by bv_omega
      rw [here, inProgress, if_pos still]
  next => cases fires

/-- Every rule keeps the account. -/
theorem TagLedger.fire {σ : Type} {p : σ} {rule : DMAWriteHelperRule}
    (ledger : TagLedger m taken) (fires : m.fire rule = some (m', call))
    : TagLedger m' (recordEmptyFlush (m, p) (.rule rule) taken) := by
  cases rule with
  | relayWriteDone =>
      obtain ⟨next, fired, ⟨⟩⟩ := Option.map_eq_some_iff.mp fires
      obtain ⟨_, _, fired⟩ := Option.bind_eq_some_iff.mp fired
      obtain ⟨_, _, ⟨⟩⟩ := Option.bind_eq_some_iff.mp fired
      exact ⟨ledger.tags, ledger.counted, ledger.initialised⟩
  | initDmaTagW =>
      obtain ⟨next, fired, ⟨⟩⟩ := Option.map_eq_some_iff.mp fires
      exact ledger.initDmaTagW fired
  | relayWriteSync =>
      obtain ⟨next, fired, ⟨⟩⟩ := Option.map_eq_some_iff.mp fires
      unfold DMAWriteHelper.relayWriteSync at fired
      split at fired
      next =>
        obtain ⟨⟨d, _⟩, _, fired⟩ := Option.bind_eq_some_iff.mp fired
        cases d with
        | none =>
            cases fired
            exact ⟨ledger.tags, ledger.counted, ledger.initialised⟩
        | some word =>
            obtain ⟨_, _, ⟨⟩⟩ := Option.bind_eq_some_iff.mp fired
            exact ⟨ledger.tags, ledger.counted, ledger.initialised⟩
      next => cases fired
  | genPcieWrite => exact ledger.genPcieWrite fires
  | genPcieFlush => exact ledger.genPcieFlush fires
  | doPcieWrite => exact ledger.doPcieWrite fires
  | procHostBuffer =>
      obtain ⟨next, fired, ⟨⟩⟩ := Option.map_eq_some_iff.mp fires
      unfold DMAWriteHelper.procHostBuffer at fired
      split at fired
      next =>
        obtain ⟨_, _, ⟨⟩⟩ := Option.bind_eq_some_iff.mp fired
        exact ⟨ledger.tags, ledger.counted, ledger.initialised⟩
      next => cases fired

/-- So does every event. -/
theorem TagLedger.step {P : TaggedDma} {s s' : DMAWriteHelper × P.State}
    {e : DMAWriteHelperEvent} (ledger : TagLedger s.1 taken)
    (fires : DMAWriteHelper.step P s e = some s')
    : TagLedger s'.1 (recordEmptyFlush s e taken) := by
  cases e with
  | rule rule =>
      obtain ⟨⟨m', call⟩, fired, fires⟩ := Option.bind_eq_some_iff.mp fires
      obtain ⟨p', _, ⟨⟩⟩ := Option.bind_eq_some_iff.mp fires
      exact ledger.fire fired
  | pcie =>
      obtain ⟨p', _, rfl⟩ := Option.map_eq_some_iff.mp fires
      exact ledger
  | addHostBuffer off bytes =>
      obtain ⟨m', fired, rfl⟩ := Option.map_eq_some_iff.mp fires
      obtain ⟨_, _, ⟨⟩⟩ := Option.bind_eq_some_iff.mp fired
      exact ⟨ledger.tags, ledger.counted, ledger.initialised⟩
  | write data =>
      obtain ⟨m', fired, rfl⟩ := Option.map_eq_some_iff.mp fires
      obtain ⟨_, _, ⟨⟩⟩ := Option.bind_eq_some_iff.mp fired
      exact ⟨ledger.tags, ledger.counted, ledger.initialised⟩
  | bufferDone =>
      obtain ⟨done, fired, rfl⟩ := Option.map_eq_some_iff.mp fires
      obtain ⟨_, _, ⟨⟩⟩ := Option.bind_eq_some_iff.mp fired
      exact ⟨ledger.tags, ledger.counted, ledger.initialised⟩

-----------------------------------------------------------------------------------------
-- Runs
-----------------------------------------------------------------------------------------

/-- The account holds in every run. -/
theorem reach_tagLedger {P : TaggedDma} {state : (DMAWriteHelper × P.State) × List (BitVec 8)}
    (run : Reach (traced (DMAWriteHelper.step P) recordEmptyFlush) anyEvent
      ((mkDMAWriteHelper, P.init), []) state)
    : TagLedger state.1.1 state.2 := by
  refine run.invariant (P := fun state => TagLedger state.1.1 state.2) TagLedger.init ?_
  intro state e next ledger _ fires
  obtain ⟨fired, recorded⟩ := traced_eq_some.mp fires
  rw [recorded]
  exact ledger.step fired

/-- With all tags in use none is lost exactly if no flush took one. -/
theorem TagLedger.tagsKept_iff (ledger : TagLedger m taken)
    (initialised : m.dmaWriteTagInitDone = true)
    : m.TagsKept ↔ taken = [] := by
  obtain ⟨tags, counted, all⟩ := ledger
  have all := all initialised
  have nodup := (tags.nodup_iff).mpr (nodup_issued m counted)
  constructor
  · intro kept
    refine List.eq_nil_iff_forall_not_mem.mpr ?_
    intro tag lost
    obtain ⟨k, below, rfl⟩ := (mem_issued m tag).mp
      (tags.subset (List.mem_append_right _ lost))
    refine List.disjoint_of_nodup_append nodup (List.mem_append.mpr ?_) lost
    refine (kept.kept k (by omega)).imp_right ?_
    rintro ⟨busy, same⟩
    rw [inProgress, if_pos busy, same]
    exact List.mem_singleton.mpr rfl
  · rintro rfl
    rw [List.append_nil] at tags
    have kept (k : Nat) (below : k < 32) : DMAWriteHelper.writeTag k ∈ m.dmaWriteFreeTagQ.items
        ∨ (0 < m.dmaCurWriteLeft ∧ m.dmaCurTag = DMAWriteHelper.writeTag k) := by
      have member := tags.symm.subset ((mem_issued m _).mpr ⟨k, by omega, rfl⟩)
      refine (List.mem_append.mp member).imp_right ?_
      intro burst
      unfold DMAWriteHelper.inProgress at burst
      split at burst
      next busy => exact ⟨busy, (List.mem_singleton.mp burst).symm⟩
      next => cases burst
    refine ⟨kept, ?_⟩
    intro idle empty
    rcases kept 0 (by decide) with free | ⟨busy, _⟩
    · rw [empty] at free
      cases free
    · rw [idle] at busy
      exact absurd busy (BitVec.lt_irrefl _)

/-- After the initialisation each of the 32 write tags is free or that of the burst in
progress exactly as long as no flush came without words.
-/
theorem writeTags_kept (P : TaggedDma) (s : DMAWriteHelper × P.State)
    (taken : List (BitVec 8))
    (run : Reach (traced (DMAWriteHelper.step P) recordEmptyFlush) anyEvent
      ((mkDMAWriteHelper, P.init), []) (s, taken))
    (initialised : s.1.dmaWriteTagInitDone = true)
    : s.1.TagsKept ↔ taken = [] :=
  (reach_tagLedger run).tagsKept_iff initialised

end DMAWriteHelper

/-- A flush in a buffer of 16 words, behind `words`. -/
def flushBehind (words : List DMAWord) : List DMAWriteHelperEvent :=
  List.replicate 32 (.rule .initDmaTagW)
    ++ [.addHostBuffer 0 256, .rule .procHostBuffer]
    ++ words.flatMap (fun word => [.write (some word), .rule .relayWriteSync])
    ++ [.write none, .rule .relayWriteSync, .rule .genPcieFlush]
    ++ words.map (fun _ => .rule .doPcieWrite)

/-- A flush behind one word keeps its tag. -/
theorem writeTags_kept_word
    : ∃ s taken,
        Reach (traced (DMAWriteHelper.step .direct) DMAWriteHelper.recordEmptyFlush) anyEvent
          ((mkDMAWriteHelper, TaggedDma.direct.init), []) (s, taken)
        ∧ (s.1.dmaWriteTagInitDone, s.1.dmaCurTag, taken) = (true, 32, [])
        ∧ s.1.TagsKept := by
  obtain ⟨⟨s, taken⟩, run, seen⟩ := exec_reach_map
    (traced (DMAWriteHelper.step .direct) DMAWriteHelper.recordEmptyFlush) anyEvent
    ((mkDMAWriteHelper, TaggedDma.direct.init), []) (flushBehind [7])
    (fun s => (s.1.1.dmaWriteTagInitDone, s.1.1.dmaCurTag, s.2))
    (true, 32, []) (by decide +kernel)
  obtain ⟨initialised, rest⟩ := Prod.mk.inj seen
  exact ⟨s, taken, run, seen,
    (DMAWriteHelper.writeTags_kept .direct s taken run initialised).mpr (Prod.mk.inj rest).2⟩

/-- A flush without words takes a tag, and no burst is in progress. -/
theorem writeTags_kept_empty
    : ∃ s taken,
        Reach (traced (DMAWriteHelper.step .direct) DMAWriteHelper.recordEmptyFlush) anyEvent
          ((mkDMAWriteHelper, TaggedDma.direct.init), []) (s, taken)
        ∧ (s.1.dmaWriteTagInitDone, s.1.dmaCurWriteLeft, taken) = (true, 0, [32])
        ∧ ¬ s.1.TagsKept := by
  obtain ⟨⟨s, taken⟩, run, seen⟩ := exec_reach_map
    (traced (DMAWriteHelper.step .direct) DMAWriteHelper.recordEmptyFlush) anyEvent
    ((mkDMAWriteHelper, TaggedDma.direct.init), []) (flushBehind [])
    (fun s => ((s.1.1.dmaWriteTagInitDone, s.1.1.dmaCurWriteLeft, s.2),
      decide (DMAWriteHelper.writeTag 0 ∈ s.1.1.dmaWriteFreeTagQ.items)))
    ((true, 0, [32]), false) (by decide +kernel)
  obtain ⟨seen, free⟩ := Prod.mk.inj seen
  obtain ⟨idle, -⟩ := Prod.mk.inj (Prod.mk.inj seen).2
  refine ⟨s, taken, run, seen, ?_⟩
  intro kept
  rcases kept.kept 0 (by decide) with member | ⟨busy, -⟩
  · exact of_decide_eq_false free member
  · rw [show s.1.dmaCurWriteLeft = 0 from idle] at busy
    exact absurd busy (BitVec.lt_irrefl _)

end BluespecPcie
