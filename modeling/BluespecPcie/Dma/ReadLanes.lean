import BluespecPcie.Dma.ReadReorder

/-! The read path of DMAReadHelper.bsv and DRAMHostDMA.bsv, one rule at a time: which words are in
line for which request, and when a word that arrives has room in the queue of its tag.
-/

namespace BluespecPcie

open Bluespec

namespace ReadReorder

variable {n k : Nat} {m m' : ReadReorder n k} {tag words : BitVec 8} {word : DMAWord}

-----------------------------------------------------------------------------------------
-- Tags in range
-----------------------------------------------------------------------------------------

theorem InRange.init : InRange (ReadReorder.init : ReadReorder n k) :=
  ⟨nofun, nofun, fun _ some => absurd rfl some⟩

theorem InRange.initDmaTagR (range : m.InRange) (fires : m.initDmaTagR = some m')
    : m'.InRange := by
  obtain ⟨dmaReadFreeTagQ, _, below, added, -, rfl⟩ := initDmaTagR_spec fires
  have below : m.dmaReadTagInit.toNat < n :=
    Nat.lt_of_lt_of_le (BitVec.lt_def.mp below) (by
      rw [BitVec.toNat_ofNat]
      exact Nat.mod_le _ _)
  refine ⟨?_, range.ordered, range.left⟩
  intro other member
  rcases List.mem_append.mp (added ▸ member) with old | new
  case inl => exact range.free other old
  case inr =>
    obtain rfl := List.mem_singleton.mp new
    exact below

theorem InRange.sendChunk (range : m.InRange) (fires : m.sendChunk words = some (tag, m'))
    : m'.InRange := by
  obtain ⟨dmaReadFreeTagQ, dmaReadTagOrderQ, first, added, rfl⟩ := sendChunk_spec fires
  have below : tag.toNat < n := range.free tag (by simp [first])
  refine ⟨?_, ?_, ?_⟩
  · intro other member
    exact range.free other (by simp [first, member])
  · intro chunk member
    rcases List.mem_append.mp (added ▸ member) with old | new
    case inl => exact range.ordered chunk old
    case inr =>
      obtain rfl := List.mem_singleton.mp new
      exact below
  · intro other some
    by_cases mine : other = tag
    case pos => exact mine ▸ below
    case neg => exact range.left other (by simpa [mine] using some)

theorem InRange.getDMARead (range : m.InRange) (fires : m.getDMARead tag word = some m')
    : m'.InRange := by
  rcases getDMARead_cases fires with ⟨-, rfl⟩ | ⟨dmaReadFreeTagQ, _, lacks, freed, -, rfl⟩
  case inl => exact range
  case inr =>
    have below := range.left tag lacks
    refine ⟨?_, range.ordered, ?_⟩
    · intro other member
      rcases List.mem_append.mp (freed ▸ member) with old | new
      case inl => exact range.free other old
      case inr =>
        split at new
        next =>
          obtain rfl := List.mem_singleton.mp new
          exact below
        next => cases new
    · intro other some
      by_cases mine : other = tag
      case pos => exact mine ▸ below
      case neg => exact range.left other (by simpa [mine] using some)

theorem InRange.relayDmaReadWords (range : m.InRange) (fires : m.relayDmaReadWords = some m')
    : m'.InRange := by
  obtain ⟨_, _, _, _, -, -, rfl⟩ := relayDmaReadWords_spec fires
  exact ⟨range.free, range.ordered, range.left⟩

theorem InRange.drained (range : m.InRange) (taken : Drained m m' tag word) : m'.InRange :=
  ⟨taken.free ▸ range.free, fun chunk member => range.ordered chunk (taken.chunks member),
    taken.left ▸ range.left⟩

theorem InRange.takeWord (range : m.InRange) (fires : m.takeWord = some (word, m'))
    : m'.InRange := by
  obtain ⟨⟨_, _⟩, _, ⟨⟩⟩ := Option.bind_eq_some_iff.mp fires
  exact ⟨range.free, range.ordered, range.left⟩

-----------------------------------------------------------------------------------------
-- Room in the queues of the tags
-----------------------------------------------------------------------------------------

/-- Every word before the queues of the tags has room once the words before it are in theirs. -/
def Flows (m : ReadReorder n k) : Prop := Lanes.Unblocked 8 m.held m.transit m.drainOrder

theorem Flows.init : Flows (ReadReorder.init : ReadReorder n k) := Lanes.Unblocked.empty _ _ _

theorem Flows.initDmaTagR (flows : m.Flows) (fires : m.initDmaTagR = some m') : m'.Flows := by
  obtain ⟨_, _, -, -, -, rfl⟩ := initDmaTagR_spec fires
  exact flows

theorem Flows.sendChunk (flows : m.Flows) (fires : m.sendChunk words = some (tag, m'))
    : m'.Flows := by
  have later := sendChunk_drainOrder fires
  obtain ⟨_, _, -, -, rfl⟩ := sendChunk_spec fires
  unfold Flows
  rw [later]
  exact Lanes.Unblocked.request flows _

theorem Flows.getDMARead (flows : m.Flows) (fits : m.WordFits tag)
    (fires : m.getDMARead tag word = some m')
    : m'.Flows := by
  rcases getDMARead_cases fires with ⟨-, rfl⟩ | ⟨_, dmaReadWordsQ, lacks, -, added, rfl⟩
  case inl => exact flows
  case inr =>
    have arrived := Lanes.Unblocked.arrive flows (fits lacks)
    unfold Flows transit
    rw [added, List.map_append]
    exact arrived

theorem Flows.relayDmaReadWords (flows : m.Flows) (fires : m.relayDmaReadWords = some m')
    : m'.Flows := by
  obtain ⟨tag, word, dmaReadWordsQ, words, first, added, rfl⟩ := relayDmaReadWords_spec fires
  unfold Flows transit at flows
  rw [first, List.map_cons] at flows
  refine Lanes.Unblocked.relay flows ?_
  intro t
  by_cases mine : t = tag
  · simp [held, mine, added]
  · simp [held, mine]

theorem Flows.drained (flows : m.Flows) (taken : Drained m m' tag word) : m'.Flows := by
  unfold Flows at flows
  rw [taken.order] at flows
  have drained : Lanes.Unblocked 8 m'.held m.transit m'.drainOrder := by
    refine Lanes.Unblocked.drain flows ?_
    intro t
    by_cases mine : t = tag
    · simp [held, mine, taken.lane]
    · simp [held, mine, taken.others t mine]
  unfold Flows transit
  rw [taken.waiting]
  exact drained

theorem Flows.takeWord (flows : m.Flows) (fires : m.takeWord = some (word, m')) : m'.Flows := by
  obtain ⟨⟨_, _⟩, _, ⟨⟩⟩ := Option.bind_eq_some_iff.mp fires
  exact flows

/-- A full queue before which a word waits leaves the drain position with a word. -/
theorem Flows.drainsWhenFull (flows : m.Flows) : m.DrainsWhenFull := by
  rintro ⟨⟨tag, word⟩, first, full⟩
  obtain ⟨rest, items⟩ := Fifo.first_eq_some.mp first
  unfold Flows transit at flows
  rw [items, List.map_cons] at flows
  obtain ⟨next, later, order, some⟩ := Lanes.Unblocked.head flows (Nat.le_of_eq full.symm)
  refine ⟨next, ?_, List.ne_nil_of_length_pos some⟩
  rw [drainTag_eq_head, order]
  rfl

-----------------------------------------------------------------------------------------
-- Any rule
-----------------------------------------------------------------------------------------

/-- A step of the registers, or none; `arriving` is the tag of the word that it takes from the
interface.
-/
inductive Step (arriving : Option (BitVec 8)) (m m' : ReadReorder n k) : Prop where
  | same (same : m' = m)
  | initDmaTagR (fires : m.initDmaTagR = some m')
  | sendChunk {words tag : BitVec 8} (fires : m.sendChunk words = some (tag, m'))
  | getDMARead {tag : BitVec 8} {word : DMAWord} (arrives : arriving = some tag)
    (fires : m.getDMARead tag word = some m')
  | relayDmaReadWords (fires : m.relayDmaReadWords = some m')
  | startReorderRead (fires : m.startReorderRead = some m')
  | reorderRead (fires : m.reorderRead = some m')
  | takeWord {word : DMAWord} (fires : m.takeWord = some (word, m'))

variable {arriving : Option (BitVec 8)}

theorem Step.inRange (step : Step arriving m m') (wide : n ≤ 2 ^ k) (range : m.InRange)
    : m'.InRange := by
  cases step with
  | same same => exact same ▸ range
  | initDmaTagR fires => exact range.initDmaTagR fires
  | sendChunk fires => exact range.sendChunk fires
  | getDMARead _ fires => exact range.getDMARead fires
  | relayDmaReadWords fires => exact range.relayDmaReadWords fires
  | startReorderRead fires =>
      obtain ⟨_, _, taken⟩ := startReorderRead_drained wide range fires
      exact range.drained taken
  | reorderRead fires =>
      obtain ⟨_, _, taken⟩ := reorderRead_drained fires
      exact range.drained taken
  | takeWord fires => exact range.takeWord fires

theorem Step.flows (step : Step arriving m m') (wide : n ≤ 2 ^ k) (range : m.InRange)
    (fits : ∀ tag ∈ arriving, m.WordFits tag) (flows : m.Flows)
    : m'.Flows := by
  cases step with
  | same same => exact same ▸ flows
  | initDmaTagR fires => exact flows.initDmaTagR fires
  | sendChunk fires => exact flows.sendChunk fires
  | getDMARead arrives fires => exact flows.getDMARead (fits _ arrives) fires
  | relayDmaReadWords fires => exact flows.relayDmaReadWords fires
  | startReorderRead fires =>
      obtain ⟨_, _, taken⟩ := startReorderRead_drained wide range fires
      exact flows.drained taken
  | reorderRead fires =>
      obtain ⟨_, _, taken⟩ := reorderRead_drained fires
      exact flows.drained taken
  | takeWord fires => exact flows.takeWord fires

end ReadReorder

end BluespecPcie
