import BluespecPcie.Bluespec.Fifo
import BluespecPcie.Bluespec.Lanes
import BluespecPcie.Dma.TaggedReads

/-! The recycled read tags that DMAReadHelper.bsv and DRAMHostDMA.bsv share: a word that returns
under a tag waits in the queue of its tag until the words that were requested before it are out.
-/

namespace BluespecPcie

open Bluespec

-----------------------------------------------------------------------------------------
-- The registers and the rules
-----------------------------------------------------------------------------------------

/-- The registers of the read path. `n` is `dmaReadTagCount`, and `curReadTag` has `k` bits. -/
structure ReadReorder (n k : Nat) where
  dmaReadFreeTagQ : Fifo (BitVec 8) n
  vDmaReadTagWordsLeft : BitVec 8 → BitVec 8
  vDmaReadWords : BitVec 8 → Fifo DMAWord 8
  dmaReadTagOrderQ : Fifo (BitVec 8 × BitVec 8) n
  dmaReadTagInit : BitVec 8
  dmaReadTagInitDone : Bool
  dmaReadWordsQ : Fifo (BitVec 8 × DMAWord) 2
  dmaReadWordsQ2 : Fifo DMAWord 16
  curReadTag : BitVec k
  curReadTagCnt : BitVec 8

namespace ReadReorder

variable {n k : Nat}

/-- The registers after reset. -/
def init : ReadReorder n k where
  dmaReadFreeTagQ := .empty
  vDmaReadTagWordsLeft _ := 0
  vDmaReadWords _ := .empty
  dmaReadTagOrderQ := .empty
  dmaReadTagInit := 0
  dmaReadTagInitDone := false
  dmaReadWordsQ := .empty
  dmaReadWordsQ2 := .empty
  curReadTag := 0
  curReadTagCnt := 0

def initDmaTagR (m : ReadReorder n k) : Option (ReadReorder n k) :=
  if m.dmaReadTagInit < BitVec.ofNat 8 n then do
    let dmaReadFreeTagQ ← m.dmaReadFreeTagQ.enq m.dmaReadTagInit
    return { m with
      dmaReadTagInit := m.dmaReadTagInit + 1
      dmaReadFreeTagQ
      dmaReadTagInitDone :=
        if BitVec.ofNat 8 n ≤ m.dmaReadTagInit + 1 then true else m.dmaReadTagInitDone }
  else none

/-- What `sendDMARead` does for a chunk of `words`, with the tag that it takes. -/
def sendChunk (m : ReadReorder n k) (words : BitVec 8) : Option (BitVec 8 × ReadReorder n k) := do
  let (freeTag, dmaReadFreeTagQ) ← m.dmaReadFreeTagQ.deq
  let dmaReadTagOrderQ ← m.dmaReadTagOrderQ.enq (freeTag, words)
  return (freeTag, { m with
    dmaReadFreeTagQ
    vDmaReadTagWordsLeft := Function.update m.vDmaReadTagWordsLeft freeTag words
    dmaReadTagOrderQ })

/-- A word that returns. Its tag is free again with its last word. -/
def getDMARead (m : ReadReorder n k) (tag : BitVec 8) (word : DMAWord)
    : Option (ReadReorder n k) :=
  if m.dmaReadTagInitDone = true then
    if m.vDmaReadTagWordsLeft tag = 1 then do
      let dmaReadFreeTagQ ← m.dmaReadFreeTagQ.enq tag
      let dmaReadWordsQ ← m.dmaReadWordsQ.enq (tag, word)
      return { m with
        vDmaReadTagWordsLeft := Function.update m.vDmaReadTagWordsLeft tag 0
        dmaReadFreeTagQ
        dmaReadWordsQ }
    else if m.vDmaReadTagWordsLeft tag = 0 then some m
    else do
      let dmaReadWordsQ ← m.dmaReadWordsQ.enq (tag, word)
      return { m with
        vDmaReadTagWordsLeft :=
          Function.update m.vDmaReadTagWordsLeft tag (m.vDmaReadTagWordsLeft tag - 1)
        dmaReadWordsQ }
  else none

def relayDmaReadWords (m : ReadReorder n k) : Option (ReadReorder n k) := do
  let ((tag, word), dmaReadWordsQ) ← m.dmaReadWordsQ.deq
  let words ← (m.vDmaReadWords tag).enq word
  return { m with
    dmaReadWordsQ
    vDmaReadWords := Function.update m.vDmaReadWords tag words }

/-- The first word of the oldest chunk. -/
def startReorderRead (m : ReadReorder n k) : Option (ReadReorder n k) :=
  if m.curReadTagCnt = 0 then do
    let ((tag, cnt), dmaReadTagOrderQ) ← m.dmaReadTagOrderQ.deq
    let (word, words) ← (m.vDmaReadWords tag).deq
    let dmaReadWordsQ2 ← m.dmaReadWordsQ2.enq word
    return { m with
      dmaReadTagOrderQ
      curReadTag := tag.setWidth k
      curReadTagCnt := cnt - 1
      dmaReadWordsQ2
      vDmaReadWords := Function.update m.vDmaReadWords tag words }
  else none

/-- `curReadTag` as an index. -/
def curTag (m : ReadReorder n k) : BitVec 8 := m.curReadTag.setWidth 8

/-- The other words of that chunk. -/
def reorderRead (m : ReadReorder n k) : Option (ReadReorder n k) :=
  if 0 < m.curReadTagCnt then do
    let (word, words) ← (m.vDmaReadWords m.curTag).deq
    let dmaReadWordsQ2 ← m.dmaReadWordsQ2.enq word
    return { m with
      curReadTagCnt := m.curReadTagCnt - 1
      dmaReadWordsQ2
      vDmaReadWords := Function.update m.vDmaReadWords m.curTag words }
  else none

/-- The oldest word that is in order again. -/
def takeWord (m : ReadReorder n k) : Option (DMAWord × ReadReorder n k) := do
  let (word, dmaReadWordsQ2) ← m.dmaReadWordsQ2.deq
  return (word, { m with dmaReadWordsQ2 })

-----------------------------------------------------------------------------------------
-- The order in which words are taken out
-----------------------------------------------------------------------------------------

/-- The tags of the words that are to be taken out, in order. A chunk of no words counts as 256, as
`curReadTagCnt` becomes 255 with its first word.
-/
def drainOrder (m : ReadReorder n k) : List (BitVec 8) :=
  List.replicate m.curReadTagCnt.toNat m.curTag
    ++ m.dmaReadTagOrderQ.items.flatMap
        (fun chunk => List.replicate ((chunk.2 - 1).toNat + 1) chunk.1)

/-- The tag at the drain position: `curReadTag`, or the head of `dmaReadTagOrderQ`. -/
def drainTag (m : ReadReorder n k) : Option (BitVec 8) :=
  if 0 < m.curReadTagCnt then some m.curTag else m.dmaReadTagOrderQ.first.map Prod.fst

/-- `relayDmaReadWords` cannot fire, for the queue of the tag is full. -/
def RelayFull (m : ReadReorder n k) : Prop :=
  ∃ d, m.dmaReadWordsQ.first = some d ∧ (m.vDmaReadWords d.1).items.length = 8

/-- While `relayDmaReadWords` waits for a full queue, the tag at the drain position has a word. -/
def DrainsWhenFull (m : ReadReorder n k) : Prop :=
  m.RelayFull → ∃ tag, m.drainTag = some tag ∧ (m.vDmaReadWords tag).items ≠ []

/-- The tags of the words before the queues of the tags. -/
def transit (m : ReadReorder n k) : List (BitVec 8) := m.dmaReadWordsQ.items.map Prod.fst

/-- How many words of a tag are in its queue. -/
def held (m : ReadReorder n k) (tag : BitVec 8) : Nat := (m.vDmaReadWords tag).items.length

/-- The queue of the tag has room for one more word of it, now or once words that have arrived are
taken out in their order.
-/
def WordFits (m : ReadReorder n k) (tag : BitVec 8) : Prop :=
  m.vDmaReadTagWordsLeft tag ≠ 0
  → Lanes.RoomFor 8 (fun t => m.held t + m.transit.count t) m.drainOrder tag

instance (m : ReadReorder n k) (tag : BitVec 8) : Decidable (m.WordFits tag) := by
  unfold WordFits
  infer_instance

/-- The tags in use are below `n`. -/
structure InRange (m : ReadReorder n k) : Prop where
  free : ∀ tag ∈ m.dmaReadFreeTagQ.items, tag.toNat < n
  ordered : ∀ chunk ∈ m.dmaReadTagOrderQ.items, chunk.1.toNat < n
  left : ∀ tag, m.vDmaReadTagWordsLeft tag ≠ 0 → tag.toNat < n

/-- A word taken out: it is the oldest of the tag that was due. -/
structure Drained (m m' : ReadReorder n k) (tag : BitVec 8) (word : DMAWord) : Prop where
  order : m.drainOrder = tag :: m'.drainOrder
  lane : (m.vDmaReadWords tag).items = word :: (m'.vDmaReadWords tag).items
  others : ∀ t, t ≠ tag → m'.vDmaReadWords t = m.vDmaReadWords t
  output : m'.dmaReadWordsQ2.items = m.dmaReadWordsQ2.items ++ [word]
  free : m'.dmaReadFreeTagQ = m.dmaReadFreeTagQ
  left : m'.vDmaReadTagWordsLeft = m.vDmaReadTagWordsLeft
  counted : m'.dmaReadTagInit = m.dmaReadTagInit
  initialised : m'.dmaReadTagInitDone = m.dmaReadTagInitDone
  waiting : m'.dmaReadWordsQ = m.dmaReadWordsQ
  chunks : m'.dmaReadTagOrderQ.items ⊆ m.dmaReadTagOrderQ.items

variable {m m' : ReadReorder n k} {tag words : BitVec 8} {word : DMAWord}

/-- The next word of the chunk in progress. -/
theorem drainOrder_of_cnt (some : 0 < m.curReadTagCnt)
    : m.drainOrder = m.curTag
      :: (List.replicate (m.curReadTagCnt - 1).toNat m.curTag
        ++ m.dmaReadTagOrderQ.items.flatMap
            (fun chunk => List.replicate ((chunk.2 - 1).toNat + 1) chunk.1)) := by
  have count : m.curReadTagCnt.toNat = (m.curReadTagCnt - 1).toNat + 1 := by bv_omega
  rw [drainOrder, count, List.replicate_succ, List.cons_append]

/-- The first word of the next chunk. -/
theorem drainOrder_of_chunk {chunk : BitVec 8 × BitVec 8} {rest : List (BitVec 8 × BitVec 8)}
    (idle : m.curReadTagCnt = 0) (next : m.dmaReadTagOrderQ.items = chunk :: rest)
    : m.drainOrder = chunk.1
      :: (List.replicate (chunk.2 - 1).toNat chunk.1
        ++ rest.flatMap (fun later => List.replicate ((later.2 - 1).toNat + 1) later.1)) := by
  rw [drainOrder, idle, next, List.flatMap_cons, List.replicate_succ]
  rfl

/-- The tag at the drain position is the first in the order. -/
theorem drainTag_eq_head (m : ReadReorder n k) : m.drainTag = m.drainOrder.head? := by
  unfold drainTag
  split
  next some =>
    rw [drainOrder_of_cnt some]
    rfl
  next idle =>
    have idle : m.curReadTagCnt = 0 := by bv_omega
    cases chunks : m.dmaReadTagOrderQ.items with
    | nil => simp [Fifo.first, chunks, drainOrder, idle]
    | cons chunk rest =>
        rw [drainOrder_of_chunk idle chunks, Fifo.first, chunks]
        rfl

/-- A tag below `n` is read back from `curReadTag`. -/
theorem setWidth_curReadTag (wide : n ≤ 2 ^ k) (below : tag.toNat < n)
    : (tag.setWidth k).setWidth 8 = tag := by
  apply BitVec.eq_of_toNat_eq
  have fits : tag.toNat % 2 ^ k = tag.toNat :=
    Nat.mod_eq_of_lt (Nat.lt_of_lt_of_le below wide)
  rw [BitVec.toNat_setWidth, BitVec.toNat_setWidth, fits, Nat.mod_eq_of_lt tag.isLt]

/-- The first word of the oldest chunk is taken out. -/
theorem startReorderRead_drained (wide : n ≤ 2 ^ k) (range : m.InRange)
    (fires : m.startReorderRead = some m')
    : ∃ tag word, Drained m m' tag word := by
  unfold startReorderRead at fires
  split at fires
  next idle =>
    obtain ⟨⟨⟨tag, cnt⟩, dmaReadTagOrderQ⟩, first, fires⟩ := Option.bind_eq_some_iff.mp fires
    obtain ⟨⟨word, words⟩, taken, fires⟩ := Option.bind_eq_some_iff.mp fires
    obtain ⟨dmaReadWordsQ2, added, ⟨⟩⟩ := Option.bind_eq_some_iff.mp fires
    have chunks := Fifo.deq_eq_some.mp first
    have below : tag.toNat < n := range.ordered (tag, cnt) (by simp [chunks])
    refine ⟨tag, word, ⟨?_, ?_, ?_, (Fifo.enq_eq_some.mp added).2, rfl, rfl, rfl, rfl, rfl, ?_⟩⟩
    · rw [drainOrder_of_chunk idle chunks]
      simp only [drainOrder, curTag, setWidth_curReadTag wide below]
    · simpa using Fifo.deq_eq_some.mp taken
    · intro t other
      exact Function.update_of_ne other _ _
    · rw [chunks]
      exact List.subset_cons_self _ _
  next => cases fires

/-- Another word of the chunk in progress is taken out. -/
theorem reorderRead_drained (fires : m.reorderRead = some m')
    : ∃ tag word, Drained m m' tag word := by
  unfold reorderRead at fires
  split at fires
  next more =>
    obtain ⟨⟨word, words⟩, taken, fires⟩ := Option.bind_eq_some_iff.mp fires
    obtain ⟨dmaReadWordsQ2, added, ⟨⟩⟩ := Option.bind_eq_some_iff.mp fires
    refine ⟨m.curTag, word, ⟨?_, ?_, ?_, (Fifo.enq_eq_some.mp added).2, rfl, rfl, rfl, rfl, rfl,
      List.Subset.refl _⟩⟩
    · rw [drainOrder_of_cnt more]
      rfl
    · simpa using Fifo.deq_eq_some.mp taken
    · intro t other
      exact Function.update_of_ne other _ _
  next => cases fires

/-- A chunk takes the oldest free tag and is due after all others. -/
theorem sendChunk_spec (fires : m.sendChunk words = some (tag, m'))
    : ∃ dmaReadFreeTagQ dmaReadTagOrderQ,
        m.dmaReadFreeTagQ.items = tag :: dmaReadFreeTagQ.items
        ∧ dmaReadTagOrderQ.items = m.dmaReadTagOrderQ.items ++ [(tag, words)]
        ∧ m' = { m with
            dmaReadFreeTagQ
            vDmaReadTagWordsLeft := Function.update m.vDmaReadTagWordsLeft tag words
            dmaReadTagOrderQ } := by
  obtain ⟨⟨freeTag, dmaReadFreeTagQ⟩, first, fires⟩ := Option.bind_eq_some_iff.mp fires
  obtain ⟨dmaReadTagOrderQ, added, ⟨⟩⟩ := Option.bind_eq_some_iff.mp fires
  exact ⟨dmaReadFreeTagQ, dmaReadTagOrderQ, Fifo.deq_eq_some.mp first,
    (Fifo.enq_eq_some.mp added).2, rfl⟩

/-- The order after a chunk. -/
theorem sendChunk_drainOrder (fires : m.sendChunk words = some (tag, m'))
    : m'.drainOrder = m.drainOrder ++ List.replicate ((words - 1).toNat + 1) tag := by
  obtain ⟨_, dmaReadTagOrderQ, -, added, rfl⟩ := sendChunk_spec fires
  simp only [drainOrder, added, curTag, List.flatMap_append, List.flatMap_cons, List.flatMap_nil,
    List.append_nil, List.append_assoc]

/-- What a returned word does: one that its tag lacks is put in line, others are dropped. -/
theorem getDMARead_cases (fires : m.getDMARead tag word = some m')
    : (m.vDmaReadTagWordsLeft tag = 0 ∧ m' = m)
      ∨ ∃ dmaReadFreeTagQ dmaReadWordsQ,
          m.vDmaReadTagWordsLeft tag ≠ 0
          ∧ dmaReadFreeTagQ.items
            = m.dmaReadFreeTagQ.items
              ++ (if m.vDmaReadTagWordsLeft tag = 1 then [tag] else [])
          ∧ dmaReadWordsQ.items = m.dmaReadWordsQ.items ++ [(tag, word)]
          ∧ m' = { m with
              vDmaReadTagWordsLeft :=
                Function.update m.vDmaReadTagWordsLeft tag (m.vDmaReadTagWordsLeft tag - 1)
              dmaReadFreeTagQ
              dmaReadWordsQ } := by
  unfold getDMARead at fires
  split at fires
  next =>
    split at fires
    next last =>
      obtain ⟨dmaReadFreeTagQ, freed, fires⟩ := Option.bind_eq_some_iff.mp fires
      obtain ⟨dmaReadWordsQ, added, ⟨⟩⟩ := Option.bind_eq_some_iff.mp fires
      refine .inr ⟨dmaReadFreeTagQ, dmaReadWordsQ, by simp [last], ?_,
        (Fifo.enq_eq_some.mp added).2, by simp [last]⟩
      rw [if_pos last, (Fifo.enq_eq_some.mp freed).2]
    next notLast =>
      split at fires
      next none =>
        cases fires
        exact .inl ⟨none, rfl⟩
      next more =>
        obtain ⟨dmaReadWordsQ, added, ⟨⟩⟩ := Option.bind_eq_some_iff.mp fires
        exact .inr ⟨m.dmaReadFreeTagQ, dmaReadWordsQ, more, by
            rw [if_neg notLast, List.append_nil],
          (Fifo.enq_eq_some.mp added).2, rfl⟩
  next => cases fires

/-- The head of `dmaReadWordsQ` goes to the queue of its tag. -/
theorem relayDmaReadWords_spec (fires : m.relayDmaReadWords = some m')
    : ∃ tag word dmaReadWordsQ words,
        m.dmaReadWordsQ.items = (tag, word) :: dmaReadWordsQ.items
        ∧ words.items = (m.vDmaReadWords tag).items ++ [word]
        ∧ m' = { m with
            dmaReadWordsQ
            vDmaReadWords := Function.update m.vDmaReadWords tag words } := by
  obtain ⟨⟨⟨tag, word⟩, dmaReadWordsQ⟩, first, fires⟩ := Option.bind_eq_some_iff.mp fires
  obtain ⟨words, added, ⟨⟩⟩ := Option.bind_eq_some_iff.mp fires
  exact ⟨tag, word, dmaReadWordsQ, words, Fifo.deq_eq_some.mp first,
    (Fifo.enq_eq_some.mp added).2, rfl⟩

/-- A further tag is put into use, free. -/
theorem initDmaTagR_spec (fires : m.initDmaTagR = some m')
    : ∃ dmaReadFreeTagQ dmaReadTagInitDone,
        m.dmaReadTagInit < BitVec.ofNat 8 n
        ∧ dmaReadFreeTagQ.items = m.dmaReadFreeTagQ.items ++ [m.dmaReadTagInit]
        ∧ dmaReadTagInitDone
          = (if BitVec.ofNat 8 n ≤ m.dmaReadTagInit + 1 then true else m.dmaReadTagInitDone)
        ∧ m' = { m with
            dmaReadTagInit := m.dmaReadTagInit + 1
            dmaReadFreeTagQ
            dmaReadTagInitDone } := by
  unfold initDmaTagR at fires
  split at fires
  next below =>
    obtain ⟨dmaReadFreeTagQ, added, ⟨⟩⟩ := Option.bind_eq_some_iff.mp fires
    exact ⟨dmaReadFreeTagQ, _, below, (Fifo.enq_eq_some.mp added).2, rfl, rfl⟩
  next => cases fires

end ReadReorder

end BluespecPcie
