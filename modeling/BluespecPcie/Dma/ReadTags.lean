import BluespecPcie.Dma.ReadLanes

/-! The read path of DMAReadHelper.bsv and DRAMHostDMA.bsv over an interface that returns what it
owes: where the read tags are, and that words are taken out in the order of the requests.
-/

namespace BluespecPcie

open Bluespec

namespace ReadReorder

variable {n k : Nat} {mem : BitVec 32 → DMAWord} {m m' : ReadReorder n k}
variable {owes : BitVec 8 → List (BitVec 32)} {tag words : BitVec 8} {word : DMAWord}

-----------------------------------------------------------------------------------------
-- The account of the tags
-----------------------------------------------------------------------------------------

/-- Each tag in use is free or owed the words that `vDmaReadTagWordsLeft` counts. -/
structure TagsKept (m : ReadReorder n k) (owes : BitVec 8 → List (BitVec 32)) : Prop where
  left : ∀ tag, (m.vDmaReadTagWordsLeft tag).toNat = (owes tag).length
  free : ∀ tag ∈ m.dmaReadFreeTagQ.items, owes tag = []
  differ : m.dmaReadFreeTagQ.items.Nodup
  fresh : ∀ tag, m.dmaReadTagInit ≤ tag → tag ∉ m.dmaReadFreeTagQ.items ∧ owes tag = []
  kept : ∀ tag < m.dmaReadTagInit, tag ∈ m.dmaReadFreeTagQ.items ∨ owes tag ≠ []
  counted : m.dmaReadTagInit.toNat ≤ n
  initialised : m.dmaReadTagInitDone = true ↔ m.dmaReadTagInit.toNat = n

theorem TagsKept.init (nonzero : 0 < n) (none : ∀ tag, owes tag = [])
    : TagsKept (ReadReorder.init : ReadReorder n k) owes where
  left tag := by rw [none tag]; rfl
  free _ member := by cases member
  differ := List.nodup_nil
  fresh tag _ := ⟨nofun, none tag⟩
  kept tag below := absurd below (BitVec.not_lt_zero)
  counted := Nat.zero_le _
  initialised := ⟨nofun, fun zero => absurd zero (by change ¬0 = n; omega)⟩

/-- A further tag is put into use, free. -/
theorem TagsKept.initDmaTagR (small : n < 256) (tags : TagsKept m owes)
    (fires : m.initDmaTagR = some m')
    : TagsKept m' owes := by
  obtain ⟨left, free, differ, fresh, kept, counted, initialised⟩ := tags
  obtain ⟨dmaReadFreeTagQ, done, below, added, isDone, rfl⟩ := initDmaTagR_spec fires
  obtain ⟨unused, none⟩ := fresh m.dmaReadTagInit (BitVec.le_refl _)
  have count : (BitVec.ofNat 8 n).toNat = n := by
    rw [BitVec.toNat_ofNat, Nat.mod_eq_of_lt small]
  have below : m.dmaReadTagInit.toNat < n := by
    rwa [BitVec.lt_def, count] at below
  have next : (m.dmaReadTagInit + 1).toNat = m.dmaReadTagInit.toNat + 1 := by bv_omega
  refine ⟨left, ?_, ?_, ?_, ?_, ?_, ?_⟩
  · intro tag member
    rcases List.mem_append.mp (added ▸ member) with old | new
    case inl => exact free tag old
    case inr =>
      obtain rfl := List.mem_singleton.mp new
      exact none
  · rw [added, List.nodup_append]
    refine ⟨differ, List.nodup_singleton _, ?_⟩
    intro old member new isNew same
    obtain rfl := List.mem_singleton.mp isNew
    exact unused (same ▸ member)
  · intro tag above
    have above : m.dmaReadTagInit.toNat + 1 ≤ tag.toNat := next ▸ BitVec.le_def.mp above
    obtain ⟨notFree, none⟩ := fresh tag (BitVec.le_def.mpr (by omega))
    refine ⟨?_, none⟩
    intro member
    rcases List.mem_append.mp (added ▸ member) with old | new
    case inl => exact notFree old
    case inr =>
      obtain rfl := List.mem_singleton.mp new
      omega
  · intro tag inUse
    have inUse : tag.toNat < m.dmaReadTagInit.toNat + 1 := next ▸ BitVec.lt_def.mp inUse
    change tag ∈ dmaReadFreeTagQ.items ∨ owes tag ≠ []
    rw [added, List.mem_append, List.mem_singleton]
    by_cases new : tag = m.dmaReadTagInit
    case pos => exact .inl (.inr new)
    case neg =>
      have different : tag.toNat ≠ m.dmaReadTagInit.toNat :=
        fun same => new (BitVec.eq_of_toNat_eq same)
      rcases kept tag (BitVec.lt_def.mpr (by omega)) with old | owed
      · exact .inl (.inl old)
      · exact .inr owed
  · change (m.dmaReadTagInit + 1).toNat ≤ n
    omega
  · change done = true ↔ (m.dmaReadTagInit + 1).toNat = n
    rw [isDone, next]
    by_cases last : BitVec.ofNat 8 n ≤ m.dmaReadTagInit + 1
    · have reached : n ≤ m.dmaReadTagInit.toNat + 1 := by
        rw [BitVec.le_def, count, next] at last
        exact last
      simp only [last, if_true, true_iff]
      omega
    · have before : ¬n ≤ m.dmaReadTagInit.toNat + 1 := by
        rw [BitVec.le_def, count, next] at last
        exact last
      simp only [last, if_false, initialised]
      omega

/-- A chunk with words takes its tag out of the free ones. -/
theorem TagsKept.sendChunk (tags : TagsKept m owes) (nonzero : words ≠ 0) (addr : BitVec 32)
    (fires : m.sendChunk words = some (tag, m'))
    : owes tag = []
      ∧ TagsKept m'
        (Function.update owes tag (owes tag ++ TaggedDma.wordAddrs addr words.toNat)) := by
  obtain ⟨left, free, differ, fresh, kept, counted, initialised⟩ := tags
  obtain ⟨dmaReadFreeTagQ, _, first, -, rfl⟩ := sendChunk_spec fires
  rw [first] at differ
  obtain ⟨others, differ⟩ := List.nodup_cons.mp differ
  have none : owes tag = [] := free tag (by simp [first])
  refine ⟨none, ?_, ?_, differ, ?_, ?_, counted, initialised⟩
  · intro other
    by_cases mine : other = tag
    · simp [mine, none]
    · simp [mine, left other]
  · intro other member
    have different : other ≠ tag := fun same => others (same ▸ member)
    rw [Function.update_of_ne different]
    exact free other (by simp [first, member])
  · intro other above
    obtain ⟨notFree, owed⟩ := fresh other above
    rw [first, List.mem_cons, not_or] at notFree
    rw [Function.update_of_ne notFree.1]
    exact ⟨notFree.2, owed⟩
  · intro other inUse
    by_cases mine : other = tag
    case pos =>
      refine .inr ?_
      rw [mine, Function.update_self, none, List.nil_append]
      refine List.ne_nil_of_length_pos ?_
      rw [TaggedDma.length_wordAddrs]
      have positive : words.toNat ≠ 0 := fun zero => nonzero (BitVec.eq_of_toNat_eq zero)
      omega
    case neg =>
      rw [Function.update_of_ne mine]
      rcases kept other inUse with old | owed
      · rw [first, List.mem_cons] at old
        exact .inl (old.resolve_left mine)
      · exact .inr owed

/-- A word that arrives was owed, and with the last of them its tag is free. -/
theorem TagsKept.getDMARead (tags : TagsKept m owes) {addr : BitVec 32}
    {rest : List (BitVec 32)} (owed : owes tag = addr :: rest)
    (fires : m.getDMARead tag word = some m')
    : TagsKept m' (Function.update owes tag rest) := by
  obtain ⟨left, free, differ, fresh, kept, counted, initialised⟩ := tags
  have count := left tag
  rw [owed, List.length_cons] at count
  rcases getDMARead_cases fires with ⟨none, -⟩ | ⟨dmaReadFreeTagQ, _, lacks, freed, -, rfl⟩
  case inl =>
    rw [none] at count
    cases count
  case inr =>
    have notFree : tag ∉ m.dmaReadFreeTagQ.items := by
      intro member
      have none := free tag member
      rw [owed] at none
      cases none
    have last : m.vDmaReadTagWordsLeft tag = 1 ↔ rest = [] := by
      rw [← List.length_eq_zero_iff]
      constructor
      · intro one
        rw [one] at count
        change 1 = rest.length + 1 at count
        omega
      · intro none
        apply BitVec.eq_of_toNat_eq
        rw [count, none]
        rfl
    have isFree
        : ∀ other, other ∈ dmaReadFreeTagQ.items
            ↔ other ∈ m.dmaReadFreeTagQ.items ∨ (other = tag ∧ rest = []) := by
      intro other
      rw [freed, List.mem_append]
      by_cases done : m.vDmaReadTagWordsLeft tag = 1
      · simp [done, last.mp done]
      · rw [if_neg done]
        simp [mt last.mpr done]
    refine ⟨?_, ?_, ?_, ?_, ?_, counted, initialised⟩
    · intro other
      by_cases mine : other = tag
      · subst mine
        rw [Function.update_self]
        change (Function.update m.vDmaReadTagWordsLeft other _ other).toNat = rest.length
        rw [Function.update_self]
        bv_omega
      · simp [mine, left other]
    · intro other member
      by_cases mine : other = tag
      case pos =>
        rw [mine, Function.update_self]
        rcases (isFree other).mp member with old | ⟨-, none⟩
        · exact absurd (mine ▸ old) notFree
        · exact none
      case neg =>
        rw [Function.update_of_ne mine]
        rcases (isFree other).mp member with old | ⟨same, -⟩
        · exact free other old
        · exact absurd same mine
    · change dmaReadFreeTagQ.items.Nodup
      rw [freed]
      split
      next =>
        rw [List.nodup_append]
        refine ⟨differ, List.nodup_singleton _, ?_⟩
        intro old member new isNew same
        obtain rfl := List.mem_singleton.mp isNew
        exact notFree (same ▸ member)
      next => rwa [List.append_nil]
    · intro other above
      obtain ⟨unused, none⟩ := fresh other above
      have different : other ≠ tag := by
        rintro rfl
        rw [owed] at none
        cases none
      rw [Function.update_of_ne different]
      refine ⟨?_, none⟩
      intro member
      rcases (isFree other).mp member with old | ⟨same, -⟩
      · exact unused old
      · exact different same
    · intro other inUse
      by_cases mine : other = tag
      case pos =>
        subst mine
        rw [Function.update_self]
        by_cases none : rest = []
        · exact .inl ((isFree other).mpr (.inr ⟨rfl, none⟩))
        · exact .inr none
      case neg =>
        rw [Function.update_of_ne mine]
        rcases kept other inUse with old | more
        · exact .inl ((isFree other).mpr (.inl old))
        · exact .inr more

-----------------------------------------------------------------------------------------
-- Words in line
-----------------------------------------------------------------------------------------

/-- The words that are due, and that they are taken out in the order of their requests. -/
structure Lined (mem : BitVec 32 → DMAWord) (m : ReadReorder n k)
    (owes : BitVec 8 → List (BitVec 32)) (due : List (BitVec 8 × DMAWord)) : Prop where
  line
    : Lanes.InLine (fun tag => (m.vDmaReadWords tag).items) m.dmaReadWordsQ.items
        (fun tag => (owes tag).map mem) due
  order : due.map Prod.fst = m.drainOrder
  tags : TagsKept m owes

variable {due : List (BitVec 8 × DMAWord)}

theorem Lined.init (nonzero : 0 < n) (none : ∀ tag, owes tag = [])
    : Lined mem (ReadReorder.init : ReadReorder n k) owes [] := by
  refine ⟨?_, rfl, .init nonzero none⟩
  intro tag
  change [] ++ [] ++ (owes tag).map mem = []
  rw [none tag]
  rfl

theorem Lined.initDmaTagR (small : n < 256) (lined : Lined mem m owes due)
    (fires : m.initDmaTagR = some m')
    : Lined mem m' owes due := by
  have tags := lined.tags.initDmaTagR small fires
  obtain ⟨_, _, -, -, -, rfl⟩ := initDmaTagR_spec fires
  exact ⟨lined.line, lined.order, tags⟩

/-- The words of a chunk are due behind all others. -/
theorem Lined.sendChunk (lined : Lined mem m owes due) (nonzero : words ≠ 0) (addr : BitVec 32)
    (fires : m.sendChunk words = some (tag, m'))
    : Lined mem m'
        (Function.update owes tag (owes tag ++ TaggedDma.wordAddrs addr words.toNat))
        (due ++ ((TaggedDma.wordAddrs addr words.toNat).map mem).map (tag, ·)) := by
  obtain ⟨-, tags⟩ := lined.tags.sendChunk nonzero addr fires
  have order := sendChunk_drainOrder fires
  obtain ⟨_, _, -, -, rfl⟩ := sendChunk_spec fires
  refine ⟨?_, ?_, tags⟩
  · have line := lined.line.request tag ((TaggedDma.wordAddrs addr words.toNat).map mem)
    intro other
    rw [← line other]
    by_cases mine : other = tag
    · simp [mine]
    · simp [mine]
  · have count : (words - 1).toNat + 1 = words.toNat := by bv_omega
    rw [order, ← lined.order, List.map_append, List.map_map, count]
    congr 1
    refine List.eq_replicate_iff.mpr ⟨by simp, ?_⟩
    intro other member
    obtain ⟨_, -, rfl⟩ := List.mem_map.mp member
    rfl

/-- A word that was owed is put in line. -/
theorem Lined.getDMARead (lined : Lined mem m owes due) {addr : BitVec 32}
    {rest : List (BitVec 32)} (owed : owes tag = addr :: rest)
    (fires : m.getDMARead tag (mem addr) = some m')
    : Lined mem m' (Function.update owes tag rest) due := by
  have tags := lined.tags.getDMARead owed fires
  have count := lined.tags.left tag
  rw [owed, List.length_cons] at count
  rcases getDMARead_cases fires with ⟨none, -⟩ | ⟨_, dmaReadWordsQ, -, -, added, rfl⟩
  case inl =>
    rw [none] at count
    cases count
  case inr =>
    refine ⟨?_, lined.order, tags⟩
    have line := lined.line.arrive (show (owes tag).map mem = mem addr :: rest.map mem by
      rw [owed, List.map_cons])
    intro other
    rw [← line other, added]
    by_cases mine : other = tag
    · simp [mine]
    · simp [mine]

theorem Lined.relayDmaReadWords (lined : Lined mem m owes due)
    (fires : m.relayDmaReadWords = some m')
    : Lined mem m' owes due := by
  obtain ⟨left, free, differ, fresh, kept, counted, initialised⟩ := lined.tags
  obtain ⟨tag, word, dmaReadWordsQ, words, first, added, rfl⟩ := relayDmaReadWords_spec fires
  refine ⟨?_, lined.order, ⟨left, free, differ, fresh, kept, counted, initialised⟩⟩
  have line := lined.line
  rw [first] at line
  have relayed := line.relay
  intro other
  rw [← relayed other]
  by_cases mine : other = tag
  · simp [mine, added]
  · simp [mine]

/-- What is taken out is the word that is due. -/
theorem Lined.drained (lined : Lined mem m owes due) (taken : Drained m m' tag word)
    : ∃ rest, due = (tag, word) :: rest ∧ Lined mem m' owes rest := by
  obtain ⟨left, free, differ, fresh, kept, counted, initialised⟩ := lined.tags
  have order := lined.order
  rw [taken.order] at order
  obtain ⟨⟨first, next⟩, rest, rfl, isFirst, later⟩ := List.map_eq_cons_iff.mp order
  obtain rfl : first = tag := isFirst
  obtain ⟨rfl, line⟩ := lined.line.drain taken.lane
  refine ⟨rest, rfl, ?_, later, ?_⟩
  · intro other
    rw [← line other, taken.waiting]
    by_cases mine : other = first
    · simp [mine]
    · simp [mine, taken.others other mine]
  · rw [← taken.left] at left
    rw [← taken.free] at free differ fresh kept
    rw [← taken.counted] at fresh kept counted initialised
    rw [← taken.initialised] at initialised
    exact ⟨left, free, differ, fresh, kept, counted, initialised⟩

theorem Lined.takeWord (lined : Lined mem m owes due) (fires : m.takeWord = some (word, m'))
    : Lined mem m' owes due := by
  obtain ⟨left, free, differ, fresh, kept, counted, initialised⟩ := lined.tags
  obtain ⟨⟨_, _⟩, _, ⟨⟩⟩ := Option.bind_eq_some_iff.mp fires
  exact ⟨lined.line, lined.order, ⟨left, free, differ, fresh, kept, counted, initialised⟩⟩

-----------------------------------------------------------------------------------------
-- Nothing left to do
-----------------------------------------------------------------------------------------

/-- With all words returned and room in `dmaReadWordsQ2`, some rule can fire while a word is due. -/
theorem Lined.nothing_due (lined : Lined mem m owes due) (flows : m.Flows)
    (room : m.dmaReadWordsQ2.items.length < 16) (returned : ∀ tag, owes tag = [])
    (relayed : m.relayDmaReadWords = none) (notStarted : m.startReorderRead = none)
    (notContinued : m.reorderRead = none)
    : due = [] := by
  have noneHeld : ∀ tag, m.drainTag = some tag → (m.vDmaReadWords tag).items = [] := by
    intro tag position
    by_contra nonempty
    obtain ⟨word, rest, items⟩ := List.exists_cons_of_ne_nil nonempty
    obtain ⟨words, taken, -⟩ := Fifo.deq_of_items items
    obtain ⟨dmaReadWordsQ2, added⟩ := Fifo.enq_of_room room word
    unfold drainTag at position
    split at position
    next more =>
      cases position
      rw [reorderRead, if_pos more] at notContinued
      simp [taken, added] at notContinued
    next idle =>
      have idle : m.curReadTagCnt = 0 := by bv_omega
      obtain ⟨⟨next, cnt⟩, first, rfl⟩ := Option.map_eq_some_iff.mp position
      obtain ⟨later, chunks⟩ := Fifo.first_eq_some.mp first
      obtain ⟨dmaReadTagOrderQ, dequeued, -⟩ := Fifo.deq_of_items chunks
      rw [startReorderRead, if_pos idle] at notStarted
      simp [dequeued, taken, added] at notStarted
  cases transit : m.dmaReadWordsQ.items with
  | nil =>
      cases due with
      | nil => rfl
      | cons next rest =>
          have position : m.drainTag = some next.1 := by
            rw [drainTag_eq_head, ← lined.order]
            rfl
          have line := lined.line next.1
          simp [transit, noneHeld next.1 position, returned next.1, Lanes.ofTag_cons] at line
  | cons d waiting =>
      obtain ⟨dmaReadWordsQ, dequeued, -⟩ := Fifo.deq_of_items transit
      have full : ¬(m.vDmaReadWords d.1).items.length < 8 := by
        intro free
        obtain ⟨words, added⟩ := Fifo.enq_of_room free d.2
        simp [ReadReorder.relayDmaReadWords, dequeued, added] at relayed
      have bound := (m.vDmaReadWords d.1).bounded
      obtain ⟨tag, position, nonempty⟩ := flows.drainsWhenFull
        ⟨d, Fifo.first_eq_some.mpr ⟨waiting, transit⟩, by omega⟩
      exact absurd (noneHeld tag position) nonempty

/-- With nothing due and all tags put into use, a chunk can be sent. -/
theorem Lined.chunk_ready (nonzero : 0 < n) (small : n < 256) (lined : Lined mem m owes [])
    (returned : ∀ tag, owes tag = []) (initialised : m.initDmaTagR = none) (words : BitVec 8)
    : m.dmaReadTagInitDone = true ∧ (m.sendChunk words).isSome := by
  obtain ⟨left, free, differ, fresh, kept, counted, isDone⟩ := lined.tags
  have count : (BitVec.ofNat 8 n).toNat = n := by
    rw [BitVec.toNat_ofNat, Nat.mod_eq_of_lt small]
  have inUse : ∀ tag : BitVec 8, tag < m.dmaReadTagInit → tag ∈ m.dmaReadFreeTagQ.items :=
    fun tag below => (kept tag below).resolve_right (fun more => more (returned tag))
  have all : m.dmaReadTagInit.toNat = n := by
    by_contra more
    have below : m.dmaReadTagInit < BitVec.ofNat 8 n := by
      rw [BitVec.lt_def, count]
      omega
    have within : m.dmaReadFreeTagQ.items.length ≤ m.dmaReadTagInit.toNat := by
      rw [← List.length_map (f := BitVec.toNat), ← List.length_range (n := m.dmaReadTagInit.toNat)]
      refine List.Subperm.length_le (List.subperm_of_subset ?_ ?_)
      · exact differ.map (fun _ _ same => BitVec.eq_of_toNat_eq same)
      · intro number member
        obtain ⟨tag, isFree, rfl⟩ := List.mem_map.mp member
        rw [List.mem_range]
        by_contra above
        exact (fresh tag (BitVec.le_def.mpr (by omega))).1 isFree
    obtain ⟨dmaReadFreeTagQ, added⟩ :=
      Fifo.enq_of_room (q := m.dmaReadFreeTagQ) (by omega) m.dmaReadTagInit
    simp [ReadReorder.initDmaTagR, below, added] at initialised
  refine ⟨isDone.mpr all, ?_⟩
  have first := inUse 0 (by
    rw [BitVec.lt_def, all]
    exact nonzero)
  obtain ⟨tag, rest, items⟩ := List.exists_cons_of_ne_nil (List.ne_nil_of_mem first)
  obtain ⟨dmaReadFreeTagQ, dequeued, -⟩ := Fifo.deq_of_items items
  have noChunk : m.dmaReadTagOrderQ.items = [] := by
    have order := lined.order
    rw [List.map_nil, drainOrder, eq_comm, List.append_eq_nil_iff] at order
    cases chunks : m.dmaReadTagOrderQ.items with
    | nil => rfl
    | cons chunk later =>
        rw [chunks, List.flatMap_cons, List.replicate_succ] at order
        cases order.2
  obtain ⟨dmaReadTagOrderQ, added⟩ :=
    Fifo.enq_of_room (q := m.dmaReadTagOrderQ) (by rw [noChunk]; exact nonzero) (tag, words)
  simp [ReadReorder.sendChunk, dequeued, added]

end ReadReorder

end BluespecPcie
