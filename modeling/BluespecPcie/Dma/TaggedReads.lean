import BluespecPcie.Dma.Tagged

/-! The DMA read methods of the tagged `PcieUserIfc`, as the modules that call them rely on. -/

namespace BluespecPcie

open Bluespec

/-- Addresses of a run of words. -/
def TaggedDma.wordAddrs (off : BitVec 32) (n : Nat) : List (BitVec 32) :=
  (List.range n).map (wordAddr off)

@[simp] theorem TaggedDma.length_wordAddrs (off : BitVec 32) (n : Nat)
    : (wordAddrs off n).length = n := by
  simp [wordAddrs]

/-- A run in two parts. -/
theorem TaggedDma.wordAddrs_add (off : BitVec 32) (n more : Nat)
    : wordAddrs off (n + more) = wordAddrs off n ++ wordAddrs (wordAddr off n) more := by
  rw [wordAddrs, List.range_add, List.map_append, List.map_map]
  refine congrArg _ (List.map_congr_left ?_)
  intro i _
  rw [Function.comp_apply, Nat.add_comm n i, wordAddr_add]

/-- An interface with DMA reads under tags, over a host memory. It may refuse a request while it
owes words, and it may do steps of its own, some of them among several choices. A request makes it
owe the words from its address on, and it returns the words that it owes under one tag in their
order.
-/
structure TaggedReads (mem : BitVec 32 → DMAWord) where
  State : Type
  Choice : Type
  init : State
  dmaReadReq : State → BitVec 32 → BitVec 10 → BitVec 8 → Option State
  dmaReadWord : State → Option ((BitVec 8 × DMAWord) × State)
  internal : State → Choice → Option State
  /-- Where the words are that a tag is still owed. -/
  owes : State → BitVec 8 → List (BitVec 32)
  owes_init : ∀ tag, owes init tag = []
  of_dmaReadReq
    : ∀ {s s' addr words tag},
        dmaReadReq s addr words tag = some s'
        → owes s'
          = Function.update (owes s) tag
              (owes s tag ++ TaggedDma.wordAddrs addr words.toNat)
  of_dmaReadWord
    : ∀ {s s' tag word},
        dmaReadWord s = some ((tag, word), s')
        → ∃ addr rest,
            owes s tag = addr :: rest
            ∧ word = mem addr
            ∧ owes s' = Function.update (owes s) tag rest
  of_internal : ∀ {s s' choice}, internal s choice = some s' → owes s' = owes s
  /-- With nothing owed and nothing to do it takes a request. -/
  takes
    : ∀ {s addr words tag},
        (∀ t, owes s t = [])
        → (∀ choice, internal s choice = none)
        → (dmaReadReq s addr words tag).isSome

namespace TaggedReads

/-- An interface that takes every request at once and chooses under which tag it returns a word.
-/
def anyOrder (mem : BitVec 32 → DMAWord) : TaggedReads mem where
  State := (BitVec 8 → List (BitVec 32)) × BitVec 8
  Choice := BitVec 8
  init := (fun _ => [], 0)
  dmaReadReq s addr words tag :=
    some (Function.update s.1 tag (s.1 tag ++ TaggedDma.wordAddrs addr words.toNat), s.2)
  dmaReadWord s :=
    match s.1 s.2 with
    | [] => none
    | addr :: rest => some ((s.2, mem addr), (Function.update s.1 s.2 rest, s.2))
  internal s tag := if s.1 tag ≠ [] ∧ tag ≠ s.2 then some (s.1, tag) else none
  owes := Prod.fst
  owes_init _ := rfl
  of_dmaReadReq := by
    rintro s s' addr words tag ⟨⟩
    rfl
  of_dmaReadWord := by
    intro s s' tag word returned
    split at returned
    next => cases returned
    next addr rest owed =>
      cases returned
      exact ⟨addr, rest, owed, rfl, rfl⟩
  of_internal := by
    intro s s' choice fires
    split at fires
    next =>
      cases fires
      rfl
    next => cases fires
  takes := by
    intro s addr words tag _ _
    rfl

variable {mem : BitVec 32 → DMAWord}

/-- The words of a buffer, the last of which may be in it in part. -/
def bufferWords (mem : BitVec 32 → DMAWord) (buffer : BitVec 32 × BitVec 32) : List DMAWord :=
  (TaggedDma.wordAddrs buffer.1 ((buffer.2.toNat + 15) / 16)).map mem

theorem bufferWords_zero (off : BitVec 32) : bufferWords mem (off, 0) = [] := by
  simp [bufferWords, TaggedDma.wordAddrs]

/-- A chunk of 8 words, or of the whole words that are left, has words, and what is left behind it
is behind its words.
-/
theorem bufferWords_chunk {off bytes : BitVec 32} {words : BitVec 8} (more : 0 < bytes)
    (whole : bytes.toNat % 16 = 0)
    (chunk : words.toNat = if 128 ≤ bytes then 8 else bytes.toNat / 16)
    : words ≠ 0
      ∧ bufferWords mem (off, bytes)
        = (TaggedDma.wordAddrs off words.toNat).map mem
          ++ bufferWords mem
            (if 128 ≤ bytes then off + 128 else off, if 128 ≤ bytes then bytes - 128 else 0) := by
  have positive : 0 < bytes.toNat := BitVec.lt_def.mp more
  by_cases full : 128 ≤ bytes
  case pos =>
    have bound : 128 ≤ bytes.toNat := BitVec.le_def.mp full
    have rest : (bytes - 128).toNat = bytes.toNat - 128 := BitVec.toNat_sub_of_le full
    have count : (bytes.toNat + 15) / 16 = 8 + ((bytes - 128).toNat + 15) / 16 := by omega
    rw [if_pos full] at chunk
    refine ⟨?_, ?_⟩
    · rintro rfl
      cases chunk
    · simp only [full, if_true, bufferWords]
      rw [count, chunk, TaggedDma.wordAddrs_add, List.map_append]
      rfl
  case neg =>
    rw [if_neg full] at chunk
    refine ⟨?_, ?_⟩
    · rintro rfl
      change 0 = bytes.toNat / 16 at chunk
      omega
    · have count : (bytes.toNat + 15) / 16 = words.toNat := by omega
      simp only [full, if_false, bufferWords_zero, List.append_nil]
      rw [bufferWords, count]

/-- A memory in which each word is its own address. -/
def addressed : BitVec 32 → DMAWord := fun addr => addr.setWidth 128

end TaggedReads

end BluespecPcie
