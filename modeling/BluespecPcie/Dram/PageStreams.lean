import BluespecPcie.Dma.TaggedReads

/-! Pages as streams: four DMA words in a DRAM word, and bursts of eight DMA words in a command. -/

namespace BluespecPcie

open Bluespec

-----------------------------------------------------------------------------------------
-- DMA words in DRAM words
-----------------------------------------------------------------------------------------

/-- `{d,truncateLSB(buffer)}`. -/
def pushWord (buffer : BitVec 512) (d : DMAWord) : BitVec 512 :=
  d ++ (buffer >>> 128).setWidth 384

/-- Four DMA words as a DRAM word, the first in the low bits. -/
def joinWords (a b c d : DMAWord) : BitVec 512 := d ++ (c ++ (b ++ a))

/-- DMA words as DRAM words, as far as there are four for each. -/
def packWords : List DMAWord → List (BitVec 512)
  | a :: b :: c :: d :: rest => joinWords a b c d :: packWords rest
  | _ => []

@[simp] theorem packWords_nil : packWords [] = [] := rfl

/-- The four DMA words of a DRAM word, from the low bits on. -/
def splitWord (d : BitVec 512) : List DMAWord :=
  [d.setWidth 128, (d >>> 128).setWidth 128, (d >>> 128 >>> 128).setWidth 128,
    (d >>> 128 >>> 128 >>> 128).setWidth 128]

/-- Four words pushed into a buffer are all that it holds. -/
theorem pushWord_four (buffer : BitVec 512) (a b c d : DMAWord)
    : pushWord (pushWord (pushWord (pushWord buffer a) b) c) d = joinWords a b c d := by
  apply BitVec.eq_of_getLsbD_eq
  intro i within
  simp only [pushWord, joinWords, BitVec.getLsbD_append, BitVec.getLsbD_setWidth,
    BitVec.getLsbD_ushiftRight]
  rcases Nat.lt_or_ge i 128 with first | first
  · grind
  rcases Nat.lt_or_ge i 256 with second | second
  · grind
  rcases Nat.lt_or_ge i 384 with third | third
  · grind
  · grind

-----------------------------------------------------------------------------------------
-- Bursts of eight DMA words
-----------------------------------------------------------------------------------------

theorem TaggedDma.wordAddrs_succ (off : BitVec 32) (n : Nat)
    : wordAddrs off (n + 1) = off :: wordAddrs (off + 16) n := by
  rw [Nat.add_comm, wordAddrs_add]
  simp [wordAddrs, wordAddr]

/-- Bursts of 128 bytes from `off` on, with whether each is the last. -/
def pageBursts (off : BitVec 32) (n : Nat) : List (BitVec 32 × Bool) :=
  (List.range n).map (fun j => (TaggedDma.wordAddr off (8 * j), decide (j + 1 = n)))

@[simp] theorem pageBursts_zero (off : BitVec 32) : pageBursts off 0 = [] := rfl

/-- The first burst. -/
theorem pageBursts_succ (off : BitVec 32) (n : Nat)
    : pageBursts off (n + 1)
      = (off, decide (n = 0)) :: pageBursts (TaggedDma.wordAddr off 8) n := by
  simp only [pageBursts, List.range_succ_eq_map, List.map_cons, List.map_map, Nat.mul_zero,
    TaggedDma.wordAddr_zero]
  congr 1
  · simp
  · refine List.map_congr_left ?_
    intro j _
    simp only [Function.comp_apply, Nat.mul_succ, TaggedDma.wordAddr_add, Nat.succ_eq_add_one,
      Nat.add_right_cancel_iff]

/-- The addresses of the words of bursts. -/
def burstWords (bursts : List (BitVec 32 × Bool)) : List (BitVec 32) :=
  bursts.flatMap (fun burst => TaggedDma.wordAddrs burst.1 8)

@[simp] theorem burstWords_append (bursts more : List (BitVec 32 × Bool))
    : burstWords (bursts ++ more) = burstWords bursts ++ burstWords more := by
  simp [burstWords]

theorem burstWords_mono {bursts more : List (BitVec 32 × Bool)} (part : bursts <+: more)
    : burstWords bursts <+: burstWords more := by
  obtain ⟨rest, rfl⟩ := part
  rw [burstWords_append]
  exact List.prefix_append _ _

theorem burstWords_singleton (burst : BitVec 32 × Bool)
    : burstWords [burst] = TaggedDma.wordAddrs burst.1 8 := by
  simp [burstWords]

/-- Only the last burst of a command is marked. -/
theorem pageBursts_last (off : BitVec 32) (n : Nat)
    : ∃ earlier last,
        pageBursts off (n + 1) = earlier ++ [(last, true)]
        ∧ ∀ burst ∈ earlier, burst.2 = false := by
  refine ⟨(List.range n).map (fun j => (TaggedDma.wordAddr off (8 * j), decide (j + 1 = n + 1))),
    TaggedDma.wordAddr off (8 * n), ?_, ?_⟩
  · simp [pageBursts, List.range_succ]
  · intro burst member
    obtain ⟨j, inside, rfl⟩ := List.mem_map.mp member
    have before : j ≠ n := Nat.ne_of_lt (List.mem_range.mp inside)
    simp [before]

/-- Pairs whose parts are prefixes are a prefix of the pairs. -/
theorem prefix_zip {α β : Type} {pairs : List (α × β)} {as : List α} {bs : List β}
    (first : pairs.map Prod.fst <+: as) (second : pairs.map Prod.snd <+: bs)
    : pairs <+: as.zip bs := by
  obtain ⟨moreAs, rfl⟩ := first
  obtain ⟨moreBs, rfl⟩ := second
  rw [List.zip_append (by simp), List.zip_map']
  refine List.IsPrefix.trans ?_ (List.prefix_append _ _)
  simp

/-- Where each command ends with its only mark, the commands whose marks are in a prefix are in it
as a whole; induction on the commands.
-/
theorem complete_of_marks {γ β : Type} {bursts : γ → List (β × Bool)} {commands : List γ}
    (marked
      : ∀ c ∈ commands, ∃ earlier last,
          bursts c = earlier ++ [(last, true)] ∧ ∀ burst ∈ earlier, burst.2 = false)
    {sent : List (β × Bool)} (part : sent <+: commands.flatMap bursts)
    : sent.countP Prod.snd ≤ commands.length
      ∧ (commands.take (sent.countP Prod.snd)).flatMap bursts <+: sent := by
  induction commands generalizing sent with
  | nil =>
      rw [List.flatMap_nil, List.prefix_nil] at part
      subst part
      simp
  | cons c rest ih =>
      obtain ⟨earlier, last, ends, unmarked⟩ := marked c (List.mem_cons_self ..)
      rw [List.flatMap_cons] at part
      have quiet : earlier.countP Prod.snd = 0 := by
        rw [List.countP_eq_zero]
        intro burst member
        simp [unmarked burst member]
      by_cases all : (bursts c).length ≤ sent.length
      case pos =>
        obtain ⟨more, rfl⟩ :=
          List.prefix_of_prefix_length_le (List.prefix_append _ _) part all
        have later := (List.prefix_append_right_inj _).mp part
        obtain ⟨count, whole⟩ :=
          ih (fun other member => marked other (List.mem_cons_of_mem _ member)) later
        have one : (bursts c ++ more).countP Prod.snd = more.countP Prod.snd + 1 := by
          rw [ends, List.countP_append, List.countP_append, quiet]
          simp [Nat.add_comm]
        rw [one, List.take_succ_cons, List.flatMap_cons, List.length_cons]
        exact ⟨Nat.succ_le_succ count, (List.prefix_append_right_inj _).mpr whole⟩
      case neg =>
        have inside : sent <+: earlier := by
          refine List.prefix_of_prefix_length_le part ?_ ?_
          · rw [ends, List.append_assoc]
            exact List.prefix_append _ _
          · rw [ends, List.length_append, List.length_singleton] at all
            omega
        have none : sent.countP Prod.snd = 0 := by
          have few : sent.countP Prod.snd ≤ earlier.countP Prod.snd := inside.sublist.countP_le
          omega
        rw [none]
        simp

end BluespecPcie
