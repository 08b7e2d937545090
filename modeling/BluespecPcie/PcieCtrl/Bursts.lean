import BluespecPcie.Bluespec.Bits
import BluespecPcie.PcieCtrl.WriteRules

/-! How the splitters cut a request into bursts that stay inside one 4 KB page. -/

namespace BluespecPcie

/-- The addresses of `n` consecutive 128-bit words from `startAddr` on. -/
def wordAddrs (startAddr : BitVec 32) (n : Nat) : List (BitVec 32) :=
  (List.range n).map (fun j => startAddr + BitVec.ofNat 32 (16 * j))

@[simp] theorem wordAddrs_zero (startAddr : BitVec 32) : wordAddrs startAddr 0 = [] := rfl

@[simp] theorem length_wordAddrs (startAddr : BitVec 32) (n : Nat)
    : (wordAddrs startAddr n).length = n := by
  simp [wordAddrs]

/-- The words of two adjacent stretches are the words of the whole. -/
theorem wordAddrs_add (startAddr : BitVec 32) (m n : Nat)
    : wordAddrs startAddr (m + n)
      = wordAddrs startAddr m ++ wordAddrs (startAddr + BitVec.ofNat 32 (16 * m)) n := by
  simp only [wordAddrs, List.range_add, List.map_append, List.map_map]
  congr 1
  apply List.map_congr_left
  intro j _
  simp only [Function.comp_apply, Nat.mul_add, BitVec.ofNat_add]
  grind

/-- The address starts a 128-bit word. -/
def WordAligned (addr : BitVec 32) : Prop := addr.toNat % 16 = 0

/-- `addr & ~15`, as requests are described. -/
theorem toNat_alignWord (addr : BitVec 32)
    : (alignWord addr).toNat = addr.toNat / 16 * 16 := by
  have bound := addr.isLt
  simp only [alignWord, Bluespec.toNat_append_add, BitVec.truncate_eq_setWidth,
    BitVec.toNat_setWidth, BitVec.toNat_ushiftRight, BitVec.toNat_ofNat,
    Nat.shiftRight_eq_div_pow]
  omega

theorem wordAligned_alignWord (addr : BitVec 32) : WordAligned (alignWord addr) := by
  simp [WordAligned, toNat_alignWord]

/-- From an aligned address, the words to the end of the page. -/
theorem toNat_internalWords {startAddr : BitVec 32} (aligned : WordAligned startAddr)
    : (internalWords startAddr).toNat = 256 - startAddr.toNat % 4096 / 16 := by
  have bound := startAddr.isLt
  unfold WordAligned at aligned
  simp only [internalWords, BitVec.truncate_eq_setWidth, BitVec.toNat_setWidth,
    BitVec.toNat_ushiftRight, BitVec.toNat_sub, BitVec.toNat_shiftLeft, BitVec.toNat_add,
    Nat.shiftLeft_eq, Nat.shiftRight_eq_div_pow, show (1 : BitVec 32).toNat = 1 from rfl]
  omega

/-- The page after an aligned address starts behind the page's last word. -/
theorem nextPageStart_eq {startAddr : BitVec 32} (aligned : WordAligned startAddr)
    : nextPageStart startAddr
      = startAddr + BitVec.ofNat 32 (16 * (internalWords startAddr).toNat) := by
  have bound := startAddr.isLt
  rw [toNat_internalWords aligned]
  unfold WordAligned at aligned
  apply BitVec.eq_of_toNat_eq
  simp only [nextPageStart, BitVec.toNat_shiftLeft, BitVec.toNat_add,
    BitVec.toNat_ushiftRight, BitVec.toNat_ofNat, Nat.shiftLeft_eq,
    Nat.shiftRight_eq_div_pow, show (1 : BitVec 32).toNat = 1 from rfl]
  omega

/-- A burst has a word at least, at most `DMAMaxWords`, and stays inside its page; the rest of
the request starts where it ends.
-/
structure Split.Covers (b : Split) (startAddr : BitVec 32) (words : BitVec 10) : Prop where
  nonempty : 0 < b.words.toNat
  short : b.words.toNat ≤ 8
  inPage : startAddr.toNat % 4096 + 16 * b.words.toNat ≤ 4096
  total : b.words.toNat + b.wordsLeft.toNat = words.toNat
  next : b.startAddr = startAddr + BitVec.ofNat 32 (16 * b.words.toNat)
  aligned : WordAligned b.startAddr

/-- The two splitters cut alike. -/
theorem splitWrite_eq (startAddr : BitVec 32) (words : BitVec 10)
    : splitWrite startAddr words = splitRead startAddr words := by
  unfold splitWrite splitRead
  have same : (if words ≥ dma_max_words then dma_max_words else words)
      = if words > dma_max_words then dma_max_words else words := by
    by_cases more : words > dma_max_words
    · rw [if_pos more, if_pos (BitVec.le_of_lt more)]
    · rw [if_neg more]
      split
      next least => exact BitVec.le_antisymm least (BitVec.not_lt.mp more)
      next => rfl
  rw [same]

/-- One burst of a request at a word-aligned address. -/
theorem splitRead_covers {startAddr : BitVec 32} {words : BitVec 10}
    (aligned : WordAligned startAddr) (busy : words > 0)
    : (splitRead startAddr words).Covers startAddr words := by
  have internal := toNat_internalWords aligned
  have next := nextPageStart_eq aligned
  have start : startAddr.toNat % 16 = 0 := aligned
  have positive : 0 < words.toNat := by simpa [BitVec.lt_def] using busy
  have rest (n : BitVec 10) (le : n.toNat ≤ words.toNat)
      : n.toNat + (words - n).toNat = words.toNat := by
    rw [BitVec.toNat_sub_of_le (BitVec.le_def.mpr le)]
    omega
  have step (n : Nat) (small : n ≤ 8) (addr : BitVec 32) (start : WordAligned addr)
      : WordAligned (addr + BitVec.ofNat 32 (16 * n)) := by
    unfold WordAligned at start ⊢
    rw [BitVec.toNat_add, BitVec.toNat_ofNat]
    omega
  unfold splitRead
  generalize toread : (if words > dma_max_words then dma_max_words else words) = n
  have small : 0 < n.toNat ∧ n.toNat ≤ 8 ∧ n.toNat ≤ words.toNat := by
    have most : dma_max_words.toNat = 8 := rfl
    rw [← toread]
    by_cases more : words > dma_max_words
    · rw [if_pos more]
      have := BitVec.lt_def.mp more
      omega
    · rw [if_neg more]
      have := BitVec.lt_def.not.mp more
      omega
  simp only
  split
  next more =>
    have room : n.toNat < (internalWords startAddr).toNat := BitVec.lt_def.mp more
    have advance : startAddr + (n.zeroExtend 32 <<< 4)
        = startAddr + BitVec.ofNat 32 (16 * n.toNat) := by
      refine congrArg (startAddr + ·) ?_
      apply BitVec.eq_of_toNat_eq
      simp only [BitVec.toNat_shiftLeft, BitVec.zeroExtend_eq_setWidth,
        BitVec.toNat_setWidth, BitVec.toNat_ofNat, Nat.shiftLeft_eq]
      omega
    exact ⟨small.1, small.2.1, by simp only; omega, rest n small.2.2, advance,
      advance ▸ step n.toNat small.2.1 startAddr aligned⟩
  next less =>
    have room : (internalWords startAddr).toNat ≤ n.toNat := by
      have := BitVec.lt_def.not.mp less
      omega
    exact ⟨by simp only; omega, by simp only; omega, by simp only; omega,
      rest (internalWords startAddr) (by omega), next,
      next ▸ step _ (by omega) startAddr aligned⟩

end BluespecPcie
