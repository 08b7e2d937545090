import BluespecPcie.Host.ByteStores

/-! Words stored one behind the other in a ring of the host memory. -/

namespace BluespecPcie

open Bluespec

/-- Where word `i` of the stream is stored in a ring of `2 ^ b` bytes. -/
def ringAddr (b : Nat) (i : Nat) : BitVec 32 := BitVec.ofNat 32 (16 * i % 2 ^ b)

variable {b : Nat}

/-- A ring is a number of bursts. -/
theorem ring_bursts (low : 7 ≤ b) : ∃ c, 2 ^ b = 128 * c ∧ 0 < c :=
  ⟨2 ^ (b - 7), by rw [show 128 = 2 ^ 7 from rfl, ← Nat.pow_add, Nat.add_sub_cancel' low],
    Nat.two_pow_pos _⟩

/-- Within a burst the next word is stored behind the last. -/
theorem ringAddr_succ (low : 7 ≤ b) {i : Nat} (within : (i + 1) % 8 ≠ 0)
    : ringAddr b i + 16 = ringAddr b (i + 1) := by
  obtain ⟨c, size, positive⟩ := ring_bursts low
  have next : 16 * (i + 1) % 2 ^ b = 16 * i % 2 ^ b + 16 := by
    have split := Nat.div_add_mod (16 * i) (2 ^ b)
    have small := Nat.mod_lt (16 * i) (Nat.two_pow_pos b)
    have room : 16 * i % 2 ^ b + 16 < 2 ^ b := by
      by_contra full
      generalize 16 * i % 2 ^ b = r at *
      generalize 16 * i / 2 ^ b = q at *
      rw [size] at split small full
      have product : 128 * c * q = 128 * (c * q) := Nat.mul_assoc _ _ _
      omega
    rw [Nat.mul_add, Nat.mul_one, Nat.add_mod, Nat.mod_eq_of_lt (a := 16) (by omega)]
    exact Nat.mod_eq_of_lt room
  rw [ringAddr, ringAddr, next, BitVec.ofNat_add]
  rfl

/-- The truncated offset of a word is its address. -/
theorem offset_ringAddr (high : b ≤ 31) (i : Nat)
    : ((BitVec.ofNat 32 (16 * i)).setWidth b).setWidth 32 = ringAddr b i := by
  refine BitVec.eq_of_toNat_eq ?_
  have divides : 2 ^ b ∣ 2 ^ 32 := Nat.pow_dvd_pow 2 (by omega)
  simp only [ringAddr, BitVec.toNat_setWidth, BitVec.toNat_ofNat]
  rw [Nat.mod_mod_of_dvd _ divides]

/-- The bytes of the words lie in the ring one behind the other; induction on the words from
the last one.
-/
theorem byteStores_ring (low : 7 ≤ b) (words : List DMAWord)
    : (Stores.placed (ringAddr b) words).flatMap byteStores
      = Stores.placed (fun j => BitVec.ofNat 32 (j % 2 ^ b)) (words.flatMap wordBytes) := by
  induction words using List.reverseRecOn with
  | nil => rfl
  | append_singleton words word ih =>
      have length : (words.flatMap wordBytes).length = 16 * words.length := by
        simp [List.length_flatMap, Nat.mul_comm]
      have single (x : BitVec 32 × DMAWord) : [x].flatMap byteStores = byteStores x := by simp
      rw [Stores.placed_snoc, List.flatMap_append, ih, List.flatMap_append, Stores.placed_append,
        length, single, List.flatMap_singleton, byteStores]
      refine congrArg _ (Stores.placed_congr ?_)
      intro i inside
      rw [length_wordBytes] at inside
      obtain ⟨c, size, positive⟩ := ring_bursts low
      have same : (i + 16 * words.length) % 2 ^ b = 16 * words.length % 2 ^ b + i := by
        have split := Nat.div_add_mod (16 * words.length) (2 ^ b)
        have small := Nat.mod_lt (16 * words.length) (Nat.two_pow_pos b)
        have room : 16 * words.length % 2 ^ b + i < 2 ^ b := by
          generalize 16 * words.length % 2 ^ b = r at *
          generalize 16 * words.length / 2 ^ b = q at *
          rw [size] at split small ⊢
          have product : 128 * c * q = 128 * (c * q) := Nat.mul_assoc _ _ _
          omega
        rw [Nat.add_comm, Nat.add_mod, Nat.mod_eq_of_lt (a := i) (by omega)]
        exact Nat.mod_eq_of_lt room
      rw [ringAddr, ← BitVec.ofNat_add, ← same]

/-- Of the bytes in the ring the last `2 ^ b` are there. -/
theorem ring_byte (low : 7 ≤ b) (high : b ≤ 31) (mem : HostMemory) (words : List DMAWord)
    {j : Nat} (inside : j < 16 * words.length) (recent : 16 * words.length ≤ j + 2 ^ b)
    : (words.flatMap wordBytes)[j]?
      = some (storeWords mem (Stores.placed (ringAddr b) words)
          (BitVec.ofNat 32 (j % 2 ^ b))) := by
  have length : (words.flatMap wordBytes).length = 16 * words.length := by
    simp [List.length_flatMap, Nat.mul_comm]
  have kept : ∀ k, j < k → k < (words.flatMap wordBytes).length
      → BitVec.ofNat 32 (k % 2 ^ b) ≠ BitVec.ofNat 32 (j % 2 ^ b) := by
    intro k after below same
    have equal := congrArg BitVec.toNat same
    have ring : 2 ^ b ≤ 2 ^ 31 := Nat.pow_le_pow_right (by decide) high
    have smallK := Nat.mod_lt k (Nat.two_pow_pos b)
    have smallJ := Nat.mod_lt j (Nat.two_pow_pos b)
    rw [BitVec.toNat_ofNat, BitVec.toNat_ofNat, Nat.mod_eq_of_lt (a := k % 2 ^ b) (by omega),
      Nat.mod_eq_of_lt (a := j % 2 ^ b) (by omega)] at equal
    rw [length] at below
    have divides := (Nat.modEq_iff_dvd' (Nat.le_of_lt after)).mp equal.symm
    have large := Nat.le_of_dvd (by omega) divides
    omega
  have found := Stores.load_placed [] (fun k => BitVec.ofNat 32 (k % 2 ^ b))
    (words.flatMap wordBytes) (i := j) (by omega) kept
  rw [storeWords_eq, byteStores_ring low, ← List.nil_append (Stores.placed _ _), found,
    List.getElem?_eq_getElem]
  rfl

end BluespecPcie
