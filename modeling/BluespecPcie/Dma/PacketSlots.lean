import BluespecPcie.Dma.WidePackets

/-! The slots of the packet ring as the host reads them. -/

namespace BluespecPcie

open Bluespec

-----------------------------------------------------------------------------------------
-- DWs of a ring
-----------------------------------------------------------------------------------------

/-- The bytes of a DW of the buffer. -/
theorem ubuf_bytes {mem : HostMemory} {k : Nat} {bytes : Nat → BitVec 8}
    (byte : ∀ t < 4, mem (BitVec.ofNat 32 (4 * k) + BitVec.ofNat 32 t) = bytes t)
    : ubuf mem k = bytes 3 ++ bytes 2 ++ bytes 1 ++ bytes 0 := by
  rw [← byte 3 (by decide), ← byte 2 (by decide), ← byte 1 (by decide), ← byte 0 (by decide),
    BitVec.add_zero]
  rfl

/-- Byte `r` of a word; induction on the words. -/
theorem wordBytes_byte (words : List DMAWord) (i : Nat) {r : Nat} (within : r < 16)
    : (words.flatMap wordBytes)[16 * i + r]?
      = words[i]?.map (fun word => word.extractLsb' (8 * r) 8) := by
  induction words generalizing i with
  | nil => rfl
  | cons word words ih =>
      rw [List.flatMap_cons]
      cases i with
      | zero =>
          rw [List.getElem?_append_left (by simpa using within)]
          simp [wordBytes, within]
      | succ i =>
          rw [List.getElem?_append_right (by rw [length_wordBytes]; omega), length_wordBytes,
            show 16 * (i + 1) + r - 16 = 16 * i + r by omega, ih, List.getElem?_cons_succ]

/-- DW `f` of a word that is still in the ring. -/
theorem ring_ubuf (mem : HostMemory) (words : List DMAWord) {i f : Nat} (field : f < 4)
    (inside : i < words.length) (recent : words.length ≤ i + 256)
    : ubuf (storeWords mem (Stores.placed (ringAddr 12) words)) (4 * i % 1024 + f)
      = words[i].extractLsb' (32 * f) 32 := by
  have byte (t : Nat) (small : t < 4)
      : storeWords mem (Stores.placed (ringAddr 12) words)
          (BitVec.ofNat 32 (4 * (4 * i % 1024 + f)) + BitVec.ofNat 32 t)
        = words[i].extractLsb' (8 * (4 * f + t)) 8 := by
    have here := ring_byte (b := 12) (by decide) (by decide) mem words
      (j := 16 * i + (4 * f + t)) (by omega) (by omega)
    have place : (16 * i + (4 * f + t)) % 2 ^ 12 = 4 * (4 * i % 1024 + f) + t := by omega
    rw [wordBytes_byte words i (by omega), List.getElem?_eq_getElem inside, place,
      BitVec.ofNat_add] at here
    exact (Option.some.inj here).symm
  rw [ubuf_bytes byte]
  refine BitVec.eq_of_getLsbD_eq ?_
  intro k within
  simp
  grind

/-- A DW of the first 4 KB behind the words stored is as the constructor left it. -/
theorem ring_ubuf_empty (mem : HostMemory) (words : List DMAWord) {k : Nat}
    (behind : 4 * words.length ≤ k) (inside : k < 1024)
    : ubuf (storeWords (constructed mem) (Stores.placed (ringAddr 12) words)) k
      = 0xffffffff := by
  have byte (t : Nat) (small : t < 4)
      : storeWords (constructed mem) (Stores.placed (ringAddr 12) words)
          (BitVec.ofNat 32 (4 * k) + BitVec.ofNat 32 t) = 0xff := by
    have place : (BitVec.ofNat 32 (4 * k) + BitVec.ofNat 32 t).toNat = 4 * k + t := by
      rw [← BitVec.ofNat_add, BitVec.toNat_ofNat]
      omega
    have none : Stores.load ((Stores.placed (ringAddr 12) words).flatMap byteStores)
        (BitVec.ofNat 32 (4 * k) + BitVec.ofNat 32 t) = none := by
      rw [byteStores_ring (by decide)]
      refine Stores.load_placed_other ?_
      intro j below same
      have length : (words.flatMap wordBytes).length = 16 * words.length := by
        simp [List.length_flatMap, Nat.mul_comm]
      have equal := congrArg BitVec.toNat same
      rw [place, BitVec.toNat_ofNat] at equal
      omega
    rw [storeWords_eq, none, constructed, place]
    exact if_pos (by omega)
  rw [ubuf_bytes byte]
  decide

-----------------------------------------------------------------------------------------
-- Slots
-----------------------------------------------------------------------------------------

/-- The words of the first packets. -/
def packetWords (packets : List (BitVec 32 × BitVec 128)) (landed : Nat) : List DMAWord :=
  (List.range (2 * landed)).map (packetWord packets)

/-- DW `f` of packet `k`: four DWs of its word, its header and its index. -/
def packetField (packets : List (BitVec 32 × BitVec 128)) (k f : Nat) : BitVec 32 :=
  (packetWord packets (2 * k + f / 4)).extractLsb' (32 * (f % 4)) 32

/-- A packet that is still in the ring is in its slot. -/
theorem slot_field (mem : HostMemory) (packets : List (BitVec 32 × BitVec 128))
    {landed k f : Nat} (inside : k < landed) (recent : landed ≤ k + 128) (field : f < 8)
    : ubuf (storeWords mem (Stores.placed (ringAddr 12) (packetWords packets landed)))
        (8 * (k % 128) + f)
      = packetField packets k f := by
  have place : 8 * (k % 128) + f = 4 * (2 * k + f / 4) % 1024 + f % 4 := by omega
  have length : (packetWords packets landed).length = 2 * landed := by simp [packetWords]
  rw [place, ring_ubuf mem _ (by omega) (by omega : 2 * k + f / 4 < _) (by omega)]
  simp [packetWords, packetField]

/-- The sixth DW of a packet is its index. -/
theorem packetField_index (packets : List (BitVec 32 × BitVec 128)) (k : Nat)
    : packetField packets k 5 = BitVec.ofNat 32 k := by
  have half : (2 * k + 5 / 4) / 2 = k := by omega
  have odd : ¬ (2 * k + 5 / 4) % 2 = 0 := by omega
  rw [packetField, packetWord, if_neg odd, half, DMAWideCtrl.indexWord,
    BitVec.extractLsb'_append_eq_of_le (by decide)]
  refine BitVec.eq_of_getLsbD_eq ?_
  intro i within
  have wide : i < 96 := by omega
  simp [within, wide]

/-- A slot that holds the index of the next packet to receive is its slot, and the packet has
landed: of the packets before it and behind it only those less than a lap away are there.
-/
theorem slot_match (mem : HostMemory) (packets : List (BitVec 32 × BitVec 128))
    {landed next j : Nat} (behind : next ≤ landed) (ahead : landed ≤ next + 128) (slot : j < 128)
    (found
      : ubuf (storeWords (constructed mem)
          (Stores.placed (ringAddr 12) (packetWords packets landed))) (8 * j + 5)
        = BitVec.ofNat 32 next)
    : j = next % 128 ∧ next < landed := by
  by_cases lap : j < landed
  · -- the last packet that landed in slot `j`
    have last : ∃ k, k < landed ∧ landed ≤ k + 128 ∧ k % 128 = j :=
      ⟨(landed - 1 - j) / 128 * 128 + j, by omega, by omega, by omega⟩
    obtain ⟨k, inside, recent, mine⟩ := last
    rw [← mine, slot_field _ _ inside recent (by decide), packetField_index] at found
    have equal := congrArg BitVec.toNat found
    rw [BitVec.toNat_ofNat, BitVec.toNat_ofNat] at equal
    have same : k = next := by omega
    subst same
    exact ⟨mine.symm, inside⟩
  · have length : (packetWords packets landed).length = 2 * landed := by simp [packetWords]
    rw [ring_ubuf_empty _ _ (by omega) (by omega)] at found
    have equal := congrArg BitVec.toNat found
    rw [BitVec.toNat_ofNat] at equal
    change 0xffffffff = _ at equal
    omega

/-- Five DWs of a slot make its packet. -/
theorem packet_fields (packets : List (BitVec 32 × BitVec 128)) {k : Nat}
    (inside : k < packets.length) {fields : List (BitVec 32)}
    (read : fields = (List.range 5).map (packetField packets k))
    : PCIeWord.packet ⟨fields.take 4, fields.getD 4 0⟩ = packets[k] := by
  have even : 2 * k / 2 = k := by omega
  have word (f : Nat) (small : f < 4)
      : packetField packets k f = packets[k].2.extractLsb' (32 * f) 32 := by
    have zero : f / 4 = 0 := by omega
    have same : f % 4 = f := by omega
    rw [packetField, packetWord, zero, same, Nat.add_zero, even, if_pos (Nat.mul_mod_right 2 k),
      List.getD_eq_getElem _ _ inside]
  have head : packetField packets k 4 = packets[k].1 := by
    have half : (2 * k + 4 / 4) / 2 = k := by omega
    have odd : ¬ (2 * k + 4 / 4) % 2 = 0 := by omega
    rw [packetField, packetWord, if_neg odd, half, List.getD_eq_getElem _ _ inside]
    exact BitVec.extractLsb'_append_eq_right
  subst read
  change (packetField packets k 4, packetField packets k 3 ++ packetField packets k 2
    ++ packetField packets k 1 ++ packetField packets k 0) = _
  rw [head, word 3 (by decide), word 2 (by decide), word 1 (by decide), word 0 (by decide)]
  refine Prod.ext rfl ?_
  refine BitVec.eq_of_getLsbD_eq ?_
  intro i within
  simp
  grind

end BluespecPcie
