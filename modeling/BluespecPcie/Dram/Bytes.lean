import BluespecPcie.Bluespec.Bits
import BluespecPcie.Dram.Controller

/-! Bytes of DDR3 rows: byte enables, write masks, and where an address is stored. -/

namespace BluespecPcie

open Bluespec

-----------------------------------------------------------------------------------------
-- Bytes of a row
-----------------------------------------------------------------------------------------

/-- Byte `i` of a row. -/
def byteAt (row : BitVec 512) (i : Nat) : BitVec 8 := row.extractLsb' (8 * i) 8

/-- The bit mask of one byte. -/
theorem getLsbD_byte (n j : Nat) (within : j < 512)
    : (0xff#512 <<< (8 * n)).getLsbD j = decide (j / 8 = n) := by
  have low (k : Nat) : (0xff#512).getLsbD k = decide (k < 8) := by
    rw [show 0xff#512 = BitVec.ofNat 512 (2 ^ 8 - 1) from rfl, BitVec.getLsbD_ofNat,
      Nat.testBit_two_pow_sub_one]
    by_cases byte : k < 8
    · have row : k < 512 := by omega
      simp [byte, row]
    · simp [byte]
  rw [BitVec.getLsbD_shiftLeft, low]
  by_cases same : j / 8 = n
  · have above : ¬j < 8 * n := by omega
    have inside : j - 8 * n < 8 := by omega
    simp [within, same, above, inside]
  · by_cases below : j < 8 * n
    · simp [same, below]
    · have outside : ¬j - 8 * n < 8 := by omega
      simp [same, outside]

/-- The enabled bits are those of the enabled bytes; induction on the bytes. -/
theorem getLsbD_byteMask (writeen : BitVec 64) (n j : Nat) (within : j < 512)
    : (byteMask writeen n).getLsbD j = (decide (j / 8 < n) && writeen.getLsbD (j / 8)) := by
  induction n with
  | zero => simp [byteMask]
  | succ n ih =>
      by_cases enabled : writeen.getLsbD n
      · simp only [byteMask, enabled, if_true, BitVec.getLsbD_or, ih, getLsbD_byte n j within]
        grind
      · simp only [byteMask, enabled]
        grind

/-- An enabled byte is the new one, any other the old one. -/
theorem byteAt_mergeBytes (writeen : BitVec 64) (datain old : BitVec 512) {i : Nat}
    (within : i < 64)
    : byteAt (mergeBytes writeen datain old) i
      = if writeen.getLsbD i then byteAt datain i else byteAt old i := by
  apply BitVec.eq_of_getLsbD_eq
  intro k byte
  have row : 8 * i + k < 512 := by omega
  have index : (8 * i + k) / 8 = i := by omega
  have mask := getLsbD_byteMask writeen 64 (8 * i + k) row
  rw [index, BitVec.getLsbD_eq_getElem row] at mask
  by_cases enabled : writeen.getLsbD i
  · simp only [enabled, within, decide_true, Bool.and_self] at mask
    simp [byteAt, mergeBytes, byte, row, mask, enabled]
  · simp only [enabled, Bool.and_false] at mask
    simp [byteAt, mergeBytes, byte, row, mask, enabled]

/-- Shifting left by whole bytes moves each byte up. -/
theorem byteAt_shiftLeft (data : BitVec 512) {n i : Nat} (above : n ≤ i) (within : i < 64)
    : byteAt (data <<< (8 * n)) i = byteAt data (i - n) := by
  apply BitVec.eq_of_getLsbD_eq
  intro k byte
  have row : 8 * i + k < 512 := by omega
  have notBelow : ¬8 * i + k < 8 * n := by omega
  have index : 8 * i + k - 8 * n = 8 * (i - n) + k := by omega
  have moved : 8 * (i - n) + k < 512 := by omega
  simp [byteAt, byte, row, notBelow, index, BitVec.getLsbD_eq_getElem moved]

/-- Shifting right by whole bytes moves each byte down. -/
theorem byteAt_shiftRight (data : BitVec 512) (n i : Nat)
    : byteAt (data >>> (8 * n)) i = byteAt data (i + n) := by
  apply BitVec.eq_of_getLsbD_eq
  intro k byte
  have index : 8 * n + (8 * i + k) = 8 * (i + n) + k := by omega
  simp [byteAt, byte, index]

-----------------------------------------------------------------------------------------
-- Offsets, masks and shifts of a command
-----------------------------------------------------------------------------------------

/-- The remapping as arithmetic: bits 20..18 move above bits 29..21. -/
theorem toNat_addrReMapping (addr : BitVec 64)
    : (addrReMapping addr).toNat
      = addr.toNat / 2 ^ 18 % 8 * 2 ^ 27 + addr.toNat / 2 ^ 21 % 512 * 2 ^ 18
        + addr.toNat % 2 ^ 18 := by
  simp only [addrReMapping, BitVec.zeroExtend, BitVec.toNat_setWidth, toNat_append_add,
    BitVec.extractLsb_toNat, Nat.shiftRight_eq_div_pow]
  omega

/-- The offset of an address in its row. -/
theorem toNat_offset (addr : BitVec 64)
    : (addr.extractLsb 5 0).toNat = addr.toNat % 64 := by
  simp [BitVec.extractLsb_toNat]

/-- The remapping keeps the offset. -/
theorem offset_addrReMapping (addr : BitVec 64)
    : (addrReMapping addr).extractLsb 5 0 = addr.extractLsb 5 0 := by
  apply BitVec.eq_of_toNat_eq
  rw [toNat_offset, toNat_offset, toNat_addrReMapping]
  omega

/-- The bytes to the end of the row. -/
theorem toNat_firstNbytes (addr : BitVec 64)
    : (firstNbytes (addrReMapping addr)).toNat = 64 - addr.toNat % 64 := by
  simp only [firstNbytes, offset_addrReMapping, BitVec.zeroExtend, BitVec.toNat_sub,
    BitVec.toNat_setWidth, toNat_offset, BitVec.toNat_ofNat]
  omega

/-- The complement of the offset counts to the end of the row. -/
theorem toNat_complement (addr : BitVec 64)
    : (~~~addr.extractLsb 5 0 + 1).toNat = (64 - addr.toNat % 64) % 64 := by
  have below := Nat.mod_lt addr.toNat (show 0 < 64 by decide)
  rw [BitVec.toNat_add, BitVec.toNat_not, toNat_offset]
  change (2 ^ 6 - 1 - addr.toNat % 64 + 1) % 2 ^ 6 = _
  omega

/-- `{shift,3'b0}` counts bits. -/
theorem toNat_byteShift (shift : BitVec 6) : (shift ++ 0#3).toNat = 8 * shift.toNat := by
  rw [toNat_append_add]
  simp [Nat.mul_comm]

/-- `(1<<bytes) - 1` enables the first `bytes` bytes. -/
theorem getLsbD_mask (bytes : BitVec 7) {i : Nat} (within : i < 64)
    : ((1#64 <<< bytes) - 1#64).getLsbD i = decide (i < bytes.toNat) := by
  by_cases whole : 64 ≤ bytes.toNat
  · have zero : 1#64 <<< bytes = 0#64 := by
      rw [BitVec.shiftLeft_eq']
      exact BitVec.shiftLeft_eq_zero whole
    have inside : i < bytes.toNat := by omega
    rw [zero, show 0#64 - 1#64 = BitVec.allOnes 64 from rfl, BitVec.getLsbD_allOnes]
    simp only [within, inside]
  · have power : (1#64 <<< bytes) - 1#64 = BitVec.ofNat 64 (2 ^ bytes.toNat - 1) := by
      have bound : 2 ^ bytes.toNat < 2 ^ 64 := Nat.pow_lt_pow_right (by decide) (by omega)
      have positive := Nat.two_pow_pos bytes.toNat
      apply BitVec.eq_of_toNat_eq
      rw [BitVec.toNat_sub, BitVec.shiftLeft_eq', BitVec.toNat_shiftLeft, Nat.shiftLeft_eq,
        BitVec.toNat_ofNat, BitVec.toNat_ofNat]
      omega
    rw [power, BitVec.getLsbD_ofNat, Nat.testBit_two_pow_sub_one]
    simp [within]

/-- Byte enables of the first row of a write: from the offset, at most to the row's end. -/
theorem getLsbD_mask0 (addr : BitVec 64) (data : BitVec 512) (bytes : BitVec 7) {i : Nat}
    (within : i < 64)
    : (writeCommand addr data bytes).firstRow.writeen.getLsbD i
      = (decide (addr.toNat % 64 ≤ i) && decide (i < addr.toNat % 64 + bytes.toNat)) := by
  simp only [writeCommand, DRAMWrRequest.firstRow]
  rw [BitVec.shiftLeft_eq', toNat_offset, BitVec.getLsbD_shiftLeft,
    getLsbD_mask bytes (show i - addr.toNat % 64 < 64 by omega)]
  by_cases below : i < addr.toNat % 64
  · simp [below, show ¬addr.toNat % 64 ≤ i by omega]
  · simp only [below, within, decide_true, decide_false, Bool.not_false, Bool.true_and,
      show addr.toNat % 64 ≤ i by omega]
    exact decide_eq_decide.mpr (by omega)

/-- Byte enables of the next row of a write that does not start its row. -/
theorem getLsbD_mask1 (addr : BitVec 64) (data : BitVec 512) (bytes : BitVec 7) {i : Nat}
    (offset : addr.toNat % 64 ≠ 0) (fits : bytes.toNat ≤ 64)
    : (writeCommand addr data bytes).nextRow.writeen.getLsbD i
      = decide (i + 64 < addr.toNat % 64 + bytes.toNat) := by
  simp only [writeCommand, DRAMWrRequest.nextRow]
  rw [BitVec.ushiftRight_eq', toNat_complement, BitVec.getLsbD_ushiftRight]
  by_cases within : (64 - addr.toNat % 64) % 64 + i < 64
  · rw [getLsbD_mask bytes within]
    exact decide_eq_decide.mpr (by omega)
  · rw [BitVec.getLsbD_of_ge _ _ (by omega)]
    simp only [false_eq_decide_iff]
    omega

/-- The bytes of the first row's data are the first ones of the write. -/
theorem byteAt_datain0 (addr : BitVec 64) (data : BitVec 512) (bytes : BitVec 7) {i : Nat}
    (above : addr.toNat % 64 ≤ i) (within : i < 64)
    : byteAt (writeCommand addr data bytes).firstRow.datain i
      = byteAt data (i - addr.toNat % 64) := by
  simp only [writeCommand, DRAMWrRequest.firstRow]
  rw [BitVec.shiftLeft_eq', toNat_byteShift, offset_addrReMapping, toNat_offset]
  exact byteAt_shiftLeft data above within

/-- The bytes of the next row's data are those behind the first row's. -/
theorem byteAt_datain1 (addr : BitVec 64) (data : BitVec 512) (bytes : BitVec 7) (i : Nat)
    (offset : addr.toNat % 64 ≠ 0)
    : byteAt (writeCommand addr data bytes).nextRow.datain i
      = byteAt data (i + (64 - addr.toNat % 64)) := by
  simp only [writeCommand, DRAMWrRequest.nextRow]
  rw [BitVec.ushiftRight_eq', toNat_byteShift, offset_addrReMapping, toNat_complement,
    Nat.mod_eq_of_lt (by omega)]
  exact byteAt_shiftRight ..

-----------------------------------------------------------------------------------------
-- Rows
-----------------------------------------------------------------------------------------

/-- The DDR3 row of an address. -/
def ddrRow (addr : BitVec 64) : BitVec 25 := (addrReMapping addr >>> 6 <<< 3).extractLsb' 3 25

/-- The DDR3 row of logical row `r`. -/
def remapRow (r : Nat) : Nat := r / 4096 % 8 * 2 ^ 21 + r / 2 ^ 15 % 512 * 4096 + r % 4096

/-- The DDR3 has 2^24 rows. -/
theorem remapRow_lt (r : Nat) : remapRow r < 2 ^ 24 := by
  unfold remapRow
  omega

/-- The row index of a remapped address is the remapped row index. -/
theorem addrReMapping_row (addr : BitVec 64)
    : (addrReMapping addr).toNat / 2 ^ 6 = remapRow (addr.toNat / 64) := by
  have bank : addr.toNat / 64 / 4096 = addr.toNat / 2 ^ 18 := Nat.div_div_eq_div_mul ..
  have high : addr.toNat / 64 / 2 ^ 15 = addr.toNat / 2 ^ 21 := Nat.div_div_eq_div_mul ..
  have low : addr.toNat / 64 % 4096 = addr.toNat % 2 ^ 18 / 64 := by omega
  rw [toNat_addrReMapping, remapRow, bank, high, low]
  omega

/-- The row of an address is the remapped logical row. -/
theorem toNat_ddrRow (addr : BitVec 64)
    : (ddrRow addr).toNat = remapRow (addr.toNat / 64) := by
  have bound := remapRow_lt (addr.toNat / 64)
  simp only [ddrRow, BitVec.extractLsb'_toNat, BitVec.toNat_shiftLeft, BitVec.toNat_ushiftRight,
    Nat.shiftRight_eq_div_pow, Nat.shiftLeft_eq, addrReMapping_row]
  omega

/-- Both rows of a write or read, in terms of its address. -/
theorem row_firstRow (addr : BitVec 64) (data : BitVec 512) (bytes : BitVec 7)
    : (writeCommand addr data bytes).firstRow.row = ddrRow addr := rfl

/-- The next row is the next DDR3 row, whatever logical row that is. -/
theorem toNat_row_nextRow (addr : BitVec 64) (data : BitVec 512) (bytes : BitVec 7)
    : (writeCommand addr data bytes).nextRow.row.toNat
      = remapRow (addr.toNat / 64) + 1 := by
  have bound := remapRow_lt (addr.toNat / 64)
  have one : (1 : BitVec 64).toNat = 1 := rfl
  simp only [writeCommand, DRAMWrRequest.nextRow, DDRRequest.row, BitVec.extractLsb'_toNat,
    BitVec.toNat_shiftLeft, BitVec.toNat_add, BitVec.toNat_ushiftRight,
    Nat.shiftRight_eq_div_pow, Nat.shiftLeft_eq, addrReMapping_row, one]
  omega

/-- Different logical rows below 1 GB lie in different DDR3 rows. -/
theorem remapRow_injective {r r' : Nat} (inside : r < 2 ^ 24) (inside' : r' < 2 ^ 24)
    (same : remapRow r = remapRow r')
    : r = r' := by
  unfold remapRow at same
  have low : r % 4096 = r' % 4096 := by omega
  have bank : r / 4096 % 8 = r' / 4096 % 8 := by omega
  have high : r / 2 ^ 15 % 512 = r' / 2 ^ 15 % 512 := by omega
  have split : r / 4096 / 8 = r / 2 ^ 15 := Nat.div_div_eq_div_mul ..
  have split' : r' / 4096 / 8 = r' / 2 ^ 15 := Nat.div_div_eq_div_mul ..
  omega

/-- The DDR3 row behind a logical row is that of the next logical row, except at the end of
256 KB, where the bank bits lie between row bits.
-/
theorem remapRow_succ_iff {r : Nat}
    : remapRow (r + 1) = remapRow r + 1 ↔ r % 4096 ≠ 4095 := by
  simp only [remapRow]
  omega

end BluespecPcie
