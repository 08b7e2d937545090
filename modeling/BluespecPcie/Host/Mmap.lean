import Mathlib.Algebra.Order.Ring.Nat
import Mathlib.Data.List.Basic
import Mathlib.Tactic.Common

/-! `bdbm_mmap` of the driver: which part of BAR0 and which DMA pages a window maps. -/

namespace BluespecPcie

-----------------------------------------------------------------------------------------
-- The driver
-----------------------------------------------------------------------------------------

/-- `PAGE_SIZE`, of type `unsigned long`. -/
def PAGE_SIZE : BitVec 64 := 4096

/-- `bar0_size`. -/
def BdbmDriver.bar0_size : BitVec 64 := 1024 * 1024

/-- What `mmap` may be called for: a range of addresses, and an offset in pages whose window
ends below 2^64.
-/
structure VmArea where
  vm_start : BitVec 64
  vm_end : BitVec 64
  vm_pgoff : BitVec 64
  ordered : vm_start.toNat ≤ vm_end.toNat
  window : vm_pgoff.toNat * 4096 + (vm_end.toNat - vm_start.toNat) < 2 ^ 64

/-- The globals of the driver that `bdbm_mmap` reads. The memory of BAR0 is aligned to pages
and does not wrap, and the loop over the pages counts with an `int`.
-/
structure BdbmDriver where
  bar0_addr : BitVec 64
  dma_pages_count : BitVec 32
  aligned : bar0_addr.toNat % 4096 = 0
  inside : bar0_addr.toNat + 1024 * 1024 ≤ 2 ^ 64
  counted : dma_pages_count.toNat ≤ 2 ^ 31

/-- A call that enters pages into the area; a DMA page is named by its index. -/
inductive MmapCall where
  | remap_pfn_range (addr pfn size : BitVec 64)
  | vm_insert_page (addr : BitVec 64) (page : Nat)
deriving DecidableEq

/-- One iteration of the loop over the DMA pages. -/
def insertPage (vma : VmArea) (off vsize : BitVec 64) (buffoff : BitVec 32) (i : Nat)
    : Option MmapCall :=
  let pageoff : BitVec 32 := (BdbmDriver.bar0_size + PAGE_SIZE * BitVec.ofNat 64 i).setWidth 32
  if pageoff.setWidth 64 ≥ off ∧ pageoff.setWidth 64 + PAGE_SIZE < off + vsize then
    some (.vm_insert_page
      (vma.vm_start + buffoff.setWidth 64 + PAGE_SIZE * BitVec.ofNat 64 i) i)
  else none

/-- The bytes of BAR0 to map. -/
def intvsize (off vsize : BitVec 64) : BitVec 32 :=
  let intvsize : BitVec 32 := (BdbmDriver.bar0_size - off).setWidth 32
  if vsize < intvsize.setWidth 64 then vsize.setWidth 32 else intvsize

/-- The calls of `bdbm_mmap`, which looks at no result of theirs. -/
def BdbmDriver.bdbm_mmap (d : BdbmDriver) (vma : VmArea) : List MmapCall :=
  let off := vma.vm_pgoff <<< 12
  let vsize := vma.vm_end - vma.vm_start
  let physical := d.bar0_addr + off
  let io :=
    if off < BdbmDriver.bar0_size then
      [MmapCall.remap_pfn_range vma.vm_start (physical >>> 12)
        ((intvsize off vsize).setWidth 64)]
    else []
  let buffer :=
    if off + vsize > BdbmDriver.bar0_size then
      let buffoff : BitVec 32 := (BdbmDriver.bar0_size - off).setWidth 32
      (List.range d.dma_pages_count.toNat).filterMap (insertPage vma off vsize buffoff)
    else []
  io ++ buffer

-----------------------------------------------------------------------------------------
-- What a window is to map
-----------------------------------------------------------------------------------------

namespace VmArea

/-- The offset of the window in the file. -/
def off (vma : VmArea) : Nat := vma.vm_pgoff.toNat * 4096

/-- The length of the window. -/
def vsize (vma : VmArea) : Nat := vma.vm_end.toNat - vma.vm_start.toNat

/-- The offset of DMA page `i` in the file: the pages follow BAR0. -/
def pageStart (i : Nat) : Nat := 1024 * 1024 + 4096 * i

/-- The whole page lies in the window. -/
def Holds (vma : VmArea) (i : Nat) : Prop :=
  vma.off ≤ pageStart i ∧ pageStart i + 4096 ≤ vma.off + vma.vsize

instance decidableHolds (vma : VmArea) (i : Nat) : Decidable (vma.Holds i) :=
  inferInstanceAs (Decidable (_ ∧ _))

end VmArea

/-- The calls map the part of BAR0 in the window from `vm_start` on, and of the DMA pages just
those in the window, each at its own place.
-/
structure BdbmDriver.Maps (d : BdbmDriver) (vma : VmArea) (calls : List MmapCall) : Prop where
  bar0
    : ∀ addr pfn size,
        .remap_pfn_range addr pfn size ∈ calls
        ↔ vma.off < 1024 * 1024
          ∧ addr = vma.vm_start
          ∧ pfn.toNat * 4096 = d.bar0_addr.toNat + vma.off
          ∧ size.toNat = min (vma.off + vma.vsize) (1024 * 1024) - vma.off
  pages
    : ∀ addr i,
        .vm_insert_page addr i ∈ calls
        ↔ i < d.dma_pages_count.toNat
          ∧ vma.Holds i
          ∧ addr = vma.vm_start + BitVec.ofNat 64 (VmArea.pageStart i - vma.off)

/-- The window reaches behind BAR0 and holds the page at its offset modulo 4 GB, short of its
own end.
-/
def VmArea.Takes (vma : VmArea) (i : Nat) : Prop :=
  1024 * 1024 < vma.off + vma.vsize
  ∧ vma.off ≤ VmArea.pageStart i % 2 ^ 32
  ∧ VmArea.pageStart i % 2 ^ 32 + 4096 < vma.off + vma.vsize

/-- No page in the window ends with it, none lies in a window behind BAR0, and a page from
4 GB on lies in the window exactly if its offset modulo 4 GB does, short of the end.
-/
structure BdbmDriver.Apart (d : BdbmDriver) (vma : VmArea) : Prop where
  inside
    : ∀ i < d.dma_pages_count.toNat,
        VmArea.pageStart i < 2 ^ 32
        → vma.Holds i
        → VmArea.pageStart i + 4096 ≠ vma.off + vma.vsize
  before : 1024 * 1024 < vma.off → ∀ i < d.dma_pages_count.toNat, ¬ vma.Holds i
  far
    : ∀ i < d.dma_pages_count.toNat,
        2 ^ 32 ≤ VmArea.pageStart i → (vma.Holds i ↔ vma.Takes i)

-----------------------------------------------------------------------------------------
-- The values of the code
-----------------------------------------------------------------------------------------

/-- The size of BAR0 as a number. -/
theorem BdbmDriver.toNat_bar0_size : BdbmDriver.bar0_size.toNat = 1024 * 1024 := by
  decide +kernel

/-- The size of a page as a number. -/
theorem toNat_PAGE_SIZE : PAGE_SIZE.toNat = 4096 := by decide +kernel

namespace VmArea

variable (vma : VmArea)

/-- `vma->vm_pgoff << PAGE_SHIFT`. -/
theorem toNat_off : (vma.vm_pgoff <<< 12).toNat = vma.off := by
  have window := vma.window
  rw [BitVec.toNat_shiftLeft, Nat.shiftLeft_eq, off]
  omega

/-- `vma->vm_end - vma->vm_start`. -/
theorem toNat_vsize : (vma.vm_end - vma.vm_start).toNat = vma.vsize := by
  rw [BitVec.toNat_sub_of_le (BitVec.le_def.mpr vma.ordered), vsize]

/-- `off + vsize`. -/
theorem toNat_windowEnd
    : (vma.vm_pgoff <<< 12 + (vma.vm_end - vma.vm_start)).toNat = vma.off + vma.vsize := by
  have window := vma.window
  rw [BitVec.toNat_add, toNat_off, toNat_vsize]
  unfold off vsize
  omega

/-- What lies in BAR0 of a window that starts there. -/
theorem toNat_intvsize (before : vma.off < 1024 * 1024)
    : ((intvsize (vma.vm_pgoff <<< 12) (vma.vm_end - vma.vm_start)).setWidth 64).toNat
      = min (vma.off + vma.vsize) (1024 * 1024) - vma.off := by
  have rest : (((BdbmDriver.bar0_size - vma.vm_pgoff <<< 12).setWidth 32).setWidth 64).toNat
      = 1024 * 1024 - vma.off := by
    rw [BitVec.toNat_setWidth, BitVec.toNat_setWidth, BitVec.toNat_sub, toNat_off,
      BdbmDriver.toNat_bar0_size]
    omega
  simp only [intvsize, BitVec.lt_def, rest, toNat_vsize]
  split
  next short =>
    rw [BitVec.toNat_setWidth, BitVec.toNat_setWidth, toNat_vsize]
    omega
  next => omega

/-- The comparisons of an iteration, and its call. -/
theorem insertPage_eq_some (buffoff : BitVec 32) (i : Nat) (c : MmapCall)
    : insertPage vma (vma.vm_pgoff <<< 12) (vma.vm_end - vma.vm_start) buffoff i = some c
      ↔ (vma.off ≤ pageStart i % 2 ^ 32 ∧ pageStart i % 2 ^ 32 + 4096 < vma.off + vma.vsize)
        ∧ c = .vm_insert_page
            (vma.vm_start + buffoff.setWidth 64 + PAGE_SIZE * BitVec.ofNat 64 i) i := by
  have start : pageStart i = 1024 * 1024 + 4096 * i := rfl
  have pageoff : (((BdbmDriver.bar0_size + PAGE_SIZE * BitVec.ofNat 64 i).setWidth 32).setWidth
      64).toNat = pageStart i % 2 ^ 32 := by
    rw [BitVec.toNat_setWidth, BitVec.toNat_setWidth, BitVec.toNat_add, BitVec.toNat_mul,
      BitVec.toNat_ofNat, BdbmDriver.toNat_bar0_size, toNat_PAGE_SIZE, start]
    omega
  have pageEnd : (((BdbmDriver.bar0_size + PAGE_SIZE * BitVec.ofNat 64 i).setWidth 32).setWidth
      64 + PAGE_SIZE).toNat = pageStart i % 2 ^ 32 + 4096 := by
    rw [BitVec.toNat_add, pageoff, toNat_PAGE_SIZE]
    omega
  simp only [insertPage, ge_iff_le, BitVec.le_def, BitVec.lt_def, pageoff, pageEnd, toNat_off,
    toNat_windowEnd]
  split
  next taken =>
    rw [Option.some.injEq, and_iff_right taken]
    exact eq_comm
  next left =>
    constructor
    · intro none
      cases none
    · rintro ⟨inside, -⟩
      exact absurd inside left

end VmArea

namespace BdbmDriver

variable (d : BdbmDriver) (vma : VmArea)

/-- Where the code puts a page, from the start of the area on. -/
def place (vma : VmArea) (i : Nat) : BitVec 64 :=
  ((BdbmDriver.bar0_size - vma.vm_pgoff <<< 12).setWidth 32 : BitVec 32).setWidth 64
    + PAGE_SIZE * BitVec.ofNat 64 i

/-- The offset of a place, cut to 32 bits before the pages are counted. -/
theorem toNat_place (i : Nat)
    : (place vma i).toNat
      = ((2 ^ 64 - vma.off + 1024 * 1024) % 2 ^ 64 % 2 ^ 32 + 4096 * i) % 2 ^ 64 := by
  have small : (2 ^ 64 - vma.off + 1024 * 1024) % 2 ^ 64 % 2 ^ 32 < 2 ^ 64 := by omega
  rw [place, BitVec.toNat_add, BitVec.toNat_mul, BitVec.toNat_setWidth, BitVec.toNat_setWidth,
    BitVec.toNat_sub, BitVec.toNat_ofNat, vma.toNat_off, BdbmDriver.toNat_bar0_size,
    toNat_PAGE_SIZE, Nat.mod_eq_of_lt small, Nat.mul_mod, Nat.mod_mod, ← Nat.mul_mod,
    Nat.add_mod, Nat.mod_mod, ← Nat.add_mod]

/-- The call for BAR0. -/
theorem mem_remap (addr pfn size : BitVec 64)
    : .remap_pfn_range addr pfn size ∈ d.bdbm_mmap vma
      ↔ vma.off < 1024 * 1024
        ∧ addr = vma.vm_start
        ∧ pfn.toNat * 4096 = d.bar0_addr.toNat + vma.off
        ∧ size.toNat = min (vma.off + vma.vsize) (1024 * 1024) - vma.off := by
  have window := vma.window
  have aligned := d.aligned
  have inside := d.inside
  have offset : vma.off = vma.vm_pgoff.toNat * 4096 := rfl
  have onlyIo : .remap_pfn_range addr pfn size ∈ d.bdbm_mmap vma
      ↔ vma.vm_pgoff <<< 12 < BdbmDriver.bar0_size
        ∧ .remap_pfn_range addr pfn size
          = MmapCall.remap_pfn_range vma.vm_start ((d.bar0_addr + vma.vm_pgoff <<< 12) >>> 12)
              ((intvsize (vma.vm_pgoff <<< 12) (vma.vm_end - vma.vm_start)).setWidth 64) := by
    unfold bdbm_mmap
    simp only [List.mem_append]
    constructor
    · rintro (io | buffer)
      · split at io
        next before => exact ⟨before, List.mem_singleton.mp io⟩
        next => cases io
      · split at buffer
        next =>
          obtain ⟨i, _, made⟩ := List.mem_filterMap.mp buffer
          cases (vma.insertPage_eq_some _ _ _).mp made |>.2
        next => cases buffer
    · rintro ⟨before, same⟩
      refine .inl ?_
      rw [if_pos before, same]
      exact List.mem_singleton.mpr rfl
  rw [onlyIo]
  have start : vma.vm_pgoff <<< 12 < BdbmDriver.bar0_size ↔ vma.off < 1024 * 1024 := by
    rw [BitVec.lt_def, vma.toNat_off]
    rfl
  rw [start, MmapCall.remap_pfn_range.injEq]
  refine and_congr_right ?_
  intro before
  refine and_congr_right ?_
  intro _
  have physical : ((d.bar0_addr + vma.vm_pgoff <<< 12) >>> 12).toNat * 4096
      = d.bar0_addr.toNat + vma.off := by
    rw [BitVec.toNat_ushiftRight, Nat.shiftRight_eq_div_pow, BitVec.toNat_add, vma.toNat_off]
    omega
  refine and_congr ?_ ?_
  · rw [← physical, BitVec.toNat_inj.symm]
    omega
  · rw [← vma.toNat_intvsize before, BitVec.toNat_inj.symm]

/-- The calls for the DMA pages; what lies between a window and the end of BAR0 is cut to 32
bits.
-/
theorem mem_insert (addr : BitVec 64) (i : Nat)
    : .vm_insert_page addr i ∈ d.bdbm_mmap vma
      ↔ i < d.dma_pages_count.toNat
        ∧ vma.Takes i
        ∧ addr = vma.vm_start + place vma i := by
  have member : .vm_insert_page addr i ∈ d.bdbm_mmap vma
      ↔ BdbmDriver.bar0_size < vma.vm_pgoff <<< 12 + (vma.vm_end - vma.vm_start)
        ∧ i < d.dma_pages_count.toNat
        ∧ insertPage vma (vma.vm_pgoff <<< 12) (vma.vm_end - vma.vm_start)
            ((BdbmDriver.bar0_size - vma.vm_pgoff <<< 12).setWidth 32) i
          = some (.vm_insert_page addr i) := by
    unfold bdbm_mmap
    simp only [List.mem_append]
    constructor
    · rintro (io | buffer)
      · split at io
        next => cases List.mem_singleton.mp io
        next => cases io
      · split at buffer
        next more =>
          obtain ⟨j, counted, made⟩ := List.mem_filterMap.mp buffer
          cases (vma.insertPage_eq_some _ _ _).mp made |>.2
          exact ⟨more, List.mem_range.mp counted, made⟩
        next => cases buffer
    · rintro ⟨more, counted, made⟩
      refine .inr ?_
      rw [if_pos more]
      exact List.mem_filterMap.mpr ⟨i, List.mem_range.mpr counted, made⟩
  have reaches : BdbmDriver.bar0_size < vma.vm_pgoff <<< 12 + (vma.vm_end - vma.vm_start)
      ↔ 1024 * 1024 < vma.off + vma.vsize := by
    rw [BitVec.lt_def, vma.toNat_windowEnd]
    rfl
  rw [member, reaches, vma.insertPage_eq_some, MmapCall.vm_insert_page.injEq, VmArea.Takes,
    BitVec.add_assoc, ← place]
  constructor
  · rintro ⟨more, counted, taken, place, -⟩
    exact ⟨counted, ⟨more, taken⟩, place⟩
  · rintro ⟨counted, ⟨more, taken⟩, place⟩
    exact ⟨more, counted, taken, place, rfl⟩

/-- A page of a window that starts in BAR0 or with its end is put at its own place. -/
theorem placed {i : Nat} (before : vma.off ≤ 1024 * 1024)
    : place vma i = BitVec.ofNat 64 (VmArea.pageStart i - vma.off) := by
  refine BitVec.eq_of_toNat_eq ?_
  have start : VmArea.pageStart i = 1024 * 1024 + 4096 * i := rfl
  rw [toNat_place, BitVec.toNat_ofNat, start]
  generalize vma.off = off at before
  omega

/-- In a window behind BAR0 no page is. -/
theorem displaced {i : Nat} (counted : i < 2 ^ 31) (behind : 1024 * 1024 < vma.off)
    (held : vma.Holds i)
    : place vma i ≠ BitVec.ofNat 64 (VmArea.pageStart i - vma.off) := by
  have start := held.1
  have window := vma.window
  intro same
  have values := congrArg BitVec.toNat same
  rw [toNat_place, BitVec.toNat_ofNat] at values
  have page : VmArea.pageStart i = 1024 * 1024 + 4096 * i := rfl
  rw [page] at start values
  generalize vma.off = off at behind start values
  omega

/-- The pages of a window are those the code takes. -/
theorem Apart.holds_iff {d : BdbmDriver} {vma : VmArea} (apart : d.Apart vma) {i : Nat}
    (counted : i < d.dma_pages_count.toNat)
    : vma.Holds i ↔ vma.Takes i := by
  by_cases near : VmArea.pageStart i < 2 ^ 32
  · have same : VmArea.pageStart i % 2 ^ 32 = VmArea.pageStart i := Nat.mod_eq_of_lt near
    rw [VmArea.Takes, same]
    constructor
    · intro held
      have apart := apart.inside i counted near held
      obtain ⟨start, stop⟩ := held
      refine ⟨?_, start, by omega⟩
      unfold VmArea.pageStart at stop
      omega
    · rintro ⟨_, start, stop⟩
      exact ⟨start, Nat.le_of_lt stop⟩
  · exact apart.far i counted (Nat.le_of_not_lt near)

/-- A window is mapped as it should be exactly if none of its pages ends with it, none of its
pages lies behind BAR0 while it starts there, and no page from 4 GB on comes in between.
-/
theorem mmap_maps : d.Maps vma (d.bdbm_mmap vma) ↔ d.Apart vma := by
  constructor
  · rintro ⟨-, pages⟩
    have taken {i : Nat} (counted : i < d.dma_pages_count.toNat) (held : vma.Holds i)
        : vma.Takes i :=
      ((d.mem_insert vma _ i).mp ((pages _ i).mpr ⟨counted, held, rfl⟩)).2.1
    refine ⟨?_, ?_, ?_⟩
    · intro i counted near held same
      have stop := (taken counted held).2.2
      rw [Nat.mod_eq_of_lt near] at stop
      omega
    · intro behind i counted held
      have place := ((d.mem_insert vma _ i).mp ((pages _ i).mpr ⟨counted, held, rfl⟩)).2.2
      exact displaced vma (Nat.lt_of_lt_of_le counted d.counted) behind held
        ((BitVec.add_right_inj vma.vm_start).mp place).symm
    · intro i counted _
      refine ⟨taken counted, ?_⟩
      intro takes
      exact ((pages _ i).mp ((d.mem_insert vma _ i).mpr ⟨counted, takes, rfl⟩)).2.1
  · intro apart
    refine ⟨d.mem_remap vma, ?_⟩
    intro addr i
    rw [d.mem_insert vma]
    refine and_congr_right ?_
    intro counted
    rw [← apart.holds_iff counted]
    refine and_congr_right ?_
    intro held
    have before : vma.off ≤ 1024 * 1024 := by
      by_contra behind
      exact apart.before (Nat.lt_of_not_le behind) i counted held
    rw [placed vma before]

end BdbmDriver

/-- The driver as it is loaded, with 1 MB of DMA pages. -/
def loadedDriver : BdbmDriver where
  bar0_addr := 0xf0000000
  dma_pages_count := 256
  aligned := by decide
  inside := by decide
  counted := by decide

/-- The mapping of the DMA pages that test.cpp asks for: 1 MB at offset 1 MB. -/
def bufferArea : VmArea where
  vm_start := 0x7f0000000000
  vm_end := 0x7f0000100000
  vm_pgoff := 256
  ordered := by decide
  window := by decide

/-- The last DMA page lies in the mapping, and is not inserted. -/
theorem mmap_maps_buffer
    : bufferArea.Holds 255
      ∧ ¬ loadedDriver.Maps bufferArea (loadedDriver.bdbm_mmap bufferArea) := by
  have held : bufferArea.Holds 255 := by decide
  refine ⟨held, ?_⟩
  rintro ⟨-, pages⟩
  have inserted := (pages _ 255).mpr ⟨by decide, held, rfl⟩
  have taken := ((BdbmDriver.mem_insert loadedDriver bufferArea _ 255).mp inserted).2.1
  exact absurd taken.2.2 (by decide)

end BluespecPcie
