import Mathlib.Algebra.Order.Ring.Nat
import Mathlib.Data.List.Perm.Basic
import Mathlib.Logic.Function.Basic
import Mathlib.Tactic.Common

/-! The DMA pages of the driver, from `pcie_probe` to `pcie_remove`: what is allocated and mapped,
and what is unmapped and freed.
-/

namespace BluespecPcie

-----------------------------------------------------------------------------------------
-- The kernel and the device
-----------------------------------------------------------------------------------------

/-- What the kernel answers: results of calls that can fail, and for the page allocations and
the mappings the result of the call for each buffer. A page is named by its frame number.
-/
structure Kernel where
  pci_enable_device : Int
  resource_mem : Bool
  pci_request_regions : Int
  pci_iomap : Bool
  kmalloc : Bool
  alloc_page : Nat → Option Nat
  pci_map_single : Nat → BitVec 64
  pci_dma_mapping_error : BitVec 64 → Bool

/-- What the driver asks of the kernel. The entry of an array that was never stored to, or of
no array, is no page.
-/
inductive KernelCall where
  | pci_enable_device
  | pci_request_regions
  | pci_iomap
  | alloc_page (page : Nat)
  | pci_map_single (page : Nat) (bus_addr : BitVec 64)
  | pci_unmap_single (bus_addr : BitVec 64)
  | free_page (page : Option Nat)
  | kfree
  | pci_iounmap
  | pci_release_regions
  | pci_disable_device
deriving DecidableEq

/-- A device behind BAR0: word writes, and reads of a byte. -/
structure Bar0 (δ : Type) where
  iowrite32 : δ → Nat → BitVec 32 → δ
  byte : δ → Nat → BitVec 8

/-- The globals of the driver, the device, and the calls so far. -/
structure DriverState (δ : Type) where
  dma_pages : Option (Nat → Option Nat)
  dma_pages_count : Nat
  mmap_buffersize : Nat
  bar0 : δ
  calls : List KernelCall

/-- `DMA_ADDR_OFFSET`. -/
def DMA_ADDR_OFFSET : Nat := 32

namespace DriverState

variable {δ : Type}

/-- The driver when it is loaded. -/
def loaded (mmap_buffersize : Nat) (bar0 : δ) : DriverState δ where
  dma_pages := none
  dma_pages_count := 0
  mmap_buffersize
  bar0
  calls := []

/-- A call whose result the driver does not use. -/
def call (d : DriverState δ) (c : KernelCall) : DriverState δ := { d with calls := d.calls ++ [c] }

-----------------------------------------------------------------------------------------
-- pcie_probe
-----------------------------------------------------------------------------------------

/-- One iteration of `create_dma_buffer`; the flag is false when it returns 1. The entry is
written to the device before the mapping is checked.
-/
def mapBuffer (k : Kernel) (dev : Bar0 δ) (bufidx : Nat) (d : DriverState δ)
    : DriverState δ × Bool :=
  match k.alloc_page bufidx with
  | none => (d, false)
  | some page =>
      let bus_addr := k.pci_map_single bufidx
      ({ d with
          dma_pages := d.dma_pages.map (Function.update · bufidx (some page))
          bar0 := dev.iowrite32 d.bar0 (DMA_ADDR_OFFSET + 4 * bufidx) (bus_addr.setWidth 32)
          calls := d.calls ++ [.alloc_page page, .pci_map_single page bus_addr] },
        !k.pci_dma_mapping_error bus_addr)

/-- The loop of `create_dma_buffer`, for `left` buffers from `bufidx` on. -/
def mapBuffers (k : Kernel) (dev : Bar0 δ)
    : (left bufidx : Nat) → DriverState δ → DriverState δ × Bool
  | 0, _, d => (d, true)
  | left + 1, bufidx, d =>
      match d.mapBuffer k dev bufidx with
      | (d, false) => (d, false)
      | (d, true) => mapBuffers k dev left (bufidx + 1) d

/-- `create_dma_buffer`, which only prints a message when `dma_pages` is not null. -/
def create_dma_buffer (k : Kernel) (dev : Bar0 δ) (bufcount : Nat) (d : DriverState δ)
    : DriverState δ × Int :=
  if k.kmalloc then
    match mapBuffers k dev bufcount 0 { d with dma_pages := some (fun _ => none) } with
    | (d, true) => ({ d with dma_pages_count := bufcount }, 0)
    | (d, false) => (d, 1)
  else ({ d with dma_pages := none }, 1)

/-- `pcie_probe`, which ignores the result of `create_dma_buffer`. -/
def pcie_probe (k : Kernel) (dev : Bar0 δ) (d : DriverState δ) : DriverState δ × Int :=
  if k.pci_enable_device ≠ 0 then (d, k.pci_enable_device)
  else
    let d := d.call .pci_enable_device
    if k.resource_mem = false then (d.call .pci_disable_device, 1)
    else if k.pci_request_regions ≠ 0 then
      (d.call .pci_disable_device, k.pci_request_regions)
    else
      let d := d.call .pci_request_regions
      if k.pci_iomap = false then
        ((d.call .pci_release_regions).call .pci_disable_device, 1)
      else
        let d := d.call .pci_iomap
        ((d.create_dma_buffer k dev (d.mmap_buffersize / (1024 * 4))).1, 0)

-----------------------------------------------------------------------------------------
-- pcie_remove
-----------------------------------------------------------------------------------------

/-- The calls for entry `i` in `pcie_remove`: the bus address is one byte of BAR0. -/
def unmapBuffer (dev : Bar0 δ) (d : DriverState δ) (i : Nat) : List KernelCall :=
  [.pci_unmap_single ((dev.byte d.bar0 (DMA_ADDR_OFFSET + 4 * i)).setWidth 64),
    .free_page (d.dma_pages.bind (· i))]

/-- `pcie_remove`. -/
def pcie_remove (dev : Bar0 δ) (d : DriverState δ) : DriverState δ :=
  { d with
    calls := d.calls ++ (List.range d.dma_pages_count).flatMap (d.unmapBuffer dev)
      ++ (if d.dma_pages.isSome then [.kfree] else [])
      ++ [.pci_iounmap, .pci_release_regions, .pci_disable_device] }

end DriverState

-----------------------------------------------------------------------------------------
-- What is to be released
-----------------------------------------------------------------------------------------

/-- The page of an allocation. -/
def KernelCall.allocated : KernelCall → Option Nat
  | alloc_page page => some page
  | _ => none

/-- What was freed. -/
def KernelCall.freed : KernelCall → Option (Option Nat)
  | free_page page => some page
  | _ => none

/-- The bus address of a mapping that succeeded. -/
def KernelCall.mapped (k : Kernel) : KernelCall → Option (BitVec 64)
  | pci_map_single _ bus_addr => if k.pci_dma_mapping_error bus_addr then none else some bus_addr
  | _ => none

/-- The bus address of an unmapping. -/
def KernelCall.unmapped : KernelCall → Option (BitVec 64)
  | pci_unmap_single bus_addr => some bus_addr
  | _ => none

/-- Each page is freed as often as it was allocated and nothing else is, and each mapping is
undone once with its own bus address.
-/
structure Released (k : Kernel) (calls : List KernelCall) : Prop where
  pages : (calls.filterMap KernelCall.freed).Perm
    ((calls.filterMap KernelCall.allocated).map some)
  mappings : (calls.filterMap KernelCall.unmapped).Perm
    (calls.filterMap (KernelCall.mapped k))

namespace Kernel

/-- Buffer `i` gets a page and a mapping. -/
def Maps (k : Kernel) (i : Nat) : Prop :=
  (k.alloc_page i).isSome ∧ k.pci_dma_mapping_error (k.pci_map_single i) = false

/-- No page is ever allocated for `n` buffers. -/
def AllocatesNone (k : Kernel) (n : Nat) : Prop :=
  n = 0 ∨ k.kmalloc = false ∨ k.alloc_page 0 = none

/-- The array and all `n` buffers are acquired. -/
def AcquiresAll (k : Kernel) (n : Nat) : Prop := k.kmalloc = true ∧ ∀ i < n, k.Maps i

/-- The device with the entries of the first `n` buffers written. -/
def entries {δ : Type} (k : Kernel) (dev : Bar0 δ) (bar0 : δ) (n : Nat) : δ :=
  (List.range n).foldl
    (fun bar0 i => dev.iowrite32 bar0 (DMA_ADDR_OFFSET + 4 * i) ((k.pci_map_single i).setWidth 32))
    bar0

/-- The bytes read at the entries of the first `n` buffers. -/
def entryBytes {δ : Type} (k : Kernel) (dev : Bar0 δ) (bar0 : δ) (n : Nat)
    : List (BitVec 64) :=
  (List.range n).map
    (fun i => (dev.byte (k.entries dev bar0 n) (DMA_ADDR_OFFSET + 4 * i)).setWidth 64)

end Kernel

-----------------------------------------------------------------------------------------
-- The loop
-----------------------------------------------------------------------------------------

section Loop

variable {δ : Type} {k : Kernel} {dev : Bar0 δ}

/-- The calls of an iteration that runs to its end. -/
def Kernel.bufferCalls (k : Kernel) (i : Nat) : List KernelCall :=
  match k.alloc_page i with
  | none => []
  | some page => [.alloc_page page, .pci_map_single page (k.pci_map_single i)]

/-- The state behind an iteration that runs to its end. -/
theorem mapBuffer_maps {i : Nat} (maps : k.Maps i) (d : DriverState δ)
    : d.mapBuffer k dev i
      = ({ d with
            dma_pages := d.dma_pages.map (Function.update · i (k.alloc_page i))
            bar0 := dev.iowrite32 d.bar0 (DMA_ADDR_OFFSET + 4 * i)
              ((k.pci_map_single i).setWidth 32)
            calls := d.calls ++ k.bufferCalls i }, true) := by
  obtain ⟨allocated, fine⟩ := maps
  obtain ⟨page, allocated⟩ := Option.isSome_iff_exists.mp allocated
  simp [DriverState.mapBuffer, Kernel.bufferCalls, allocated, fine]

/-- The state behind a loop that runs to its end; induction on the buffers left. -/
theorem mapBuffers_maps {left bufidx : Nat}
    (maps : ∀ i, bufidx ≤ i → i < bufidx + left → k.Maps i) (d : DriverState δ)
    : d.mapBuffers k dev left bufidx
      = ({ d with
            dma_pages := d.dma_pages.map (fun pages i =>
              if bufidx ≤ i ∧ i < bufidx + left then k.alloc_page i else pages i)
            bar0 := (List.range' bufidx left).foldl (fun bar0 i =>
              dev.iowrite32 bar0 (DMA_ADDR_OFFSET + 4 * i) ((k.pci_map_single i).setWidth 32))
              d.bar0
            calls := d.calls ++ (List.range' bufidx left).flatMap k.bufferCalls }, true) := by
  induction left generalizing bufidx d with
  | zero =>
      have none (i : Nat) : ¬(bufidx ≤ i ∧ i < bufidx) := by omega
      simp [DriverState.mapBuffers, none]
  | succ left ih =>
      have first := maps bufidx (Nat.le_refl _) (by omega)
      have rest := @ih (bufidx + 1) (fun i above within => maps i (by omega) (by omega))
      rw [DriverState.mapBuffers, mapBuffer_maps first]
      simp only [rest, List.range'_succ, List.foldl_cons, List.flatMap_cons, List.append_assoc,
        Option.map_map]
      congr 2
      refine congrArg (Option.map · d.dma_pages) (funext fun pages => funext fun i => ?_)
      by_cases here : i = bufidx
      · subst here
        simp
      · have split
            : (bufidx ≤ i ∧ i < bufidx + (left + 1))
              ↔ (bufidx + 1 ≤ i ∧ i < bufidx + 1 + left) := by omega
        simp [Function.update_of_ne here, split]

/-- A loop that stops early has freed and unmapped nothing, and leaves the count and the earlier
calls; induction on the buffers left.
-/
theorem mapBuffers_stops {left bufidx : Nat}
    (stops : ∃ i, bufidx ≤ i ∧ i < bufidx + left ∧ ¬k.Maps i) (d : DriverState δ)
    : ∃ d', d.mapBuffers k dev left bufidx = (d', false)
        ∧ d'.dma_pages_count = d.dma_pages_count
        ∧ ∃ more, d'.calls = d.calls ++ more
          ∧ more.filterMap KernelCall.freed = [] ∧ more.filterMap KernelCall.unmapped = []
          ∧ (k.alloc_page bufidx = none → more = [])
          ∧ (k.alloc_page bufidx ≠ none → more.filterMap KernelCall.allocated ≠ []) := by
  induction left generalizing bufidx d with
  | zero =>
      obtain ⟨i, above, within, -⟩ := stops
      omega
  | succ left ih =>
      cases allocated : k.alloc_page bufidx with
      | none =>
          refine ⟨d, ?_, rfl, [], (List.append_nil _).symm, rfl, rfl, fun _ => rfl,
            fun some => absurd rfl some⟩
          simp [DriverState.mapBuffers, DriverState.mapBuffer, allocated]
      | some page =>
          cases failed : k.pci_dma_mapping_error (k.pci_map_single bufidx) with
          | true =>
              let calls : List KernelCall :=
                [.alloc_page page, .pci_map_single page (k.pci_map_single bufidx)]
              refine ⟨{ d with
                  dma_pages := d.dma_pages.map (Function.update · bufidx (some page))
                  bar0 := dev.iowrite32 d.bar0 (DMA_ADDR_OFFSET + 4 * bufidx)
                    ((k.pci_map_single bufidx).setWidth 32)
                  calls := d.calls ++ calls }, ?_, rfl, calls, rfl, rfl, rfl, nofun, ?_⟩
              · simp [DriverState.mapBuffers, DriverState.mapBuffer, allocated, failed, calls]
              · simp [calls, KernelCall.allocated]
          | false =>
              have first : k.Maps bufidx := ⟨by simp [allocated], failed⟩
              obtain ⟨i, above, within, not⟩ := stops
              have later : bufidx ≠ i := by
                rintro rfl
                exact not first
              obtain ⟨d', ran, count, more, calls, frees, unmaps, -, -⟩ :=
                @ih (bufidx + 1) ⟨i, by omega, by omega, not⟩
                  { d with
                    dma_pages := d.dma_pages.map
                      (Function.update · bufidx (k.alloc_page bufidx))
                    bar0 := dev.iowrite32 d.bar0 (DMA_ADDR_OFFSET + 4 * bufidx)
                      ((k.pci_map_single bufidx).setWidth 32)
                    calls := d.calls ++ k.bufferCalls bufidx }
              refine ⟨d', ?_, count, k.bufferCalls bufidx ++ more, ?_, ?_, ?_, ?_, ?_⟩
              · rw [DriverState.mapBuffers, mapBuffer_maps first]
                exact ran
              · rw [calls, List.append_assoc]
              · rw [List.filterMap_append, frees, List.append_nil, Kernel.bufferCalls, allocated]
                rfl
              · rw [List.filterMap_append, unmaps, List.append_nil, Kernel.bufferCalls, allocated]
                rfl
              · exact nofun
              · intro _
                rw [List.filterMap_append, Kernel.bufferCalls, allocated]
                exact List.cons_ne_nil _ _

end Loop

-----------------------------------------------------------------------------------------
-- From probe to remove
-----------------------------------------------------------------------------------------

section Release

variable {δ : Type} (k : Kernel) (dev : Bar0 δ) (bar0 : δ) (mmap_buffersize : Nat)

/-- The driver after `pcie_probe`. -/
def probed : DriverState δ × Int := (DriverState.loaded mmap_buffersize bar0).pcie_probe k dev

/-- The calls of `pcie_probe` and then `pcie_remove`. -/
def driverCalls : List KernelCall := ((probed k dev bar0 mmap_buffersize).1.pcie_remove dev).calls

/-- The number of buffers. -/
def bufcount : Nat := mmap_buffersize / (1024 * 4)

/-- The driver when `create_dma_buffer` is called. -/
def beforeBuffers : DriverState δ :=
  { DriverState.loaded mmap_buffersize bar0 with
    calls := [.pci_enable_device, .pci_request_regions, .pci_iomap] }

variable {k dev bar0 mmap_buffersize}

/-- A probe that succeeds has called `create_dma_buffer`. -/
theorem probed_eq (started : (probed k dev bar0 mmap_buffersize).2 = 0)
    : (probed k dev bar0 mmap_buffersize).1
      = ((beforeBuffers bar0 mmap_buffersize).create_dma_buffer k dev
          (bufcount mmap_buffersize)).1 := by
  revert started
  unfold probed DriverState.pcie_probe
  split
  next failed => exact fun none => absurd none failed
  next =>
    split
    next => exact nofun
    next =>
      split
      next failed => exact fun none => absurd none failed
      next =>
        split
        next => exact nofun
        next => exact fun _ => rfl

/-- The calls of a probe that reaches `create_dma_buffer` and of the removal, around those for
the buffers.
-/
def callsAround (array : Bool) (calls : List KernelCall) : List KernelCall :=
  [.pci_enable_device, .pci_request_regions, .pci_iomap] ++ calls
    ++ (if array then [.kfree] else [])
    ++ [.pci_iounmap, .pci_release_regions, .pci_disable_device]

/-- The calls around those for the buffers are about no page. -/
theorem released_callsAround (array : Bool) (calls : List KernelCall)
    : Released k (callsAround array calls) ↔ Released k calls := by
  have around {τ : Type} (f : KernelCall → Option τ)
      (first : [KernelCall.pci_enable_device, .pci_request_regions, .pci_iomap].filterMap f = [])
      (last : [KernelCall.kfree, .pci_iounmap, .pci_release_regions,
        .pci_disable_device].filterMap f = [])
      : (callsAround array calls).filterMap f = calls.filterMap f := by
    simp only [List.filterMap_eq_nil_iff, List.mem_cons, List.not_mem_nil, or_false,
      forall_eq_or_imp, forall_eq] at first last
    obtain ⟨enable, regions, iomap⟩ := first
    obtain ⟨free, unmap, release, disable⟩ := last
    cases array <;>
      simp [callsAround, enable, regions, iomap, free, unmap, release, disable]
  have frees := around KernelCall.freed rfl rfl
  have allocs := around KernelCall.allocated rfl rfl
  have unmaps := around KernelCall.unmapped rfl rfl
  have maps := around (KernelCall.mapped k) rfl rfl
  constructor
  · rintro ⟨pages, mappings⟩
    rw [frees, allocs] at pages
    rw [unmaps, maps] at mappings
    exact ⟨pages, mappings⟩
  · rintro ⟨pages, mappings⟩
    refine ⟨?_, ?_⟩
    · rw [frees, allocs]
      exact pages
    · rw [unmaps, maps]
      exact mappings

/-- Without the array nothing is allocated, and nothing freed. -/
theorem released_noArray (started : (probed k dev bar0 mmap_buffersize).2 = 0)
    (noArray : k.kmalloc = false)
    : Released k (driverCalls k dev bar0 mmap_buffersize) := by
  have calls
      : driverCalls k dev bar0 mmap_buffersize
        = callsAround false [] := by
    rw [driverCalls, probed_eq started, DriverState.create_dma_buffer, if_neg (by simp [noArray])]
    rfl
  rw [calls, released_callsAround]
  exact ⟨.refl _, .refl _⟩

/-- When the loop stops early the count stays 0 and nothing is freed, which is right only when
no page was allocated.
-/
theorem released_stops (started : (probed k dev bar0 mmap_buffersize).2 = 0)
    (array : k.kmalloc = true) (stops : ∃ i < bufcount mmap_buffersize, ¬k.Maps i)
    : Released k (driverCalls k dev bar0 mmap_buffersize) ↔ k.alloc_page 0 = none := by
  obtain ⟨i, within, not⟩ := stops
  obtain ⟨d, ran, count, more, called, frees, unmaps, nothing, something⟩ :=
    @mapBuffers_stops δ k dev (bufcount mmap_buffersize) 0
      ⟨i, Nat.zero_le _, by rwa [Nat.zero_add], not⟩
      { beforeBuffers bar0 mmap_buffersize with dma_pages := some (fun _ => none) }
  have state : (probed k dev bar0 mmap_buffersize).1 = d := by
    rw [probed_eq started, DriverState.create_dma_buffer, if_pos array, ran]
  have none : d.dma_pages_count = 0 := count
  have calls
      : driverCalls k dev bar0 mmap_buffersize
        = callsAround d.dma_pages.isSome more := by
    rw [driverCalls, state, DriverState.pcie_remove, none, called, List.range_zero,
      List.flatMap_nil, List.append_nil]
    rfl
  rw [calls, released_callsAround]
  constructor
  · intro released
    by_contra allocated
    refine something allocated ?_
    have pages := released.pages
    rw [frees, List.nil_perm, List.map_eq_nil_iff] at pages
    exact pages
  · intro failed
    rw [nothing failed]
    exact ⟨.refl _, .refl _⟩

/-- What a list of calls for buffers says of one kind, when each buffer says one thing. -/
theorem filterMap_flatMap_singles {τ : Type} {f : KernelCall → Option τ}
    {g : Nat → List KernelCall} {h : Nat → τ} {n : Nat}
    (single : ∀ i < n, (g i).filterMap f = [h i])
    : ((List.range n).flatMap g).filterMap f = (List.range n).map h := by
  rw [List.filterMap_flatMap, List.map_eq_flatMap]
  refine List.flatMap_congr ?_
  intro i member
  exact single i (List.mem_range.mp member)

/-- What a list of calls for buffers says of one kind, when no buffer says anything. -/
theorem filterMap_flatMap_none {τ : Type} {f : KernelCall → Option τ}
    {g : Nat → List KernelCall} {n : Nat} (none : ∀ i < n, (g i).filterMap f = [])
    : ((List.range n).flatMap g).filterMap f = [] := by
  rw [List.filterMap_flatMap, List.flatMap_eq_nil_iff]
  intro i member
  exact none i (List.mem_range.mp member)

/-- When everything is acquired, the pages are freed in order, and each entry of BAR0 is read
back as one byte.
-/
theorem released_all (started : (probed k dev bar0 mmap_buffersize).2 = 0)
    (acquired : k.AcquiresAll (bufcount mmap_buffersize))
    : Released k (driverCalls k dev bar0 mmap_buffersize)
      ↔ (k.entryBytes dev bar0 (bufcount mmap_buffersize)).Perm
          ((List.range (bufcount mmap_buffersize)).map k.pci_map_single) := by
  obtain ⟨array, maps⟩ := acquired
  let n := bufcount mmap_buffersize
  have ran := @mapBuffers_maps δ k dev n 0 (fun i _ within => maps i (by omega))
    { beforeBuffers bar0 mmap_buffersize with dma_pages := some (fun _ => none) }
  have state := probed_eq started
  rw [DriverState.create_dma_buffer, if_pos array, ran] at state
  simp only [← List.range_eq_range', Option.map_some, Nat.zero_le, true_and,
    Nat.zero_add] at state
  let unmaps (i : Nat) : List KernelCall :=
    [.pci_unmap_single ((dev.byte (k.entries dev bar0 n) (DMA_ADDR_OFFSET + 4 * i)).setWidth 64),
      .free_page (if i < n then k.alloc_page i else none)]
  have calls
      : driverCalls k dev bar0 mmap_buffersize
        = callsAround true
            ((List.range n).flatMap k.bufferCalls ++ (List.range n).flatMap unmaps) := by
    rw [driverCalls, state, DriverState.pcie_remove, callsAround, beforeBuffers, List.append_assoc
      [KernelCall.pci_enable_device, .pci_request_regions, .pci_iomap]]
    rfl
  have buffer (i : Nat) (within : i < n)
      : ∃ page, k.alloc_page i = some page
        ∧ k.bufferCalls i = [.alloc_page page, .pci_map_single page (k.pci_map_single i)]
        ∧ k.pci_dma_mapping_error (k.pci_map_single i) = false := by
    obtain ⟨allocated, fine⟩ := maps i within
    obtain ⟨page, allocated⟩ := Option.isSome_iff_exists.mp allocated
    exact ⟨page, allocated, by rw [Kernel.bufferCalls, allocated], fine⟩
  have frees
      : ((List.range n).flatMap k.bufferCalls
          ++ (List.range n).flatMap unmaps).filterMap KernelCall.freed
        = (List.range n).map k.alloc_page := by
    rw [List.filterMap_append, filterMap_flatMap_none, List.nil_append]
    · refine filterMap_flatMap_singles ?_
      intro i within
      change [if i < n then k.alloc_page i else none] = _
      rw [if_pos within]
    · intro i within
      obtain ⟨page, -, calls, -⟩ := buffer i within
      rw [calls]
      rfl
  have allocs
      : (((List.range n).flatMap k.bufferCalls
          ++ (List.range n).flatMap unmaps).filterMap KernelCall.allocated).map some
        = (List.range n).map k.alloc_page := by
    rw [List.filterMap_append, @filterMap_flatMap_none _ KernelCall.allocated unmaps n
      (fun i _ => rfl), List.append_nil]
    rw [List.filterMap_flatMap, List.map_flatMap, List.map_eq_flatMap]
    refine List.flatMap_congr ?_
    intro i member
    obtain ⟨page, allocated, calls, -⟩ := buffer i (List.mem_range.mp member)
    rw [calls, allocated]
    rfl
  have undone
      : ((List.range n).flatMap k.bufferCalls
          ++ (List.range n).flatMap unmaps).filterMap KernelCall.unmapped
        = k.entryBytes dev bar0 n := by
    rw [List.filterMap_append, filterMap_flatMap_none, List.nil_append]
    · exact filterMap_flatMap_singles (fun i _ => rfl)
    · intro i within
      obtain ⟨page, -, calls, -⟩ := buffer i within
      rw [calls]
      rfl
  have mapped
      : ((List.range n).flatMap k.bufferCalls
          ++ (List.range n).flatMap unmaps).filterMap (KernelCall.mapped k)
        = (List.range n).map k.pci_map_single := by
    rw [List.filterMap_append, @filterMap_flatMap_none _ (KernelCall.mapped k) unmaps n
      (fun i _ => rfl), List.append_nil]
    refine filterMap_flatMap_singles ?_
    intro i within
    obtain ⟨page, -, calls, fine⟩ := buffer i within
    have one
        : KernelCall.mapped k (.pci_map_single page (k.pci_map_single i))
          = some (k.pci_map_single i) := by
      rw [KernelCall.mapped, fine]
      rfl
    rw [calls, List.filterMap_cons_none rfl, List.filterMap_cons_some one, List.filterMap_nil]
  rw [calls, released_callsAround]
  constructor
  · intro released
    have mappings := released.mappings
    rw [undone, mapped] at mappings
    exact mappings
  · intro bytes
    refine ⟨?_, ?_⟩
    · rw [frees, allocs]
    · rw [undone, mapped]
      exact bytes

end Release

-----------------------------------------------------------------------------------------
-- A BAR0 that keeps what is written
-----------------------------------------------------------------------------------------

/-- BAR0 as a memory of bytes, in which a word is stored with its lowest byte first. -/
def storedBytes : Bar0 (Nat → BitVec 8) where
  iowrite32 mem off v := fun a =>
    if off ≤ a ∧ a < off + 4 then v.extractLsb' (8 * (a - off)) 8 else mem a
  byte mem a := mem a

/-- The byte at an entry is the lowest one of its bus address; induction on the entries. -/
theorem byte_entries (k : Kernel) (bar0 : Nat → BitVec 8) {n i : Nat} (within : i < n)
    : storedBytes.byte (k.entries storedBytes bar0 n) (DMA_ADDR_OFFSET + 4 * i)
      = (k.pci_map_single i).setWidth 8 := by
  induction n with
  | zero => omega
  | succ n ih =>
      have step
          : k.entries storedBytes bar0 (n + 1)
            = storedBytes.iowrite32 (k.entries storedBytes bar0 n) (DMA_ADDR_OFFSET + 4 * n)
                ((k.pci_map_single n).setWidth 32) := by
        rw [Kernel.entries, List.range_succ, List.foldl_append]
        rfl
      rw [step]
      by_cases last : i = n
      · subst last
        simp only [storedBytes, Nat.le_refl, true_and,
          Nat.lt_add_of_pos_right (show 0 < 4 by decide), if_true, Nat.sub_self, Nat.mul_zero]
        apply BitVec.eq_of_getLsbD_eq
        intro j low
        have inside : j < 32 := by omega
        simp [low, inside]
      · have apart : ¬(DMA_ADDR_OFFSET + 4 * n ≤ DMA_ADDR_OFFSET + 4 * i
            ∧ DMA_ADDR_OFFSET + 4 * i < DMA_ADDR_OFFSET + 4 * n + 4) := by omega
        have earlier := ih (by omega)
        simp only [storedBytes] at earlier ⊢
        rw [if_neg apart]
        exact earlier

/-- The bytes are the bus addresses exactly if these have no higher bits. -/
theorem entryBytes_perm_iff (k : Kernel) (bar0 : Nat → BitVec 8) (n : Nat)
    : (k.entryBytes storedBytes bar0 n).Perm ((List.range n).map k.pci_map_single)
      ↔ ∀ i < n, (k.pci_map_single i).toNat < 256 := by
  have bytes
      : k.entryBytes storedBytes bar0 n
        = (List.range n).map (fun i => ((k.pci_map_single i).setWidth 8).setWidth 64) := by
    refine List.map_congr_left ?_
    intro i member
    rw [byte_entries k bar0 (List.mem_range.mp member)]
  rw [bytes]
  constructor
  · intro perm i within
    have member := perm.mem_iff.mpr (List.mem_map_of_mem (List.mem_range.mpr within))
    obtain ⟨j, -, same⟩ := List.mem_map.mp member
    rw [← same, BitVec.toNat_setWidth, BitVec.toNat_setWidth]
    omega
  · intro small
    refine List.Perm.of_eq (List.map_congr_left ?_)
    intro i member
    have low := small i (List.mem_range.mp member)
    apply BitVec.eq_of_toNat_eq
    rw [BitVec.toNat_setWidth, BitVec.toNat_setWidth]
    omega

-----------------------------------------------------------------------------------------
-- All paths
-----------------------------------------------------------------------------------------

/-- Every buffer count and every failure: the driver releases its pages and mappings exactly if
no page was allocated, or everything was acquired and each bus address is read back from BAR0.
-/
theorem released_iff {δ : Type} {k : Kernel} {dev : Bar0 δ} {bar0 : δ} {mmap_buffersize : Nat}
    (started : (probed k dev bar0 mmap_buffersize).2 = 0)
    : Released k (driverCalls k dev bar0 mmap_buffersize)
      ↔ k.AllocatesNone (bufcount mmap_buffersize)
        ∨ (k.AcquiresAll (bufcount mmap_buffersize)
          ∧ (k.entryBytes dev bar0 (bufcount mmap_buffersize)).Perm
              ((List.range (bufcount mmap_buffersize)).map k.pci_map_single)) := by
  cases array : k.kmalloc with
  | false =>
      have released := released_noArray started array
      simp only [released, Kernel.AllocatesNone, array, true_or, or_true]
  | true =>
      by_cases maps : ∀ i < bufcount mmap_buffersize, k.Maps i
      · rw [released_all started ⟨array, maps⟩]
        constructor
        · intro bytes
          exact .inr ⟨⟨array, maps⟩, bytes⟩
        · rintro (none | ⟨-, bytes⟩)
          · rcases none with zero | failed | failed
            · rw [zero]
              exact .refl _
            · rw [array] at failed
              cases failed
            · rcases Nat.eq_zero_or_pos (bufcount mmap_buffersize) with zero | positive
              · rw [zero]
                exact .refl _
              · have allocated := (maps 0 positive).1
                rw [failed] at allocated
                cases allocated
          · exact bytes
      · have stops : ∃ i < bufcount mmap_buffersize, ¬k.Maps i := by
          simpa only [not_forall, exists_prop] using maps
        rw [released_stops started array stops]
        constructor
        · intro failed
          exact .inl (.inr (.inr failed))
        · rintro (none | ⟨acquired, -⟩)
          · rcases none with zero | failed | failed
            · obtain ⟨i, within, -⟩ := stops
              omega
            · rw [array] at failed
              cases failed
            · exact failed
          · exact absurd acquired.2 maps

/-- The driver releases what it acquired on the paths without a page, and on the path without
a failure when every bus address comes back from BAR0, for a BAR0 that keeps its words when
every bus address is below 256.
-/
theorem driver_releases (k : Kernel) (mmap_buffersize : Nat)
    : (∀ (δ : Type) (dev : Bar0 δ) (bar0 : δ),
        (probed k dev bar0 mmap_buffersize).2 = 0 →
        (Released k (driverCalls k dev bar0 mmap_buffersize)
          ↔ k.AllocatesNone (bufcount mmap_buffersize)
            ∨ (k.AcquiresAll (bufcount mmap_buffersize)
              ∧ (k.entryBytes dev bar0 (bufcount mmap_buffersize)).Perm
                  ((List.range (bufcount mmap_buffersize)).map k.pci_map_single))))
      ∧ ∀ bar0 : Nat → BitVec 8,
          (probed k storedBytes bar0 mmap_buffersize).2 = 0 →
          (Released k (driverCalls k storedBytes bar0 mmap_buffersize)
            ↔ k.AllocatesNone (bufcount mmap_buffersize)
              ∨ (k.AcquiresAll (bufcount mmap_buffersize)
                ∧ ∀ i < bufcount mmap_buffersize, (k.pci_map_single i).toNat < 256)) := by
  constructor
  · intro δ dev bar0 started
    exact released_iff started
  · intro bar0 started
    rw [released_iff started, entryBytes_perm_iff]

/-- A kernel that hands out pages in order and maps each at its frame, up to some failure. -/
def bootKernel (pages : Nat) : Kernel where
  pci_enable_device := 0
  resource_mem := true
  pci_request_regions := 0
  pci_iomap := true
  kmalloc := true
  alloc_page i := if i < pages then some i else none
  pci_map_single i := BitVec.ofNat 64 (4096 * i)
  pci_dma_mapping_error _ := false

/-- The same kernel with the pages mapped 16 bytes apart, from bus address 16 on. -/
def closeKernel (pages : Nat) : Kernel :=
  { bootKernel pages with pci_map_single := fun i => BitVec.ofNat 64 (16 * (i + 1)) }

/-- Three pages at bus addresses of one byte, mapped and released. -/
theorem driver_releases_threePages
    : (List.range (bufcount 12288)).map (closeKernel 3).pci_map_single = [16, 32, 48]
      ∧ (probed (closeKernel 3) storedBytes (fun _ => 0) 12288).2 = 0
      ∧ Released (closeKernel 3) (driverCalls (closeKernel 3) storedBytes (fun _ => 0) 12288) := by
  refine ⟨rfl, rfl,
    ((driver_releases (closeKernel 3) 12288).2 (fun _ => 0) rfl).mpr (.inr ⟨⟨rfl, ?_⟩, ?_⟩)⟩
  · intro i within
    have inside : i < 3 := within
    exact ⟨congrArg Option.isSome (if_pos inside), rfl⟩
  · intro i within
    have inside : i < 3 := within
    change (16 * (i + 1)) % 2 ^ 64 < 256
    omega

/-- When the second of 256 pages cannot be allocated, the first one is neither unmapped nor
freed.
-/
theorem page_leaks
    : ¬∀ (δ : Type) (k : Kernel) (dev : Bar0 δ) (bar0 : δ) (mmap_buffersize : Nat),
        (probed k dev bar0 mmap_buffersize).2 = 0 →
        Released k (driverCalls k dev bar0 mmap_buffersize) := by
  intro always
  have released := always _ (bootKernel 1) storedBytes (fun _ => 0) (1024 * 1024) rfl
  have pages := released.pages.length_eq
  revert pages
  decide +kernel

end BluespecPcie
