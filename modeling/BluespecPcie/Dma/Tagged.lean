import BluespecPcie.PcieCtrl.Types
import BluespecPcie.Bluespec.Stores

/-! The DMA write methods of the tagged `PcieUserIfc`, as the modules that call them rely on. -/

namespace BluespecPcie

open Bluespec

/-- `truncate(d.addr>>2)`, the user word that a host write is for. -/
def IOWrite.toffset (d : IOWrite) : BitVec 8 := (d.addr >>> 2).setWidth 8

/-- A call of a DMA write method. -/
inductive DmaWriteCall where
  | dmaWriteReq (addr : BitVec 32) (words : BitVec 10) (tag : BitVec 8)
  | dmaWriteData (word : DMAWord) (tag : BitVec 8)

/-- An interface with DMA writes under tags. It may refuse a call, and it may do steps of its
own. A request gives its tag an address and a number of words, and the data words that come
with the tag are stored from that address on, until the request has all of its words. What it
does with a word that no request lacks is left open.
-/
structure TaggedDma where
  State : Type
  init : State
  call : State → DmaWriteCall → Option State
  internal : State → Option State
  /-- The words stored in host memory, in the order in which they get there. -/
  stores : State → List (BitVec 32 × DMAWord)
  /-- Where the next word of a tag goes. -/
  next : State → BitVec 8 → BitVec 32
  /-- How many words the request of a tag lacks. -/
  lacks : State → BitVec 8 → Nat
  stores_init : stores init = []
  of_dmaWriteReq
    : ∀ {s s' addr words tag},
        call s (.dmaWriteReq addr words tag) = some s'
        → stores s' = stores s ∧ next s' tag = addr ∧ lacks s' tag = words.toNat
  of_dmaWriteData
    : ∀ {s s' word tag},
        call s (.dmaWriteData word tag) = some s'
        → 0 < lacks s tag
        → stores s' = stores s ++ [(next s tag, word)]
          ∧ next s' tag = next s tag + 16
          ∧ lacks s' tag = lacks s tag - 1
  of_internal
    : ∀ {s s'},
        internal s = some s' → stores s' = stores s ∧ next s' = next s ∧ lacks s' = lacks s

namespace TaggedDma

/-- The calls that a rule makes, at most one. -/
def accept (P : TaggedDma) (s : P.State) : Option DmaWriteCall → Option P.State
  | none => some s
  | some c => P.call s c

/-- An interface that takes every call at once. -/
def direct : TaggedDma where
  State := (BitVec 8 → BitVec 32 × Nat) × List (BitVec 32 × DMAWord)
  init := (fun _ => (0, 0), [])
  call s
    | .dmaWriteReq addr words tag => some (Function.update s.1 tag (addr, words.toNat), s.2)
    | .dmaWriteData word tag =>
        some (Function.update s.1 tag ((s.1 tag).1 + 16, (s.1 tag).2 - 1),
          s.2 ++ [((s.1 tag).1, word)])
  internal _ := none
  stores := Prod.snd
  next s tag := (s.1 tag).1
  lacks s tag := (s.1 tag).2
  stores_init := rfl
  of_dmaWriteReq := by
    rintro s s' addr words tag ⟨⟩
    simp
  of_dmaWriteData := by
    rintro s s' word tag ⟨⟩ some
    simp
  of_internal := by
    rintro s s' ⟨⟩

/-- Address `i` of a run of words from `off` on. -/
def wordAddr (off : BitVec 32) (i : Nat) : BitVec 32 := off + BitVec.ofNat 32 (16 * i)

@[simp] theorem wordAddr_zero (off : BitVec 32) : wordAddr off 0 = off := by
  simp [wordAddr]

/-- Address behind `i` words of a run. -/
theorem wordAddr_add (off : BitVec 32) (i j : Nat)
    : wordAddr off (j + i) = wordAddr (wordAddr off i) j := by
  simp only [wordAddr, BitVec.add_assoc, ← BitVec.ofNat_add]
  congr 2
  omega

/-- The addresses of a run of less than 4 GB differ. -/
theorem wordAddr_ne {off : BitVec 32} {i j : Nat} (after : i < j) (small : 16 * j < 2 ^ 32)
    : wordAddr off j ≠ wordAddr off i := by
  intro same
  have equal := congrArg BitVec.toNat ((BitVec.add_right_inj off).mp same)
  rw [BitVec.toNat_ofNat, BitVec.toNat_ofNat, Nat.mod_eq_of_lt small,
    Nat.mod_eq_of_lt (by omega)] at equal
  omega

/-- The words of a run from `off` on, read from the host memory. -/
def readWords (stores : List (BitVec 32 × DMAWord)) (off : BitVec 32) (n : Nat)
    : List (Option DMAWord) :=
  (List.range n).map (fun i => Stores.load stores (wordAddr off i))

/-- The words placed last from `off` on are what is read there. -/
theorem readWords_placed (stores : List (BitVec 32 × DMAWord)) (off : BitVec 32)
    (words : List DMAWord) (small : 16 * words.length < 2 ^ 32)
    : readWords (stores ++ Stores.placed (wordAddr off) words) off words.length
      = words.map some := by
  refine List.ext_getElem (by simp [readWords]) ?_
  intro i inside _
  have within : i < words.length := by simpa [readWords] using inside
  simp only [readWords, List.getElem_map, List.getElem_range]
  exact Stores.load_placed stores _ words within
    (fun j after below => wordAddr_ne after (by omega))

end TaggedDma

end BluespecPcie
