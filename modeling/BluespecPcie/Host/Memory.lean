import BluespecPcie.PcieCtrl.Bursts
import BluespecPcie.PcieCtrl.Multiplexing

/-! Host memory, and what the memory requests sent by the engine do there. -/

namespace BluespecPcie

/-- Host memory by bus address. -/
abbrev HostMemory := BitVec 32 → BitVec 8

/-- Consecutive bytes stored from `addr` on. -/
def storeBytes (mem : HostMemory) (addr : BitVec 32) : List (BitVec 8) → HostMemory
  | [] => mem
  | b :: rest => storeBytes (Function.update mem addr b) (addr + 1) rest

/-- The bytes of a data word, little-endian. -/
def wordBytes (word : DMAWord) : List (BitVec 8) :=
  (List.range 16).map (fun i => word.extractLsb' (8 * i) 8)

/-- A data word stored little-endian at `addr`. -/
def storeWord (mem : HostMemory) (addr : BitVec 32) (word : DMAWord) : HostMemory :=
  storeBytes mem addr (wordBytes word)

/-- Data words stored one after the other, each at its own address. -/
def storeWords (mem : HostMemory) (stores : List (BitVec 32 × DMAWord)) : HostMemory :=
  stores.foldl (fun mem store => storeWord mem store.1 store.2) mem

-----------------------------------------------------------------------------------------
-- Memory writes as the host decodes them
-----------------------------------------------------------------------------------------

/-- A memory write request: its address and its payload DWs. -/
structure MemoryWrite where
  addr : BitVec 32
  payload : List (BitVec 32)
deriving DecidableEq

/-- The bytes of a payload DW in address order; the first is the DW's most significant. -/
def payloadBytes (dw : BitVec 32) : List (BitVec 8) :=
  [dw.extractLsb 31 24, dw.extractLsb 23 16, dw.extractLsb 15 8, dw.extractLsb 7 0]

/-- The memory write a TLP makes: a 32-bit memory write with all byte enables set. -/
def memoryWrite (tlp : List SendTLP) : Option MemoryWrite :=
  match tlp.flatMap keptDWs with
  | cdw0 :: cdw1 :: cdw2 :: payload =>
      if dwType cdw0 = type_wr32_mem ∧ cdw1.extractLsb 7 0 = 0xff#8 then
        some { addr := cdw2.extractLsb 31 2 ++ 0#2, payload }
      else none
  | _ => none

/-- The effect of a memory write. -/
def MemoryWrite.apply (mem : HostMemory) (w : MemoryWrite) : HostMemory :=
  storeBytes mem w.addr (w.payload.flatMap payloadBytes)

/-- Host memory once it has taken the memory writes among the TLPs sent, in order. -/
def hostMemory (mem : HostMemory) (sent : List SendTLP) : HostMemory :=
  ((cutTLPs [] sent).filterMap memoryWrite).foldl MemoryWrite.apply mem

-----------------------------------------------------------------------------------------
-- Bytes, DWs and words
-----------------------------------------------------------------------------------------

/-- The payload DWs of a data word. -/
def wordDWs (word : DMAWord) : List (BitVec 32) :=
  [reverseEndian (word.extractLsb 31 0), reverseEndian (word.extractLsb 63 32),
    reverseEndian (word.extractLsb 95 64), reverseEndian (word.extractLsb 127 96)]

/-- The DWs of a word carry its bytes, little-endian. -/
theorem payloadBytes_wordDWs (word : DMAWord)
    : (wordDWs word).flatMap payloadBytes = wordBytes word := by
  have dw (i : Nat) (d : BitVec 32) (eq : d = word.extractLsb' (32 * i) 32)
      : payloadBytes (reverseEndian d)
        = [word.extractLsb' (32 * i) 8, word.extractLsb' (32 * i + 8) 8,
          word.extractLsb' (32 * i + 16) 8, word.extractLsb' (32 * i + 24) 8] := by
    subst eq
    simp only [payloadBytes, reverseEndian, List.cons.injEq, and_true]
    refine ⟨?_, ?_, ?_, ?_⟩ <;>
    · apply BitVec.eq_of_getLsbD_eq
      intro k within
      simp
      grind
  simp only [wordDWs, List.flatMap_cons, List.flatMap_nil, List.append_nil]
  rw [dw 0 (word.extractLsb 31 0) rfl, dw 1 (word.extractLsb 63 32) rfl,
    dw 2 (word.extractLsb 95 64) rfl, dw 3 (word.extractLsb 127 96) rfl]
  rfl

/-- Bytes stored in two parts. -/
theorem storeBytes_append (mem : HostMemory) (addr : BitVec 32) (xs ys : List (BitVec 8))
    : storeBytes mem addr (xs ++ ys)
      = storeBytes (storeBytes mem addr xs) (addr + BitVec.ofNat 32 xs.length) ys := by
  induction xs generalizing mem addr with
  | nil => simp [storeBytes]
  | cons b xs ih =>
      rw [List.cons_append, storeBytes, ih, storeBytes]
      congr 1
      simp only [List.length_cons, BitVec.ofNat_add]
      grind

/-- Words stored as one run of bytes are stored each at its own address. -/
theorem storeBytes_words (mem : HostMemory) (addr : BitVec 32) (words : List DMAWord)
    : storeBytes mem addr (words.flatMap wordBytes)
      = storeWords mem ((wordAddrs addr words.length).zip words) := by
  induction words generalizing mem addr with
  | nil => rfl
  | cons word words ih =>
      rw [List.flatMap_cons, storeBytes_append, ih, List.length_cons,
        Nat.add_comm words.length 1, wordAddrs_add]
      simp [wordAddrs, storeWords, storeWord, wordBytes]

/-- Two runs of stores one after the other. -/
theorem storeWords_append (mem : HostMemory) (xs ys : List (BitVec 32 × DMAWord))
    : storeWords mem (xs ++ ys) = storeWords (storeWords mem xs) ys := by
  simp [storeWords]

-----------------------------------------------------------------------------------------
-- Words as the host reads them
-----------------------------------------------------------------------------------------

/-- The little-endian DW at `addr`. -/
def loadDW (mem : HostMemory) (addr : BitVec 32) : BitVec 32 :=
  mem (addr + 3) ++ mem (addr + 2) ++ mem (addr + 1) ++ mem addr

/-- The little-endian data word at `addr`. -/
def loadWord (mem : HostMemory) (addr : BitVec 32) : DMAWord :=
  packDWs (loadDW mem (addr + 12)) (loadDW mem (addr + 8)) (loadDW mem (addr + 4)) (loadDW mem addr)

/-- `count` bytes from `addr` on, in address order. -/
def loadBytes (mem : HostMemory) (addr : BitVec 32) (count : Nat) : List (BitVec 8) :=
  (List.range count).map (fun i => mem (addr + BitVec.ofNat 32 i))

/-- The bytes of a DW loaded, as a payload has them. -/
theorem payloadBytes_loadDW (mem : HostMemory) (addr : BitVec 32)
    : payloadBytes (reverseEndian (loadDW mem addr))
      = [mem addr, mem (addr + 1), mem (addr + 2), mem (addr + 3)] := by
  simp only [payloadBytes, reverseEndian, loadDW, List.cons.injEq, and_true]
  refine ⟨?_, ?_, ?_, ?_⟩ <;>
  · apply BitVec.eq_of_getLsbD_eq
    intro k within
    simp only [BitVec.getLsbD_extractLsb, BitVec.getLsbD_append]
    grind

/-- The bytes of a word loaded are those at its addresses. -/
theorem wordBytes_loadWord (mem : HostMemory) (addr : BitVec 32)
    : wordBytes (loadWord mem addr) = loadBytes mem addr 16 := by
  obtain ⟨first, second, third, fourth⟩ := dword_packDWs (loadDW mem (addr + 12))
    (loadDW mem (addr + 8)) (loadDW mem (addr + 4)) (loadDW mem addr)
  have dws : wordDWs (loadWord mem addr)
      = [reverseEndian (loadDW mem addr), reverseEndian (loadDW mem (addr + 4)),
        reverseEndian (loadDW mem (addr + 8)), reverseEndian (loadDW mem (addr + 12))] := by
    change [reverseEndian (dword (packDWs _ _ _ _) 0), reverseEndian (dword (packDWs _ _ _ _) 1),
      reverseEndian (dword (packDWs _ _ _ _) 2), reverseEndian (dword (packDWs _ _ _ _) 3)] = _
    rw [first, second, third, fourth]
  rw [← payloadBytes_wordDWs, dws]
  simp only [List.flatMap_cons, List.flatMap_nil, payloadBytes_loadDW, loadBytes, List.range_succ,
    List.range_zero, List.map_cons, List.map_nil, List.nil_append,
    List.cons_append, List.append_nil, BitVec.add_assoc]
  simp

/-- The bytes of consecutive words are consecutive; induction on the words. -/
theorem loadBytes_words (mem : HostMemory) (addr : BitVec 32) (n : Nat)
    : loadBytes mem addr (16 * n)
      = ((wordAddrs addr n).map (loadWord mem)).flatMap wordBytes := by
  induction n with
  | zero => rfl
  | succ n ih =>
      have one : wordAddrs (addr + BitVec.ofNat 32 (16 * n)) 1
          = [addr + BitVec.ofNat 32 (16 * n)] := by
        simp [wordAddrs]
      rw [wordAddrs_add, one, List.map_append, List.flatMap_append, ← ih, List.map_singleton,
        List.flatMap_singleton, wordBytes_loadWord, Nat.mul_succ, loadBytes, List.range_add,
        List.map_append, List.map_map]
      refine congrArg (loadBytes mem addr (16 * n) ++ ·) (List.map_congr_left ?_)
      intro i _
      simp only [Function.comp_apply, BitVec.ofNat_add, BitVec.add_assoc]

/-- A word has sixteen bytes. -/
@[simp] theorem length_wordBytes (word : DMAWord) : (wordBytes word).length = 16 := by
  rw [wordBytes, List.length_map, List.length_range]

/-- A word is determined by its bytes. -/
theorem wordBytes_injective : Function.Injective wordBytes := by
  intro x y same
  apply BitVec.eq_of_getLsbD_eq
  intro i within
  have byte := congrArg (fun bytes => bytes[i / 8]?) same
  simp only [wordBytes, List.getElem?_map,
    List.getElem?_range (show i / 8 < 16 by omega), Option.map_some, Option.some.injEq] at byte
  have bit := congrArg (fun v => v.getLsbD (i % 8)) byte
  have inside : i % 8 < 8 := Nat.mod_lt _ (by decide)
  have split : 8 * (i / 8) + i % 8 = i := Nat.div_add_mod i 8
  simpa only [BitVec.getLsbD_extractLsb', decide_eq_true inside, Bool.true_and, split] using bit

end BluespecPcie
