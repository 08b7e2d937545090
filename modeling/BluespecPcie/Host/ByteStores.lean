import BluespecPcie.Bluespec.Stores
import BluespecPcie.Host.Memory

/-! Host memory behind a sequence of stores, byte by byte. -/

namespace BluespecPcie

open Bluespec

/-- The bytes of a stored word with their addresses. -/
def byteStores (store : BitVec 32 × DMAWord) : List (BitVec 32 × BitVec 8) :=
  Stores.placed (fun i => store.1 + BitVec.ofNat 32 i) (wordBytes store.2)

/-- A byte of memory is the last one stored there, or the old one; induction on the bytes. -/
theorem storeBytes_eq (mem : HostMemory) (addr : BitVec 32) (bytes : List (BitVec 8))
    (x : BitVec 32)
    : storeBytes mem addr bytes x
      = (Stores.load (Stores.placed (fun i => addr + BitVec.ofNat 32 i) bytes) x).getD (mem x)
      := by
  induction bytes generalizing mem addr with
  | nil => rfl
  | cons b bytes ih =>
      have behind : (fun i => addr + BitVec.ofNat 32 (i + 1))
          = fun i => addr + 1 + BitVec.ofNat 32 i := by
        funext i
        rw [BitVec.add_assoc, Nat.add_comm, BitVec.ofNat_add]
        rfl
      rw [storeBytes, ih, Stores.placed_cons, behind, ← List.singleton_append,
        Stores.load_append, ← List.nil_append [(_, b)], Stores.load_snoc]
      by_cases here : x = addr
      · subst here
        cases Stores.load _ x with
        | none => simp
        | some value => rfl
      · rw [Function.update_of_ne here, if_neg (by simpa using here)]
        cases Stores.load _ x with
        | none => rfl
        | some value => rfl

/-- A byte of memory behind stored words. -/
theorem storeWords_eq (mem : HostMemory) (stores : List (BitVec 32 × DMAWord)) (x : BitVec 32)
    : storeWords mem stores x
      = (Stores.load (stores.flatMap byteStores) x).getD (mem x) := by
  induction stores using List.reverseRecOn with
  | nil => rfl
  | append_singleton stores store ih =>
      rw [storeWords_append, List.flatMap_append, Stores.load_append]
      change storeBytes (storeWords mem stores) store.1 (wordBytes store.2) x = _
      rw [storeBytes_eq, ih]
      change ((Stores.load (byteStores store) x).getD _) = _
      rw [show [store].flatMap byteStores = byteStores store by simp]
      cases Stores.load (byteStores store) x with
      | none => rfl
      | some value => rfl

end BluespecPcie
