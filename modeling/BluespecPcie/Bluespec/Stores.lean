import Mathlib.Algebra.Order.Ring.Nat
import Mathlib.Data.List.Induction
import Mathlib.Logic.Function.Basic
import Mathlib.Tactic.Common

/-! Sequences of stores: what they leave in memory, and values stored at a run of addresses. -/

namespace Bluespec

namespace Stores

variable {ι α : Type}

/-- The value at `a` after some stores, the last one there. -/
def load [DecidableEq ι] (stores : List (ι × α)) (a : ι) : Option α :=
  let put (mem : ι → Option α) (store : ι × α) := Function.update mem store.1 (some store.2)
  stores.foldl put (fun _ => none) a

/-- The stores of `values` in their order, value `i` at `addr i`. -/
def placed (addr : Nat → ι) (values : List α) : List (ι × α) :=
  values.mapIdx (fun i value => (addr i, value))

@[simp] theorem placed_nil (addr : Nat → ι) : placed addr ([] : List α) = [] := rfl

@[simp] theorem length_placed (addr : Nat → ι) (values : List α)
    : (placed addr values).length = values.length := List.length_mapIdx

/-- The values behind the first ones are placed behind them. -/
theorem placed_append (addr : Nat → ι) (values more : List α)
    : placed addr (values ++ more)
      = placed addr values ++ placed (fun i => addr (i + values.length)) more :=
  List.mapIdx_append

theorem placed_snoc (addr : Nat → ι) (values : List α) (value : α)
    : placed addr (values ++ [value]) = placed addr values ++ [(addr values.length, value)] := by
  rw [placed_append]
  simp [placed]

theorem placed_cons (addr : Nat → ι) (value : α) (values : List α)
    : placed addr (value :: values) = (addr 0, value) :: placed (fun i => addr (i + 1)) values := by
  simp [placed, List.mapIdx_cons]

/-- The first values are what the first stores place. -/
theorem take_placed (addr : Nat → ι) (values : List α) (n : Nat)
    : (placed addr values).take n = placed addr (values.take n) := by
  induction values generalizing addr n with
  | nil => simp
  | cons value values ih =>
      cases n with
      | zero => rfl
      | succ n => rw [placed_cons, List.take_succ_cons, ih, List.take_succ_cons, placed_cons]

/-- Only the addresses of the values matter. -/
theorem placed_congr {addr addr' : Nat → ι} {values : List α}
    (same : ∀ i < values.length, addr i = addr' i)
    : placed addr values = placed addr' values := by
  refine List.ext_getElem (by simp) ?_
  intro i inside _
  simp only [placed, List.getElem_mapIdx]
  rw [same i (by simpa using inside)]

section Load

variable [DecidableEq ι]

/-- The last store is what its address holds, and no other address changes. -/
theorem load_snoc (stores : List (ι × α)) (a : ι) (value : α) (b : ι)
    : load (stores ++ [(a, value)]) b = if b = a then some value else load stores b := by
  rw [load, List.foldl_append]
  change Function.update (load stores) a (some value) b = _
  by_cases same : b = a
  · rw [if_pos same, same, Function.update_self]
  · rw [if_neg same, Function.update_of_ne same]

/-- Later stores come before earlier ones; induction on the later ones from the last. -/
theorem load_append (stores more : List (ι × α)) (a : ι)
    : load (stores ++ more) a = (load more a).or (load stores a) := by
  induction more using List.reverseRecOn with
  | nil =>
      rw [List.append_nil]
      rfl
  | append_singleton more store ih =>
      obtain ⟨b, value⟩ := store
      rw [← List.append_assoc, load_snoc, load_snoc, ih]
      split
      · rfl
      · rfl

/-- A placed value is at its address unless a later one is placed there; induction on the
values from the last one.
-/
theorem load_placed (stores : List (ι × α)) (addr : Nat → ι) (values : List α) {i : Nat}
    (inside : i < values.length)
    (kept : ∀ j, i < j → j < values.length → addr j ≠ addr i)
    : load (stores ++ placed addr values) (addr i) = some values[i] := by
  induction values using List.reverseRecOn with
  | nil => simp at inside
  | append_singleton values value ih =>
      rw [placed_snoc, ← List.append_assoc, load_snoc]
      rw [List.length_append, List.length_singleton] at inside kept
      rcases Nat.lt_succ_iff_lt_or_eq.mp inside with earlier | last
      · rw [if_neg (kept values.length earlier (Nat.lt_succ_self _)).symm,
          List.getElem_append_left earlier]
        exact ih earlier (fun j after within => kept j after (Nat.lt_succ_of_lt within))
      · subst last
        rw [if_pos rfl, List.getElem_concat_length rfl]

/-- Values placed elsewhere; induction on the values from the last one. -/
theorem load_placed_other {addr : Nat → ι} {values : List α} {a : ι}
    (other : ∀ j < values.length, addr j ≠ a)
    : load (placed addr values) a = none := by
  induction values using List.reverseRecOn with
  | nil => rfl
  | append_singleton values value ih =>
      rw [List.length_append, List.length_singleton] at other
      rw [placed_snoc, load_snoc, if_neg (other values.length (Nat.lt_succ_self _)).symm]
      exact ih (fun j below => other j (Nat.lt_succ_of_lt below))

end Load

end Stores

end Bluespec
