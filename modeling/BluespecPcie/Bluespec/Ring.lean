import Mathlib.Algebra.Order.Ring.Nat
import Mathlib.Data.List.Basic
import Mathlib.Tactic.Common

/-! Circular buffers: what the slots between two indices hold. -/

namespace Bluespec

namespace Ring

/-- The index behind `i` in a ring of `n` slots. -/
def next (n i : Nat) : Nat := if i + 1 < n then i + 1 else 0

/-- The index `k` slots behind `i`, for `k` below `n`. -/
def shift (n i k : Nat) : Nat := if i + k < n then i + k else i + k - n

/-- The slots from `tail` up to `head`, which is not among them. -/
def count (n tail head : Nat) : Nat := if tail ≤ head then head - tail else head + n - tail

/-- What the slots from `tail` up to `head` hold, in this order. -/
def stored {α : Type} (n : Nat) (cell : Nat → α) (tail head : Nat) : List α :=
  (List.range (count n tail head)).map (fun k => cell (shift n tail k))

section Indices

variable {n i k tail head : Nat}

theorem next_lt (pos : 0 < n) : next n i < n := by
  unfold next
  split <;> omega

theorem shift_lt (within : i < n) (small : k < n) : shift n i k < n := by
  unfold shift
  split <;> omega

theorem count_lt (within : tail < n) (within' : head < n) : count n tail head < n := by
  unfold count
  split <;> omega

/-- Nothing is stored exactly when the indices agree. -/
theorem count_eq_zero (within : tail < n) : count n tail head = 0 ↔ tail = head := by
  unfold count
  split <;> omega

/-- All slots but one are used exactly when the index behind `head` is `tail`. -/
theorem count_full (within : tail < n) (within' : head < n)
    : count n tail head + 1 = n ↔ next n head = tail := by
  unfold count next
  split <;> split <;> omega

/-- With room, one more slot up to the index behind `head`. -/
theorem count_push (within : tail < n) (within' : head < n) (room : next n head ≠ tail)
    : count n tail (next n head) = count n tail head + 1 := by
  unfold count next at *
  split at room <;> split <;> split <;> split <;> omega

/-- One slot fewer from the index behind `tail`. -/
theorem count_pop (within : tail < n) (within' : head < n) (some : tail ≠ head)
    : count n tail head = count n (next n tail) head + 1 := by
  unfold count next
  split <;> split <;> split <;> omega

/-- The slot behind the stored ones is `head`. -/
theorem shift_count (within : tail < n) (within' : head < n)
    : shift n tail (count n tail head) = head := by
  unfold shift count
  split <;> split <;> omega

/-- The slots behind the first one. -/
theorem shift_next (within : tail < n) (small : k + 1 < n)
    : shift n (next n tail) k = shift n tail (k + 1) := by
  unfold shift next
  split <;> split <;> split <;> omega

/-- A stored slot is not `head`. -/
theorem shift_ne_head (within : tail < n) (stored : k < count n tail head)
    : shift n tail k ≠ head := by
  unfold shift count at *
  split at stored <;> split <;> omega

end Indices

section Stored

variable {α : Type} {n : Nat} {cell cell' : Nat → α} {tail head : Nat}

@[simp] theorem length_stored : (stored n cell tail head).length = count n tail head := by
  simp [stored]

/-- Nothing is stored exactly when the indices agree. -/
theorem stored_eq_nil (within : tail < n) : stored n cell tail head = [] ↔ tail = head := by
  rw [← List.length_eq_zero_iff, length_stored, count_eq_zero within]

/-- The slot at `head` does not matter. -/
theorem stored_congr (within : tail < n) (within' : head < n)
    (same : ∀ i < n, i ≠ head → cell' i = cell i)
    : stored n cell' tail head = stored n cell tail head := by
  refine List.map_congr_left ?_
  intro k inside
  have small := List.mem_range.mp inside
  exact same _ (shift_lt within (Nat.lt_trans small (count_lt within within')))
    (shift_ne_head within small)

/-- With room, the value at `head` is the last one stored up to the index behind. -/
theorem stored_push (within : tail < n) (within' : head < n) (room : next n head ≠ tail)
    : stored n cell tail (next n head) = stored n cell tail head ++ [cell head] := by
  rw [stored, count_push within within' room, List.range_succ, List.map_append, List.map_singleton,
    shift_count within within']
  rfl

/-- The value at `tail` is the first one stored, and the others are from the index behind. -/
theorem stored_pop (within : tail < n) (within' : head < n) (some : tail ≠ head)
    : stored n cell tail head = cell tail :: stored n cell (next n tail) head := by
  have first : shift n tail 0 = tail := by
    unfold shift
    split <;> omega
  rw [stored, count_pop within within' some, List.range_succ_eq_map, List.map_cons, List.map_map,
    first, stored]
  refine congrArg (cell tail :: ·) (List.map_congr_left ?_)
  intro k inside
  have small := List.mem_range.mp inside
  have bound := count_lt within within'
  rw [count_pop within within' some] at bound
  exact congrArg cell (shift_next within (by omega)).symm

end Stored

end Ring

end Bluespec
