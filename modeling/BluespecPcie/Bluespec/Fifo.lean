import Mathlib.Algebra.Order.Ring.Nat
import Mathlib.Data.List.Basic
import Mathlib.Tactic.Common

/-! Bounded first-in first-out queues, with the guards of their enqueue and dequeue methods. -/

namespace Bluespec

/-- A queue with room for `depth` elements, oldest first.
The bound is part of the value, so no queue longer than its depth exists.
-/
structure Fifo (α : Type) (depth : Nat) where
  items : List α
  bounded : items.length ≤ depth

namespace Fifo

variable {α β : Type} {depth : Nat}

/-- Two queues with the same contents are equal, the bound being a proof. -/
@[ext] theorem ext {q q' : Fifo α depth} (same : q.items = q'.items) : q = q' := by
  cases q
  cases q'
  simp only [mk.injEq]
  exact same

/-- The queue after reset. -/
def empty : Fifo α depth := ⟨[], Nat.zero_le _⟩

instance : Inhabited (Fifo α depth) := ⟨empty⟩

/-- `first` without `deq`; its guard is that the queue is not empty. -/
def first (q : Fifo α depth) : Option α := q.items.head?

/-- `first` and `deq` taken together; guarded by the queue not being empty. -/
def deq (q : Fifo α depth) : Option (α × Fifo α depth) :=
  match items : q.items with
  | [] => none
  | x :: rest =>
      some (x, ⟨rest, by
        have bound := q.bounded
        rw [items, List.length_cons] at bound
        omega⟩)

/-- `enq`; guarded by the queue not being full. -/
def enq (q : Fifo α depth) (x : α) : Option (Fifo α depth) :=
  if room : q.items.length < depth then
    some ⟨q.items ++ [x], by
      rw [List.length_append, List.length_singleton]
      omega⟩
  else none

@[simp] theorem items_empty : (empty : Fifo α depth).items = [] := rfl

/-- `first` succeeds exactly on a queue with that head. -/
theorem first_eq_some {q : Fifo α depth} {x : α}
    : q.first = some x ↔ ∃ rest, q.items = x :: rest := by
  unfold first
  cases items : q.items with
  | nil => simp
  | cons head rest => simp

/-- A dequeue removes the head, and needs one; witness: the cases of the contents. -/
@[simp] theorem deq_eq_some {q q' : Fifo α depth} {x : α}
    : q.deq = some (x, q') ↔ q.items = x :: q'.items := by
  unfold deq
  split
  next empty => simp [empty]
  next head rest items =>
    simp only [Option.some.injEq, Prod.mk.injEq, items, List.cons.injEq]
    constructor
    · rintro ⟨rfl, rfl⟩
      exact ⟨rfl, rfl⟩
    · rintro ⟨rfl, rfl⟩
      exact ⟨rfl, rfl⟩

/-- An enqueue appends at the tail, and needs room. -/
@[simp] theorem enq_eq_some {q q' : Fifo α depth} {x : α}
    : q.enq x = some q' ↔ q.items.length < depth ∧ q'.items = q.items ++ [x] := by
  unfold enq
  split
  next room =>
    simp only [Option.some.injEq, room, true_and]
    constructor
    · rintro rfl
      rfl
    · intro same
      exact ext same.symm
  next full => simp [full]

/-- An action that starts with a dequeue; the form in which rules are taken apart. -/
theorem bind_deq_eq_some {q : Fifo α depth} {f : α × Fifo α depth → Option β} {b : β}
    : q.deq.bind f = some b ↔ ∃ x q', q.items = x :: q'.items ∧ f (x, q') = some b := by
  simp only [Option.bind_eq_some_iff]
  constructor
  · rintro ⟨⟨x, q'⟩, taken, done⟩
    exact ⟨x, q', deq_eq_some.mp taken, done⟩
  · rintro ⟨x, q', taken, done⟩
    exact ⟨(x, q'), deq_eq_some.mpr taken, done⟩

/-- An action that starts with an enqueue; the form in which rules are taken apart. -/
theorem bind_enq_eq_some {q : Fifo α depth} {x : α} {f : Fifo α depth → Option β} {b : β}
    : (q.enq x).bind f = some b
      ↔ ∃ q', q.items.length < depth ∧ q'.items = q.items ++ [x] ∧ f q' = some b := by
  simp only [Option.bind_eq_some_iff, enq_eq_some, and_assoc]

/-- The dequeue guard is exactly non-emptiness. -/
theorem deq_isSome_iff {q : Fifo α depth} : q.deq.isSome ↔ q.items ≠ [] := by
  unfold deq
  split
  next empty => simp [empty]
  next head rest items => simp [items]

/-- The enqueue guard is exactly free space. -/
theorem enq_isSome_iff {q : Fifo α depth} {x : α}
    : (q.enq x).isSome ↔ q.items.length < depth := by
  unfold enq
  split <;> simp_all

/-- A queue with contents can be dequeued. -/
theorem deq_of_items {q : Fifo α depth} {x : α} {rest : List α} (items : q.items = x :: rest)
    : ∃ q', q.deq = some (x, q') ∧ q'.items = rest := by
  obtain ⟨taken, dequeued⟩ := Option.isSome_iff_exists.mp
    (deq_isSome_iff.mpr (show q.items ≠ [] by simp [items]))
  have head := deq_eq_some.mp (show q.deq = some (taken.1, taken.2) from dequeued)
  rw [items] at head
  obtain ⟨rfl, rfl⟩ := List.cons.inj head
  exact ⟨taken.2, dequeued, rfl⟩

/-- A queue with room can be enqueued. -/
theorem enq_of_room {q : Fifo α depth} (room : q.items.length < depth) (x : α)
    : ∃ q', q.enq x = some q' :=
  Option.isSome_iff_exists.mp (enq_isSome_iff.mpr room)

/-- Elementwise renaming of the contents. -/
def map (f : α → β) (q : Fifo α depth) : Fifo β depth :=
  ⟨q.items.map f, by simpa using q.bounded⟩

@[simp] theorem items_map (f : α → β) (q : Fifo α depth)
    : (q.map f).items = q.items.map f := rfl

/-- Renaming commutes with enqueueing. -/
theorem enq_map (f : α → β) (q : Fifo α depth) (x : α)
    : (q.map f).enq (f x) = (q.enq x).map (map f) := by
  unfold enq
  by_cases room : q.items.length < depth
  · simp [room, map]
  · simp [room]

/-- Renaming commutes with dequeueing. -/
theorem deq_map (f : α → β) (q : Fifo α depth)
    : (q.map f).deq = q.deq.map (fun taken => (f taken.1, taken.2.map f)) := by
  obtain ⟨items, bound⟩ := q
  cases items with
  | nil => rfl
  | cons head rest => rfl

end Fifo

end Bluespec
