import BluespecPcie.Bluespec.Streams
import BluespecPcie.MergeN

/-! A two-way merge whose ports carry different labels: the elements of each label. -/

namespace BluespecPcie

open Bluespec

namespace Merge2

variable {ι α : Type} {a b : ι} {m m' : Merge2 (ι × α)}

/-- The elements inside, those nearest to the output first. -/
def waiting (m : Merge2 (ι × α)) : List (ι × α) :=
  m.outQ.items ++ m.inQ1.items ++ m.inQ2.items

/-- Port 0 carries the label `a` and port 1 the label `b`. -/
structure Labelled (a b : ι) (m : Merge2 (ι × α)) : Prop where
  port0 : ∀ x ∈ m.inQ1.items, x.1 = a
  port1 : ∀ x ∈ m.inQ2.items, x.1 = b
  out : ∀ x ∈ m.outQ.items, x.1 = a ∨ x.1 = b

theorem Labelled.init : (Merge2.init : Merge2 (ι × α)).Labelled a b := ⟨nofun, nofun, nofun⟩

variable [DecidableEq ι]

/-- No element of another label. -/
theorem withLabel_other {i j : ι} {xs : List (ι × α)} (labels : ∀ x ∈ xs, x.1 = j)
    (other : j ≠ i)
    : withLabel i xs = [] := by
  rw [withLabel, List.map_eq_nil_iff, List.filter_eq_nil_iff]
  intro x member same
  exact other ((labels x member).symm.trans (of_decide_eq_true same))

/-- A merge step moves an element towards the output within its label. -/
theorem Labelled.merge (different : a ≠ b) (labelled : m.Labelled a b)
    (fires : m.merge = some m')
    : m'.Labelled a b ∧ ∀ i, withLabel i m'.waiting = withLabel i m.waiting := by
  obtain ⟨port0, port1, out⟩ := labelled
  rcases merge_cases fires with ⟨x, taken, same, put⟩ | ⟨x, taken, same, put⟩
    | ⟨same0, same1, same⟩
  · have out' : ∀ y ∈ m'.outQ.items, y.1 = a ∨ y.1 = b := by
      intro y member
      rw [put] at member
      rcases List.mem_append.mp member with old | new
      · exact out y old
      · rw [List.mem_singleton.mp new]
        exact .inl (port0 x (by simp [taken]))
    refine ⟨⟨fun y member => port0 y (by simp [taken, member]), by rw [same]; exact port1,
      out'⟩, ?_⟩
    intro i
    simp only [waiting, taken, put, same]
    simp [withLabel_append, List.append_assoc]
  · have label : x.1 = b := port1 x (by simp [taken])
    have out' : ∀ y ∈ m'.outQ.items, y.1 = a ∨ y.1 = b := by
      intro y member
      rw [put] at member
      rcases List.mem_append.mp member with old | new
      · exact out y old
      · rw [List.mem_singleton.mp new]
        exact .inr label
    refine ⟨⟨by rw [same]; exact port0, fun y member => port1 y (by simp [taken, member]),
      out'⟩, ?_⟩
    intro i
    obtain ⟨_, value⟩ := x
    subst label
    simp only [waiting, taken, put, same, withLabel_append, withLabel_cons, withLabel_nil]
    split
    next here =>
      subst here
      have none : withLabel _ m.inQ1.items = [] := withLabel_other port0 different
      rw [none, List.append_nil, List.append_nil, List.append_assoc]
      rfl
    next => rw [List.append_nil]
  · refine ⟨⟨by rw [same0]; exact port0, by rw [same1]; exact port1, by rw [same]; exact out⟩,
      ?_⟩
    intro i
    simp only [waiting, same, same0, same1]

/-- An element enters at port 0. -/
theorem Labelled.enq_port0 (different : a ≠ b) (labelled : m.Labelled a b) {value : α}
    (fires : m.enq 0 (a, value) = some m')
    : m'.Labelled a b
      ∧ withLabel a m'.waiting = withLabel a m.waiting ++ [value]
      ∧ ∀ i, i ≠ a → withLabel i m'.waiting = withLabel i m.waiting := by
  obtain ⟨port0, port1, out⟩ := labelled
  obtain ⟨inQ1, put, ⟨⟩⟩ := Option.bind_eq_some_iff.mp fires
  have items := (Fifo.enq_eq_some.mp put).2
  refine ⟨⟨?_, port1, out⟩, ?_, ?_⟩
  · intro x member
    rw [items] at member
    rcases List.mem_append.mp member with old | new
    · exact port0 x old
    · rw [List.mem_singleton.mp new]
  · have none : withLabel a m.inQ2.items = [] := withLabel_other port1 different.symm
    simp only [waiting, items, withLabel_append, none, withLabel_cons, withLabel_nil, if_pos,
      List.append_nil, List.append_assoc]
  · intro i other
    simp only [waiting, items, withLabel_append, withLabel_cons, withLabel_nil,
      if_neg (Ne.symm other), List.append_nil]

/-- An element enters at port 1. -/
theorem Labelled.enq_port1 (labelled : m.Labelled a b) {value : α}
    (fires : m.enq 1 (b, value) = some m')
    : m'.Labelled a b
      ∧ withLabel b m'.waiting = withLabel b m.waiting ++ [value]
      ∧ ∀ i, i ≠ b → withLabel i m'.waiting = withLabel i m.waiting := by
  obtain ⟨port0, port1, out⟩ := labelled
  obtain ⟨inQ2, put, ⟨⟩⟩ := Option.bind_eq_some_iff.mp fires
  have items := (Fifo.enq_eq_some.mp put).2
  refine ⟨⟨port0, ?_, out⟩, ?_, ?_⟩
  · intro x member
    rw [items] at member
    rcases List.mem_append.mp member with old | new
    · exact port1 x old
    · rw [List.mem_singleton.mp new]
  · simp only [waiting, items, withLabel_append, withLabel_cons, withLabel_nil, if_pos,
      List.append_assoc]
  · intro i other
    simp only [waiting, items, withLabel_append, withLabel_cons, withLabel_nil,
      if_neg (Ne.symm other), List.append_nil]

/-- The element nearest to the output leaves. -/
theorem Labelled.deq (labelled : m.Labelled a b) {i : ι} {value : α}
    (fires : m.deq = some ((i, value), m'))
    : m'.Labelled a b
      ∧ (i = a ∨ i = b)
      ∧ withLabel i m.waiting = value :: withLabel i m'.waiting
      ∧ ∀ j, j ≠ i → withLabel j m.waiting = withLabel j m'.waiting := by
  obtain ⟨port0, port1, out⟩ := labelled
  obtain ⟨⟨_, outQ⟩, taken, ⟨⟩⟩ := Option.bind_eq_some_iff.mp fires
  have oldest := Fifo.deq_eq_some.mp taken
  refine ⟨⟨port0, port1, fun x member => out x (by simp [oldest, member])⟩,
    out (i, value) (by simp [oldest]), ?_, ?_⟩
  · simp only [waiting, oldest, List.cons_append, withLabel_cons, if_pos]
  · intro j other
    simp only [waiting, oldest, List.cons_append, withLabel_cons, if_neg (Ne.symm other)]

end Merge2

end BluespecPcie
