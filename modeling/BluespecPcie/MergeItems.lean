import BluespecPcie.MergeN

/-! What a merge tree holds altogether: rules only move elements. -/

namespace BluespecPcie

open Bluespec

namespace MergeN

variable {α : Type}

/-- A fresh tree is empty. -/
theorem items_mkMergeN (n : Nat) : (mkMergeN n : MergeN α).items = [] := by
  have empty := (routed_mkMergeN (α := α) n 0).2
  rw [← map_mkMergeN Prod.snd n, items_map, empty]
  rfl

/-- A `merge` firing moves an element from an input queue to the output queue. -/
theorem merge_perm {mb mb' : Merge2 α} (fires : mb.merge = some mb')
    : (mb'.outQ.items ++ mb'.inQ1.items ++ mb'.inQ2.items).Perm
        (mb.outQ.items ++ mb.inQ1.items ++ mb.inQ2.items) := by
  rcases Merge2.merge_cases fires with ⟨d, taken, same, put⟩ | ⟨d, taken, same, put⟩
    | ⟨same1, same2, same⟩
  · rw [taken, same, put, List.append_assoc mb.outQ.items, List.singleton_append]
  · rw [taken, same, put]
    simp only [List.append_assoc, List.cons_append, List.nil_append]
    exact List.perm_middle.symm.append_left _
  · rw [same1, same2, same]

/-- An element that moves to the first input of the root comes from the subtree's front. -/
theorem enq0_perm {mb mb' : Merge2 α} {d : α} (fires : mb.enq 0 d = some mb')
    (ma0 ma1 : List α)
    : (mb'.outQ.items ++ mb'.inQ1.items ++ mb'.inQ2.items ++ ma0 ++ ma1).Perm
        (mb.outQ.items ++ mb.inQ1.items ++ mb.inQ2.items ++ d :: ma0 ++ ma1) := by
  obtain ⟨inQ1, put, ⟨⟩⟩ := Option.bind_eq_some_iff.mp fires
  rw [(Fifo.enq_eq_some.mp put).2]
  simp only [List.append_assoc, List.cons_append, List.nil_append]
  exact (List.perm_middle.symm.append_left _).append_left _

theorem enq1_perm {mb mb' : Merge2 α} {d : α} (fires : mb.enq 1 d = some mb')
    (ma0 ma1 : List α)
    : (mb'.outQ.items ++ mb'.inQ1.items ++ mb'.inQ2.items ++ ma0 ++ ma1).Perm
        (mb.outQ.items ++ mb.inQ1.items ++ mb.inQ2.items ++ ma0 ++ d :: ma1) := by
  obtain ⟨inQ2, put, ⟨⟩⟩ := Option.bind_eq_some_iff.mp fires
  rw [(Fifo.enq_eq_some.mp put).2]
  simp only [List.append_assoc, List.cons_append, List.nil_append]
  exact ((List.perm_middle.symm.append_left _).append_left _).append_left _

/-- Rules move elements towards the output; induction on the tree. -/
theorem fire_perm {t t' : MergeN α} {rule : MergeRule} (fires : t.fire rule = some t')
    : t'.items.Perm t.items := by
  induction t generalizing t' rule with
  | single inQ => simp [MergeN.fire] at fires
  | pair mb =>
      cases rule with
      | merge =>
          obtain ⟨mb', merged, ⟨⟩⟩ := Option.bind_eq_some_iff.mp fires
          exact merge_perm merged
      | ma1 right => simp [MergeN.fire] at fires
      | inside right rule => simp [MergeN.fire] at fires
  | node ma0 ma1 mb ih0 ih1 =>
      cases rule with
      | merge =>
          obtain ⟨mb', merged, ⟨⟩⟩ := Option.bind_eq_some_iff.mp fires
          exact ((merge_perm merged).append_right _).append_right _
      | ma1 right =>
          cases right with
          | false =>
              obtain ⟨⟨d, ma0'⟩, taken, put⟩ := Option.bind_eq_some_iff.mp fires
              obtain ⟨mb', moved, ⟨⟩⟩ := Option.bind_eq_some_iff.mp put
              simp only [items, deq_items taken]
              exact enq0_perm moved ma0'.items ma1.items
          | true =>
              obtain ⟨⟨d, ma1'⟩, taken, put⟩ := Option.bind_eq_some_iff.mp fires
              obtain ⟨mb', moved, ⟨⟩⟩ := Option.bind_eq_some_iff.mp put
              simp only [items, deq_items taken]
              exact enq1_perm moved ma0.items ma1'.items
      | inside right rule =>
          cases right with
          | false =>
              obtain ⟨ma0', below, ⟨⟩⟩ := Option.bind_eq_some_iff.mp fires
              exact ((ih0 below).append_left _).append_right _
          | true =>
              obtain ⟨ma1', below, ⟨⟩⟩ := Option.bind_eq_some_iff.mp fires
              exact (ih1 below).append_left _

/-- An element enters; induction on the tree. -/
theorem enq_perm {n i : Nat} {t t' : MergeN α} {d : α} (fires : t.enq n i d = some t')
    : t'.items.Perm (d :: t.items) := by
  induction t generalizing n i t' with
  | single inQ =>
      simp only [MergeN.enq] at fires
      split at fires
      next =>
        obtain ⟨inQ', put, ⟨⟩⟩ := Option.bind_eq_some_iff.mp fires
        simp only [items, (Fifo.enq_eq_some.mp put).2]
        exact List.perm_append_singleton d _
      next => cases fires
  | pair mb =>
      obtain ⟨mb', put, ⟨⟩⟩ := Option.bind_eq_some_iff.mp fires
      simp only [items]
      unfold Merge2.enq at put
      split at put
      next =>
        obtain ⟨inQ1, entered, ⟨⟩⟩ := Option.bind_eq_some_iff.mp put
        simp only [(Fifo.enq_eq_some.mp entered).2]
        rw [← List.append_assoc, List.append_assoc]
        exact List.perm_middle
      next =>
        obtain ⟨inQ2, entered, ⟨⟩⟩ := Option.bind_eq_some_iff.mp put
        simp only [(Fifo.enq_eq_some.mp entered).2]
        rw [← List.append_assoc]
        exact List.perm_append_singleton d _
      next => cases put
  | node ma0 ma1 mb ih0 ih1 =>
      simp only [MergeN.enq] at fires
      split at fires
      next =>
        obtain ⟨ma0', put, ⟨⟩⟩ := Option.bind_eq_some_iff.mp fires
        simp only [items]
        refine (((ih0 put).append_left _).append_right _).trans ?_
        simp only [List.append_assoc, List.cons_append]
        simp only [← List.append_assoc]
        exact List.perm_middle.trans (.of_eq (by simp only [List.append_assoc]))
      next =>
        obtain ⟨ma1', put, ⟨⟩⟩ := Option.bind_eq_some_iff.mp fires
        simp only [items]
        exact ((ih1 put).append_left _).trans List.perm_middle

end MergeN

end BluespecPcie
