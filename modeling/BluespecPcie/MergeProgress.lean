import Mathlib.Tactic.Ring
import BluespecPcie.Bluespec.Progress
import BluespecPcie.MergeOrder

/-! Merge trees get done: whatever is inside moves on until it can be taken out. -/

namespace BluespecPcie

open Bluespec

-----------------------------------------------------------------------------------------
-- Hops that are left
-----------------------------------------------------------------------------------------

/-- The hops that the elements of a two-way merge have in front of them, `base` of them behind its
output.
-/
def Merge2.hops {α : Type} (base : Nat) (m : Merge2 α) : Nat :=
  (base + 1) * m.outQ.items.length + (base + 2) * (m.inQ1.items.length + m.inQ2.items.length)

namespace MergeN

variable {α : Type}

/-- The hops that the elements of a tree have in front of them, `base` of them behind its output. -/
def hops (base : Nat) : MergeN α → Nat
  | single inQ => (base + 1) * inQ.items.length
  | pair mb => mb.hops base
  | node ma0 ma1 mb => mb.hops base + (hops (base + 2) ma0 + hops (base + 2) ma1)

/-- The hops from the farthest input to the output. -/
def depth : MergeN α → Nat
  | single _ => 1
  | pair _ => 2
  | node ma0 ma1 _ => max (depth ma0) (depth ma1) + 2

/-- The elements that can be taken out. -/
def output : MergeN α → List α
  | single inQ => inQ.items
  | pair mb => mb.outQ.items
  | node _ _ mb => mb.outQ.items

end MergeN

-----------------------------------------------------------------------------------------
-- A two-way merge
-----------------------------------------------------------------------------------------

namespace Merge2

variable {α : Type}

/-- An element moved from an input to the output. -/
def Moved (m m' : Merge2 α) : Prop :=
  m'.outQ.items.length = m.outQ.items.length + 1
  ∧ m'.inQ1.items.length + m'.inQ2.items.length + 1
    = m.inQ1.items.length + m.inQ2.items.length

theorem take1_moves {m : Merge2 α} (room : m.outQ.items = []) (some : m.inQ1.items ≠ [])
    : ∃ m', m.take1 = .some m' ∧ Moved m m' := by
  obtain ⟨d, rest, items⟩ := List.exists_cons_of_ne_nil some
  obtain ⟨inQ1, taken, left⟩ := Fifo.deq_of_items items
  obtain ⟨outQ, put⟩ := Fifo.enq_of_room (q := m.outQ) (by rw [room]; exact Nat.zero_lt_two) d
  refine ⟨{ m with inQ1, outQ }, ?_, ?_, ?_⟩
  · exact Option.bind_eq_some_iff.mpr ⟨(d, inQ1), taken,
      Option.bind_eq_some_iff.mpr ⟨outQ, put, rfl⟩⟩
  · rw [(Fifo.enq_eq_some.mp put).2, List.length_append, List.length_singleton]
  · rw [left, items, List.length_cons, Nat.add_right_comm]

theorem take2_moves {m : Merge2 α} (room : m.outQ.items = []) (some : m.inQ2.items ≠ [])
    : ∃ m', m.take2 = .some m' ∧ Moved m m' := by
  obtain ⟨d, rest, items⟩ := List.exists_cons_of_ne_nil some
  obtain ⟨inQ2, taken, left⟩ := Fifo.deq_of_items items
  obtain ⟨outQ, put⟩ := Fifo.enq_of_room (q := m.outQ) (by rw [room]; exact Nat.zero_lt_two) d
  refine ⟨{ m with inQ2, outQ }, ?_, ?_, ?_⟩
  · exact Option.bind_eq_some_iff.mpr ⟨(d, inQ2), taken,
      Option.bind_eq_some_iff.mpr ⟨outQ, put, rfl⟩⟩
  · rw [(Fifo.enq_eq_some.mp put).2, List.length_append, List.length_singleton]
  · rw [left, items, List.length_cons, Nat.add_assoc]

/-- With room at the output and an element at an input, `merge` moves one. -/
theorem merge_moves {m : Merge2 α} (room : m.outQ.items = [])
    (waiting : m.inQ1.items ≠ [] ∨ m.inQ2.items ≠ [])
    : ∃ m', m.merge = some m' ∧ Moved m m' := by
  have served : ∃ m' : Merge2 α, m.merge = some { m' with prio := !m.prio } ∧ Moved m m' := by
    unfold merge
    by_cases prefers : m.prio = false
    · rw [if_pos prefers]
      by_cases one : m.inQ1.items ≠ []
      · obtain ⟨m', taken, moved⟩ := take1_moves room one
        exact ⟨m', by rw [if_pos one, taken]; rfl, moved⟩
      · have two := waiting.resolve_left one
        obtain ⟨m', taken, moved⟩ := take2_moves room two
        exact ⟨m', by rw [if_neg one, if_pos two, taken]; rfl, moved⟩
    · rw [if_neg prefers]
      by_cases two : m.inQ2.items ≠ []
      · obtain ⟨m', taken, moved⟩ := take2_moves room two
        exact ⟨m', by rw [if_pos two, taken]; rfl, moved⟩
      · have one := waiting.resolve_right two
        obtain ⟨m', taken, moved⟩ := take1_moves room one
        exact ⟨m', by rw [if_neg two, if_pos one, taken]; rfl, moved⟩
  obtain ⟨m', fires, moved⟩ := served
  exact ⟨_, fires, moved⟩

/-- A firing of `merge` moves an element or nothing. -/
theorem merge_moved {m m' : Merge2 α} (fires : m.merge = some m')
    : Moved m m' ∨ (m'.inQ1 = m.inQ1 ∧ m'.inQ2 = m.inQ2 ∧ m'.outQ = m.outQ) := by
  rcases merge_cases fires with ⟨d, taken, same, put⟩ | ⟨d, taken, same, put⟩ | none
  case inl =>
    refine .inl ⟨?_, ?_⟩
    · rw [put, List.length_append, List.length_singleton]
    · rw [taken, same, List.length_cons, Nat.add_right_comm]
  case inr.inl =>
    refine .inl ⟨?_, ?_⟩
    · rw [put, List.length_append, List.length_singleton]
    · rw [taken, same, List.length_cons, Nat.add_assoc]
  case inr.inr => exact .inr none

/-- An element enters at one input. -/
theorem enq_lengths {m m' : Merge2 α} {i : Nat} {d : α} (fires : m.enq i d = some m')
    : m'.outQ = m.outQ
      ∧ m'.inQ1.items.length + m'.inQ2.items.length
        = m.inQ1.items.length + m.inQ2.items.length + 1 := by
  unfold enq at fires
  split at fires
  next =>
    obtain ⟨inQ1, put, ⟨⟩⟩ := Option.bind_eq_some_iff.mp fires
    refine ⟨rfl, ?_⟩
    rw [(Fifo.enq_eq_some.mp put).2, List.length_append, List.length_singleton,
      Nat.add_right_comm]
  next =>
    obtain ⟨inQ2, put, ⟨⟩⟩ := Option.bind_eq_some_iff.mp fires
    refine ⟨rfl, ?_⟩
    rw [(Fifo.enq_eq_some.mp put).2, List.length_append, List.length_singleton, Nat.add_assoc]
  next => cases fires

theorem Moved.hops {m m' : Merge2 α} (moved : Moved m m') (base : Nat)
    : m'.hops base + 1 = m.hops base := by
  obtain ⟨out, ins⟩ := moved
  rw [Merge2.hops, Merge2.hops, out, ← ins]
  ring

theorem merge_hops {m m' : Merge2 α} (fires : m.merge = some m') (base : Nat)
    : m'.hops base ≤ m.hops base := by
  rcases merge_moved fires with moved | ⟨in1, in2, out⟩
  case inl => exact Nat.le_of_succ_le (moved.hops base).le
  case inr => rw [hops, hops, in1, in2, out]

/-- An element that enters has two hops in front of it. -/
theorem enq_hops {m m' : Merge2 α} {i : Nat} {d : α} (fires : m.enq i d = some m') (base : Nat)
    : m'.hops base = m.hops base + (base + 2) := by
  obtain ⟨out, ins⟩ := enq_lengths fires
  rw [hops, hops, out, ins]
  ring

/-- An empty merge has room at both inputs. -/
theorem enq_of_empty {m : Merge2 α} {i : Nat} (within : i < 2) (in1 : m.inQ1.items = [])
    (in2 : m.inQ2.items = []) (d : α)
    : ∃ m', m.enq i d = some m' := by
  obtain ⟨inQ1, put1⟩ := Fifo.enq_of_room (q := m.inQ1) (by rw [in1]; exact Nat.zero_lt_two) d
  obtain ⟨inQ2, put2⟩ := Fifo.enq_of_room (q := m.inQ2) (by rw [in2]; exact Nat.zero_lt_two) d
  have two : i = 0 ∨ i = 1 := by omega
  rcases two with rfl | rfl
  case inl => exact ⟨{ m with inQ1 }, by simp only [enq, put1]; rfl⟩
  case inr => exact ⟨{ m with inQ2 }, by simp only [enq, put2]; rfl⟩

end Merge2

-----------------------------------------------------------------------------------------
-- Trees
-----------------------------------------------------------------------------------------

namespace MergeN

variable {α : Type} {t t' : MergeN α}

/-- Trees for as many ports are as deep; induction on one of them. -/
theorem HasPorts.depth_eq {n : Nat} {u : MergeN α} (ports : HasPorts n t) (same : HasPorts n u)
    : t.depth = u.depth := by
  induction t generalizing n u with
  | single inQ =>
      subst ports
      cases u with
      | single _ => rfl
      | pair _ => exact absurd (show 1 = 2 from same) (by decide)
      | node _ _ _ => exact absurd (show 2 < 1 from same.1) (by decide)
  | pair mb =>
      subst ports
      cases u with
      | single _ => exact absurd (show 2 = 1 from same) (by decide)
      | pair _ => rfl
      | node _ _ _ => exact absurd (show 2 < 2 from same.1) (by decide)
  | node ma0 ma1 mb ih0 ih1 =>
      obtain ⟨many, left, right⟩ := ports
      cases u with
      | single _ =>
          have one : n = 1 := same
          omega
      | pair _ =>
          have two : n = 2 := same
          omega
      | node _ _ _ => rw [depth, depth, ih0 left same.2.1, ih1 right same.2.2]

/-- Taking an element saves its hops. -/
theorem deq_hops {d : α} (fires : t.deq = some (d, t')) (base : Nat)
    : t'.hops base + (base + 1) = t.hops base := by
  rcases deq_cases fires with ⟨q, q', rfl, rfl, taken⟩ | ⟨mb, out, rfl, rfl, taken⟩
    | ⟨ma0, ma1, mb, out, rfl, rfl, taken⟩
  case inl =>
    simp only [hops, taken, List.length_cons]
    ring
  case inr.inl =>
    simp only [hops, Merge2.hops, taken, List.length_cons]
    ring
  case inr.inr =>
    simp only [hops, Merge2.hops, taken, List.length_cons]
    ring

/-- What is at the output can be taken. -/
theorem deq_of_output {d : α} {rest : List α} (out : t.output = d :: rest)
    : ∃ t', t.deq = some (d, t') := by
  cases t with
  | single inQ =>
      obtain ⟨inQ', taken, -⟩ := Fifo.deq_of_items out
      exact ⟨single inQ', by simp only [deq, taken]; rfl⟩
  | pair mb =>
      obtain ⟨outQ, taken, -⟩ := Fifo.deq_of_items out
      exact ⟨pair { mb with outQ }, by simp only [deq, Merge2.deq, taken]; rfl⟩
  | node ma0 ma1 mb =>
      obtain ⟨outQ, taken, -⟩ := Fifo.deq_of_items out
      exact ⟨node ma0 ma1 { mb with outQ }, by simp only [deq, Merge2.deq, taken]; rfl⟩

/-- A rule adds no hops; induction on the tree. -/
theorem fire_hops {rule : MergeRule} (fires : t.fire rule = some t') (base : Nat)
    : t'.hops base ≤ t.hops base := by
  induction t generalizing base t' rule with
  | single inQ => simp [fire] at fires
  | pair mb =>
      cases rule with
      | merge =>
          obtain ⟨mb', merged, ⟨⟩⟩ := Option.bind_eq_some_iff.mp fires
          exact Merge2.merge_hops merged base
      | ma1 right => simp [fire] at fires
      | inside right rule => simp [fire] at fires
  | node ma0 ma1 mb ih0 ih1 =>
      cases rule with
      | merge =>
          obtain ⟨mb', merged, ⟨⟩⟩ := Option.bind_eq_some_iff.mp fires
          exact Nat.add_le_add_right (Merge2.merge_hops merged base) _
      | ma1 right =>
          cases right with
          | false =>
              obtain ⟨⟨d, ma0'⟩, taken, rest⟩ := Option.bind_eq_some_iff.mp fires
              obtain ⟨mb', entered, ⟨⟩⟩ := Option.bind_eq_some_iff.mp rest
              have saved := deq_hops taken (base + 2)
              rw [hops, hops, Merge2.enq_hops entered, ← saved]
              omega
          | true =>
              obtain ⟨⟨d, ma1'⟩, taken, rest⟩ := Option.bind_eq_some_iff.mp fires
              obtain ⟨mb', entered, ⟨⟩⟩ := Option.bind_eq_some_iff.mp rest
              have saved := deq_hops taken (base + 2)
              rw [hops, hops, Merge2.enq_hops entered, ← saved]
              omega
      | inside right rule =>
          cases right with
          | false =>
              obtain ⟨ma0', moved, ⟨⟩⟩ := Option.bind_eq_some_iff.mp fires
              have fewer := ih0 moved (base + 2)
              rw [hops, hops]
              omega
          | true =>
              obtain ⟨ma1', moved, ⟨⟩⟩ := Option.bind_eq_some_iff.mp fires
              have fewer := ih1 moved (base + 2)
              rw [hops, hops]
              omega

/-- With nothing at the output, a rule moves an element if there is one; induction on the tree. -/
theorem fire_moves (empty : t.output = []) (some : t.items ≠ []) (base : Nat)
    : ∃ rule t', t.fire rule = .some t' ∧ t'.hops base < t.hops base := by
  induction t generalizing base with
  | single inQ => exact absurd empty some
  | pair mb =>
      have waiting : mb.inQ1.items ≠ [] ∨ mb.inQ2.items ≠ [] := by
        by_contra none
        push Not at none
        exact some (by rw [items, show mb.outQ.items = [] from empty, none.1, none.2]; rfl)
      obtain ⟨mb', merged, moved⟩ := Merge2.merge_moves empty waiting
      refine ⟨.merge, pair mb', by simp only [fire, merged]; rfl, ?_⟩
      rw [hops, hops, ← moved.hops base]
      exact Nat.lt_succ_self _
  | node ma0 ma1 mb ih0 ih1 =>
      by_cases waiting : mb.inQ1.items ≠ [] ∨ mb.inQ2.items ≠ []
      · obtain ⟨mb', merged, moved⟩ := Merge2.merge_moves empty waiting
        refine ⟨.merge, node ma0 ma1 mb', by simp only [fire, merged]; rfl, ?_⟩
        rw [hops, hops, ← moved.hops base]
        omega
      · push Not at waiting
        obtain ⟨in1, in2⟩ := waiting
        by_cases left : ma0.items ≠ []
        · cases head : ma0.output with
          | nil =>
              obtain ⟨rule, ma0', moved, fewer⟩ := ih0 head left (base + 2)
              refine ⟨.inside false rule, node ma0' ma1 mb, by simp only [fire, moved]; rfl, ?_⟩
              rw [hops, hops]
              omega
          | cons d rest =>
              obtain ⟨ma0', taken⟩ := deq_of_output head
              obtain ⟨mb', entered⟩ := Merge2.enq_of_empty (i := 0) (by decide) in1 in2 d
              refine ⟨.ma1 false, node ma0' ma1 mb', Option.bind_eq_some_iff.mpr ⟨(d, ma0'), taken,
                Option.bind_eq_some_iff.mpr ⟨mb', entered, rfl⟩⟩, ?_⟩
              have saved := deq_hops taken (base + 2)
              rw [hops, hops, Merge2.enq_hops entered, ← saved]
              omega
        · have right : ma1.items ≠ [] := by
            intro none
            refine some ?_
            rw [items, show mb.outQ.items = [] from empty, in1, in2, not_not.mp left, none]
            rfl
          cases head : ma1.output with
          | nil =>
              obtain ⟨rule, ma1', moved, fewer⟩ := ih1 head right (base + 2)
              refine ⟨.inside true rule, node ma0 ma1' mb, by simp only [fire, moved]; rfl, ?_⟩
              rw [hops, hops]
              omega
          | cons d rest =>
              obtain ⟨ma1', taken⟩ := deq_of_output head
              obtain ⟨mb', entered⟩ := Merge2.enq_of_empty (i := 1) (by decide) in1 in2 d
              refine ⟨.ma1 true, node ma0 ma1' mb', Option.bind_eq_some_iff.mpr ⟨(d, ma1'), taken,
                Option.bind_eq_some_iff.mpr ⟨mb', entered, rfl⟩⟩, ?_⟩
              have saved := deq_hops taken (base + 2)
              rw [hops, hops, Merge2.enq_hops entered, ← saved]
              omega

/-- An element that enters has no more hops in front of it than the tree is deep; induction on the
tree.
-/
theorem enq_hops {n i : Nat} {d : α} (fires : t.enq n i d = some t') (base : Nat)
    : t'.hops base ≤ t.hops base + (base + t.depth) := by
  induction t generalizing n i base t' with
  | single inQ =>
      unfold enq at fires
      split at fires
      next =>
        obtain ⟨inQ', put, ⟨⟩⟩ := Option.bind_eq_some_iff.mp fires
        rw [hops, hops, depth, (Fifo.enq_eq_some.mp put).2, List.length_append,
          List.length_singleton, Nat.mul_succ]
      next => cases fires
  | pair mb =>
      obtain ⟨mb', entered, ⟨⟩⟩ := Option.bind_eq_some_iff.mp fires
      exact (Merge2.enq_hops entered base).le
  | node ma0 ma1 mb ih0 ih1 =>
      unfold enq at fires
      split at fires
      next =>
        obtain ⟨ma0', entered, ⟨⟩⟩ := Option.bind_eq_some_iff.mp fires
        have more := ih0 entered (base + 2)
        rw [hops, hops, depth]
        omega
      next =>
        obtain ⟨ma1', entered, ⟨⟩⟩ := Option.bind_eq_some_iff.mp fires
        have more := ih1 entered (base + 2)
        rw [hops, hops, depth]
        omega

/-- An empty tree has room at each port; induction on the tree. -/
theorem HasPorts.enq_of_empty {n i : Nat} (ports : HasPorts n t) (within : i < n)
    (empty : t.items = []) (d : α)
    : ∃ t', t.enq n i d = some t' := by
  induction t generalizing n i with
  | single inQ =>
      subst ports
      obtain ⟨inQ', put⟩ := Fifo.enq_of_room (q := inQ)
        (by rw [show inQ.items = [] from empty]; exact Nat.zero_lt_two) d
      have first : i = 0 := by omega
      exact ⟨single inQ', by simp only [MergeN.enq, if_pos first, put]; rfl⟩
  | pair mb =>
      subst ports
      simp only [items, List.append_eq_nil_iff] at empty
      obtain ⟨⟨-, in1⟩, in2⟩ := empty
      obtain ⟨mb', entered⟩ := Merge2.enq_of_empty within in1 in2 d
      exact ⟨pair mb', by simp only [MergeN.enq, entered]; rfl⟩
  | node ma0 ma1 mb ih0 ih1 =>
      obtain ⟨many, left, right⟩ := ports
      have inside := childPort_lt within
      simp only [items, List.append_eq_nil_iff] at empty
      obtain ⟨⟨-, empty0⟩, empty1⟩ := empty
      unfold MergeN.enq
      unfold childPort at inside
      by_cases low : i < n / 2
      · rw [if_pos low] at inside
        obtain ⟨ma0', entered⟩ := ih0 left inside empty0
        exact ⟨node ma0' ma1 mb, by rw [if_pos low, entered]; rfl⟩
      · rw [if_neg low] at inside
        obtain ⟨ma1', entered⟩ := ih1 right inside empty1
        exact ⟨node ma0 ma1' mb, by rw [if_neg low, entered]; rfl⟩

end MergeN

-----------------------------------------------------------------------------------------
-- Everything comes out
-----------------------------------------------------------------------------------------

section Runs

variable {α : Type} {n : Nat}

/-- Rules of the tree, and taking what comes out. -/
def MergeDrains (_ : MergeN α × MergeLog α) : MergeEvent α → Prop
  | .enq _ _ => False
  | .rule _ | .deq => True

/-- A tree that is not empty gives out an element or moves one. -/
theorem mergeN_moves (state : MergeN α × MergeLog α)
    : state.1.items = []
      ∨ Moves (traced (MergeN.step n) MergeLog.record) MergeDrains (fun s => s.1.hops 0) state := by
  obtain ⟨t, log⟩ := state
  by_cases empty : t.items = []
  case pos => exact .inl empty
  case neg =>
    right
    cases out : t.output with
    | nil =>
        obtain ⟨rule, t', fires, fewer⟩ := MergeN.fire_moves out empty 0
        exact ⟨.rule rule, (t', log), trivial, traced_eq_some.mpr ⟨fires, rfl⟩, fewer⟩
    | cons d rest =>
        obtain ⟨t', taken⟩ := MergeN.deq_of_output out
        have saved := MergeN.deq_hops taken 0
        refine ⟨.deq, (t', log.record t .deq), trivial, traced_eq_some.mpr ⟨?_, rfl⟩, ?_⟩
        · rw [MergeN.step, taken]
          rfl
        · change t'.hops 0 < t.hops 0
          omega

/-- What comes out of a tree that is drained: for each port just what was enqueued at it, in order.
-/
structure MergeLog.Drained (enqueued : Nat → List α) (log : MergeLog α) : Prop where
  same : log.enqueued = enqueued
  ports
    : ∃ out : List (Nat × α),
        out.map Prod.snd = log.dequeued ∧ ∀ port, ofPort port out = enqueued port

/-- A merge tree never locks up: whatever was enqueued, and in whatever order the rules fired, its
rules can bring out everything that is still inside, for each port in the order of its enqueues.
-/
theorem mergeN_drains (pos : 1 ≤ n) {state : MergeN α × MergeLog α}
    (run : Reach (traced (MergeN.step n) MergeLog.record) anyEvent
      (mkMergeN n, ⟨fun _ => [], []⟩) state)
    : ∃ state' : MergeN α × MergeLog α,
        Reach (traced (MergeN.step n) MergeLog.record) MergeDrains state state'
        ∧ state'.1.items = []
        ∧ state'.2.Drained state.2.enqueued := by
  have keeps : ∀ {s s' : MergeN α × MergeLog α} {e : MergeEvent α},
      s.2.enqueued = state.2.enqueued → MergeDrains s e →
      traced (MergeN.step n) MergeLog.record s e = some s' →
      s'.2.enqueued = state.2.enqueued := by
    intro s s' e kept rule fires
    rw [(traced_eq_some.mp fires).2, ← kept]
    cases e with
    | enq i d => cases rule
    | rule r => rfl
    | deq => rfl
  obtain ⟨⟨t, log⟩, drained, kept, empty⟩ :=
    reach_goal (fun s : MergeN α × MergeLog α => s.1.hops 0) keeps (fun {s} _ => mergeN_moves s) rfl
  refine ⟨(t, log), drained, empty, kept, ?_⟩
  have whole := run.trans (drained.weaken (fun _ => trivial))
  obtain ⟨-, -, -, out, inside, taken, same, -, contents⟩ := mergeN_preserves pos (t, log) whole
  have none : inside.items = [] := by
    have mapped := congrArg MergeN.items same
    rw [show t.items = [] from empty, MergeN.items_map] at mapped
    exact List.map_eq_nil_iff.mp mapped
  refine ⟨out, taken, ?_⟩
  intro port
  rw [← kept, ← contents port, none, List.append_nil]

end Runs

/-- Elements at two of three ports are all brought out. -/
theorem mergeN_drains_three
    : ∃ state state' : MergeN Nat × MergeLog Nat,
        (state.2.enqueued 0, state.2.enqueued 2) = ([7], [20, 21])
        ∧ state'.1.items = []
        ∧ state'.2.Drained state.2.enqueued := by
  obtain ⟨state, run, seen⟩ := exec_reach_map (traced (MergeN.step 3) MergeLog.record) anyEvent
    (mkMergeN 3, ⟨fun _ => [], []⟩)
    [.enq 2 20, .enq 0 7, .enq 2 21, .rule (.inside true .merge)]
    (fun state => (state.2.enqueued 0, state.2.enqueued 2)) ([7], [20, 21]) (by decide +kernel)
  obtain ⟨state', -, empty, drained⟩ := mergeN_drains (by decide) run
  exact ⟨state, state', seen, empty, drained⟩

end BluespecPcie
