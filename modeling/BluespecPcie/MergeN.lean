import BluespecPcie.Bluespec.Fifo

/-! The merge trees of MergeN.bsv: `mkMerge2` and the recursive `mkMergeN`. -/

namespace BluespecPcie

open Bluespec

-----------------------------------------------------------------------------------------
-- mkMerge2
-----------------------------------------------------------------------------------------

/-- The two-way merge: two input queues, one output queue, and the port served first. -/
structure Merge2 (α : Type) where
  inQ1 : Fifo α 2
  inQ2 : Fifo α 2
  outQ : Fifo α 2
  prio : Bool

namespace Merge2

variable {α β : Type}

def init : Merge2 α := ⟨.empty, .empty, .empty, false⟩

/-- `inQ1.deq; outQ.enq(inQ1.first)`. -/
def take1 (m : Merge2 α) : Option (Merge2 α) := do
  let (d, inQ1) ← m.inQ1.deq
  let outQ ← m.outQ.enq d
  return { m with inQ1, outQ }

/-- `inQ2.deq; outQ.enq(inQ2.first)`. -/
def take2 (m : Merge2 α) : Option (Merge2 α) := do
  let (d, inQ2) ← m.inQ2.deq
  let outQ ← m.outQ.enq d
  return { m with inQ2, outQ }

/-- Rule `merge`: serve the preferred port if it has data, else the other, else none; the
preference flips each time.
-/
def merge (m : Merge2 α) : Option (Merge2 α) :=
  let served :=
    if m.prio = false then
      if m.inQ1.items ≠ [] then m.take1
      else if m.inQ2.items ≠ [] then m.take2
      else some m
    else
      if m.inQ2.items ≠ [] then m.take2
      else if m.inQ1.items ≠ [] then m.take1
      else some m
  served.map (fun m' => { m' with prio := !m.prio })

/-- Method `enq[i].enq`; there are two ports. -/
def enq (m : Merge2 α) (i : Nat) (d : α) : Option (Merge2 α) :=
  match i with
  | 0 => do
      let inQ1 ← m.inQ1.enq d
      return { m with inQ1 }
  | 1 => do
      let inQ2 ← m.inQ2.enq d
      return { m with inQ2 }
  | _ => none

/-- `first` and `deq`. -/
def deq (m : Merge2 α) : Option (α × Merge2 α) := do
  let (d, outQ) ← m.outQ.deq
  return (d, { m with outQ })

/-- A firing of `merge` moves the head of one input to the output, or nothing. -/
theorem merge_cases {m m' : Merge2 α} (fires : m.merge = some m')
    : (∃ d, m.inQ1.items = d :: m'.inQ1.items ∧ m'.inQ2 = m.inQ2
        ∧ m'.outQ.items = m.outQ.items ++ [d])
      ∨ (∃ d, m.inQ2.items = d :: m'.inQ2.items ∧ m'.inQ1 = m.inQ1
        ∧ m'.outQ.items = m.outQ.items ++ [d])
      ∨ (m'.inQ1 = m.inQ1 ∧ m'.inQ2 = m.inQ2 ∧ m'.outQ = m.outQ) := by
  obtain ⟨served, choice, rfl⟩ := Option.map_eq_some_iff.mp fires
  have first : m.take1 = some served
      → ∃ d, m.inQ1.items = d :: served.inQ1.items ∧ served.inQ2 = m.inQ2
          ∧ served.outQ.items = m.outQ.items ++ [d] := by
    simp only [take1, Option.bind_eq_bind, Option.bind_eq_some_iff, Prod.exists,
      Fifo.deq_eq_some, Fifo.enq_eq_some, Option.pure_def, Option.some.injEq]
    rintro ⟨d, rest, taken, out, ⟨_, put⟩, rfl⟩
    exact ⟨d, taken, rfl, put⟩
  have second : m.take2 = some served
      → ∃ d, m.inQ2.items = d :: served.inQ2.items ∧ served.inQ1 = m.inQ1
          ∧ served.outQ.items = m.outQ.items ++ [d] := by
    simp only [take2, Option.bind_eq_bind, Option.bind_eq_some_iff, Prod.exists,
      Fifo.deq_eq_some, Fifo.enq_eq_some, Option.pure_def, Option.some.injEq]
    rintro ⟨d, rest, taken, out, ⟨_, put⟩, rfl⟩
    exact ⟨d, taken, rfl, put⟩
  have none : some m = some served
      → served.inQ1 = m.inQ1 ∧ served.inQ2 = m.inQ2 ∧ served.outQ = m.outQ := by
    rintro ⟨⟩
    exact ⟨rfl, rfl, rfl⟩
  split_ifs at choice
  · exact .inl (first choice)
  · exact .inr (.inl (second choice))
  · exact .inr (.inr (none choice))
  · exact .inr (.inl (second choice))
  · exact .inl (first choice)
  · exact .inr (.inr (none choice))

end Merge2

-----------------------------------------------------------------------------------------
-- mkMergeN: the tree, its methods and its rules
-----------------------------------------------------------------------------------------

/-- An elaborated `mkMergeN`: one queue for a single port, one two-way merge for two, and
two subtrees joined by a two-way merge above that.
-/
inductive MergeN (α : Type) where
  | single (inQ : Fifo α 2)
  | pair (mb : Merge2 α)
  | node (ma0 ma1 : MergeN α) (mb : Merge2 α)

/-- `TDiv#(n,2)`, the number of ports of each subtree. -/
def halfUp (n : Nat) : Nat := (n + 1) / 2

/-- The module for `n` ports after reset. -/
def mkMergeN {α : Type} (n : Nat) : MergeN α :=
  if 2 < n then .node (mkMergeN (halfUp n)) (mkMergeN (halfUp n)) .init
  else if n = 2 then .pair .init
  else .single .empty
termination_by n
decreasing_by all_goals (unfold halfUp; omega)

/-- The tree of eight ports, three merges deep; the recursion of `mkMergeN` run out. -/
theorem mkMergeN_eight {α : Type}
    : (mkMergeN 8 : MergeN α)
      = .node (.node (.pair .init) (.pair .init) .init)
          (.node (.pair .init) (.pair .init) .init) .init := by
  have two : (mkMergeN 2 : MergeN α) = .pair .init := by
    unfold mkMergeN
    rfl
  have four : (mkMergeN 4 : MergeN α) = .node (.pair .init) (.pair .init) .init := by
    unfold mkMergeN
    rw [if_pos (by decide), show halfUp 4 = 2 from rfl, two]
  unfold mkMergeN
  rw [if_pos (by decide), show halfUp 8 = 4 from rfl, four]

/-- A rule inside the tree: a `merge` or one of the two `ma1` rules of the root, or a rule
of a subtree.
-/
inductive MergeRule where
  | merge
  | ma1 (right : Bool)
  | inside (right : Bool) (rule : MergeRule)
deriving DecidableEq

namespace MergeN

variable {α : Type}

/-- `first` and `deq` of the root. -/
def deq : MergeN α → Option (α × MergeN α)
  | single inQ => do
      let (d, inQ) ← inQ.deq
      return (d, single inQ)
  | pair mb => do
      let (d, mb) ← mb.deq
      return (d, pair mb)
  | node ma0 ma1 mb => do
      let (d, mb) ← mb.deq
      return (d, node ma0 ma1 mb)

/-- Method `enq[i].enq` of a tree for `n` ports. -/
def enq : Nat → MergeN α → Nat → α → Option (MergeN α)
  | _, single inQ, i, d =>
      if i = 0 then do
        let inQ ← inQ.enq d
        return single inQ
      else none
  | _, pair mb, i, d => do
      let mb ← mb.enq i d
      return pair mb
  | n, node ma0 ma1 mb, i, d =>
      if i < n / 2 then do
        let ma0 ← enq (halfUp n) ma0 (i % (n / 2)) d
        return node ma0 ma1 mb
      else do
        let ma1 ← enq (halfUp n) ma1 (i - n / 2) d
        return node ma0 ma1 mb

/-- One firing of a rule of the tree. -/
def fire : MergeN α → MergeRule → Option (MergeN α)
  | pair mb, .merge => do
      let mb ← mb.merge
      return pair mb
  | node ma0 ma1 mb, .merge => do
      let mb ← mb.merge
      return node ma0 ma1 mb
  | node ma0 ma1 mb, .ma1 false => do
      let (d, ma0) ← ma0.deq
      let mb ← mb.enq 0 d
      return node ma0 ma1 mb
  | node ma0 ma1 mb, .ma1 true => do
      let (d, ma1) ← ma1.deq
      let mb ← mb.enq 1 d
      return node ma0 ma1 mb
  | node ma0 ma1 mb, .inside false rule => do
      let ma0 ← ma0.fire rule
      return node ma0 ma1 mb
  | node ma0 ma1 mb, .inside true rule => do
      let ma1 ← ma1.fire rule
      return node ma0 ma1 mb
  | _, _ => none

-----------------------------------------------------------------------------------------
-- What a tree holds, port by port
-----------------------------------------------------------------------------------------

/-- The elements inside, each queue oldest first and nearer the root first. -/
def items : MergeN α → List α
  | single inQ => inQ.items
  | pair mb => mb.outQ.items ++ mb.inQ1.items ++ mb.inQ2.items
  | node ma0 ma1 mb =>
      mb.outQ.items ++ mb.inQ1.items ++ mb.inQ2.items ++ ma0.items ++ ma1.items

/-- The elements that entered at `port`, oldest first, of a tree of port-labelled elements. -/
def portItems (port : Nat) (t : MergeN (Nat × α)) : List α :=
  (t.items.filter (fun entry => entry.1 = port)).map Prod.snd

/-- Labels name ports `base ≤ port < base + n`, and each input of each two-way merge only
holds labels of the ports wired to it.
-/
def Routed : Nat → Nat → MergeN (Nat × α) → Prop
  | _, base, single inQ => ∀ entry ∈ inQ.items, entry.1 = base
  | _, base, pair mb =>
      (∀ entry ∈ mb.outQ.items, base ≤ entry.1 ∧ entry.1 < base + 2)
      ∧ (∀ entry ∈ mb.inQ1.items, entry.1 = base)
      ∧ ∀ entry ∈ mb.inQ2.items, entry.1 = base + 1
  | n, base, node ma0 ma1 mb =>
      (∀ entry ∈ mb.outQ.items, base ≤ entry.1 ∧ entry.1 < base + n)
      ∧ (∀ entry ∈ mb.inQ1.items ++ ma0.items, base ≤ entry.1 ∧ entry.1 < base + n / 2)
      ∧ (∀ entry ∈ mb.inQ2.items ++ ma1.items, base + n / 2 ≤ entry.1 ∧ entry.1 < base + n)
      ∧ Routed (halfUp n) base ma0
      ∧ Routed (halfUp n) (base + n / 2) ma1

/-- Two lists hold the same elements of each port in the same order. -/
def SamePorts (xs ys : List (Nat × α)) : Prop :=
  ∀ port, xs.filter (fun entry => entry.1 = port) = ys.filter (fun entry => entry.1 = port)

/-- Membership is decided by the entry's own port. -/
theorem SamePorts.mem {xs ys : List (Nat × α)} (same : SamePorts xs ys) {entry : Nat × α}
    (member : entry ∈ xs)
    : entry ∈ ys := by
  have kept : entry ∈ xs.filter (fun other => other.1 = entry.1) :=
    List.mem_filter.mpr ⟨member, by simp⟩
  rw [same entry.1] at kept
  exact (List.mem_filter.mp kept).1

/-- An element may overtake elements of other ports; witness: a filter keeps one or the
other side of the exchange.
-/
theorem samePorts_overtake (pre middle post : List (Nat × α)) (d : Nat × α)
    (others : ∀ entry ∈ middle, entry.1 ≠ d.1)
    : SamePorts (pre ++ d :: (middle ++ post)) (pre ++ (middle ++ d :: post)) := by
  intro port
  simp only [List.filter_append, List.filter_cons]
  by_cases mine : d.1 = port
  · have none : middle.filter (fun entry => entry.1 = port) = [] := by
      rw [List.filter_eq_nil_iff]
      intro entry member same
      exact others entry member (by simp_all)
    simp [mine, none]
  · simp [mine]

/-- Replacing a middle part by one with the same ports changes no port. -/
theorem SamePorts.within {xs ys : List (Nat × α)} (same : SamePorts xs ys)
    (pre post : List (Nat × α))
    : SamePorts (pre ++ xs ++ post) (pre ++ ys ++ post) := by
  intro port
  simp only [List.filter_append, same port]

/-- `deq` takes the head of the output queue of the root, or of the only queue. -/
theorem deq_cases {t t' : MergeN α} {d : α} (fires : t.deq = some (d, t'))
    : (∃ q q', t = single q ∧ t' = single q' ∧ q.items = d :: q'.items)
      ∨ (∃ mb out, t = pair mb ∧ t' = pair { mb with outQ := out }
        ∧ mb.outQ.items = d :: out.items)
      ∨ ∃ ma0 ma1 mb out, t = node ma0 ma1 mb ∧ t' = node ma0 ma1 { mb with outQ := out }
        ∧ mb.outQ.items = d :: out.items := by
  cases t <;>
    simp only [deq, Merge2.deq, Option.bind_eq_bind, Option.bind_eq_some_iff, Prod.exists,
      Fifo.deq_eq_some, Option.pure_def, Option.some.injEq, Prod.mk.injEq] at fires
  case single inQ =>
    obtain ⟨_, rest, taken, rfl, rfl⟩ := fires
    exact .inl ⟨inQ, rest, rfl, rfl, taken⟩
  case pair mb =>
    obtain ⟨_, _, ⟨_, rest, taken, rfl, rfl⟩, rfl, rfl⟩ := fires
    exact .inr (.inl ⟨mb, rest, rfl, rfl, taken⟩)
  case node ma0 ma1 mb =>
    obtain ⟨_, _, ⟨_, rest, taken, rfl, rfl⟩, rfl, rfl⟩ := fires
    exact .inr (.inr ⟨ma0, ma1, mb, rest, rfl, rfl, taken⟩)

/-- `deq` removes the first element, from any tree. -/
theorem deq_items {t t' : MergeN α} {d : α} (fires : t.deq = some (d, t'))
    : t.items = d :: t'.items := by
  rcases deq_cases fires with ⟨q, q', rfl, rfl, taken⟩ | ⟨mb, out, rfl, rfl, taken⟩
    | ⟨ma0, ma1, mb, out, rfl, rfl, taken⟩ <;>
  simp [items, taken]

/-- `deq` leaves a routed tree routed, its other queues being untouched. -/
theorem Routed.deq {n base : Nat} {t t' : MergeN (Nat × α)} {d : Nat × α}
    (routed : Routed n base t) (fires : t.deq = some (d, t'))
    : Routed n base t' := by
  rcases deq_cases fires with ⟨q, q', rfl, rfl, taken⟩ | ⟨mb, out, rfl, rfl, taken⟩
    | ⟨ma0, ma1, mb, out, rfl, rfl, taken⟩
  · intro entry member
    exact routed entry (by simp [taken, member])
  · refine ⟨?_, routed.2⟩
    intro entry member
    exact routed.1 entry (by simp [taken, member])
  · refine ⟨?_, routed.2⟩
    intro entry member
    exact routed.1 entry (by simp [taken, member])

/-- The root merge of a routed two-way merge keeps every port's order: an element leaving
the second input overtakes only elements of the first input's ports.
-/
theorem merge_samePorts {mb mb' : Merge2 (Nat × α)} (split : Nat)
    (fires : mb.merge = some mb')
    (left : ∀ entry ∈ mb.inQ1.items, entry.1 < split)
    (right : ∀ entry ∈ mb.inQ2.items, split ≤ entry.1)
    : SamePorts (mb'.outQ.items ++ mb'.inQ1.items ++ mb'.inQ2.items)
        (mb.outQ.items ++ mb.inQ1.items ++ mb.inQ2.items) := by
  rcases Merge2.merge_cases fires with ⟨d, taken, same, put⟩ | ⟨d, taken, same, put⟩
    | ⟨same1, same2, same⟩
  · simp [taken, same, put, SamePorts]
  · have others : ∀ entry ∈ mb.inQ1.items, entry.1 ≠ d.1 := by
      intro entry member equal
      have low := left entry member
      have high := right d (by simp [taken])
      omega
    have moved := samePorts_overtake mb.outQ.items _ mb'.inQ2.items _ others
    simpa [taken, same, put] using moved
  · simp [same1, same2, same, SamePorts]

/-- A `merge` firing creates no element. -/
theorem merge_mem {mb mb' : Merge2 (Nat × α)} (fires : mb.merge = some mb')
    : (∀ entry ∈ mb'.inQ1.items, entry ∈ mb.inQ1.items)
      ∧ (∀ entry ∈ mb'.inQ2.items, entry ∈ mb.inQ2.items)
      ∧ ∀ entry ∈ mb'.outQ.items,
          entry ∈ mb.outQ.items ∨ entry ∈ mb.inQ1.items ∨ entry ∈ mb.inQ2.items := by
  rcases Merge2.merge_cases fires with ⟨d, taken, same, put⟩ | ⟨d, taken, same, put⟩
    | ⟨same1, same2, same⟩
  · refine ⟨by simp_all, by simp [same], ?_⟩
    intro entry member
    rw [put, List.mem_append, List.mem_singleton] at member
    rcases member with old | rfl
    · exact .inl old
    · exact .inr (.inl (by simp [taken]))
  · refine ⟨by simp [same], by simp_all, ?_⟩
    intro entry member
    rw [put, List.mem_append, List.mem_singleton] at member
    rcases member with old | rfl
    · exact .inl old
    · exact .inr (.inr (by simp [taken]))
  · simp_all

/-- Every rule of the tree keeps the wiring and each port's order.
Witness: induction on the tree; a firing moves one element one queue towards the root, past
elements of other ports only.
-/
theorem Routed.fire {n base : Nat} {t t' : MergeN (Nat × α)} {rule : MergeRule}
    (routed : Routed n base t) (fires : t.fire rule = some t')
    : Routed n base t' ∧ SamePorts t'.items t.items := by
  induction t generalizing n base t' rule with
  | single inQ => simp [MergeN.fire] at fires
  | pair mb =>
      cases rule with
      | merge =>
          simp only [MergeN.fire, Option.bind_eq_bind, Option.bind_eq_some_iff,
            Option.pure_def, Option.some.injEq] at fires
          obtain ⟨mb', merged, rfl⟩ := fires
          obtain ⟨out, left, right⟩ := routed
          obtain ⟨in1, in2, out'⟩ := merge_mem merged
          refine ⟨⟨?_, fun entry member => left entry (in1 entry member),
            fun entry member => right entry (in2 entry member)⟩, ?_⟩
          · intro entry member
            rcases out' entry member with old | old | old
            · exact out entry old
            · have := left entry old
              omega
            · have := right entry old
              omega
          · exact merge_samePorts (base + 1) merged
              (fun entry member => by have := left entry member; omega)
              (fun entry member => by have := right entry member; omega)
      | ma1 right => simp [MergeN.fire] at fires
      | inside right rule => simp [MergeN.fire] at fires
  | node ma0 ma1 mb ih0 ih1 =>
      obtain ⟨out, left, right, routed0, routed1⟩ := routed
      cases rule with
      | merge =>
          simp only [MergeN.fire, Option.bind_eq_bind, Option.bind_eq_some_iff,
            Option.pure_def, Option.some.injEq] at fires
          obtain ⟨mb', merged, rfl⟩ := fires
          obtain ⟨in1, in2, out'⟩ := merge_mem merged
          refine ⟨⟨?_, ?_, ?_, routed0, routed1⟩, ?_⟩
          · intro entry member
            rcases out' entry member with old | old | old
            · exact out entry old
            · have := left entry (List.mem_append_left _ old)
              omega
            · have := right entry (List.mem_append_left _ old)
              omega
          · intro entry member
            rcases List.mem_append.mp member with queued | below
            · exact left entry (List.mem_append_left _ (in1 entry queued))
            · exact left entry (List.mem_append_right _ below)
          · intro entry member
            rcases List.mem_append.mp member with queued | below
            · exact right entry (List.mem_append_left _ (in2 entry queued))
            · exact right entry (List.mem_append_right _ below)
          · have queues := merge_samePorts (base + n / 2) merged
              (fun entry member => (left entry (List.mem_append_left _ member)).2)
              (fun entry member => (right entry (List.mem_append_left _ member)).1)
            simpa [items] using queues.within [] (ma0.items ++ ma1.items)
      | ma1 side =>
          cases side with
          | false =>
              simp only [MergeN.fire, Merge2.enq, Option.bind_eq_bind,
                Option.bind_eq_some_iff, Fifo.enq_eq_some, Option.pure_def,
                Option.some.injEq] at fires
              obtain ⟨⟨d, ma0'⟩, taken, mb', ⟨in1, ⟨_, put⟩, rfl⟩, rfl⟩ := fires
              have moved := deq_items taken
              refine ⟨⟨out, ?_, right, routed0.deq taken, routed1⟩, ?_⟩
              · intro entry member
                apply left entry
                simp only [put, List.mem_append, moved, List.mem_cons] at member ⊢
                tauto
              · have others : ∀ entry ∈ mb.inQ2.items, entry.1 ≠ d.1 := by
                  intro entry member equal
                  have low := left d (by simp [moved])
                  have high := right entry (List.mem_append_left _ member)
                  omega
                have past := samePorts_overtake (mb.outQ.items ++ mb.inQ1.items) _
                  (ma0'.items ++ ma1.items) _ others
                simpa [items, put, moved] using past
          | true =>
              simp only [MergeN.fire, Merge2.enq, Option.bind_eq_bind,
                Option.bind_eq_some_iff, Fifo.enq_eq_some, Option.pure_def,
                Option.some.injEq] at fires
              obtain ⟨⟨d, ma1'⟩, taken, mb', ⟨in2, ⟨_, put⟩, rfl⟩, rfl⟩ := fires
              have moved := deq_items taken
              refine ⟨⟨out, left, ?_, routed0, routed1.deq taken⟩, ?_⟩
              · intro entry member
                apply right entry
                simp only [put, List.mem_append, moved, List.mem_cons] at member ⊢
                tauto
              · have others : ∀ entry ∈ ma0.items, entry.1 ≠ d.1 := by
                  intro entry member equal
                  have high := right d (by simp [moved])
                  have low := left entry (List.mem_append_right _ member)
                  omega
                have past := samePorts_overtake
                  (mb.outQ.items ++ mb.inQ1.items ++ mb.inQ2.items) _ ma1'.items _ others
                simpa [items, put, moved] using past
      | inside side rule =>
          cases side with
          | false =>
              simp only [MergeN.fire, Option.bind_eq_bind, Option.bind_eq_some_iff,
                Option.pure_def, Option.some.injEq] at fires
              obtain ⟨ma0', below, rfl⟩ := fires
              obtain ⟨routed0', same⟩ := ih0 routed0 below
              refine ⟨⟨out, ?_, right, routed0', routed1⟩, ?_⟩
              · intro entry member
                rcases List.mem_append.mp member with queued | inside
                · exact left entry (List.mem_append_left _ queued)
                · exact left entry (List.mem_append_right _ (same.mem inside))
              · exact same.within _ ma1.items
          | true =>
              simp only [MergeN.fire, Option.bind_eq_bind, Option.bind_eq_some_iff,
                Option.pure_def, Option.some.injEq] at fires
              obtain ⟨ma1', below, rfl⟩ := fires
              obtain ⟨routed1', same⟩ := ih1 routed1 below
              refine ⟨⟨out, left, ?_, routed0, routed1'⟩, ?_⟩
              · intro entry member
                rcases List.mem_append.mp member with queued | inside
                · exact right entry (List.mem_append_left _ queued)
                · exact right entry (List.mem_append_right _ (same.mem inside))
              · simpa [items] using same.within
                  (mb.outQ.items ++ mb.inQ1.items ++ mb.inQ2.items ++ ma0.items) []

/-- An element labelled with its port joins the end of that port's sequence.
Witness: induction on the tree; the index computed at each level is the position of the
label among the ports wired to the chosen subtree.
-/
theorem Routed.enq {n base i : Nat} {t t' : MergeN (Nat × α)} {x : α}
    (routed : Routed n base t) (within : i < n)
    (fires : t.enq n i (base + i, x) = some t')
    : Routed n base t'
      ∧ (∀ entry ∈ t'.items, entry ∈ t.items ∨ entry = (base + i, x))
      ∧ ∀ port,
          t'.items.filter (fun entry => entry.1 = port)
          = t.items.filter (fun entry => entry.1 = port)
            ++ [(base + i, x)].filter (fun entry => entry.1 = port) := by
  induction t generalizing n base i t' with
  | single inQ =>
      simp only [MergeN.enq, Option.bind_eq_bind] at fires
      split at fires
      next zero =>
        simp only [Option.bind_eq_some_iff, Fifo.enq_eq_some, Option.pure_def,
          Option.some.injEq] at fires
        obtain ⟨inQ', ⟨_, put⟩, rfl⟩ := fires
        refine ⟨?_, by simp [items, put], by simp [items, put]⟩
        intro entry member
        rw [put, List.mem_append, List.mem_singleton] at member
        rcases member with old | rfl
        · exact routed entry old
        · simp [zero]
      next => cases fires
  | pair mb =>
      obtain ⟨out, left, right⟩ := routed
      simp only [MergeN.enq, Option.bind_eq_bind, Option.bind_eq_some_iff, Option.pure_def,
        Option.some.injEq] at fires
      obtain ⟨mb', put, rfl⟩ := fires
      rcases i with _ | _ | i
      case zero =>
          simp only [Merge2.enq, Option.bind_eq_bind, Option.bind_eq_some_iff,
            Fifo.enq_eq_some, Option.pure_def, Option.some.injEq] at put
          obtain ⟨in1, ⟨_, put⟩, rfl⟩ := put
          refine ⟨⟨out, ?_, right⟩, ?_, ?_⟩
          · intro entry member
            rw [put, List.mem_append, List.mem_singleton] at member
            rcases member with old | rfl
            · exact left entry old
            · rfl
          · intro entry member
            simp only [items, put, List.mem_append, List.mem_singleton] at member ⊢
            tauto
          · intro port
            have past := samePorts_overtake (mb.outQ.items ++ mb.inQ1.items)
              mb.inQ2.items [] (base + 0, x)
              (fun entry member equal => by have := right entry member; simp_all)
            simpa [items, put, List.filter_append] using past port
      case succ.zero =>
          simp only [Merge2.enq, Option.bind_eq_bind, Option.bind_eq_some_iff,
            Fifo.enq_eq_some, Option.pure_def, Option.some.injEq] at put
          obtain ⟨in2, ⟨_, put⟩, rfl⟩ := put
          refine ⟨⟨out, left, ?_⟩, ?_, ?_⟩
          · intro entry member
            rw [put, List.mem_append, List.mem_singleton] at member
            rcases member with old | rfl
            · exact right entry old
            · rfl
          · intro entry member
            simp only [items, put, List.mem_append, List.mem_singleton] at member ⊢
            tauto
          · intro port
            simp [items, put, List.filter_append]
      case succ.succ => simp [Merge2.enq] at put
  | node ma0 ma1 mb ih0 ih1 =>
      obtain ⟨out, left, right, routed0, routed1⟩ := routed
      simp only [MergeN.enq] at fires
      split at fires
      next low =>
        simp only [Option.bind_eq_bind, Option.bind_eq_some_iff, Option.pure_def,
          Option.some.injEq, Nat.mod_eq_of_lt low] at fires
        obtain ⟨ma0', put, rfl⟩ := fires
        obtain ⟨routed0', only, order⟩ := ih0 routed0 (by unfold halfUp; omega) put
        refine ⟨⟨out, ?_, right, routed0', routed1⟩, ?_, ?_⟩
        · intro entry member
          rcases List.mem_append.mp member with queued | inside
          · exact left entry (List.mem_append_left _ queued)
          · rcases only entry inside with old | rfl
            · exact left entry (List.mem_append_right _ old)
            · simp only
              omega
        · intro entry member
          simp only [items, List.mem_append] at member ⊢
          have := only entry
          tauto
        · intro port
          have past := samePorts_overtake [] ma1.items [] (base + i, x)
            (fun entry member equal => by
              have high := right entry (List.mem_append_right _ member)
              simp only at equal
              omega)
          simp only [items, List.filter_append, order port, List.append_assoc,
            List.append_cancel_left_eq]
          rw [← List.filter_append, ← List.filter_append]
          simpa using past port
      next high =>
        have index : base + i = base + n / 2 + (i - n / 2) := by omega
        simp only [Option.bind_eq_bind, Option.bind_eq_some_iff, Option.pure_def,
          Option.some.injEq, index] at fires
        obtain ⟨ma1', put, rfl⟩ := fires
        obtain ⟨routed1', only, order⟩ := ih1 routed1 (by unfold halfUp; omega) put
        rw [← index] at only order
        refine ⟨⟨out, left, ?_, routed0, routed1'⟩, ?_, ?_⟩
        · intro entry member
          rcases List.mem_append.mp member with queued | inside
          · exact right entry (List.mem_append_left _ queued)
          · rcases only entry inside with old | rfl
            · exact right entry (List.mem_append_right _ old)
            · simp only
              omega
        · intro entry member
          simp only [items, List.mem_append] at member ⊢
          have := only entry
          tauto
        · intro port
          simp [items, List.filter_append, order port]

/-- A fresh tree holds nothing, so its labels are right whatever the base. -/
theorem routed_mkMergeN (n base : Nat)
    : Routed n base (mkMergeN n : MergeN (Nat × α))
      ∧ (mkMergeN n : MergeN (Nat × α)).items = [] := by
  induction n using Nat.strongRecOn generalizing base with
  | ind n ih =>
      unfold mkMergeN
      split
      next big =>
        have smaller : halfUp n < n := by
          unfold halfUp
          omega
        have low := ih (halfUp n) smaller base
        have high := ih (halfUp n) smaller (base + n / 2)
        refine ⟨⟨?_, ?_, ?_, low.1, high.1⟩, ?_⟩ <;> simp [Merge2.init, items, low.2]
      next =>
        split
        · simp [Routed, Merge2.init, items]
        · simp [Routed, items]

-----------------------------------------------------------------------------------------
-- Labels are proof-only: a labelled tree does what the plain one does
-----------------------------------------------------------------------------------------

end MergeN

section Relabel

variable {α β : Type}

/-- Elementwise renaming of a two-way merge. -/
def Merge2.map (f : α → β) (m : Merge2 α) : Merge2 β :=
  { inQ1 := m.inQ1.map f, inQ2 := m.inQ2.map f, outQ := m.outQ.map f, prio := m.prio }

/-- Elementwise renaming of a tree. -/
def MergeN.map (f : α → β) : MergeN α → MergeN β
  | .single inQ => .single (inQ.map f)
  | .pair mb => .pair (mb.map f)
  | .node ma0 ma1 mb => .node (ma0.map f) (ma1.map f) (mb.map f)

theorem Merge2.merge_map (f : α → β) (m : Merge2 α)
    : (m.map f).merge = m.merge.map (Merge2.map f) := by
  obtain ⟨in1, in2, out, prio⟩ := m
  have first : (Merge2.mk in1 in2 out prio |>.map f).take1
      = (Merge2.mk in1 in2 out prio).take1.map (Merge2.map f) := by
    simp only [take1, Merge2.map, Fifo.deq_map]
    cases in1.deq with
    | none => rfl
    | some taken => simp only [Option.bind_eq_bind, Option.map_some, Option.bind_some,
        Fifo.enq_map]; cases out.enq taken.1 <;> rfl
  have second : (Merge2.mk in1 in2 out prio |>.map f).take2
      = (Merge2.mk in1 in2 out prio).take2.map (Merge2.map f) := by
    simp only [take2, Merge2.map, Fifo.deq_map]
    cases in2.deq with
    | none => rfl
    | some taken => simp only [Option.bind_eq_bind, Option.map_some, Option.bind_some,
        Fifo.enq_map]; cases out.enq taken.1 <;> rfl
  have empty {xs : List α} : xs.map f ≠ [] ↔ xs ≠ [] := by simp
  unfold merge
  rw [first, second]
  simp only [Merge2.map, Fifo.items_map, empty]
  split_ifs <;> simp only [Option.map_map, Option.map_some] <;> rfl

theorem Merge2.enq_map (f : α → β) (m : Merge2 α) (i : Nat) (d : α)
    : (m.map f).enq i (f d) = (m.enq i d).map (Merge2.map f) := by
  match i with
  | 0 =>
      simp only [enq, Merge2.map, Fifo.enq_map]
      cases m.inQ1.enq d <;> rfl
  | 1 =>
      simp only [enq, Merge2.map, Fifo.enq_map]
      cases m.inQ2.enq d <;> rfl
  | _ + 2 => rfl

theorem Merge2.deq_map (f : α → β) (m : Merge2 α)
    : (m.map f).deq = m.deq.map (fun taken => (f taken.1, taken.2.map f)) := by
  simp only [deq, Merge2.map, Fifo.deq_map]
  cases m.outQ.deq <;> rfl

namespace MergeN

theorem deq_map (f : α → β) (t : MergeN α)
    : (t.map f).deq = t.deq.map (fun taken => (f taken.1, taken.2.map f)) := by
  cases t with
  | single inQ =>
      simp only [deq, map, Fifo.deq_map]
      cases inQ.deq <;> rfl
  | pair mb =>
      simp only [deq, map, Merge2.deq_map]
      cases mb.deq <;> rfl
  | node ma0 ma1 mb =>
      simp only [deq, map, Merge2.deq_map]
      cases mb.deq <;> rfl

theorem enq_map (f : α → β) (n : Nat) (t : MergeN α) (i : Nat) (d : α)
    : (t.map f).enq n i (f d) = (t.enq n i d).map (map f) := by
  induction t generalizing n i with
  | single inQ =>
      simp only [enq, map, Fifo.enq_map]
      split
      · cases inQ.enq d <;> rfl
      · rfl
  | pair mb =>
      simp only [enq, map, Merge2.enq_map]
      cases mb.enq i d <;> rfl
  | node ma0 ma1 mb ih0 ih1 =>
      simp only [enq, map, ih0, ih1]
      split
      · cases ma0.enq (halfUp n) (i % (n / 2)) d <;> rfl
      · cases ma1.enq (halfUp n) (i - n / 2) d <;> rfl

theorem fire_map (f : α → β) (t : MergeN α) (rule : MergeRule)
    : (t.map f).fire rule = (t.fire rule).map (map f) := by
  induction t generalizing rule with
  | single inQ => rfl
  | pair mb =>
      cases rule with
      | merge =>
          simp only [fire, map, Merge2.merge_map]
          cases mb.merge <;> rfl
      | ma1 side => rfl
      | inside side rule => rfl
  | node ma0 ma1 mb ih0 ih1 =>
      cases rule with
      | merge =>
          simp only [fire, map, Merge2.merge_map]
          cases mb.merge <;> rfl
      | ma1 side =>
          cases side with
          | false =>
              simp only [fire, map, deq_map]
              cases ma0.deq with
              | none => rfl
              | some taken =>
                  simp only [Option.bind_eq_bind, Option.map_some, Option.bind_some,
                    Merge2.enq_map]
                  cases mb.enq 0 taken.1 <;> rfl
          | true =>
              simp only [fire, map, deq_map]
              cases ma1.deq with
              | none => rfl
              | some taken =>
                  simp only [Option.bind_eq_bind, Option.map_some, Option.bind_some,
                    Merge2.enq_map]
                  cases mb.enq 1 taken.1 <;> rfl
      | inside side rule =>
          cases side with
          | false =>
              simp only [fire, map, ih0]
              cases ma0.fire rule <;> rfl
          | true =>
              simp only [fire, map, ih1]
              cases ma1.fire rule <;> rfl

theorem map_mkMergeN (f : α → β) (n : Nat)
    : (mkMergeN n : MergeN α).map f = mkMergeN n := by
  induction n using Nat.strongRecOn with
  | ind n ih =>
      unfold mkMergeN
      split
      next big =>
        have smaller : halfUp n < n := by
          unfold halfUp
          omega
        simp only [map, ih (halfUp n) smaller]
        rfl
      next => split <;> rfl

/-- The elements of a renamed tree; induction on the tree. -/
theorem items_map (f : α → β) (t : MergeN α)
    : (t.map f).items = t.items.map f := by
  induction t with
  | single inQ => rfl
  | pair mb => simp [map, items, Merge2.map]
  | node ma0 ma1 mb ih0 ih1 => simp [map, items, Merge2.map, ih0, ih1]

-----------------------------------------------------------------------------------------
-- The abstract merge: one sequence per port, any nonempty one may go next
-----------------------------------------------------------------------------------------

/-- The tree for `n` ports holds exactly the sequence `c port` for each port.
Witness of the definition: a labelling of its elements with the ports they entered at.
-/
def Holds (n : Nat) (t : MergeN α) (c : Nat → List α) : Prop :=
  ∃ labelled : MergeN (Nat × α),
    labelled.map Prod.snd = t
    ∧ Routed n 0 labelled
    ∧ (∀ entry ∈ labelled.items, entry.1 < n)
    ∧ ∀ port, portItems port labelled = c port

/-- After reset nothing is held. -/
theorem Holds.init {n : Nat} : Holds n (mkMergeN n : MergeN α) (fun _ => []) := by
  obtain ⟨routed, empty⟩ := routed_mkMergeN (α := α) n 0
  exact ⟨mkMergeN n, map_mkMergeN Prod.snd n, routed, by simp [empty],
    by simp [portItems, empty]⟩

/-- A tree without elements holds nothing for any port. -/
theorem Holds.empty {n : Nat} {t : MergeN α} {c : Nat → List α} (holds : Holds n t c)
    (none : t.items = []) (port : Nat)
    : c port = [] := by
  obtain ⟨labelled, rfl, _, _, contents⟩ := holds
  rw [items_map, List.map_eq_nil_iff] at none
  rw [← contents port, portItems, none]
  rfl

/-- The rules inside the tree are invisible. -/
theorem Holds.fire {n : Nat} {t t' : MergeN α} {c : Nat → List α} {rule : MergeRule}
    (holds : Holds n t c) (fires : t.fire rule = some t')
    : Holds n t' c := by
  obtain ⟨labelled, rfl, routed, bounded, contents⟩ := holds
  rw [fire_map, Option.map_eq_some_iff] at fires
  obtain ⟨next, fired, rfl⟩ := fires
  obtain ⟨routed', same⟩ := routed.fire fired
  refine ⟨next, rfl, routed', fun entry member => bounded entry (same.mem member), ?_⟩
  intro port
  rw [← contents port, portItems, portItems, same port]

/-- `enq[i].enq` appends to the sequence of port `i` and to no other. -/
theorem Holds.enq {n i : Nat} {t t' : MergeN α} {c : Nat → List α} {d : α}
    (holds : Holds n t c) (within : i < n) (fires : t.enq n i d = some t')
    : Holds n t' (Function.update c i (c i ++ [d])) := by
  obtain ⟨labelled, rfl, routed, bounded, contents⟩ := holds
  have lifted : (labelled.enq n i (0 + i, d)).map (map Prod.snd) = some t' := by
    rw [← enq_map]
    exact fires
  obtain ⟨next, put, rfl⟩ := Option.map_eq_some_iff.mp lifted
  obtain ⟨routed', only, order⟩ := routed.enq within put
  refine ⟨next, rfl, routed', ?_, ?_⟩
  · intro entry member
    rcases only entry member with old | rfl
    · exact bounded entry old
    · simpa using within
  · intro port
    rw [portItems, order port, List.map_append]
    change portItems port labelled ++ _ = _
    rw [contents port]
    by_cases mine : port = i
    · subst mine
      simp
    · have other : i ≠ port := fun same => mine same.symm
      simp [Function.update_of_ne mine, other]

/-- `deq` removes the head of the sequence of one port. -/
theorem Holds.deq {n : Nat} {t t' : MergeN α} {c : Nat → List α} {d : α}
    (holds : Holds n t c) (fires : t.deq = some (d, t'))
    : ∃ port rest,
        port < n ∧ c port = d :: rest ∧ Holds n t' (Function.update c port rest) := by
  obtain ⟨labelled, rfl, routed, bounded, contents⟩ := holds
  rw [deq_map, Option.map_eq_some_iff] at fires
  obtain ⟨⟨⟨port, x⟩, next⟩, taken, equal⟩ := fires
  obtain ⟨rfl, rfl⟩ := Prod.mk.inj equal
  have head := deq_items taken
  refine ⟨port, portItems port next, bounded (port, x) (by simp [head]), ?_, next, rfl,
    routed.deq taken, fun entry member => bounded entry (by simp [head, member]), ?_⟩
  · rw [← contents port]
    simp [portItems, head]
  · intro other
    by_cases mine : other = port
    · subst mine
      simp
    · have different : port ≠ other := fun same => mine same.symm
      rw [Function.update_of_ne mine, ← contents other]
      simp [portItems, head, different]

end MergeN

end Relabel

end BluespecPcie
