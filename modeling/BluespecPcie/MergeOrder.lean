import BluespecPcie.MergeN
import BluespecPcie.Bluespec.Machine

/-! Runs of `mkMergeN`: the wiring of its ports, and what comes out for each of them. -/

namespace BluespecPcie

open Bluespec

-----------------------------------------------------------------------------------------
-- The wiring
-----------------------------------------------------------------------------------------

/-- The index that `enq_[i]` of a tree for `n` ports uses at the subtree it chooses. -/
def childPort (n i : Nat) : Nat := if i < n / 2 then i % (n / 2) else i - n / 2

/-- The levels that port `i` of a tree for `n` ports goes through: the number of ports of the
level and the index used there.
-/
inductive PortAt (n i : Nat) : Nat → Nat → Prop
  | root : PortAt n i n i
  | child {m k : Nat} (_ : PortAt n i m k) (_ : 2 < m)
    : PortAt n i (halfUp m) (childPort m k)

/-- The input of the tree for `n` ports that port `i` is wired to: the turns from the root on,
and which input of a two-way merge it is.
-/
def leafInput (n i : Nat) : List Bool :=
  if 2 < n then
    if i < n / 2 then false :: leafInput (halfUp n) (i % (n / 2))
    else true :: leafInput (halfUp n) (i - n / 2)
  else if n = 2 then [i ≠ 0]
  else []
termination_by n
decreasing_by all_goals (unfold halfUp; omega)

/-- A subtree has a port for every index that is used at it. -/
theorem childPort_lt {n i : Nat} (within : i < n)
    : childPort n i < halfUp n := by
  unfold childPort halfUp
  split
  next low =>
    rw [Nat.mod_eq_of_lt low]
    omega
  next => omega

/-- The index at every level is within the level's range; induction on the levels. -/
theorem PortAt.within {n i m k : Nat} (at_ : PortAt n i m k) (within : i < n)
    : k < m := by
  induction at_ with
  | root => exact within
  | child _ more ih => exact childPort_lt ih

/-- Distinct ports reach distinct inputs.
Witness: induction on the recursion of the wiring; both halves keep the ports apart.
-/
theorem leafInput_injective {n i j : Nat} (within : i < n) (within' : j < n)
    (same : leafInput n i = leafInput n j)
    : i = j := by
  induction n using Nat.strongRecOn generalizing i j with
  | ind n ih =>
      rw [leafInput, leafInput.eq_def n j] at same
      by_cases more : 2 < n
      · have smaller : halfUp n < n := by
          unfold halfUp
          omega
        have inside := childPort_lt within
        have inside' := childPort_lt within'
        unfold childPort at inside inside'
        simp only [more, if_true] at same
        by_cases low : i < n / 2 <;> by_cases low' : j < n / 2 <;>
          simp only [low, low', if_true, if_false, List.cons.injEq, reduceCtorEq, false_and,
            true_and] at same inside inside'
        · have equal := ih _ smaller inside inside' same
          rwa [Nat.mod_eq_of_lt low, Nat.mod_eq_of_lt low'] at equal
        · have equal := ih _ smaller inside inside' same
          omega
      · simp only [more, if_false] at same
        by_cases two : n = 2
        · simp only [two, if_true, List.cons.injEq, and_true, decide_eq_decide] at same
          omega
        · omega

namespace MergeN

variable {α : Type}

/-- An enqueue at an input, given by the turns to it. -/
def enqAt : MergeN α → List Bool → α → Option (MergeN α)
  | single inQ, [], d => do
      let inQ ← inQ.enq d
      return single inQ
  | pair mb, [second], d => do
      let mb ← mb.enq second.toNat d
      return pair mb
  | node ma0 ma1 mb, false :: path, d => do
      let ma0 ← ma0.enqAt path d
      return node ma0 ma1 mb
  | node ma0 ma1 mb, true :: path, d => do
      let ma1 ← ma1.enqAt path d
      return node ma0 ma1 mb
  | _, _, _ => none

/-- A tree as `mkMergeN` elaborates it for `n` ports. -/
def HasPorts : Nat → MergeN α → Prop
  | n, single _ => n = 1
  | n, pair _ => n = 2
  | n, node ma0 ma1 _ => 2 < n ∧ HasPorts (halfUp n) ma0 ∧ HasPorts (halfUp n) ma1

/-- The module has the ports it was made for. -/
theorem hasPorts_mkMergeN {n : Nat} (pos : 1 ≤ n) : HasPorts n (mkMergeN n : MergeN α) := by
  induction n using Nat.strongRecOn with
  | ind n ih =>
      unfold mkMergeN
      split
      next more =>
        have smaller : halfUp n < n := by
          unfold halfUp
          omega
        have some : 1 ≤ halfUp n := by
          unfold halfUp
          omega
        exact ⟨more, ih _ smaller some, ih _ smaller some⟩
      next =>
        split
        next two => exact two
        next => exact show n = 1 by omega

/-- A method call on a port reaches the input that the port is wired to; induction on the tree.
-/
theorem HasPorts.enq_eq {n i : Nat} {t : MergeN α} (shape : HasPorts n t) (within : i < n)
    (d : α)
    : t.enq n i d = t.enqAt (leafInput n i) d := by
  induction t generalizing n i with
  | single inQ =>
      subst shape
      obtain rfl : i = 0 := by omega
      rw [leafInput]
      rfl
  | pair mb =>
      subst shape
      rw [leafInput]
      obtain rfl | rfl : i = 0 ∨ i = 1 := by omega
      · rfl
      · rfl
  | node ma0 ma1 mb ih0 ih1 =>
      obtain ⟨more, shape0, shape1⟩ := shape
      have inside := childPort_lt within
      unfold childPort at inside
      rw [leafInput, if_pos more, MergeN.enq]
      split
      next low =>
        rw [if_pos low] at inside
        rw [ih0 shape0 inside]
        rfl
      next high =>
        rw [if_neg high] at inside
        rw [ih1 shape1 inside]
        rfl

/-- Taking from a tree keeps its shape. -/
theorem HasPorts.deq {n : Nat} {t t' : MergeN α} {d : α} (shape : HasPorts n t)
    (fires : t.deq = some (d, t'))
    : HasPorts n t' := by
  rcases deq_cases fires with ⟨q, q', rfl, rfl, _⟩ | ⟨mb, out, rfl, rfl, _⟩
    | ⟨ma0, ma1, mb, out, rfl, rfl, _⟩ <;> exact shape

/-- A call at a port keeps the shape; induction on the tree. -/
theorem HasPorts.enq {n m i : Nat} {t t' : MergeN α} {d : α} (shape : HasPorts m t)
    (fires : t.enq n i d = some t')
    : HasPorts m t' := by
  induction t generalizing n m i t' with
  | single inQ =>
      simp only [MergeN.enq, Option.bind_eq_bind] at fires
      split at fires
      next =>
        obtain ⟨inQ', _, ⟨⟩⟩ := Option.bind_eq_some_iff.mp fires
        exact shape
      next => cases fires
  | pair mb =>
      obtain ⟨mb', _, ⟨⟩⟩ := Option.bind_eq_some_iff.mp fires
      exact shape
  | node ma0 ma1 mb ih0 ih1 =>
      obtain ⟨more, shape0, shape1⟩ := shape
      simp only [MergeN.enq] at fires
      split at fires
      next =>
        obtain ⟨ma0', put, ⟨⟩⟩ := Option.bind_eq_some_iff.mp fires
        exact ⟨more, ih0 shape0 put, shape1⟩
      next =>
        obtain ⟨ma1', put, ⟨⟩⟩ := Option.bind_eq_some_iff.mp fires
        exact ⟨more, shape0, ih1 shape1 put⟩

/-- A rule of the tree keeps the shape; induction on the tree. -/
theorem HasPorts.fire {n : Nat} {t t' : MergeN α} {rule : MergeRule} (shape : HasPorts n t)
    (fires : t.fire rule = some t')
    : HasPorts n t' := by
  induction t generalizing n t' rule with
  | single inQ => simp [MergeN.fire] at fires
  | pair mb =>
      cases rule with
      | merge =>
          obtain ⟨mb', _, ⟨⟩⟩ := Option.bind_eq_some_iff.mp fires
          exact shape
      | ma1 right => simp [MergeN.fire] at fires
      | inside right rule => simp [MergeN.fire] at fires
  | node ma0 ma1 mb ih0 ih1 =>
      obtain ⟨more, shape0, shape1⟩ := shape
      cases rule with
      | merge =>
          obtain ⟨mb', _, ⟨⟩⟩ := Option.bind_eq_some_iff.mp fires
          exact ⟨more, shape0, shape1⟩
      | ma1 right =>
          cases right with
          | false =>
              obtain ⟨⟨d, ma0'⟩, taken, put⟩ := Option.bind_eq_some_iff.mp fires
              obtain ⟨mb', _, ⟨⟩⟩ := Option.bind_eq_some_iff.mp put
              exact ⟨more, shape0.deq taken, shape1⟩
          | true =>
              obtain ⟨⟨d, ma1'⟩, taken, put⟩ := Option.bind_eq_some_iff.mp fires
              obtain ⟨mb', _, ⟨⟩⟩ := Option.bind_eq_some_iff.mp put
              exact ⟨more, shape0, shape1.deq taken⟩
      | inside right rule =>
          cases right with
          | false =>
              obtain ⟨ma0', below, ⟨⟩⟩ := Option.bind_eq_some_iff.mp fires
              exact ⟨more, ih0 shape0 below, shape1⟩
          | true =>
              obtain ⟨ma1', below, ⟨⟩⟩ := Option.bind_eq_some_iff.mp fires
              exact ⟨more, shape0, ih1 shape1 below⟩

end MergeN

-----------------------------------------------------------------------------------------
-- Runs
-----------------------------------------------------------------------------------------

/-- What can happen at a merge for `n` ports: a call at a port, a rule inside, or a dequeue. -/
inductive MergeEvent (α : Type) where
  | enq (i : Nat) (d : α)
  | rule (rule : MergeRule)
  | deq

/-- One event of a merge for `n` ports. -/
def MergeN.step {α : Type} (n : Nat) (t : MergeN α) : MergeEvent α → Option (MergeN α)
  | .enq i d => if i < n then t.enq n i d else none
  | .rule rule => t.fire rule
  | .deq => t.deq.map Prod.snd

/-- What was enqueued at each port, and what was dequeued. -/
structure MergeLog (α : Type) where
  enqueued : Nat → List α
  dequeued : List α

/-- How an event extends the history. -/
def MergeLog.record {α : Type} (t : MergeN α) (e : MergeEvent α) (log : MergeLog α)
    : MergeLog α :=
  match e with
  | .enq i d => { log with enqueued := Function.update log.enqueued i (log.enqueued i ++ [d]) }
  | .rule _ => log
  | .deq => { log with dequeued := log.dequeued ++ (t.deq.map Prod.fst).toList }

/-- The elements of a port among labelled ones. -/
def ofPort {α : Type} (port : Nat) (entries : List (Nat × α)) : List α :=
  (entries.filter (fun entry => entry.1 = port)).map Prod.snd

/-- The elements that came out and those that are inside, in this order, are of the ports and
are for each port those that were enqueued at it, in their order. `out` and `inside` tell the
port of each.
-/
def MergeLog.Preserved {α : Type} (n : Nat) (t : MergeN α) (log : MergeLog α) : Prop :=
  ∃ (out : List (Nat × α)) (inside : MergeN (Nat × α)),
    out.map Prod.snd = log.dequeued
    ∧ inside.map Prod.snd = t
    ∧ (∀ entry ∈ out ++ inside.items, entry.1 < n)
    ∧ ∀ port, ofPort port (out ++ inside.items) = log.enqueued port

section Runs

variable {α : Type} {n : Nat}

/-- Elements of a port of a list of two parts. -/
theorem ofPort_append (port : Nat) (xs ys : List (Nat × α))
    : ofPort port (xs ++ ys) = ofPort port xs ++ ofPort port ys := by
  simp only [ofPort, List.filter_append, List.map_append]

/-- A labelled element is of its port. -/
theorem ofPort_singleton (port k : Nat) (d : α)
    : ofPort port [(k, d)] = if k = port then [d] else [] := by
  by_cases same : k = port
  · simp [ofPort, same]
  · simp [ofPort, same]

/-- The invariant: what the tree holds for each port, and the ports of what came out. -/
structure MergeInv (n : Nat) (t : MergeN α) (log : MergeLog α) : Prop where
  shape : t.HasPorts n
  holds : ∃ out c, out.map Prod.snd = log.dequeued ∧ (∀ entry ∈ out, entry.1 < n)
    ∧ MergeN.Holds n t c ∧ ∀ port, ofPort port out ++ c port = log.enqueued port

/-- Every event keeps the invariant. -/
theorem MergeInv.step {t t' : MergeN α} {log : MergeLog α} {e : MergeEvent α}
    (inv : MergeInv n t log) (fires : t.step n e = some t')
    : MergeInv n t' (log.record t e) := by
  obtain ⟨shape, out, c, dequeued, bounded, holds, contents⟩ := inv
  cases e with
  | enq i d =>
      simp only [MergeN.step] at fires
      split at fires
      next within =>
        refine ⟨shape.enq fires, out, _, dequeued, bounded, holds.enq within fires, ?_⟩
        intro port
        change _ = Function.update log.enqueued i (log.enqueued i ++ [d]) port
        by_cases mine : port = i
        · subst mine
          rw [Function.update_self, Function.update_self, ← contents port, List.append_assoc]
        · rw [Function.update_of_ne mine, Function.update_of_ne mine, contents port]
      next => cases fires
  | rule rule => exact ⟨shape.fire fires, out, c, dequeued, bounded, holds.fire fires, contents⟩
  | deq =>
      obtain ⟨⟨d, next⟩, taken, rfl⟩ := Option.map_eq_some_iff.mp fires
      obtain ⟨port, rest, below, head, left⟩ := holds.deq taken
      refine ⟨shape.deq taken, out ++ [(port, d)], _, ?_, ?_, left, ?_⟩
      · simp [MergeLog.record, taken, dequeued]
      · intro entry member
        rcases List.mem_append.mp member with old | new
        · exact bounded entry old
        · rw [List.mem_singleton.mp new]
          exact below
      · intro other
        change _ = log.enqueued other
        rw [ofPort_append, ofPort_singleton, ← contents other, List.append_assoc]
        by_cases mine : other = port
        · subst mine
          rw [Function.update_self, if_pos rfl, head, List.singleton_append]
        · rw [Function.update_of_ne mine, if_neg (Ne.symm mine), List.nil_append]

/-- What the invariant says about what came out and what is inside. -/
theorem MergeInv.preserved {t : MergeN α} {log : MergeLog α} (inv : MergeInv n t log)
    : log.Preserved n t := by
  obtain ⟨_, out, c, dequeued, bounded, ⟨inside, same, _, bounded', held⟩, contents⟩ := inv
  refine ⟨out, inside, dequeued, same, ?_, ?_⟩
  · intro entry member
    rcases List.mem_append.mp member with left | kept
    · exact bounded entry left
    · exact bounded' entry kept
  · intro port
    rw [ofPort_append, ← contents port, ← held port]
    rfl

/-- Ports are wired within range to distinct inputs, and in every run nothing is lost,
duplicated or reordered within a port.
-/
theorem mergeN_preserves (pos : 1 ≤ n) (s : MergeN α × MergeLog α)
    (reach : Reach (traced (MergeN.step n) MergeLog.record) anyEvent
      (mkMergeN n, ⟨fun _ => [], []⟩) s)
    : (∀ i < n, ∀ m k, PortAt n i m k → k < m)
      ∧ (∀ i < n, ∀ j < n, leafInput n i = leafInput n j → i = j)
      ∧ (∀ i < n, ∀ d, s.1.enq n i d = s.1.enqAt (leafInput n i) d)
      ∧ s.2.Preserved n s.1 := by
  have inv : MergeInv n s.1 s.2 := by
    refine reach.invariant (P := fun s => MergeInv n s.1 s.2) ?_ ?_
    · exact ⟨MergeN.hasPorts_mkMergeN pos, [], _, rfl, nofun, .init, fun _ => rfl⟩
    · intro s e s' inv _ fires
      obtain ⟨fired, recorded⟩ := traced_eq_some.mp fires
      rw [recorded]
      exact inv.step fired
  refine ⟨?_, ?_, ?_, inv.preserved⟩
  · exact fun i within m k at_ => at_.within within
  · exact fun i within j within' same => leafInput_injective within within' same
  · exact fun i within d => inv.shape.enq_eq within d

/-- Three ports: two elements of port 2 and one of port 0, of which one has come out. -/
theorem mergeN_preserves_three
    : ∃ s, Reach (traced (MergeN.step 3) MergeLog.record) anyEvent
          (mkMergeN 3, ⟨fun _ => [], []⟩) s
        ∧ s.2.dequeued = [20] ∧ s.2.enqueued 2 = [20, 21] ∧ s.2.Preserved 3 s.1 := by
  obtain ⟨s, run, seen⟩ := exec_reach_map (traced (MergeN.step 3) MergeLog.record) anyEvent
    (mkMergeN 3, ⟨fun _ => [], []⟩)
    [.enq 2 20, .enq 0 7, .enq 2 21, .rule (.inside true .merge), .rule (.ma1 true),
      .rule .merge, .deq]
    (fun s => (s.2.dequeued, s.2.enqueued 2)) ([20], [20, 21]) (by
      have two : (mkMergeN 2 : MergeN Nat) = .pair .init := by
        unfold mkMergeN
        rfl
      have three : (mkMergeN 3 : MergeN Nat) = .node (.pair .init) (.pair .init) .init := by
        unfold mkMergeN
        rw [if_pos (by decide), show halfUp 3 = 2 from rfl, two]
      rw [three]
      rfl)
  simp only [Prod.mk.injEq] at seen
  exact ⟨s, run, seen.1, seen.2, (mergeN_preserves (by decide) s run).2.2.2⟩

end Runs

end BluespecPcie
