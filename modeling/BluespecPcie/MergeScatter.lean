import BluespecPcie.MergeN
import BluespecPcie.Bluespec.Demux

/-! The scatter tree of MergeN.bsv: routing by comparison with half the number of lanes. -/

namespace BluespecPcie

open Bluespec

namespace MergeN

-----------------------------------------------------------------------------------------
-- mkScatterN
-----------------------------------------------------------------------------------------

/-- An elaborated `mkScatterN`: one queue for a single lane, two queues for two, and an input
queue before two subtrees above that.
-/
inductive ScatterN (α : Type) where
  | single (inQ : Fifo α 2)
  | pair (vOutQ0 vOutQ1 : Fifo α 2)
  | node (inQ : Fifo (α × BitVec 8) 2) (sa0 sa1 : ScatterN α)

/-- The module for `n` lanes after reset. -/
def mkScatterN {α : Type} (n : Nat) : ScatterN α :=
  if 2 < n then .node .empty (mkScatterN (halfUp n)) (mkScatterN (halfUp n))
  else if n = 2 then .pair .empty .empty
  else .single .empty
termination_by n
decreasing_by all_goals (unfold halfUp; omega)

/-- `fromInteger(valueOf(n)/2)` as a destination. -/
def threshold (n : Nat) : BitVec 8 := BitVec.ofNat 8 (n / 2)

namespace ScatterN

variable {α : Type}

/-- Method `enq`. -/
def enq : ScatterN α → α → BitVec 8 → Option (ScatterN α)
  | single inQ, data, _ => do
      let inQ ← inQ.enq data
      return single inQ
  | pair vOutQ0 vOutQ1, data, dst =>
      if dst.getLsbD 0 = false then do
        let vOutQ0 ← vOutQ0.enq data
        return pair vOutQ0 vOutQ1
      else do
        let vOutQ1 ← vOutQ1.enq data
        return pair vOutQ0 vOutQ1
  | node inQ sa0 sa1, data, dst => do
      let inQ ← inQ.enq (data, dst)
      return node inQ sa0 sa1

/-- Rule `relayInput` of the module for `n` lanes that the turns lead to. -/
def relayInput : Nat → ScatterN α → List Bool → Option (ScatterN α)
  | n, node inQ sa0 sa1, [] => do
      let ((data, dst), inQ) ← inQ.deq
      if dst < threshold n then
        let sa0 ← sa0.enq data dst
        return node inQ sa0 sa1
      else
        let sa1 ← sa1.enq data (dst - threshold n)
        return node inQ sa0 sa1
  | n, node inQ sa0 sa1, false :: path => do
      let sa0 ← relayInput (halfUp n) sa0 path
      return node inQ sa0 sa1
  | n, node inQ sa0 sa1, true :: path => do
      let sa1 ← relayInput (halfUp n) sa1 path
      return node inQ sa0 sa1
  | _, _, _ => none

/-- `first` and `deq` of `get[i]` of the module for `n` lanes. -/
def get : Nat → ScatterN α → Nat → Option (α × ScatterN α)
  | _, single inQ, i =>
      if i = 0 then do
        let (d, inQ) ← inQ.deq
        return (d, single inQ)
      else none
  | _, pair vOutQ0 vOutQ1, i =>
      if i = 0 then do
        let (d, vOutQ0) ← vOutQ0.deq
        return (d, pair vOutQ0 vOutQ1)
      else if i = 1 then do
        let (d, vOutQ1) ← vOutQ1.deq
        return (d, pair vOutQ0 vOutQ1)
      else none
  | n, node inQ sa0 sa1, i =>
      if i < n / 2 then do
        let (d, sa0) ← get (halfUp n) sa0 i
        return (d, node inQ sa0 sa1)
      else do
        let (d, sa1) ← get (halfUp n) sa1 (i - n / 2)
        return (d, node inQ sa0 sa1)

/-- The module for `n` lanes as a demultiplexer. -/
def demux (n : Nat) (α : Type) : Demux (ScatterN α) α (BitVec 8) (List Bool) where
  enq := enq
  rule := relayInput n
  get := get n

-----------------------------------------------------------------------------------------
-- Lanes
-----------------------------------------------------------------------------------------

/-- What a module for `n` lanes holds for lane `k`: what the subtree of the lane holds for it,
and what waits for it in the input queue.
-/
def held : Nat → ScatterN α → Nat → List α
  | _, single inQ, _ => inQ.items
  | _, pair vOutQ0 vOutQ1, k => if k = 0 then vOutQ0.items else vOutQ1.items
  | n, node inQ sa0 sa1, k =>
      (if k < n / 2 then held (halfUp n) sa0 k else held (halfUp n) sa1 (k - n / 2))
        ++ Demux.forLane BitVec.toNat k inQ.items

/-- A module as `mkScatterN` elaborates it for `n` lanes, in which every destination that waits
at a level is within the level's range; lanes that a subtree has beyond those it is wired to
hold nothing.
-/
def InRange : Nat → ScatterN α → Prop
  | n, single _ => n = 1
  | n, pair _ _ => n = 2
  | n, node inQ sa0 sa1 =>
      2 < n ∧ (∀ entry ∈ inQ.items, entry.2.toNat < n)
      ∧ (∀ k, n / 2 ≤ k → k < halfUp n → held (halfUp n) sa0 k = [])
      ∧ InRange (halfUp n) sa0 ∧ InRange (halfUp n) sa1

/-- The levels of the wiring of `get[k]`: the number of lanes of the level and the index used
there.
-/
inductive GetAt (n k : Nat) : Nat → Nat → Prop
  | root : GetAt n k n k
  | child {m i : Nat} (_ : GetAt n k m i) (_ : 2 < m)
    : GetAt n k (halfUp m) (if i < m / 2 then i else i - m / 2)

/-- The index at every level is within the level's range; induction on the levels. -/
theorem GetAt.within {n k m i : Nat} (at_ : GetAt n k m i) (within : k < n)
    : i < m := by
  induction at_ with
  | root => exact within
  | child _ _ ih =>
      unfold halfUp
      split <;> omega

/-- Up to 256 lanes, half their number is a destination. -/
theorem toNat_threshold {n : Nat} (small : n ≤ 256) : (threshold n).toNat = n / 2 := by
  rw [threshold, BitVec.toNat_ofNat]
  exact Nat.mod_eq_of_lt (by omega)

/-- The comparison of the destination is that of its number. -/
theorem lt_threshold {n : Nat} (small : n ≤ 256) (dst : BitVec 8)
    : dst < threshold n ↔ dst.toNat < n / 2 := by
  rw [BitVec.lt_def, toNat_threshold small]

/-- The destination for the second subtree. -/
theorem sub_threshold {n : Nat} (small : n ≤ 256) {dst : BitVec 8} (high : n / 2 ≤ dst.toNat)
    : (dst - threshold n).toNat = dst.toNat - n / 2 := by
  rw [BitVec.toNat_sub_of_le (by rwa [BitVec.le_def, toNat_threshold small]),
    toNat_threshold small]

/-- The module has the lanes it was made for and holds nothing; induction on the recursion. -/
theorem mkScatterN_inRange {n : Nat} (pos : 1 ≤ n)
    : InRange n (mkScatterN n : ScatterN α)
      ∧ ∀ k, held n (mkScatterN n : ScatterN α) k = [] := by
  induction n using Nat.strongRecOn with
  | ind n ih =>
      unfold mkScatterN
      split
      next more =>
        have smaller : halfUp n < n := by
          unfold halfUp
          omega
        obtain ⟨below, empty⟩ := ih _ smaller (by unfold halfUp; omega)
        refine ⟨⟨more, nofun, fun k _ _ => empty k, below, below⟩, ?_⟩
        intro k
        simp only [held, empty]
        split <;> rfl
      next =>
        split
        next two =>
          refine ⟨two, ?_⟩
          intro k
          simp only [held]
          split <;> rfl
        next => exact ⟨show n = 1 by omega, fun k => rfl⟩

-----------------------------------------------------------------------------------------
-- What each action does to the lanes
-----------------------------------------------------------------------------------------

/-- An enqueue appends to the lane of its destination; cases of the module. -/
theorem InRange.enq {n : Nat} {t t' : ScatterN α} {data : α} {dst : BitVec 8}
    (inRange : InRange n t) (within : dst.toNat < n) (fires : t.enq data dst = some t')
    : InRange n t' ∧ ∀ k < n,
        held n t' k = if dst.toNat = k then held n t k ++ [data] else held n t k := by
  cases t with
  | single inQ =>
      obtain ⟨inQ', put, ⟨⟩⟩ := Option.bind_eq_some_iff.mp fires
      refine ⟨inRange, ?_⟩
      intro k below
      change n = 1 at inRange
      rw [if_pos (by omega)]
      exact (Fifo.enq_eq_some.mp put).2
  | pair vOutQ0 vOutQ1 =>
      change n = 2 at inRange
      subst inRange
      have bit : dst.getLsbD 0 = false ↔ dst.toNat = 0 := by
        rw [BitVec.getLsbD, Nat.testBit_zero, decide_eq_false_iff_not]
        omega
      simp only [ScatterN.enq, bit] at fires
      split at fires
      next low =>
        obtain ⟨vOutQ0', put, ⟨⟩⟩ := Option.bind_eq_some_iff.mp fires
        refine ⟨rfl, ?_⟩
        intro k below
        obtain rfl | rfl : k = 0 ∨ k = 1 := by omega
        · rw [if_pos low]
          exact (Fifo.enq_eq_some.mp put).2
        · rw [if_neg (by omega)]
          rfl
      next high =>
        obtain ⟨vOutQ1', put, ⟨⟩⟩ := Option.bind_eq_some_iff.mp fires
        have one : dst.toNat = 1 := by omega
        refine ⟨rfl, ?_⟩
        intro k below
        obtain rfl | rfl : k = 0 ∨ k = 1 := by omega
        · rw [if_neg (by omega)]
          rfl
        · rw [if_pos one]
          exact (Fifo.enq_eq_some.mp put).2
  | node inQ sa0 sa1 =>
      obtain ⟨more, waiting, unused, inRange0, inRange1⟩ := inRange
      obtain ⟨inQ', put, ⟨⟩⟩ := Option.bind_eq_some_iff.mp fires
      have items := (Fifo.enq_eq_some.mp put).2
      refine ⟨⟨more, ?_, unused, inRange0, inRange1⟩, ?_⟩
      · intro entry member
        rw [items] at member
        rcases List.mem_append.mp member with old | new
        · exact waiting entry old
        · rw [List.mem_singleton.mp new]
          exact within
      · intro k _
        simp only [held, items, Demux.forLane_snoc]
        by_cases mine : dst.toNat = k
        · rw [if_pos mine, if_pos mine, List.append_assoc]
        · rw [if_neg mine, if_neg mine]

/-- A firing of `relayInput` moves nothing between lanes.
Witness: induction on the tree; at the node that fires, the oldest entry goes to the end of
what the subtree of its lane holds for it.
-/
theorem InRange.relayInput {n : Nat} {t t' : ScatterN α} {path : List Bool} (small : n ≤ 256)
    (inRange : InRange n t) (fires : t.relayInput n path = some t')
    : InRange n t' ∧ ∀ k < n, held n t' k = held n t k := by
  induction t generalizing n path t' with
  | single inQ => simp [ScatterN.relayInput] at fires
  | pair vOutQ0 vOutQ1 => simp [ScatterN.relayInput] at fires
  | node inQ sa0 sa1 ih0 ih1 =>
      obtain ⟨more, waiting, unused, inRange0, inRange1⟩ := inRange
      have small' : halfUp n ≤ 256 := by
        unfold halfUp
        omega
      have whole : n - n / 2 = halfUp n := by
        unfold halfUp
        omega
      rcases path with _ | ⟨_ | _, path⟩
      · obtain ⟨⟨⟨data, dst⟩, inQ'⟩, taken, fires⟩ := Option.bind_eq_some_iff.mp fires
        have items := Fifo.deq_eq_some.mp taken
        have within : dst.toNat < n := waiting (data, dst) (by simp [items])
        have waiting' : ∀ entry ∈ inQ'.items, entry.2.toNat < n :=
          fun entry member => waiting entry (by simp [items, member])
        simp only [lt_threshold small] at fires
        split at fires
        next low =>
          obtain ⟨sa0', put, ⟨⟩⟩ := Option.bind_eq_some_iff.mp fires
          obtain ⟨inRange0', lanes⟩ := inRange0.enq (by omega) put
          refine ⟨⟨more, waiting', ?_, inRange0', inRange1⟩, ?_⟩
          · intro k beyond below
            rw [lanes k below, if_neg (by omega), unused k beyond below]
          · intro k below
            simp only [held, items, Demux.forLane_cons]
            by_cases left : k < n / 2
            · rw [if_pos left, if_pos left, lanes k (by omega)]
              split
              · rw [List.append_assoc, List.singleton_append]
              · rfl
            · rw [if_neg left, if_neg left, if_neg (by omega)]
        next high =>
          obtain ⟨sa1', put, ⟨⟩⟩ := Option.bind_eq_some_iff.mp fires
          have lane := sub_threshold small (Nat.le_of_not_lt high)
          obtain ⟨inRange1', lanes⟩ := inRange1.enq (by omega) put
          refine ⟨⟨more, waiting', unused, inRange0, inRange1'⟩, ?_⟩
          intro k below
          simp only [held, items, Demux.forLane_cons]
          by_cases left : k < n / 2
          · rw [if_pos left, if_pos left, if_neg (by omega)]
          · have same : dst.toNat - n / 2 = k - n / 2 ↔ dst.toNat = k := by omega
            rw [if_neg left, if_neg left, lanes (k - n / 2) (by omega), lane]
            simp only [same]
            split
            · rw [List.append_assoc, List.singleton_append]
            · rfl
      · obtain ⟨sa0', below, ⟨⟩⟩ := Option.bind_eq_some_iff.mp fires
        obtain ⟨inRange0', lanes⟩ := ih0 small' inRange0 below
        refine ⟨⟨more, waiting, ?_, inRange0', inRange1⟩, ?_⟩
        · intro k beyond inside
          rw [lanes k inside, unused k beyond inside]
        · intro k inside
          simp only [held]
          by_cases left : k < n / 2
          · rw [if_pos left, if_pos left, lanes k (by omega)]
          · rw [if_neg left, if_neg left]
      · obtain ⟨sa1', below, ⟨⟩⟩ := Option.bind_eq_some_iff.mp fires
        obtain ⟨inRange1', lanes⟩ := ih1 small' inRange1 below
        refine ⟨⟨more, waiting, unused, inRange0, inRange1'⟩, ?_⟩
        intro k inside
        simp only [held]
        by_cases left : k < n / 2
        · rw [if_pos left, if_pos left]
        · rw [if_neg left, if_neg left, lanes (k - n / 2) (by omega)]

/-- A get takes the oldest element of its lane and of no other; induction on the tree. -/
theorem InRange.get {n i : Nat} {t t' : ScatterN α} {d : α} (inRange : InRange n t)
    (within : i < n) (fires : t.get n i = some (d, t'))
    : InRange n t' ∧ ∀ k < n,
        held n t k = if i = k then d :: held n t' k else held n t' k := by
  induction t generalizing n i t' with
  | single inQ =>
      change n = 1 at inRange
      subst inRange
      simp only [ScatterN.get] at fires
      split at fires
      next zero =>
        obtain ⟨⟨d', inQ'⟩, taken, ⟨⟩⟩ := Option.bind_eq_some_iff.mp fires
        refine ⟨rfl, ?_⟩
        intro k below
        rw [if_pos (by omega)]
        exact Fifo.deq_eq_some.mp taken
      next => cases fires
  | pair vOutQ0 vOutQ1 =>
      change n = 2 at inRange
      subst inRange
      simp only [ScatterN.get] at fires
      split at fires
      next zero =>
        obtain ⟨⟨d', vOutQ0'⟩, taken, ⟨⟩⟩ := Option.bind_eq_some_iff.mp fires
        refine ⟨rfl, ?_⟩
        intro k below
        obtain rfl | rfl : k = 0 ∨ k = 1 := by omega
        · rw [if_pos zero]
          exact Fifo.deq_eq_some.mp taken
        · rw [if_neg (by omega)]
          rfl
      next nonzero =>
        split at fires
        next one =>
          obtain ⟨⟨d', vOutQ1'⟩, taken, ⟨⟩⟩ := Option.bind_eq_some_iff.mp fires
          refine ⟨rfl, ?_⟩
          intro k below
          obtain rfl | rfl : k = 0 ∨ k = 1 := by omega
          · rw [if_neg (by omega)]
            rfl
          · rw [if_pos one]
            exact Fifo.deq_eq_some.mp taken
        next => cases fires
  | node inQ sa0 sa1 ih0 ih1 =>
      obtain ⟨more, waiting, unused, inRange0, inRange1⟩ := inRange
      have whole : n - n / 2 = halfUp n := by
        unfold halfUp
        omega
      simp only [ScatterN.get] at fires
      split at fires
      next left =>
        obtain ⟨⟨d', sa0'⟩, taken, ⟨⟩⟩ := Option.bind_eq_some_iff.mp fires
        obtain ⟨inRange0', lanes⟩ := ih0 inRange0 (by omega) taken
        refine ⟨⟨more, waiting, ?_, inRange0', inRange1⟩, ?_⟩
        · intro k beyond below
          have before := lanes k below
          rwa [if_neg (by omega), unused k beyond below, eq_comm] at before
        · intro k below
          simp only [held]
          by_cases left' : k < n / 2
          · rw [if_pos left', if_pos left', lanes k (by omega)]
            split
            · rw [List.cons_append]
            · rfl
          · rw [if_neg left', if_neg left', if_neg (by omega)]
      next right =>
        obtain ⟨⟨d', sa1'⟩, taken, ⟨⟩⟩ := Option.bind_eq_some_iff.mp fires
        obtain ⟨inRange1', lanes⟩ := ih1 inRange1 (by omega) taken
        refine ⟨⟨more, waiting, unused, inRange0, inRange1'⟩, ?_⟩
        intro k below
        simp only [held]
        by_cases left' : k < n / 2
        · rw [if_pos left', if_pos left', if_neg (by omega)]
        · have same : i - n / 2 = k - n / 2 ↔ i = k := by omega
          rw [if_neg left', if_neg left', lanes (k - n / 2) (by omega)]
          simp only [same]
          split
          · rw [List.cons_append]
          · rfl

/-- A module that holds nothing has room. -/
theorem InRange.enq_empty {n : Nat} {t : ScatterN α} {dst : BitVec 8} (inRange : InRange n t)
    (empty : ∀ k < n, held n t k = []) (data : α)
    : ∃ t', t.enq data dst = some t' := by
  cases t with
  | single inQ =>
      change n = 1 at inRange
      obtain ⟨inQ', put⟩ := Fifo.enq_of_room
        (show inQ.items.length < 2 by simp [show inQ.items = [] from empty 0 (by omega)]) data
      exact ⟨_, Option.bind_eq_some_iff.mpr ⟨inQ', put, rfl⟩⟩
  | pair vOutQ0 vOutQ1 =>
      change n = 2 at inRange
      have empty0 : vOutQ0.items = [] := empty 0 (by omega)
      have empty1 : vOutQ1.items = [] := empty 1 (by omega)
      obtain ⟨vOutQ0', put0⟩ := Fifo.enq_of_room
        (show vOutQ0.items.length < 2 by simp [empty0]) data
      obtain ⟨vOutQ1', put1⟩ := Fifo.enq_of_room
        (show vOutQ1.items.length < 2 by simp [empty1]) data
      simp only [ScatterN.enq]
      split
      · exact ⟨_, Option.bind_eq_some_iff.mpr ⟨vOutQ0', put0, rfl⟩⟩
      · exact ⟨_, Option.bind_eq_some_iff.mpr ⟨vOutQ1', put1, rfl⟩⟩
  | node inQ sa0 sa1 =>
      obtain ⟨_, waiting, _⟩ := inRange
      have none : inQ.items = [] := by
        cases items : inQ.items with
        | nil => rfl
        | cons entry rest =>
            obtain ⟨first, dst'⟩ := entry
            have here := empty _ (waiting (first, dst') (by simp [items]))
            simp [held, items, Demux.forLane_cons] at here
      obtain ⟨inQ', put⟩ := Fifo.enq_of_room (show inQ.items.length < 2 by simp [none])
        (data, dst)
      exact ⟨_, Option.bind_eq_some_iff.mpr ⟨inQ', put, rfl⟩⟩

/-- Without a rule or a get to fire the lanes are empty.
Witness: induction on the tree; empty subtrees have room for the oldest entry.
-/
theorem InRange.quiet {n : Nat} {t : ScatterN α} (small : n ≤ 256) (inRange : InRange n t)
    (rules : ∀ path, t.relayInput n path = none) (gets : ∀ k < n, t.get n k = none)
    : ∀ k < n, held n t k = [] := by
  have empty (q : Fifo α 2) (stuck : q.deq = none) : q.items = [] := by
    by_contra nonempty
    have taken := Fifo.deq_isSome_iff.mpr nonempty
    rw [stuck] at taken
    cases taken
  induction t generalizing n with
  | single inQ =>
      intro k within
      change n = 1 at inRange
      have stuck := gets 0 (by omega)
      refine empty inQ ?_
      cases taken : inQ.deq with
      | none => rfl
      | some taken' => simp [ScatterN.get, taken] at stuck
  | pair vOutQ0 vOutQ1 =>
      intro k within
      change n = 2 at inRange
      subst inRange
      obtain rfl | rfl : k = 0 ∨ k = 1 := by omega
      · have stuck := gets 0 (by omega)
        refine empty vOutQ0 ?_
        cases taken : vOutQ0.deq with
        | none => rfl
        | some taken' => simp [ScatterN.get, taken] at stuck
      · have stuck := gets 1 (by omega)
        refine empty vOutQ1 ?_
        cases taken : vOutQ1.deq with
        | none => rfl
        | some taken' => simp [ScatterN.get, taken] at stuck
  | node inQ sa0 sa1 ih0 ih1 =>
      obtain ⟨more, waiting, unused, inRange0, inRange1⟩ := inRange
      have small' : halfUp n ≤ 256 := by
        unfold halfUp
        omega
      have whole : n - n / 2 = halfUp n := by
        unfold halfUp
        omega
      have left : ∀ k < halfUp n, held (halfUp n) sa0 k = [] := by
        refine ih0 small' inRange0 ?_ ?_
        · intro path
          have stuck := rules (false :: path)
          cases moved : sa0.relayInput (halfUp n) path with
          | none => rfl
          | some moved' => simp [ScatterN.relayInput, moved] at stuck
        · intro k below
          cases taken : sa0.get (halfUp n) k with
          | none => rfl
          | some taken' =>
              by_cases wired : k < n / 2
              · have stuck := gets k (by omega)
                simp [ScatterN.get, wired, taken] at stuck
              · have lanes := (inRange0.get below taken).2 k below
                rw [unused k (by omega) below, if_pos rfl] at lanes
                cases lanes
      have right : ∀ k < halfUp n, held (halfUp n) sa1 k = [] := by
        refine ih1 small' inRange1 ?_ ?_
        · intro path
          have stuck := rules (true :: path)
          cases moved : sa1.relayInput (halfUp n) path with
          | none => rfl
          | some moved' => simp [ScatterN.relayInput, moved] at stuck
        · intro k below
          have stuck := gets (n / 2 + k) (by omega)
          have right : ¬n / 2 + k < n / 2 := by omega
          cases taken : sa1.get (halfUp n) k with
          | none => rfl
          | some taken' => simp [ScatterN.get, right, taken] at stuck
      have none : inQ.items = [] := by
        cases items : inQ.items with
        | nil => rfl
        | cons entry rest =>
            obtain ⟨data, dst⟩ := entry
            obtain ⟨inQ', taken, _⟩ := Fifo.deq_of_items items
            obtain ⟨sa0', put0⟩ : ∃ sa0', sa0.enq data dst = some sa0' := InRange.enq_empty inRange0 left data
            obtain ⟨sa1', put1⟩ : ∃ sa1', sa1.enq data (dst - threshold n) = some sa1' :=
              InRange.enq_empty inRange1 right data
            have stuck := rules []
            simp only [ScatterN.relayInput, taken, Option.bind_eq_bind, Option.bind_some, put0,
              put1] at stuck
            split at stuck <;> cases stuck
      intro k within
      simp only [held, none]
      split
      next low => rw [left k (by omega), List.nil_append]; rfl
      next high => rw [right (k - n / 2) (by omega), List.nil_append]; rfl

/-- The module carries its lanes. -/
theorem mkScatterN_carries {n : Nat} (small : n ≤ 256)
    : (demux n α).Carries BitVec.toNat n (InRange n) (held n) := by
  constructor
  case enq => exact fun inRange within fires => inRange.enq within fires
  case rule => exact fun inRange fires => inRange.relayInput small fires
  case get => exact fun inRange within fires => inRange.get within fires
  case quiet => exact fun inRange rules gets => inRange.quiet small rules gets

/-- Gets are wired within range, waiting destinations are in the range of their level, and each
lane gives exactly what was enqueued for it, in order, with the rest inside until nothing can
move.
-/
theorem thresholdScatter_routes {n : Nat} (pos : 1 ≤ n) (small : n ≤ 256) (s : ScatterN α)
    (log : DemuxLog α (BitVec 8))
    (reach : Reach (traced (demux n α).step (demux n α).record) (Demux.InLanes BitVec.toNat n)
      (mkScatterN n, ⟨[], fun _ => []⟩) (s, log))
    : (∀ k < n, ∀ m i, GetAt n k m i → i < m)
      ∧ InRange n s
      ∧ (∀ k < n, log.got k ++ s.held n k = Demux.forLane BitVec.toNat k log.enqueued)
      ∧ ((∀ path, s.relayInput n path = none) → (∀ k < n, s.get n k = none) →
          ∀ k < n, log.got k = Demux.forLane BitVec.toNat k log.enqueued) := by
  obtain ⟨inRange, empty⟩ := mkScatterN_inRange (α := α) pos
  have delivers := (mkScatterN_carries small).delivers inRange (fun k _ => empty k) reach
  refine ⟨?_, delivers.inv, delivers.exact_, ?_⟩
  · exact fun k within m i at_ => at_.within within
  · exact fun rules gets k within =>
      delivers.complete (mkScatterN_carries small) rules gets within

/-- Three lanes: of two elements for lane 2 and one for lane 0, two have come out. -/
theorem thresholdScatter_routes_three
    : ∃ (s : ScatterN Nat) (log : DemuxLog Nat (BitVec 8)),
        Reach (traced (demux 3 Nat).step (demux 3 Nat).record) (Demux.InLanes BitVec.toNat 3)
          (mkScatterN 3, ⟨[], fun _ => []⟩) (s, log)
        ∧ log.got 2 = [7] ∧ log.got 0 = [8]
        ∧ log.got 2 ++ s.held 3 2 = Demux.forLane BitVec.toNat 2 log.enqueued := by
  obtain ⟨⟨s, log⟩, run, seen⟩ := exec_reach_map
    (traced (demux 3 Nat).step (demux 3 Nat).record) (Demux.InLanes BitVec.toNat 3)
    (mkScatterN 3, ⟨[], fun _ => []⟩)
    [.enq 7 2, .enq 8 0, .rule [], .rule [], .enq 9 2, .get 2, .get 0]
    (fun s => (s.2.got 2, s.2.got 0)) ([7], [8]) (by
      have two : (mkScatterN 2 : ScatterN Nat) = .pair .empty .empty := by
        unfold mkScatterN
        rfl
      have three : (mkScatterN 3 : ScatterN Nat)
          = .node .empty (.pair .empty .empty) (.pair .empty .empty) := by
        unfold mkScatterN
        rw [if_pos (by decide), show halfUp 3 = 2 from rfl, two]
      rw [three]
      decide +kernel)
  simp only [Prod.mk.injEq] at seen
  exact ⟨s, log, run, seen.1, seen.2,
    (thresholdScatter_routes (by decide) (by decide) s log run).2.2.1 2 (by decide)⟩

end ScatterN

end MergeN

end BluespecPcie
