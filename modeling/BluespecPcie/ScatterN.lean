import BluespecPcie.MergeN
import BluespecPcie.Bluespec.Demux
import Mathlib.Data.Nat.Log

/-! The scatter tree of ScatterN.bsv: routing by the lowest bit of the destination. -/

namespace BluespecPcie

open Bluespec

-----------------------------------------------------------------------------------------
-- mkScatterNProt
-----------------------------------------------------------------------------------------

/-- An elaborated `mkScatterNProt`: one queue for a single lane, two queues for two, and two
subtrees above that.
-/
inductive ScatterNProt (α : Type) where
  | single (getQ : Fifo α 2)
  | pair (getQ1 getQ2 : Fifo α 2)
  | node (sa0 sa1 : ScatterNProt α)

/-- The module for `n` lanes after reset. -/
def mkScatterNProt {α : Type} (n : Nat) : ScatterNProt α :=
  if 2 < n then .node (mkScatterNProt (halfUp n)) (mkScatterNProt (halfUp n))
  else if n = 2 then .pair .empty .empty
  else .single .empty
termination_by n
decreasing_by all_goals (unfold halfUp; omega)

namespace ScatterNProt

variable {α : Type}

/-- Method `enq`. -/
def enq {w : Nat} : ScatterNProt α → α → BitVec w → Option (ScatterNProt α)
  | single getQ, data, _ => do
      let getQ ← getQ.enq data
      return single getQ
  | pair getQ1 getQ2, data, dst =>
      if dst.getLsbD 0 = false then do
        let getQ1 ← getQ1.enq data
        return pair getQ1 getQ2
      else do
        let getQ2 ← getQ2.enq data
        return pair getQ1 getQ2
  | node sa0 sa1, data, dst =>
      if dst % 2#w = 0#w then do
        let sa0 ← sa0.enq data (dst / 2#w)
        return node sa0 sa1
      else do
        let sa1 ← sa1.enq data (dst / 2#w)
        return node sa0 sa1

/-- Method `get[i].get`. -/
def get : ScatterNProt α → Nat → Option (α × ScatterNProt α)
  | single getQ, i =>
      if i = 0 then do
        let (d, getQ) ← getQ.deq
        return (d, single getQ)
      else none
  | pair getQ1 getQ2, i =>
      if i = 0 then do
        let (d, getQ1) ← getQ1.deq
        return (d, pair getQ1 getQ2)
      else if i = 1 then do
        let (d, getQ2) ← getQ2.deq
        return (d, pair getQ1 getQ2)
      else none
  | node sa0 sa1, i =>
      if i % 2 = 0 then do
        let (d, sa0) ← sa0.get (i / 2)
        return (d, node sa0 sa1)
      else do
        let (d, sa1) ← sa1.get (i / 2)
        return (d, node sa0 sa1)

end ScatterNProt

-----------------------------------------------------------------------------------------
-- The leaves
-----------------------------------------------------------------------------------------

/-- The leaf queue that `get[i]` of a tree for `n` lanes is wired to: the turns from the root
on, and which of two queues it is.
-/
def getLeaf (n i : Nat) : List Bool :=
  if 2 < n then (i % 2 ≠ 0 : Bool) :: getLeaf (halfUp n) (i / 2)
  else if n = 2 then [i ≠ 0]
  else []
termination_by n
decreasing_by (unfold halfUp; omega)

/-- The leaf queue that an enqueue for `dst` goes to in a tree for `n` lanes. -/
def enqLeaf {w : Nat} (n : Nat) (dst : BitVec w) : List Bool :=
  if 2 < n then (dst % 2#w ≠ 0#w : Bool) :: enqLeaf (halfUp n) (dst / 2#w)
  else if n = 2 then [dst.getLsbD 0]
  else []
termination_by n
decreasing_by (unfold halfUp; omega)

/-- The levels that an index goes through: the number of lanes of the level and the index used
there, which is halved at each.
-/
inductive LaneAt (n i : Nat) : Nat → Nat → Prop
  | root : LaneAt n i n i
  | child {m k : Nat} (_ : LaneAt n i m k) (_ : 2 < m) : LaneAt n i (halfUp m) (k / 2)

/-- A destination at the levels below, with the bits of the top level. -/
inductive DstAt {w : Nat} (n : Nat) (dst : BitVec w) : Nat → BitVec w → Prop
  | root : DstAt n dst n dst
  | child {m : Nat} {d : BitVec w} (_ : DstAt n dst m d) (_ : 2 < m)
    : DstAt n dst (halfUp m) (d / 2#w)

/-- The half of an index is within half the lanes. -/
theorem half_lt_halfUp {n i : Nat} (within : i < n) : i / 2 < halfUp n := by
  unfold halfUp
  omega

/-- The index at every level is within the level's range; induction on the levels. -/
theorem LaneAt.within {n i m k : Nat} (at_ : LaneAt n i m k) (within : i < n)
    : k < m := by
  induction at_ with
  | root => exact within
  | child _ _ ih => exact half_lt_halfUp ih

/-- Two lanes' leaves differ.
Witness: induction on the recursion of the wiring; a number is its half and its parity.
-/
theorem getLeaf_injective {n i j : Nat} (within : i < n) (within' : j < n)
    (same : getLeaf n i = getLeaf n j)
    : i = j := by
  induction n using Nat.strongRecOn generalizing i j with
  | ind n ih =>
      rw [getLeaf, getLeaf.eq_def n j] at same
      by_cases more : 2 < n
      · have smaller : halfUp n < n := by
          unfold halfUp
          omega
        rw [if_pos more, if_pos more, List.cons.injEq, decide_eq_decide] at same
        have equal := ih _ smaller (half_lt_halfUp within) (half_lt_halfUp within') same.2
        omega
      · rw [if_neg more, if_neg more] at same
        by_cases two : n = 2
        · simp only [two, if_true, List.cons.injEq, and_true, decide_eq_decide] at same
          omega
        · omega

/-- With two bits the destination's parity is that of its number. -/
theorem dst_mod_two {w : Nat} (wide : 2 ≤ w) (dst : BitVec w)
    : dst % 2#w = 0#w ↔ dst.toNat % 2 = 0 := by
  have two : 2 % 2 ^ w = 2 := Nat.mod_eq_of_lt
    (Nat.lt_of_lt_of_le (by decide) (Nat.pow_le_pow_right (by decide) wide))
  rw [BitVec.toNat_eq, BitVec.toNat_umod, BitVec.toNat_ofNat, BitVec.toNat_ofNat, two,
    Nat.zero_mod]

/-- With two bits the destination's half is that of its number. -/
theorem dst_div_two {w : Nat} (wide : 2 ≤ w) (dst : BitVec w)
    : (dst / 2#w).toNat = dst.toNat / 2 := by
  have two : 2 % 2 ^ w = 2 := Nat.mod_eq_of_lt
    (Nat.lt_of_lt_of_le (by decide) (Nat.pow_le_pow_right (by decide) wide))
  rw [BitVec.toNat_udiv, BitVec.toNat_ofNat, two]

/-- The destination at every level is within the level's range; induction on the levels. -/
theorem DstAt.within {w n m : Nat} {dst d : BitVec w} (wide : 2 < n → 2 ≤ w)
    (at_ : DstAt n dst m d) (within : dst.toNat < n)
    : m ≤ n ∧ d.toNat < m := by
  induction at_ with
  | root => exact ⟨Nat.le_refl _, within⟩
  | child _ more ih =>
      obtain ⟨below, inside⟩ := ih
      rw [dst_div_two (wide (Nat.lt_of_lt_of_le more below))]
      refine ⟨?_, half_lt_halfUp inside⟩
      unfold halfUp
      omega

/-- An enqueue for lane `k` and the get of lane `k` name the same leaf.
Witness: induction on the recursion; both take the parity and go on with the half.
-/
theorem enqLeaf_eq_getLeaf {w n : Nat} {dst : BitVec w} (wide : 2 < n → 2 ≤ w)
    (within : dst.toNat < n)
    : enqLeaf n dst = getLeaf n dst.toNat := by
  induction n using Nat.strongRecOn generalizing dst with
  | ind n ih =>
      rw [enqLeaf, getLeaf]
      by_cases more : 2 < n
      · have smaller : halfUp n < n := by
          unfold halfUp
          omega
        have half : (dst / 2#w).toNat < halfUp n := by
          rw [dst_div_two (wide more)]
          exact half_lt_halfUp within
        rw [if_pos more, if_pos more, ih _ smaller (fun _ => wide more) half,
          dst_div_two (wide more)]
        simp only [ne_eq, dst_mod_two (wide more)]
      · rw [if_neg more, if_neg more]
        by_cases two : n = 2
        · have bit : dst.getLsbD 0 = decide (dst.toNat ≠ 0) := by
            rw [BitVec.getLsbD, Nat.testBit_zero]
            obtain zero | one : dst.toNat = 0 ∨ dst.toNat = 1 := by omega
            · rw [zero]
              rfl
            · rw [one]
              rfl
          rw [if_pos two, if_pos two, bit]
        · rw [if_neg two, if_neg two]

-----------------------------------------------------------------------------------------
-- Queues by their leaf
-----------------------------------------------------------------------------------------

namespace ScatterNProt

variable {α : Type}

/-- What a leaf queue holds. -/
def itemsAt : ScatterNProt α → List Bool → List α
  | single getQ, [] => getQ.items
  | pair getQ1 _, [false] => getQ1.items
  | pair _ getQ2, [true] => getQ2.items
  | node sa0 _, false :: path => sa0.itemsAt path
  | node _ sa1, true :: path => sa1.itemsAt path
  | _, _ => []

/-- A tree as `mkScatterNProt` elaborates it for `n` lanes. -/
def HasLanes : Nat → ScatterNProt α → Prop
  | n, single _ => n = 1
  | n, pair _ _ => n = 2
  | n, node sa0 sa1 => 2 < n ∧ HasLanes (halfUp n) sa0 ∧ HasLanes (halfUp n) sa1

/-- The module has the lanes it was made for. -/
theorem hasLanes_mkScatterNProt {n : Nat} (pos : 1 ≤ n)
    : HasLanes n (mkScatterNProt n : ScatterNProt α) := by
  induction n using Nat.strongRecOn with
  | ind n ih =>
      unfold mkScatterNProt
      split
      next more =>
        have smaller : halfUp n < n := by
          unfold halfUp
          omega
        have some : 1 ≤ halfUp n := by
          unfold halfUp
          omega
        exact ⟨more, ih _ smaller some, ih _ smaller some⟩
      next =>
        split
        next two => exact two
        next => exact show n = 1 by omega

/-- After reset all leaves are empty; induction on the recursion. -/
theorem itemsAt_mkScatterNProt (n : Nat) (path : List Bool)
    : (mkScatterNProt n : ScatterNProt α).itemsAt path = [] := by
  induction n using Nat.strongRecOn generalizing path with
  | ind n ih =>
      unfold mkScatterNProt
      split
      next more =>
        have smaller : halfUp n < n := by
          unfold halfUp
          omega
        rcases path with _ | ⟨_ | _, path⟩
        · rfl
        · exact ih _ smaller path
        · exact ih _ smaller path
      next =>
        split <;> rcases path with _ | ⟨_ | _, _ | _⟩ <;> rfl

/-- An enqueue appends to the leaf of its destination and to no other; induction on the tree. -/
theorem enq_itemsAt {w n : Nat} {t t' : ScatterNProt α} {data : α} {dst : BitVec w}
    (shape : HasLanes n t) (fires : t.enq data dst = some t')
    : HasLanes n t' ∧ ∀ path,
        t'.itemsAt path
          = if enqLeaf n dst = path then t.itemsAt path ++ [data] else t.itemsAt path := by
  induction t generalizing n dst t' with
  | single getQ =>
      obtain ⟨getQ', put, ⟨⟩⟩ := Option.bind_eq_some_iff.mp fires
      refine ⟨shape, ?_⟩
      subst shape
      rw [enqLeaf]
      rintro (_ | ⟨turn, path⟩)
      · exact (Fifo.enq_eq_some.mp put).2
      · rfl
  | pair getQ1 getQ2 =>
      simp only [enq] at fires
      split at fires
      next low =>
        obtain ⟨getQ1', put, ⟨⟩⟩ := Option.bind_eq_some_iff.mp fires
        refine ⟨shape, ?_⟩
        subst shape
        rw [enqLeaf, low]
        rintro (_ | ⟨_ | _, _ | _⟩)
        · rfl
        · exact (Fifo.enq_eq_some.mp put).2
        · rfl
        · rfl
        · rfl
      next high =>
        obtain ⟨getQ2', put, ⟨⟩⟩ := Option.bind_eq_some_iff.mp fires
        refine ⟨shape, ?_⟩
        subst shape
        rw [enqLeaf, eq_true_of_ne_false high]
        rintro (_ | ⟨_ | _, _ | _⟩)
        · rfl
        · rfl
        · rfl
        · exact (Fifo.enq_eq_some.mp put).2
        · rfl
  | node sa0 sa1 ih0 ih1 =>
      obtain ⟨more, shape0, shape1⟩ := shape
      rw [enqLeaf, if_pos more]
      simp only [enq] at fires
      split at fires
      next even =>
        obtain ⟨sa0', put, ⟨⟩⟩ := Option.bind_eq_some_iff.mp fires
        obtain ⟨shape0', items⟩ := ih0 shape0 put
        refine ⟨⟨more, shape0', shape1⟩, ?_⟩
        rintro (_ | ⟨_ | _, path⟩)
        · rfl
        · simp only [itemsAt, items path, even, ne_eq, not_true_eq_false, decide_false,
            List.cons.injEq, true_and]
        · simp [itemsAt, even]
      next odd =>
        obtain ⟨sa1', put, ⟨⟩⟩ := Option.bind_eq_some_iff.mp fires
        obtain ⟨shape1', items⟩ := ih1 shape1 put
        refine ⟨⟨more, shape0, shape1'⟩, ?_⟩
        rintro (_ | ⟨_ | _, path⟩)
        · rfl
        · simp [itemsAt, odd]
        · simp only [itemsAt, items path, odd, ne_eq, not_false_eq_true, decide_true,
            List.cons.injEq, true_and]

/-- A get takes the oldest element of its leaf and of no other; induction on the tree. -/
theorem get_itemsAt {n i : Nat} {t t' : ScatterNProt α} {d : α} (shape : HasLanes n t)
    (fires : t.get i = some (d, t'))
    : HasLanes n t' ∧ ∀ path,
        t.itemsAt path = if getLeaf n i = path then d :: t'.itemsAt path else t'.itemsAt path := by
  induction t generalizing n i t' with
  | single getQ =>
      simp only [get] at fires
      split at fires
      next zero =>
        obtain ⟨⟨d', getQ'⟩, taken, ⟨⟩⟩ := Option.bind_eq_some_iff.mp fires
        refine ⟨shape, ?_⟩
        subst shape
        rw [getLeaf]
        rintro (_ | ⟨turn, path⟩)
        · exact Fifo.deq_eq_some.mp taken
        · rfl
      next => cases fires
  | pair getQ1 getQ2 =>
      simp only [get] at fires
      split at fires
      next zero =>
        obtain ⟨⟨d', getQ1'⟩, taken, ⟨⟩⟩ := Option.bind_eq_some_iff.mp fires
        refine ⟨shape, ?_⟩
        subst shape zero
        rw [getLeaf]
        rintro (_ | ⟨_ | _, _ | _⟩)
        · rfl
        · exact Fifo.deq_eq_some.mp taken
        · rfl
        · rfl
        · rfl
      next =>
        split at fires
        next one =>
          obtain ⟨⟨d', getQ2'⟩, taken, ⟨⟩⟩ := Option.bind_eq_some_iff.mp fires
          refine ⟨shape, ?_⟩
          subst shape one
          rw [getLeaf]
          rintro (_ | ⟨_ | _, _ | _⟩)
          · rfl
          · rfl
          · rfl
          · exact Fifo.deq_eq_some.mp taken
          · rfl
        next => cases fires
  | node sa0 sa1 ih0 ih1 =>
      obtain ⟨more, shape0, shape1⟩ := shape
      rw [getLeaf, if_pos more]
      simp only [get] at fires
      split at fires
      next even =>
        obtain ⟨⟨d', sa0'⟩, taken, ⟨⟩⟩ := Option.bind_eq_some_iff.mp fires
        obtain ⟨shape0', items⟩ := ih0 shape0 taken
        refine ⟨⟨more, shape0', shape1⟩, ?_⟩
        rintro (_ | ⟨_ | _, path⟩)
        · rfl
        · simp only [itemsAt, items path, even, ne_eq, not_true_eq_false, decide_false,
            List.cons.injEq, true_and]
        · simp [itemsAt, even]
      next odd =>
        obtain ⟨⟨d', sa1'⟩, taken, ⟨⟩⟩ := Option.bind_eq_some_iff.mp fires
        obtain ⟨shape1', items⟩ := ih1 shape1 taken
        refine ⟨⟨more, shape0, shape1'⟩, ?_⟩
        rintro (_ | ⟨_ | _, path⟩)
        · rfl
        · simp [itemsAt, odd]
        · simp only [itemsAt, items path, odd, ne_eq, not_false_eq_true, decide_true,
            List.cons.injEq, true_and]

/-- A leaf with elements can be taken from; induction on the tree. -/
theorem get_nonempty {n i : Nat} {t : ScatterNProt α} (shape : HasLanes n t) (within : i < n)
    (nonempty : t.itemsAt (getLeaf n i) ≠ [])
    : ∃ d t', t.get i = some (d, t') := by
  have some (q : Fifo α 2) (items : q.items ≠ []) : ∃ d q', q.deq = some (d, q') := by
    obtain ⟨⟨d, q'⟩, taken⟩ := Option.isSome_iff_exists.mp (Fifo.deq_isSome_iff.mpr items)
    exact ⟨d, q', taken⟩
  induction t generalizing n i with
  | single getQ =>
      subst shape
      obtain rfl : i = 0 := by omega
      rw [getLeaf] at nonempty
      obtain ⟨d, getQ', taken⟩ := some getQ nonempty
      exact ⟨d, _, Option.bind_eq_some_iff.mpr ⟨_, taken, rfl⟩⟩
  | pair getQ1 getQ2 =>
      subst shape
      rw [getLeaf] at nonempty
      obtain rfl | rfl : i = 0 ∨ i = 1 := by omega
      · obtain ⟨d, getQ1', taken⟩ := some getQ1 nonempty
        exact ⟨d, _, Option.bind_eq_some_iff.mpr ⟨_, taken, rfl⟩⟩
      · obtain ⟨d, getQ2', taken⟩ := some getQ2 nonempty
        exact ⟨d, _, Option.bind_eq_some_iff.mpr ⟨_, taken, rfl⟩⟩
  | node sa0 sa1 ih0 ih1 =>
      obtain ⟨more, shape0, shape1⟩ := shape
      have inside := half_lt_halfUp within
      rw [getLeaf, if_pos more] at nonempty
      simp only [get]
      split
      next even =>
        simp only [even, ne_eq, not_true_eq_false, decide_false] at nonempty
        obtain ⟨d, sa0', taken⟩ := ih0 shape0 inside nonempty
        exact ⟨d, _, Option.bind_eq_some_iff.mpr ⟨_, taken, rfl⟩⟩
      next odd =>
        simp only [odd, ne_eq, not_false_eq_true, decide_true] at nonempty
        obtain ⟨d, sa1', taken⟩ := ih1 shape1 inside nonempty
        exact ⟨d, _, Option.bind_eq_some_iff.mpr ⟨_, taken, rfl⟩⟩

/-- An empty leaf has room; induction on the tree. -/
theorem enq_empty {w n : Nat} {t : ScatterNProt α} {dst : BitVec w} (shape : HasLanes n t)
    (empty : t.itemsAt (enqLeaf n dst) = []) (data : α)
    : ∃ t', t.enq data dst = some t' := by
  have room (q : Fifo α 2) (items : q.items = []) : ∃ q', q.enq data = some q' :=
    Fifo.enq_of_room (by simp [items]) data
  induction t generalizing n dst with
  | single getQ =>
      subst shape
      rw [enqLeaf] at empty
      obtain ⟨getQ', put⟩ := room getQ empty
      exact ⟨_, Option.bind_eq_some_iff.mpr ⟨getQ', put, rfl⟩⟩
  | pair getQ1 getQ2 =>
      subst shape
      rw [enqLeaf] at empty
      simp only [enq]
      cases bit : dst.getLsbD 0 with
      | false =>
          rw [bit] at empty
          obtain ⟨getQ1', put⟩ := room getQ1 empty
          exact ⟨_, Option.bind_eq_some_iff.mpr ⟨getQ1', put, rfl⟩⟩
      | true =>
          rw [bit] at empty
          obtain ⟨getQ2', put⟩ := room getQ2 empty
          exact ⟨_, Option.bind_eq_some_iff.mpr ⟨getQ2', put, rfl⟩⟩
  | node sa0 sa1 ih0 ih1 =>
      obtain ⟨more, shape0, shape1⟩ := shape
      rw [enqLeaf, if_pos more] at empty
      simp only [enq]
      split
      next even =>
        simp only [even, ne_eq, not_true_eq_false, decide_false] at empty
        obtain ⟨sa0', put⟩ := ih0 shape0 empty
        exact ⟨_, Option.bind_eq_some_iff.mpr ⟨sa0', put, rfl⟩⟩
      next odd =>
        simp only [odd, ne_eq, not_false_eq_true, decide_true] at empty
        obtain ⟨sa1', put⟩ := ih1 shape1 empty
        exact ⟨_, Option.bind_eq_some_iff.mpr ⟨sa1', put, rfl⟩⟩

end ScatterNProt

-----------------------------------------------------------------------------------------
-- mkScatterN
-----------------------------------------------------------------------------------------

/-- `TLog#(n)`, the bits of a destination. -/
def tlog (n : Nat) : Nat := Nat.clog 2 n

/-- `mkScatterN`: an input queue before the tree. -/
structure ScatterN (n : Nat) (α : Type) where
  sa : ScatterNProt α
  inQ : Fifo (α × BitVec (tlog n)) 2

/-- The module after reset. -/
def mkScatterN {α : Type} (n : Nat) : ScatterN n α := ⟨mkScatterNProt n, .empty⟩

namespace ScatterN

variable {α : Type} {n : Nat}

/-- Method `enq`. -/
def enq (s : ScatterN n α) (data : α) (dst : BitVec (tlog n)) : Option (ScatterN n α) := do
  let inQ ← s.inQ.enq (data, dst)
  return { s with inQ }

/-- Rule `relenq`. -/
def relenq (s : ScatterN n α) : Option (ScatterN n α) := do
  let ((data, dst), inQ) ← s.inQ.deq
  let sa ← s.sa.enq data dst
  return { sa, inQ }

/-- Method `get[i].get`. -/
def get (s : ScatterN n α) (i : Nat) : Option (α × ScatterN n α) := do
  let (d, sa) ← s.sa.get i
  return (d, { s with sa })

/-- The module as a demultiplexer; `relenq` is its only rule. -/
def demux (n : Nat) (α : Type) : Demux (ScatterN n α) α (BitVec (tlog n)) Unit where
  enq := enq
  rule := fun s _ => s.relenq
  get := get

/-- What the module holds for a lane: its leaf, and what waits for it in the input queue. -/
def held (s : ScatterN n α) (k : Nat) : List α :=
  s.sa.itemsAt (getLeaf n k) ++ Demux.forLane BitVec.toNat k s.inQ.items

/-- The tree has the lanes it was made for, and all destinations are lanes. -/
structure Inv (s : ScatterN n α) : Prop where
  shape : s.sa.HasLanes n
  inLanes : ∀ entry ∈ s.inQ.items, entry.2.toNat < n

/-- Destinations of a tree with more than two lanes have two bits. -/
theorem wide (more : 2 < n) : 2 ≤ tlog n := by
  refine Nat.lt_of_not_le ?_
  intro narrow
  have bounded := (Nat.clog_le_iff_le_pow (by decide)).mp narrow
  omega

/-- The module carries its lanes.
Witness: an enqueue waits at the end of the input queue; `relenq` moves the oldest entry to
the leaf of its destination, which is the leaf of that lane's get.
-/
theorem carries (n : Nat) (α : Type) : (demux n α).Carries BitVec.toNat n Inv held := by
  constructor
  case enq =>
    intro s s' data dst inv within fires
    obtain ⟨inQ, put, ⟨⟩⟩ := Option.bind_eq_some_iff.mp fires
    have items := (Fifo.enq_eq_some.mp put).2
    refine ⟨⟨inv.shape, ?_⟩, ?_⟩
    · intro entry member
      rw [items] at member
      rcases List.mem_append.mp member with old | new
      · exact inv.inLanes entry old
      · rw [List.mem_singleton.mp new]
        exact within
    · intro k _
      simp only [held, items, Demux.forLane_snoc]
      split
      · rw [List.append_assoc]
      · rfl
  case rule =>
    intro s s' _ inv fires
    obtain ⟨⟨⟨data, dst⟩, inQ⟩, taken, fires⟩ := Option.bind_eq_some_iff.mp fires
    obtain ⟨sa, put, ⟨⟩⟩ := Option.bind_eq_some_iff.mp fires
    have items := Fifo.deq_eq_some.mp taken
    have within : dst.toNat < n := inv.inLanes (data, dst) (by simp [items])
    obtain ⟨shape, leaves⟩ := ScatterNProt.enq_itemsAt inv.shape put
    refine ⟨⟨shape, fun entry member => inv.inLanes entry (by simp [items, member])⟩, ?_⟩
    intro k below
    have same : enqLeaf n dst = getLeaf n k ↔ dst.toNat = k := by
      rw [enqLeaf_eq_getLeaf wide within]
      exact ⟨getLeaf_injective within below, congrArg _⟩
    simp only [held, items, leaves, same, Demux.forLane_cons]
    split
    · rw [List.append_assoc, List.singleton_append]
    · rfl
  case get =>
    intro s s' i d inv within fires
    obtain ⟨⟨d', sa⟩, taken, ⟨⟩⟩ := Option.bind_eq_some_iff.mp fires
    obtain ⟨shape, leaves⟩ := ScatterNProt.get_itemsAt inv.shape taken
    refine ⟨⟨shape, inv.inLanes⟩, ?_⟩
    intro k below
    have same : getLeaf n i = getLeaf n k ↔ i = k :=
      ⟨getLeaf_injective within below, congrArg _⟩
    simp only [held, leaves, same]
    split
    · rw [List.cons_append]
    · rfl
  case quiet =>
    intro s inv rules gets
    have empty (k : Nat) (within : k < n) : s.sa.itemsAt (getLeaf n k) = [] := by
      by_contra nonempty
      obtain ⟨d, sa, taken⟩ := ScatterNProt.get_nonempty inv.shape within nonempty
      have stuck : s.get k = none := gets k within
      simp [get, taken] at stuck
    -- the oldest entry would find room in its leaf
    have waiting : s.inQ.items = [] := by
      cases items : s.inQ.items with
      | nil => rfl
      | cons entry rest =>
          obtain ⟨data, dst⟩ := entry
          have within : dst.toNat < n := inv.inLanes (data, dst) (by simp [items])
          have room := empty dst.toNat within
          rw [← enqLeaf_eq_getLeaf wide within] at room
          obtain ⟨sa, put⟩ := ScatterNProt.enq_empty inv.shape room data
          obtain ⟨inQ, taken, _⟩ := Fifo.deq_of_items items
          have stuck : s.relenq = none := rules ()
          simp only [relenq, taken, Option.bind_eq_bind, Option.bind_some, put,
            Option.pure_def] at stuck
          cases stuck
    intro k within
    rw [held, empty k within, waiting]
    rfl

/-- Enqueues and gets are wired to the same leaves within range, and each lane gives exactly
what was enqueued for it, in order, with the rest inside until nothing can move.
-/
theorem scatterN_routes (pos : 1 ≤ n) (s : ScatterN n α) (log : DemuxLog α (BitVec (tlog n)))
    (reach : Reach (traced (demux n α).step (demux n α).record) (Demux.InLanes BitVec.toNat n)
      (mkScatterN n, ⟨[], fun _ => []⟩) (s, log))
    : (∀ k < n, ∀ m i, LaneAt n k m i → i < m)
      ∧ (∀ dst : BitVec (tlog n), dst.toNat < n → enqLeaf n dst = getLeaf n dst.toNat
          ∧ ∀ m d, DstAt n dst m d → d.toNat < m)
      ∧ (∀ i < n, ∀ k < n, getLeaf n i = getLeaf n k → i = k)
      ∧ (∀ k < n, log.got k ++ s.held k = Demux.forLane BitVec.toNat k log.enqueued)
      ∧ (s.relenq = none → (∀ k < n, s.get k = none) →
          ∀ k < n, log.got k = Demux.forLane BitVec.toNat k log.enqueued) := by
  have delivers : Demux.Delivers BitVec.toNat n Inv held s log := by
    refine (carries n α).delivers ?_ ?_ reach
    · exact ⟨ScatterNProt.hasLanes_mkScatterNProt pos, nofun⟩
    · intro k _
      exact List.append_eq_nil_iff.mpr ⟨ScatterNProt.itemsAt_mkScatterNProt n _, rfl⟩
  refine ⟨?_, ?_, ?_, delivers.exact_, ?_⟩
  · exact fun k within m i at_ => at_.within within
  · exact fun dst within =>
      ⟨enqLeaf_eq_getLeaf wide within, fun m d at_ => (at_.within wide within).2⟩
  · exact fun i within k within' same => getLeaf_injective within within' same
  · exact fun quiet gets k within => delivers.complete (carries n α) (fun _ => quiet) gets within

/-- Three lanes: of two elements for lane 2 and one for lane 1, two have come out. -/
theorem scatterN_routes_three
    : ∃ (s : ScatterN 3 Nat) (log : DemuxLog Nat (BitVec (tlog 3))),
        Reach (traced (demux 3 Nat).step (demux 3 Nat).record) (Demux.InLanes BitVec.toNat 3)
          (mkScatterN 3, ⟨[], fun _ => []⟩) (s, log)
        ∧ log.got 2 = [7] ∧ log.got 1 = [8]
        ∧ log.got 2 ++ s.held 2 = Demux.forLane BitVec.toNat 2 log.enqueued := by
  obtain ⟨⟨s, log⟩, run, seen⟩ := exec_reach_map
    (traced (demux 3 Nat).step (demux 3 Nat).record) (Demux.InLanes BitVec.toNat 3)
    (mkScatterN 3, ⟨[], fun _ => []⟩)
    [.enq 7 2, .enq 8 1, .rule (), .rule (), .enq 9 2, .get 2, .get 1]
    (fun s => (s.2.got 2, s.2.got 1, s.2.enqueued.length)) ([7], [8], 3) (by
      have two : (mkScatterNProt 2 : ScatterNProt Nat) = .pair .empty .empty := by
        unfold mkScatterNProt
        rfl
      have three : (mkScatterNProt 3 : ScatterNProt Nat)
          = .node (.pair .empty .empty) (.pair .empty .empty) := by
        unfold mkScatterNProt
        rw [if_pos (by decide), show halfUp 3 = 2 from rfl, two]
      rw [mkScatterN, three]
      decide +kernel)
  simp only [Prod.mk.injEq] at seen
  exact ⟨s, log, run, seen.1, seen.2.1, (scatterN_routes (by decide) s log run).2.2.2.1 2 (by decide)⟩

end ScatterN

end BluespecPcie
