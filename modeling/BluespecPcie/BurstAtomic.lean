import BluespecPcie.BurstMerge
import BluespecPcie.Bluespec.Machine

/-! Bursts come out of a tree of burst merges whole, with the words of their own ports. -/

namespace BluespecPcie

open Bluespec

-----------------------------------------------------------------------------------------
-- Ports of the subtrees
-----------------------------------------------------------------------------------------

/-- The subtree that port `p` of a tree for `n` ports is wired to. -/
def sideOf (n p : Nat) : Bool := n / 2 ≤ p

/-- The port of the subtree. -/
def localPort (n p : Nat) : Nat := if p < n / 2 then p else p - n / 2

/-- The port of the tree that port `q` of a subtree is wired to. -/
def globalPort (n : Nat) (i : Bool) (q : Nat) : Nat := if i then n / 2 + q else q

/-- What belongs to the ports of a subtree; some of the first one's may not be wired. -/
def portsOf {γ : Type} (n : Nat) (i : Bool) (f : Nat → List γ) (q : Nat) : List γ :=
  if i then f (n / 2 + q) else if q < n / 2 then f q else []

/-- A stream labelled with subtrees. -/
def sided {γ : Type} (n : Nat) (xs : List (Nat × γ)) : List (Bool × γ) :=
  xs.map (fun x => (sideOf n x.1, x.2))

/-- The part of a stream that is from a subtree, labelled with its ports. -/
def localOf {γ : Type} (n : Nat) (i : Bool) (xs : List (Nat × γ)) : List (Nat × γ) :=
  (xs.filter (fun x => sideOf n x.1 = i)).map (fun x => (localPort n x.1, x.2))

section Ports

variable {γ : Type} {n : Nat} {i : Bool} {p q : Nat}

/-- A port's own subtree and port. -/
theorem portsOf_local (f : Nat → List γ) (p : Nat)
    : portsOf n (sideOf n p) f (localPort n p) = f p := by
  unfold portsOf sideOf localPort
  by_cases low : p < n / 2
  · have left : ¬n / 2 ≤ p := Nat.not_le_of_lt low
    simp [left, low]
  · have right : n / 2 ≤ p := Nat.le_of_not_lt low
    simp [right, low]

/-- A wired port of a subtree is its port of the tree. -/
theorem sideOf_globalPort (wired : i = false → q < n / 2)
    : sideOf n (globalPort n i q) = i ∧ localPort n (globalPort n i q) = q := by
  unfold sideOf localPort globalPort
  cases i with
  | false =>
      have low := wired rfl
      simp [low]
  | true =>
      have high : ¬n / 2 + q < n / 2 := by omega
      simp [high]

/-- A change at one port. -/
theorem portsOf_update (f : Nat → List γ) (p : Nat) (ys : List γ) (i : Bool)
    : portsOf n i (Function.update f p ys)
      = if sideOf n p = i then Function.update (portsOf n i f) (localPort n p) ys
        else portsOf n i f := by
  funext q
  unfold portsOf sideOf localPort
  cases i with
  | false =>
      by_cases low : p < n / 2
      · have left : ¬n / 2 ≤ p := Nat.not_le_of_lt low
        by_cases here : q = p
        · subst here
          simp [left, low]
        · simp [left, low, Function.update_of_ne here]
      · have right : n / 2 ≤ p := Nat.le_of_not_lt low
        by_cases other : q < n / 2
        · have different : q ≠ p := by omega
          simp [right, other, Function.update_of_ne different]
        · simp [right, other]
  | true =>
      by_cases low : p < n / 2
      · have left : ¬n / 2 ≤ p := Nat.not_le_of_lt low
        have different : n / 2 + q ≠ p := by omega
        simp [left, Function.update_of_ne different]
      · have right : n / 2 ≤ p := Nat.le_of_not_lt low
        by_cases here : n / 2 + q = p
        · subst here
          simp [low]
        · have different : q ≠ p - n / 2 := by omega
          simp [right, low, Function.update_of_ne here, Function.update_of_ne different]

/-- The elements of a port are those of its port of its subtree. -/
theorem withLabel_local (p : Nat) (xs : List (Nat × γ))
    : withLabel (localPort n p) (localOf n (sideOf n p) xs) = withLabel p xs := by
  simp only [withLabel, localOf, List.filter_map, List.filter_filter, List.map_map]
  refine congrArg (List.map _) (List.filter_congr ?_)
  intro x _
  have same : (localPort n x.1 = localPort n p ∧ sideOf n x.1 = sideOf n p) ↔ x.1 = p := by
    unfold localPort sideOf
    simp only [decide_eq_decide]
    constructor
    · rintro ⟨equal, side⟩
      split at equal <;> split at equal <;> omega
    · rintro equal
      rw [equal]
      exact ⟨rfl, Iff.rfl⟩
  simp only [Function.comp, ← Bool.decide_and, same]

/-- The elements of a subtree, with their ports or without. -/
theorem withLabel_sided (i : Bool) (xs : List (Nat × γ))
    : withLabel i (sided n xs) = (localOf n i xs).map Prod.snd := by
  simp only [withLabel, sided, localOf, List.filter_map, List.map_map]
  rfl

theorem sided_snoc (xs : List (Nat × γ)) (p : Nat) (x : γ)
    : sided n (xs ++ [(p, x)]) = sided n xs ++ [(sideOf n p, x)] := by
  simp [sided]

theorem localOf_snoc (xs : List (Nat × γ)) (p : Nat) (x : γ) (i : Bool)
    : localOf n i (xs ++ [(p, x)])
      = if sideOf n p = i then localOf n i xs ++ [(localPort n p, x)] else localOf n i xs := by
  by_cases mine : sideOf n p = i
  · simp [localOf, mine]
  · simp [localOf, mine]

end Ports

-----------------------------------------------------------------------------------------
-- What a tree has put out
-----------------------------------------------------------------------------------------

namespace BurstMerge

variable {α β : Type} {bSz : Nat}

/-- The bursts and words that a tree for `n` ports has put out, with the ports they are from:
those of its two-port module, whose ports are fed by the subtrees.
-/
def Emits (size : β → BitVec bSz)
    : Nat → BurstMerge α β bSz → BurstStreams Nat α β → List (Nat × β) → List (Nat × α) → Prop
  | _, pair m, h, bursts, words =>
      ∃ (bursts' : List (Bool × β)) (words' : List (Bool × α)),
        bursts = bursts'.map (fun b => (b.1.toNat, b.2))
        ∧ words = words'.map (fun w => (w.1.toNat, w.2))
        ∧ m.Emits size
          { announced := fun i => h.announced i.toNat
            enqueued := fun i => h.enqueued i.toNat
            got := h.got
            dequeued := h.dequeued }
          bursts' words'
  | n, node ma m0 outQ burstQ, h, bursts, words =>
      ∃ (got : Bool → List β) (dequeued : Bool → List α) (burstsOf : Bool → List (Nat × β))
        (wordsOf : Bool → List (Nat × α)),
        (∀ i, Emits size (halfUp n) (ma i)
          { announced := portsOf n i h.announced
            enqueued := portsOf n i h.enqueued
            got := got i
            dequeued := dequeued i }
          (burstsOf i) (wordsOf i))
        ∧ (∀ i, localOf n i bursts <+: burstsOf i)
        ∧ (∀ i, localOf n i words <+: wordsOf i)
        ∧ m0.Emits size
          { announced := got
            enqueued := dequeued
            got := h.got ++ burstQ.items
            dequeued := h.dequeued ++ outQ.items }
          (sided n bursts) (sided n words)

variable {size : β → BitVec bSz} {n : Nat} {t t' : BurstMerge α β bSz}
  {h : BurstStreams Nat α β} {bursts : List (Nat × β)} {words : List (Nat × α)}

/-- A label of two ports. -/
theorem withLabel_toNat {γ : Type} (i : Bool) (xs : List (Bool × γ))
    : withLabel i.toNat (xs.map (fun x => (x.1.toNat, x.2))) = withLabel i xs := by
  simp only [withLabel, List.filter_map, List.map_map]
  refine congrArg (List.map _) (List.filter_congr ?_)
  intro x _
  obtain ⟨j, _⟩ := x
  cases i <;> cases j <;> rfl

/-- Two ports have no other label. -/
theorem withLabel_beyond {γ : Type} {p : Nat} (beyond : 2 ≤ p) (xs : List (Bool × γ))
    : withLabel p (xs.map (fun x => (x.1.toNat, x.2))) = [] := by
  rw [withLabel, List.map_eq_nil_iff, List.filter_eq_nil_iff]
  intro x member
  obtain ⟨y, _, rfl⟩ := List.mem_map.mp member
  have small := Bool.toNat_lt y.1
  simp only [decide_eq_true_eq]
  omega

/-- The bursts that came out are the first ones put out, and so are the words. -/
theorem Emits.out (emits : t.Emits size n h bursts words)
    : h.got <+: bursts.map Prod.snd ∧ h.dequeued <+: words.map Prod.snd := by
  cases t with
  | pair m =>
      obtain ⟨bursts', words', rfl, rfl, pair⟩ := emits
      rw [List.map_map, List.map_map]
      exact ⟨⟨_, pair.got.symm⟩, ⟨_, pair.dequeued.symm⟩⟩
  | node ma m0 outQ burstQ =>
      obtain ⟨got, dequeued, burstsOf, wordsOf, _, _, _, pair⟩ := emits
      have first := pair.got
      have second := pair.dequeued
      simp only [sided, List.map_map, List.append_assoc] at first second
      exact ⟨⟨_, first.symm⟩, ⟨_, second.symm⟩⟩

/-- The bursts of a port are put out in the order they were announced, and its words in the
order they were enqueued; induction on the tree.
-/
theorem Emits.ports (emits : t.Emits size n h bursts words) (p : Nat)
    : withLabel p bursts <+: h.announced p ∧ withLabel p words <+: h.enqueued p := by
  induction t generalizing n h bursts words p with
  | pair m =>
      obtain ⟨bursts', words', rfl, rfl, pair⟩ := emits
      by_cases beyond : 2 ≤ p
      · rw [withLabel_beyond beyond, withLabel_beyond beyond]
        exact ⟨List.nil_prefix, List.nil_prefix⟩
      · obtain ⟨i, rfl⟩ : ∃ i : Bool, p = i.toNat := by
          obtain rfl | rfl : p = 0 ∨ p = 1 := by omega
          · exact ⟨false, rfl⟩
          · exact ⟨true, rfl⟩
        rw [withLabel_toNat, withLabel_toNat]
        exact ⟨⟨_, pair.announced i⟩, ⟨_, pair.enqueued i⟩⟩
  | node ma m0 outQ burstQ ih =>
      obtain ⟨got, dequeued, burstsOf, wordsOf, below, bursts_, words_, _⟩ := emits
      obtain ⟨announced, enqueued⟩ := ih (sideOf n p) (below _) (localPort n p)
      simp only [portsOf_local] at announced enqueued
      have map {γ : Type} {xs ys : List (Nat × γ)} (fewer : xs <+: ys)
          : withLabel (localPort n p) xs <+: withLabel (localPort n p) ys :=
        (fewer.filter _).map _
      rw [← withLabel_local (n := n) p bursts, ← withLabel_local (n := n) p words]
      exact ⟨(map (bursts_ _)).trans announced, (map (words_ _)).trans enqueued⟩

/-- The ports of the elements of a subtree. -/
theorem filter_ports {γ : Type} (i : Bool) (xs : List (Nat × γ))
    : ((xs.map Prod.fst).filter (fun p => sideOf n p = i)).map (localPort n)
      = (localOf n i xs).map Prod.fst := by
  simp only [localOf, List.filter_map, List.map_map]
  rfl

/-- A port is known by its subtree and its port there. -/
theorem port_injective {p q : Nat} (side : sideOf n p = sideOf n q)
    (port : localPort n p = localPort n q)
    : p = q := by
  unfold sideOf at side
  unfold localPort at port
  simp only [decide_eq_decide] at side
  split at port <;> split at port <;> omega

/-- Ports of one subtree that agree there. -/
theorem prefix_of_local {i : Bool} {xs ys : List Nat} (sides : ∀ p ∈ xs, sideOf n p = i)
    (sides' : ∀ p ∈ ys, sideOf n p = i)
    (fewer : xs.map (localPort n) <+: ys.map (localPort n))
    : xs <+: ys := by
  induction xs generalizing ys with
  | nil => exact List.nil_prefix
  | cons x xs ih =>
      cases ys with
      | nil => simp at fewer
      | cons y ys =>
          rw [List.map_cons, List.map_cons, List.cons_prefix_cons] at fewer
          have same : x = y := by
            refine port_injective (n := n) ?_ fewer.1
            rw [sides x (by simp), sides' y (by simp)]
          subst same
          refine List.cons_prefix_cons.mpr ⟨rfl, ih ?_ ?_ fewer.2⟩
          · exact fun p member => sides p (by simp [member])
          · exact fun p member => sides' p (by simp [member])

/-- The words that are put out are those of the bursts, one burst after the other.
Witness: induction on the tree. At a node the words take turns as its bursts do; the words and
bursts of a subtree are beginnings of what the subtree puts out, where this holds already.
-/
theorem Emits.runs (emits : t.Emits size n h bursts words)
    : words.map Prod.fst <+: runLabels (fun b => (size b).toNat) bursts := by
  induction t generalizing n h bursts words with
  | pair m =>
      obtain ⟨bursts', words', rfl, rfl, pair⟩ := emits
      have labels := pair.labels
      have turned : (words'.map Prod.fst).map Bool.toNat
          <+: (runLabels (fun b => (size b).toNat) bursts').map Bool.toNat := by
        rw [← labels]
        exact (List.prefix_append _ _).map _
      rw [map_runLabels, List.map_map] at turned
      rw [List.map_map]
      exact turned
  | node ma m0 outQ burstQ ih =>
      obtain ⟨got, dequeued, burstsOf, wordsOf, below, bursts_, words_, pair⟩ := emits
      have labels := pair.labels
      have sides : (words.map Prod.fst).map (sideOf n)
          <+: (runLabels (fun b => (size b).toNat) bursts).map (sideOf n) := by
        have turned : (sided n words).map Prod.fst
            <+: runLabels (fun b => (size b).toNat) (sided n bursts) := by
          rw [← labels]
          exact List.prefix_append _ _
        rw [sided, List.map_map] at turned
        rw [map_runLabels, List.map_map]
        exact turned
      refine prefix_of_sides (sideOf n) sides ?_
      intro i
      refine prefix_of_local (n := n) (i := i) ?_ ?_ ?_
      · exact fun p member => of_decide_eq_true (List.mem_filter.mp member).2
      · exact fun p member => of_decide_eq_true (List.mem_filter.mp member).2
      · have runs := ih i (below i)
        -- both are beginnings of what the subtree's bursts announce
        have given : (localOf n i words).map Prod.fst
            <+: runLabels (fun b => (size b).toNat) (burstsOf i) :=
          ((words_ i).map _).trans runs
        have asked : runLabels (fun b => (size b).toNat) (localOf n i bursts)
            <+: runLabels (fun b => (size b).toNat) (burstsOf i) :=
          runLabels_prefix (bursts_ i)
        have turned : ((runLabels (fun b => (size b).toNat) bursts).filter
              (fun p => sideOf n p = i)).map (localPort n)
            = runLabels (fun b => (size b).toNat) (localOf n i bursts) := by
          rw [filter_runLabels, map_runLabels]
          rfl
        rw [filter_ports, turned]
        refine List.prefix_of_prefix_length_le given asked ?_
        rw [← turned, ← filter_ports, List.length_map, List.length_map]
        have counted (ps : List Nat)
            : (ps.filter (fun p => sideOf n p = i)).length = (ps.map (sideOf n)).count i := by
          rw [List.count, List.countP_map, List.countP_eq_length_filter]
          refine congrArg List.length (List.filter_congr ?_)
          intro p _
          rw [Function.comp, Bool.beq_eq_decide_eq]
        rw [counted, counted]
        exact sides.sublist.count_le i

-----------------------------------------------------------------------------------------
-- Steps
-----------------------------------------------------------------------------------------

/-- After reset nothing is put out; induction on the recursion. -/
theorem Emits.init (n : Nat)
    : (mkBurst n : BurstMerge α β bSz).Emits size n ⟨fun _ => [], fun _ => [], [], []⟩ [] [] := by
  induction n using Nat.strongRecOn with
  | ind n ih =>
      unfold mkBurst
      split
      next more =>
        have smaller : halfUp n < n := by
          unfold halfUp
          omega
        have nothing {γ : Type} (i : Bool) : portsOf n i (fun _ => ([] : List γ)) = fun _ => [] := by
          funext q
          unfold portsOf
          split
          · rfl
          · split <;> rfl
        refine ⟨fun _ => [], fun _ => [], fun _ => [], fun _ => [], ?_, fun _ => List.nil_prefix,
          fun _ => List.nil_prefix, .init⟩
        intro i
        simp only [nothing]
        exact ih _ smaller
      next => exact ⟨[], [], rfl, rfl, .init⟩

/-- A word comes out. -/
theorem Emits.deq {d : α} (emits : t.Emits size n h bursts words)
    (fires : t.deq = some (d, t'))
    : t'.Emits size n { h with dequeued := h.dequeued ++ [d] } bursts words := by
  cases t with
  | pair m =>
      obtain ⟨⟨d', m'⟩, taken, ⟨⟩⟩ := Option.bind_eq_some_iff.mp fires
      obtain ⟨bursts', words', labels, labels', pair⟩ := emits
      exact ⟨bursts', words', labels, labels', pair.deq taken⟩
  | node ma m0 outQ burstQ =>
      obtain ⟨⟨d', outQ'⟩, taken, ⟨⟩⟩ := Option.bind_eq_some_iff.mp fires
      obtain ⟨got, dequeued, burstsOf, wordsOf, below, bursts_, words_, pair⟩ := emits
      rw [Fifo.deq_eq_some.mp taken, ← List.singleton_append, ← List.append_assoc] at pair
      exact ⟨got, dequeued, burstsOf, wordsOf, below, bursts_, words_, pair⟩

/-- A burst comes out. -/
theorem Emits.getBurst {b : β} (emits : t.Emits size n h bursts words)
    (fires : t.getBurst = some (b, t'))
    : t'.Emits size n { h with got := h.got ++ [b] } bursts words := by
  cases t with
  | pair m =>
      obtain ⟨⟨b', m'⟩, taken, ⟨⟩⟩ := Option.bind_eq_some_iff.mp fires
      obtain ⟨bursts', words', labels, labels', pair⟩ := emits
      exact ⟨bursts', words', labels, labels', pair.getBurst taken⟩
  | node ma m0 outQ burstQ =>
      obtain ⟨⟨b', burstQ'⟩, taken, ⟨⟩⟩ := Option.bind_eq_some_iff.mp fires
      obtain ⟨got, dequeued, burstsOf, wordsOf, below, bursts_, words_, pair⟩ := emits
      rw [Fifo.deq_eq_some.mp taken, ← List.singleton_append, ← List.append_assoc] at pair
      exact ⟨got, dequeued, burstsOf, wordsOf, below, bursts_, words_, pair⟩

/-- Two ports after a call at one of them. -/
theorem update_toNat {γ : Type} (f : Nat → List γ) (i : Bool) (ys : List γ)
    : (fun j : Bool => Function.update f i.toNat ys j.toNat)
      = Function.update (fun j : Bool => f j.toNat) i ys := by
  funext j
  cases i <;> cases j <;> rfl

/-- A word is enqueued at a port; induction on the tree. -/
theorem Emits.enq {p : Nat} {d : α} (emits : t.Emits size n h bursts words) (within : p < n)
    (fires : t.enq n p d = some t')
    : t'.Emits size n { h with enqueued := Function.update h.enqueued p (h.enqueued p ++ [d]) }
        bursts words := by
  induction t generalizing n h bursts words p t' with
  | pair m =>
      obtain ⟨bursts', words', labels, labels', pair⟩ := emits
      simp only [BurstMerge.enq] at fires
      split at fires
      next zero =>
        obtain ⟨m', put, ⟨⟩⟩ := Option.bind_eq_some_iff.mp fires
        subst zero
        have after := pair.enq put
        rw [← update_toNat] at after
        exact ⟨bursts', words', labels, labels', after⟩
      next =>
        split at fires
        next one =>
          obtain ⟨m', put, ⟨⟩⟩ := Option.bind_eq_some_iff.mp fires
          subst one
          have after := pair.enq put
          rw [← update_toNat] at after
          exact ⟨bursts', words', labels, labels', after⟩
        next => cases fires
  | node ma m0 outQ burstQ ih =>
      obtain ⟨got, dequeued, burstsOf, wordsOf, below, bursts_, words_, pair⟩ := emits
      have child {mi : BurstMerge α β bSz}
          (put : (ma (sideOf n p)).enq (halfUp n) (localPort n p) d = some mi)
          : Emits size n (node (Function.update ma (sideOf n p) mi) m0 outQ burstQ)
              { h with enqueued := Function.update h.enqueued p (h.enqueued p ++ [d]) }
              bursts words := by
        refine ⟨got, dequeued, burstsOf, wordsOf, ?_, bursts_, words_, pair⟩
        intro i
        simp only [portsOf_update]
        by_cases mine : sideOf n p = i
        · subst mine
          have inside : localPort n p < halfUp n := by
            unfold localPort halfUp
            split <;> omega
          have after := ih (sideOf n p) (below _) inside put
          rw [if_pos rfl, Function.update_self]
          simpa only [portsOf_local] using after
        · rw [if_neg mine, Function.update_of_ne (Ne.symm mine)]
          exact below i
      simp only [BurstMerge.enq] at fires
      split at fires
      next low =>
        obtain ⟨mi, put, ⟨⟩⟩ := Option.bind_eq_some_iff.mp fires
        have left : sideOf n p = false := decide_eq_false (Nat.not_le_of_lt low)
        rw [Nat.mod_eq_of_lt low] at put
        rw [left, localPort, if_pos low] at child
        exact child put
      next high =>
        obtain ⟨mi, put, ⟨⟩⟩ := Option.bind_eq_some_iff.mp fires
        have right : sideOf n p = true := decide_eq_true (Nat.le_of_not_lt high)
        rw [right, localPort, if_neg high] at child
        exact child put

/-- A burst is announced at a port; induction on the tree. -/
theorem Emits.burst {p : Nat} {b : β} (emits : t.Emits size n h bursts words) (within : p < n)
    (positive : 0 < (size b).toNat) (fires : t.burst n p b = some t')
    : t'.Emits size n
        { h with announced := Function.update h.announced p (h.announced p ++ [b]) }
        bursts words := by
  induction t generalizing n h bursts words p t' with
  | pair m =>
      obtain ⟨bursts', words', labels, labels', pair⟩ := emits
      simp only [BurstMerge.burst] at fires
      split at fires
      next zero =>
        obtain ⟨m', put, ⟨⟩⟩ := Option.bind_eq_some_iff.mp fires
        subst zero
        have after := pair.burst positive put
        rw [← update_toNat] at after
        exact ⟨bursts', words', labels, labels', after⟩
      next =>
        split at fires
        next one =>
          obtain ⟨m', put, ⟨⟩⟩ := Option.bind_eq_some_iff.mp fires
          subst one
          have after := pair.burst positive put
          rw [← update_toNat] at after
          exact ⟨bursts', words', labels, labels', after⟩
        next => cases fires
  | node ma m0 outQ burstQ ih =>
      obtain ⟨got, dequeued, burstsOf, wordsOf, below, bursts_, words_, pair⟩ := emits
      have child {mi : BurstMerge α β bSz}
          (put : (ma (sideOf n p)).burst (halfUp n) (localPort n p) b = some mi)
          : Emits size n (node (Function.update ma (sideOf n p) mi) m0 outQ burstQ)
              { h with announced := Function.update h.announced p (h.announced p ++ [b]) }
              bursts words := by
        refine ⟨got, dequeued, burstsOf, wordsOf, ?_, bursts_, words_, pair⟩
        intro i
        simp only [portsOf_update]
        by_cases mine : sideOf n p = i
        · subst mine
          have inside : localPort n p < halfUp n := by
            unfold localPort halfUp
            split <;> omega
          have after := ih (sideOf n p) (below _) inside put
          rw [if_pos rfl, Function.update_self]
          simpa only [portsOf_local] using after
        · rw [if_neg mine, Function.update_of_ne (Ne.symm mine)]
          exact below i
      simp only [BurstMerge.burst] at fires
      split at fires
      next low =>
        obtain ⟨mi, put, ⟨⟩⟩ := Option.bind_eq_some_iff.mp fires
        have left : sideOf n p = false := decide_eq_false (Nat.not_le_of_lt low)
        rw [Nat.mod_eq_of_lt low] at put
        rw [left, localPort, if_pos low] at child
        exact child put
      next high =>
        obtain ⟨mi, put, ⟨⟩⟩ := Option.bind_eq_some_iff.mp fires
        have right : sideOf n p = true := decide_eq_true (Nat.le_of_not_lt high)
        rw [right, localPort, if_neg high] at child
        exact child put

/-- What comes next of a subtree comes from one of its wired ports. -/
theorem localOf_extend {γ : Type} {i : Bool} {xs : List (Nat × γ)} {ys : Bool → List (Nat × γ)}
    {f : Nat → List γ} {out : List γ} {x : γ} (fewer : ∀ j, localOf n j xs <+: ys j)
    (given : out <+: (ys i).map Prod.snd) (next : withLabel i (sided n xs) ++ [x] <+: out)
    (ports : ∀ q, withLabel q (ys i) <+: portsOf n i f q)
    : ∃ p, sideOf n p = i ∧ ∀ j, localOf n j (xs ++ [(p, x)]) <+: ys j := by
  obtain ⟨rest, whole⟩ := fewer i
  have known : (localOf n i xs).map Prod.snd ++ [x]
      <+: (localOf n i xs).map Prod.snd ++ rest.map Prod.snd := by
    rw [← withLabel_sided, withLabel_sided, ← List.map_append, whole, ← withLabel_sided]
    exact next.trans given
  rw [List.prefix_append_right_inj] at known
  cases rest with
  | nil => simp at known
  | cons entry rest =>
      obtain ⟨q, y⟩ := entry
      obtain rfl : x = y := by simpa using known
      have wired : i = false → q < n / 2 := by
        intro left
        by_contra unwired
        have some : x ∈ withLabel q (ys i) := mem_withLabel (by rw [← whole]; simp)
        have none := ports q
        rw [portsOf, if_neg (by rw [left]; exact Bool.false_ne_true), if_neg unwired] at none
        rw [List.prefix_nil.mp none] at some
        cases some
      obtain ⟨side, port⟩ := sideOf_globalPort wired
      refine ⟨globalPort n i q, side, ?_⟩
      intro j
      rw [localOf_snoc, side, port]
      by_cases mine : i = j
      · subst mine
        rw [if_pos rfl, ← whole]
        exact ⟨rest, by simp⟩
      · rw [if_neg mine]
        exact fewer j

/-- A rule of the tree puts out more, or nothing.
Witness: induction on the tree. The two-port module of a node takes from its subtrees what
they have put out, so what it puts out goes on being from their ports in their order.
-/
theorem Emits.fire {rule : BurstRule} (emits : t.Emits size n h bursts words)
    (sized : ∀ p, ∀ b ∈ h.announced p, 0 < (size b).toNat) (fires : t.fire size rule = some t')
    : ∃ bursts' words', bursts <+: bursts' ∧ words <+: words'
        ∧ t'.Emits size n h bursts' words' := by
  induction t generalizing n h bursts words rule t' with
  | pair m =>
      obtain ⟨bursts', words', rfl, rfl, pair⟩ := emits
      have map {γ : Type} (xs : List (Bool × γ)) (x : Bool × γ)
          : xs.map (fun x => (x.1.toNat, x.2)) <+: (xs ++ [x]).map (fun x => (x.1.toNat, x.2)) := by
        rw [List.map_append]
        exact List.prefix_append _ _
      cases rule with
      | relay =>
          obtain ⟨m', relayed, ⟨⟩⟩ := Option.bind_eq_some_iff.mp fires
          rcases pair.relay relayed with ⟨i, r, d, after⟩ | ⟨i, d, after⟩
          · exact ⟨_, _, map _ _, map _ _, _, _, rfl, rfl, after⟩
          · exact ⟨_, _, List.prefix_rfl, map _ _, _, _, rfl, rfl, after⟩
      | merge =>
          obtain ⟨m', merged, ⟨⟩⟩ := Option.bind_eq_some_iff.mp fires
          exact ⟨_, _, List.prefix_rfl, List.prefix_rfl, _, _, rfl, rfl, pair.merge merged⟩
      | relayBurst | relayData | relayData_s | relayBurst_s | inside => cases fires
  | node ma m0 outQ burstQ ih =>
      obtain ⟨got, dequeued, burstsOf, wordsOf, below, bursts_, words_, pair⟩ := emits
      have sizedOf (i : Bool) (q : Nat) (b : β) (member : b ∈ portsOf n i h.announced q)
          : 0 < (size b).toNat := by
        unfold portsOf at member
        split at member
        · exact sized _ b member
        · split at member
          · exact sized _ b member
          · cases member
      cases rule with
      | relay =>
          obtain ⟨m0', relayed, ⟨⟩⟩ := Option.bind_eq_some_iff.mp fires
          have extendWords (i : Bool) (d : α)
              (next : withLabel i (sided n words) ++ [d] <+: dequeued i)
              : ∃ p, sideOf n p = i ∧ ∀ j, localOf n j (words ++ [(p, d)]) <+: wordsOf j :=
            localOf_extend words_ (below i).out.2 next (fun q => ((below i).ports q).2)
          rcases pair.relay relayed with ⟨i, r, d, after⟩ | ⟨i, d, after⟩
          · have nextBurst : withLabel i (sided n bursts) ++ [r] <+: got i := by
              have given := after.announced i
              rw [withLabel_snoc, if_pos rfl] at given
              exact ⟨_, given⟩
            have nextWord : withLabel i (sided n words) ++ [d] <+: dequeued i := by
              have given := after.enqueued i
              rw [withLabel_snoc, if_pos rfl] at given
              exact ⟨_, given⟩
            obtain ⟨p, side, bursts'⟩ := localOf_extend bursts_ (below i).out.1 nextBurst
              (fun q => ((below i).ports q).1)
            obtain ⟨p', side', words'⟩ := extendWords i d nextWord
            refine ⟨bursts ++ [(p, r)], words ++ [(p', d)], List.prefix_append _ _,
              List.prefix_append _ _, got, dequeued, burstsOf, wordsOf, below, bursts', words', ?_⟩
            rw [sided_snoc, sided_snoc, side, side']
            exact after
          · have nextWord : withLabel i (sided n words) ++ [d] <+: dequeued i := by
              have given := after.enqueued i
              rw [withLabel_snoc, if_pos rfl] at given
              exact ⟨_, given⟩
            obtain ⟨p', side', words'⟩ := extendWords i d nextWord
            refine ⟨bursts, words ++ [(p', d)], List.prefix_rfl, List.prefix_append _ _, got,
              dequeued, burstsOf, wordsOf, below, bursts_, words', ?_⟩
            rw [sided_snoc, side']
            exact after
      | merge =>
          obtain ⟨m0', merged, ⟨⟩⟩ := Option.bind_eq_some_iff.mp fires
          exact ⟨bursts, words, List.prefix_rfl, List.prefix_rfl, got, dequeued, burstsOf, wordsOf,
            below, bursts_, words_, pair.merge merged⟩
      | relayBurst =>
          obtain ⟨⟨b, m0'⟩, taken, fires⟩ := Option.bind_eq_some_iff.mp fires
          obtain ⟨burstQ', put, ⟨⟩⟩ := Option.bind_eq_some_iff.mp fires
          have after := pair.getBurst taken
          rw [List.append_assoc, ← (Fifo.enq_eq_some.mp put).2] at after
          exact ⟨bursts, words, List.prefix_rfl, List.prefix_rfl, got, dequeued, burstsOf, wordsOf,
            below, bursts_, words_, after⟩
      | relayData =>
          obtain ⟨⟨d, m0'⟩, taken, fires⟩ := Option.bind_eq_some_iff.mp fires
          obtain ⟨outQ', put, ⟨⟩⟩ := Option.bind_eq_some_iff.mp fires
          have after := pair.deq taken
          rw [List.append_assoc, ← (Fifo.enq_eq_some.mp put).2] at after
          exact ⟨bursts, words, List.prefix_rfl, List.prefix_rfl, got, dequeued, burstsOf, wordsOf,
            below, bursts_, words_, after⟩
      | relayData_s i =>
          obtain ⟨⟨d, mi⟩, taken, fires⟩ := Option.bind_eq_some_iff.mp fires
          obtain ⟨m0', put, ⟨⟩⟩ := Option.bind_eq_some_iff.mp fires
          refine ⟨bursts, words, List.prefix_rfl, List.prefix_rfl, got,
            Function.update dequeued i (dequeued i ++ [d]), burstsOf, wordsOf, ?_, bursts_, words_,
            pair.enq put⟩
          intro j
          by_cases mine : j = i
          · subst mine
            rw [Function.update_self, Function.update_self]
            exact (below j).deq taken
          · rw [Function.update_of_ne mine, Function.update_of_ne mine]
            exact below j
      | relayBurst_s i =>
          obtain ⟨⟨b, mi⟩, taken, fires⟩ := Option.bind_eq_some_iff.mp fires
          obtain ⟨m0', put, ⟨⟩⟩ := Option.bind_eq_some_iff.mp fires
          have after := (below i).getBurst taken
          have positive : 0 < (size b).toNat := by
            have member : b ∈ (burstsOf i).map Prod.snd := after.out.1.subset (by simp)
            obtain ⟨⟨q, b'⟩, found, rfl⟩ := List.mem_map.mp member
            have announced := (after.ports q).1.subset (mem_withLabel found)
            exact sizedOf i q b' announced
          refine ⟨bursts, words, List.prefix_rfl, List.prefix_rfl,
            Function.update got i (got i ++ [b]), dequeued, burstsOf, wordsOf, ?_, bursts_, words_,
            pair.burst positive put⟩
          intro j
          by_cases mine : j = i
          · subst mine
            rw [Function.update_self, Function.update_self]
            exact after
          · rw [Function.update_of_ne mine, Function.update_of_ne mine]
            exact below j
      | inside i rule =>
          obtain ⟨mi, inner, ⟨⟩⟩ := Option.bind_eq_some_iff.mp fires
          obtain ⟨bursts', words', more, more', after⟩ := ih i (below i) (sizedOf i) inner
          refine ⟨bursts, words, List.prefix_rfl, List.prefix_rfl, got, dequeued,
            Function.update burstsOf i bursts', Function.update wordsOf i words', ?_, ?_, ?_, pair⟩
          · intro j
            by_cases mine : j = i
            · subst mine
              rw [Function.update_self, Function.update_self, Function.update_self]
              exact after
            · rw [Function.update_of_ne mine, Function.update_of_ne mine,
                Function.update_of_ne mine]
              exact below j
          · intro j
            by_cases mine : j = i
            · subst mine
              rw [Function.update_self]
              exact (bursts_ j).trans more
            · rw [Function.update_of_ne mine]
              exact bursts_ j
          · intro j
            by_cases mine : j = i
            · subst mine
              rw [Function.update_self]
              exact (words_ j).trans more'
            · rw [Function.update_of_ne mine]
              exact words_ j

-----------------------------------------------------------------------------------------
-- How much is inside
-----------------------------------------------------------------------------------------

/-- The words in a two-port module. -/
def wordsIn (m : BurstPair α β bSz) : Nat :=
  m.outQ.items.length + (m.inQ false).items.length + (m.inQ true).items.length

/-- The bursts in a two-port module; one that is started is in `burstQ`. -/
def burstsIn (m : BurstPair α β bSz) : Nat :=
  m.burstQ.items.length + m.reqM.outQ.items.length + m.reqM.inQ1.items.length
    + m.reqM.inQ2.items.length

/-- The words in a tree. -/
def wordCount : BurstMerge α β bSz → Nat
  | pair m => wordsIn m
  | node ma m0 outQ _ =>
      outQ.items.length + wordsIn m0 + wordCount (ma false) + wordCount (ma true)

/-- The bursts in a tree. -/
def burstCount : BurstMerge α β bSz → Nat
  | pair m => burstsIn m
  | node ma m0 _ burstQ =>
      burstQ.items.length + burstsIn m0 + burstCount (ma false) + burstCount (ma true)

section Counts

variable {m m' : BurstPair α β bSz}

/-- A queue gets one element longer. -/
theorem length_enq {γ : Type} {q q' : Fifo γ 2} {x : γ} (put : q.enq x = some q')
    : q'.items.length = q.items.length + 1 := by
  rw [(Fifo.enq_eq_some.mp put).2, List.length_append, List.length_singleton]

/-- A queue gets one element shorter. -/
theorem length_deq {γ : Type} {q q' : Fifo γ 2} {x : γ} (taken : q.deq = some (x, q'))
    : q.items.length = q'.items.length + 1 := by
  rw [Fifo.deq_eq_some.mp taken, List.length_cons]

/-- One of two queues changes. -/
theorem update_add {γ : Type} (f : Bool → γ) (count : γ → Nat) (i : Bool) (x : γ)
    : count (Function.update f i x false) + count (Function.update f i x true) + count (f i)
      = count (f false) + count (f true) + count x := by
  cases i with
  | false =>
      simp only [Function.update_self, Function.update_of_ne (show true ≠ false by decide)]
      omega
  | true =>
      simp only [Function.update_self, Function.update_of_ne (show false ≠ true by decide)]
      omega

theorem counts_enq {i : Bool} {d : α} (fires : m.enq i d = some m')
    : wordsIn m' = wordsIn m + 1 ∧ burstsIn m' = burstsIn m := by
  obtain ⟨inQ, put, ⟨⟩⟩ := Option.bind_eq_some_iff.mp fires
  have both := update_add m.inQ (fun q => q.items.length) i inQ
  have longer := length_enq put
  refine ⟨?_, rfl⟩
  simp only [wordsIn]
  omega

theorem counts_burst {i : Bool} {b : β} (fires : m.burst i b = some m')
    : wordsIn m' = wordsIn m ∧ burstsIn m' = burstsIn m + 1 := by
  obtain ⟨reqM, put, ⟨⟩⟩ := Option.bind_eq_some_iff.mp fires
  cases i with
  | false =>
      obtain ⟨inQ1, room, ⟨⟩⟩ := Option.bind_eq_some_iff.mp put
      have longer := length_enq room
      refine ⟨rfl, ?_⟩
      simp only [burstsIn]
      omega
  | true =>
      obtain ⟨inQ2, room, ⟨⟩⟩ := Option.bind_eq_some_iff.mp put
      have longer := length_enq room
      refine ⟨rfl, ?_⟩
      simp only [burstsIn]
      omega

theorem counts_getBurst {b : β} (fires : m.getBurst = some (b, m'))
    : wordsIn m = wordsIn m' ∧ burstsIn m = burstsIn m' + 1 := by
  obtain ⟨⟨b', burstQ⟩, taken, ⟨⟩⟩ := Option.bind_eq_some_iff.mp fires
  have shorter := length_deq taken
  refine ⟨rfl, ?_⟩
  simp only [burstsIn]
  omega

theorem counts_deq {d : α} (fires : m.deq = some (d, m'))
    : wordsIn m = wordsIn m' + 1 ∧ burstsIn m = burstsIn m' := by
  obtain ⟨⟨d', outQ⟩, taken, ⟨⟩⟩ := Option.bind_eq_some_iff.mp fires
  have shorter := length_deq taken
  refine ⟨?_, rfl⟩
  simp only [wordsIn]
  omega

theorem counts_merge (fires : m.merge = some m')
    : wordsIn m' = wordsIn m ∧ burstsIn m' = burstsIn m := by
  obtain ⟨reqM, merged, ⟨⟩⟩ := Option.bind_eq_some_iff.mp fires
  refine ⟨rfl, ?_⟩
  simp only [burstsIn]
  rcases Merge2.merge_cases merged with ⟨r, taken, same, put⟩ | ⟨r, taken, same, put⟩
    | ⟨same1, same2, same⟩
  · simp only [taken, same, put, List.length_append, List.length_cons, List.length_nil]
    omega
  · simp only [taken, same, put, List.length_append, List.length_cons, List.length_nil]
    omega
  · rw [same1, same2, same]

theorem counts_relay (fires : m.relay size = some m')
    : wordsIn m' = wordsIn m ∧ burstsIn m' = burstsIn m := by
  unfold BurstPair.relay at fires
  split at fires
  next =>
    obtain ⟨⟨⟨i, r⟩, reqM⟩, asked, fires⟩ := Option.bind_eq_some_iff.mp fires
    obtain ⟨⟨d, inQ⟩, taken, fires⟩ := Option.bind_eq_some_iff.mp fires
    obtain ⟨outQ, put, fires⟩ := Option.bind_eq_some_iff.mp fires
    obtain ⟨burstQ, started, ⟨⟩⟩ := Option.bind_eq_some_iff.mp fires
    obtain ⟨⟨_, rest⟩, first, ⟨⟩⟩ := Option.bind_eq_some_iff.mp asked
    have both := update_add m.inQ (fun q => q.items.length) i inQ
    have := length_deq first
    have := length_deq taken
    have := length_enq put
    have := length_enq started
    simp only [wordsIn, burstsIn]
    omega
  next =>
    obtain ⟨⟨d, inQ⟩, taken, fires⟩ := Option.bind_eq_some_iff.mp fires
    obtain ⟨outQ, put, ⟨⟩⟩ := Option.bind_eq_some_iff.mp fires
    have both := update_add m.inQ (fun q => q.items.length) m.burstSource inQ
    have := length_deq taken
    have := length_enq put
    refine ⟨?_, rfl⟩
    simp only [wordsIn]
    omega

end Counts

theorem wordCount_deq {d : α} (fires : t.deq = some (d, t'))
    : t.wordCount = t'.wordCount + 1 ∧ t.burstCount = t'.burstCount := by
  cases t with
  | pair m =>
      obtain ⟨⟨d', m'⟩, taken, ⟨⟩⟩ := Option.bind_eq_some_iff.mp fires
      exact counts_deq taken
  | node ma m0 outQ burstQ =>
      obtain ⟨⟨d', outQ'⟩, taken, ⟨⟩⟩ := Option.bind_eq_some_iff.mp fires
      have shorter := length_deq taken
      refine ⟨?_, rfl⟩
      simp only [wordCount]
      omega

theorem burstCount_getBurst {b : β} (fires : t.getBurst = some (b, t'))
    : t.wordCount = t'.wordCount ∧ t.burstCount = t'.burstCount + 1 := by
  cases t with
  | pair m =>
      obtain ⟨⟨b', m'⟩, taken, ⟨⟩⟩ := Option.bind_eq_some_iff.mp fires
      exact counts_getBurst taken
  | node ma m0 outQ burstQ =>
      obtain ⟨⟨b', burstQ'⟩, taken, ⟨⟩⟩ := Option.bind_eq_some_iff.mp fires
      have shorter := length_deq taken
      refine ⟨rfl, ?_⟩
      simp only [burstCount]
      omega

/-- A word more in one subtree is a word more in the tree. -/
theorem count_update (ma : Bool → BurstMerge α β bSz) (i : Bool) (mi : BurstMerge α β bSz)
    : (wordCount (Function.update ma i mi false) + wordCount (Function.update ma i mi true)
        + wordCount (ma i) = wordCount (ma false) + wordCount (ma true) + wordCount mi)
      ∧ burstCount (Function.update ma i mi false) + burstCount (Function.update ma i mi true)
        + burstCount (ma i) = burstCount (ma false) + burstCount (ma true) + burstCount mi :=
  ⟨update_add ma wordCount i mi, update_add ma burstCount i mi⟩

/-- An enqueued word is inside; induction on the tree. -/
theorem wordCount_enq {p : Nat} {d : α} (fires : t.enq n p d = some t')
    : t'.wordCount = t.wordCount + 1 ∧ t'.burstCount = t.burstCount := by
  induction t generalizing n p t' with
  | pair m =>
      simp only [BurstMerge.enq] at fires
      split at fires
      next =>
        obtain ⟨m', put, ⟨⟩⟩ := Option.bind_eq_some_iff.mp fires
        exact counts_enq put
      next =>
        split at fires
        next =>
          obtain ⟨m', put, ⟨⟩⟩ := Option.bind_eq_some_iff.mp fires
          exact counts_enq put
        next => cases fires
  | node ma m0 outQ burstQ ih =>
      have child {i : Bool} {q : Nat} {mi : BurstMerge α β bSz}
          (put : (ma i).enq (halfUp n) q d = some mi)
          : wordCount (node (Function.update ma i mi) m0 outQ burstQ)
              = wordCount (node ma m0 outQ burstQ) + 1
            ∧ burstCount (node (Function.update ma i mi) m0 outQ burstQ)
              = burstCount (node ma m0 outQ burstQ) := by
        obtain ⟨more, same⟩ := ih i put
        obtain ⟨both, both'⟩ := count_update ma i mi
        simp only [wordCount, burstCount]
        omega
      simp only [BurstMerge.enq] at fires
      split at fires
      next =>
        obtain ⟨mi, put, ⟨⟩⟩ := Option.bind_eq_some_iff.mp fires
        exact child put
      next =>
        obtain ⟨mi, put, ⟨⟩⟩ := Option.bind_eq_some_iff.mp fires
        exact child put

/-- An announced burst is inside; induction on the tree. -/
theorem burstCount_burst {p : Nat} {b : β} (fires : t.burst n p b = some t')
    : t'.wordCount = t.wordCount ∧ t'.burstCount = t.burstCount + 1 := by
  induction t generalizing n p t' with
  | pair m =>
      simp only [BurstMerge.burst] at fires
      split at fires
      next =>
        obtain ⟨m', put, ⟨⟩⟩ := Option.bind_eq_some_iff.mp fires
        exact counts_burst put
      next =>
        split at fires
        next =>
          obtain ⟨m', put, ⟨⟩⟩ := Option.bind_eq_some_iff.mp fires
          exact counts_burst put
        next => cases fires
  | node ma m0 outQ burstQ ih =>
      have child {i : Bool} {q : Nat} {mi : BurstMerge α β bSz}
          (put : (ma i).burst (halfUp n) q b = some mi)
          : wordCount (node (Function.update ma i mi) m0 outQ burstQ)
              = wordCount (node ma m0 outQ burstQ)
            ∧ burstCount (node (Function.update ma i mi) m0 outQ burstQ)
              = burstCount (node ma m0 outQ burstQ) + 1 := by
        obtain ⟨same, more⟩ := ih i put
        obtain ⟨both, both'⟩ := count_update ma i mi
        simp only [wordCount, burstCount]
        omega
      simp only [BurstMerge.burst] at fires
      split at fires
      next =>
        obtain ⟨mi, put, ⟨⟩⟩ := Option.bind_eq_some_iff.mp fires
        exact child put
      next =>
        obtain ⟨mi, put, ⟨⟩⟩ := Option.bind_eq_some_iff.mp fires
        exact child put

/-- A rule moves words and bursts inside the tree; induction on the tree. -/
theorem counts_fire {rule : BurstRule} (fires : t.fire size rule = some t')
    : t'.wordCount = t.wordCount ∧ t'.burstCount = t.burstCount := by
  induction t generalizing rule t' with
  | pair m =>
      cases rule with
      | relay =>
          obtain ⟨m', relayed, ⟨⟩⟩ := Option.bind_eq_some_iff.mp fires
          exact counts_relay relayed
      | merge =>
          obtain ⟨m', merged, ⟨⟩⟩ := Option.bind_eq_some_iff.mp fires
          exact counts_merge merged
      | relayBurst | relayData | relayData_s | relayBurst_s | inside => cases fires
  | node ma m0 outQ burstQ ih =>
      cases rule with
      | relay =>
          obtain ⟨m0', relayed, ⟨⟩⟩ := Option.bind_eq_some_iff.mp fires
          obtain ⟨same, same'⟩ := counts_relay relayed
          simp only [wordCount, burstCount, same, same', and_self]
      | merge =>
          obtain ⟨m0', merged, ⟨⟩⟩ := Option.bind_eq_some_iff.mp fires
          obtain ⟨same, same'⟩ := counts_merge merged
          simp only [wordCount, burstCount, same, same', and_self]
      | relayBurst =>
          obtain ⟨⟨b, m0'⟩, taken, fires⟩ := Option.bind_eq_some_iff.mp fires
          obtain ⟨burstQ', put, ⟨⟩⟩ := Option.bind_eq_some_iff.mp fires
          obtain ⟨same, fewer⟩ := counts_getBurst taken
          have longer := length_enq put
          simp only [wordCount, burstCount]
          omega
      | relayData =>
          obtain ⟨⟨d, m0'⟩, taken, fires⟩ := Option.bind_eq_some_iff.mp fires
          obtain ⟨outQ', put, ⟨⟩⟩ := Option.bind_eq_some_iff.mp fires
          obtain ⟨fewer, same⟩ := counts_deq taken
          have longer := length_enq put
          simp only [wordCount, burstCount]
          omega
      | relayData_s i =>
          obtain ⟨⟨d, mi⟩, taken, fires⟩ := Option.bind_eq_some_iff.mp fires
          obtain ⟨m0', put, ⟨⟩⟩ := Option.bind_eq_some_iff.mp fires
          obtain ⟨fewer, same⟩ := wordCount_deq taken
          obtain ⟨more, same'⟩ := counts_enq put
          obtain ⟨both, both'⟩ := count_update ma i mi
          simp only [wordCount, burstCount]
          omega
      | relayBurst_s i =>
          obtain ⟨⟨b, mi⟩, taken, fires⟩ := Option.bind_eq_some_iff.mp fires
          obtain ⟨m0', put, ⟨⟩⟩ := Option.bind_eq_some_iff.mp fires
          obtain ⟨same, fewer⟩ := burstCount_getBurst taken
          obtain ⟨same', more⟩ := counts_burst put
          obtain ⟨both, both'⟩ := count_update ma i mi
          simp only [wordCount, burstCount]
          omega
      | inside i rule =>
          obtain ⟨mi, inner, ⟨⟩⟩ := Option.bind_eq_some_iff.mp fires
          obtain ⟨same, same'⟩ := ih i inner
          obtain ⟨both, both'⟩ := count_update ma i mi
          simp only [wordCount, burstCount]
          omega

/-- Nothing is inside after reset; induction on the recursion. -/
theorem counts_mkBurst (n : Nat)
    : (mkBurst n : BurstMerge α β bSz).wordCount = 0
      ∧ (mkBurst n : BurstMerge α β bSz).burstCount = 0 := by
  induction n using Nat.strongRecOn with
  | ind n ih =>
      unfold mkBurst
      split
      next more =>
        have smaller : halfUp n < n := by
          unfold halfUp
          omega
        obtain ⟨words, bursts⟩ := ih _ smaller
        simp only [wordCount, burstCount, words, bursts]
        exact ⟨rfl, rfl⟩
      next => exact ⟨rfl, rfl⟩

end BurstMerge

-----------------------------------------------------------------------------------------
-- Runs
-----------------------------------------------------------------------------------------

/-- What can happen at a burst merge. -/
inductive BurstEvent (α β : Type) where
  | enq (p : Nat) (d : α)
  | burst (p : Nat) (b : β)
  | rule (rule : BurstRule)
  | getBurst
  | deq

namespace BurstMerge

variable {α β : Type} {bSz : Nat}

/-- One event of a burst merge for `n` ports. -/
def step (size : β → BitVec bSz) (n : Nat) (t : BurstMerge α β bSz)
    : BurstEvent α β → Option (BurstMerge α β bSz)
  | .enq p d => if p < n then t.enq n p d else none
  | .burst p b => if p < n then t.burst n p b else none
  | .rule rule => t.fire size rule
  | .getBurst => t.getBurst.map Prod.snd
  | .deq => t.deq.map Prod.snd

end BurstMerge

/-- The calls that were made, with their ports, and what they returned. -/
structure BurstLog (α β : Type) where
  announced : List (Nat × β)
  enqueued : List (Nat × α)
  got : List β
  dequeued : List α

namespace BurstLog

variable {α β : Type} {bSz : Nat}

/-- How an event extends the history. -/
def record (t : BurstMerge α β bSz) (e : BurstEvent α β) (log : BurstLog α β)
    : BurstLog α β :=
  match e with
  | .enq p d => { log with enqueued := log.enqueued ++ [(p, d)] }
  | .burst p b => { log with announced := log.announced ++ [(p, b)] }
  | .rule _ => log
  | .getBurst => { log with got := log.got ++ (t.getBurst.map Prod.fst).toList }
  | .deq => { log with dequeued := log.dequeued ++ (t.deq.map Prod.fst).toList }

/-- Every announced burst has a word. -/
def Sized (size : β → BitVec bSz) (_ : BurstMerge α β bSz × BurstLog α β)
    : BurstEvent α β → Prop
  | .burst _ b => 0 < (size b).toNat
  | _ => True

/-- The bursts in the order of the output, with their ports: the first of them were returned,
and for each port they are the first ones it announced. The words that came out, cut by their
sizes, are each of the port of its burst, and for each port the first ones it enqueued. What
did not come out is inside.
-/
def Atomic (size : β → BitVec bSz) (t : BurstMerge α β bSz) (log : BurstLog α β) : Prop :=
  ∃ (bursts : List (Nat × β)) (words : List (Nat × α)),
    log.got <+: bursts.map Prod.snd
    ∧ words.map Prod.snd = log.dequeued
    ∧ words.map Prod.fst <+: runLabels (fun b => (size b).toNat) bursts
    ∧ (∀ p, withLabel p bursts <+: withLabel p log.announced)
    ∧ (∀ p, withLabel p words <+: withLabel p log.enqueued)
    ∧ log.announced.length = log.got.length + t.burstCount
    ∧ log.enqueued.length = log.dequeued.length + t.wordCount

/-- The streams of a history. -/
def streams (log : BurstLog α β) : BurstStreams Nat α β where
  announced := fun p => withLabel p log.announced
  enqueued := fun p => withLabel p log.enqueued
  got := log.got
  dequeued := log.dequeued

/-- The invariant of a run. -/
structure Inv (size : β → BitVec bSz) (n : Nat) (t : BurstMerge α β bSz) (log : BurstLog α β)
    : Prop where
  emits : ∃ bursts words, t.Emits size n log.streams bursts words
  sized : ∀ entry ∈ log.announced, 0 < (size entry.2).toNat
  bursts : log.announced.length = log.got.length + t.burstCount
  words : log.enqueued.length = log.dequeued.length + t.wordCount

/-- A further call at a port. -/
theorem withLabel_call {γ : Type} (xs : List (Nat × γ)) (p : Nat) (x : γ)
    : (fun q => withLabel q (xs ++ [(p, x)]))
      = Function.update (fun q => withLabel q xs) p (withLabel p xs ++ [x]) := by
  funext q
  rw [withLabel_snoc]
  by_cases here : p = q
  · subst here
    rw [if_pos rfl, Function.update_self]
  · rw [if_neg here, Function.update_of_ne (Ne.symm here)]

variable {size : β → BitVec bSz} {n : Nat} {t t' : BurstMerge α β bSz} {log : BurstLog α β}

/-- Every event keeps the invariant. -/
theorem Inv.step {e : BurstEvent α β} (inv : log.Inv size n t) (positive : Sized size (t, log) e)
    (fires : t.step size n e = some t')
    : (log.record t e).Inv size n t' := by
  obtain ⟨⟨bursts, words, emits⟩, sized, burstsIn, wordsIn⟩ := inv
  cases e with
  | enq p d =>
      simp only [BurstMerge.step] at fires
      split at fires
      next within =>
        obtain ⟨more, same⟩ := BurstMerge.wordCount_enq fires
        have after := emits.enq within fires
        simp only [streams, ← withLabel_call] at after
        refine ⟨⟨bursts, words, after⟩, sized, ?_, ?_⟩
        · rw [same]
          exact burstsIn
        · simp only [record, List.length_append, List.length_singleton]
          omega
      next => cases fires
  | burst p b =>
      simp only [BurstMerge.step] at fires
      split at fires
      next within =>
        obtain ⟨same, more⟩ := BurstMerge.burstCount_burst fires
        have after := emits.burst within positive fires
        simp only [streams, ← withLabel_call] at after
        refine ⟨⟨bursts, words, after⟩, ?_, ?_, ?_⟩
        · intro entry member
          rcases List.mem_append.mp member with old | new
          · exact sized entry old
          · rw [List.mem_singleton.mp new]
            exact positive
        · simp only [record, List.length_append, List.length_singleton]
          omega
        · rw [same]
          exact wordsIn
      next => cases fires
  | rule rule =>
      obtain ⟨same, same'⟩ := BurstMerge.counts_fire fires
      have sizedAt (p : Nat) (b : β) (member : b ∈ withLabel p log.announced)
          : 0 < (size b).toNat := by
        obtain ⟨entry, found, rfl⟩ := List.mem_map.mp member
        exact sized entry (List.mem_filter.mp found).1
      obtain ⟨bursts', words', _, _, after⟩ := emits.fire sizedAt fires
      refine ⟨⟨bursts', words', after⟩, sized, ?_, ?_⟩
      · rw [same']
        exact burstsIn
      · rw [same]
        exact wordsIn
  | getBurst =>
      obtain ⟨⟨b, next⟩, taken, rfl⟩ := Option.map_eq_some_iff.mp fires
      obtain ⟨same, fewer⟩ := BurstMerge.burstCount_getBurst taken
      have got : (log.record t .getBurst).got = log.got ++ [b] := by
        simp [record, taken]
      refine ⟨⟨bursts, words, ?_⟩, sized, ?_, ?_⟩
      · rw [streams, got]
        exact emits.getBurst taken
      · rw [got, List.length_append, List.length_singleton]
        change log.announced.length = log.got.length + 1 + next.burstCount
        omega
      · change log.enqueued.length = log.dequeued.length + next.wordCount
        omega
  | deq =>
      obtain ⟨⟨d, next⟩, taken, rfl⟩ := Option.map_eq_some_iff.mp fires
      obtain ⟨fewer, same⟩ := BurstMerge.wordCount_deq taken
      have dequeued : (log.record t .deq).dequeued = log.dequeued ++ [d] := by
        simp [record, taken]
      refine ⟨⟨bursts, words, ?_⟩, sized, ?_, ?_⟩
      · rw [streams, dequeued]
        exact emits.deq taken
      · change log.announced.length = log.got.length + next.burstCount
        omega
      · rw [dequeued, List.length_append, List.length_singleton]
        change log.enqueued.length = log.dequeued.length + 1 + next.wordCount
        omega

/-- What the invariant says about what came out. -/
theorem Inv.atomic (inv : log.Inv size n t) : log.Atomic size t := by
  obtain ⟨⟨bursts, words, emits⟩, _, burstsIn, wordsIn⟩ := inv
  obtain ⟨got, rest, whole⟩ := emits.out
  have cut : (words.take log.dequeued.length).map Prod.snd = log.dequeued := by
    change log.dequeued ++ rest = _ at whole
    rw [List.map_take, ← whole, List.take_left]
  refine ⟨bursts, words.take log.dequeued.length, got, cut, ?_, ?_, ?_, burstsIn, wordsIn⟩
  · exact ((List.take_prefix _ _).map _).trans emits.runs
  · exact fun p => (emits.ports p).1
  · exact fun p => (((List.take_prefix _ _).filter _).map _).trans (emits.ports p).2

/-- Every run of a burst merge is atomic. -/
theorem atomic (t : BurstMerge α β bSz) (log : BurstLog α β)
    (reach : Reach (traced (BurstMerge.step size n) record) (Sized size)
      (mkBurst n, ⟨[], [], [], []⟩) (t, log))
    : log.Atomic size t := by
  have inv : log.Inv size n t := by
    refine reach.invariant (P := fun s => s.2.Inv size n s.1) ?_ ?_
    · obtain ⟨words, bursts⟩ := BurstMerge.counts_mkBurst (α := α) (β := β) n
      exact ⟨⟨[], [], .init n⟩, nofun, by rw [bursts]; rfl, by rw [words]; rfl⟩
    · intro s e s' inv positive fires
      obtain ⟨fired, recorded⟩ := traced_eq_some.mp fires
      rw [recorded]
      exact inv.step positive fired
  exact inv.atomic

end BurstLog

/-- Every run of `mkBurstMergeN` and of `mkBurstIOMergeN` is atomic. -/
theorem burstMerge_atomic {α : Type} {aSz bSz : Nat} (n : Nat)
    : (∀ (t : BurstMerge α (BitVec bSz) bSz) (log : BurstLog α (BitVec bSz)),
        Reach (traced (BurstMerge.step mkBurstMergeN.size n) BurstLog.record)
            (BurstLog.Sized mkBurstMergeN.size) (mkBurstMergeN n, ⟨[], [], [], []⟩) (t, log)
          → log.Atomic mkBurstMergeN.size t)
      ∧ ∀ (t : BurstMerge α (BitVec aSz × BitVec bSz) bSz)
          (log : BurstLog α (BitVec aSz × BitVec bSz)),
          Reach (traced (BurstMerge.step mkBurstIOMergeN.size n) BurstLog.record)
            (BurstLog.Sized mkBurstIOMergeN.size) (mkBurstIOMergeN n, ⟨[], [], [], []⟩) (t, log)
          → log.Atomic mkBurstIOMergeN.size t :=
  ⟨BurstLog.atomic, BurstLog.atomic⟩

namespace BurstLog

instance decidableSized {α β : Type} {bSz : Nat} (size : β → BitVec bSz)
    (s : BurstMerge α β bSz × BurstLog α β) (e : BurstEvent α β)
    : Decidable (Sized size s e) :=
  match e with
  | .burst _ b => inferInstanceAs (Decidable (0 < (size b).toNat))
  | .enq _ _ | .rule _ | .getBurst | .deq => inferInstanceAs (Decidable True)

end BurstLog

/-- Three ports: a burst of two words whose words are late comes out after a burst of one. -/
theorem burstMerge_atomic_three
    : ∃ t log, Reach (traced (BurstMerge.step mkBurstIOMergeN.size 3) BurstLog.record)
          (BurstLog.Sized mkBurstIOMergeN.size)
          ((mkBurstIOMergeN 3 : BurstMerge Nat (BitVec 8 × BitVec 4) 4), ⟨[], [], [], []⟩)
          (t, log)
        ∧ log.got = [(9, 1), (5, 2)] ∧ log.dequeued = [30, 10, 11]
        ∧ log.Atomic mkBurstIOMergeN.size t := by
  obtain ⟨⟨t, log⟩, run, seen⟩ := exec_reach_map
    (traced (BurstMerge.step mkBurstIOMergeN.size 3) BurstLog.record)
    (BurstLog.Sized mkBurstIOMergeN.size)
    ((mkBurstIOMergeN 3 : BurstMerge Nat (BitVec 8 × BitVec 4) 4), ⟨[], [], [], []⟩)
    [.burst 2 (9, 1), .enq 2 30, .burst 0 (5, 2), .enq 0 10, .rule (.inside true .merge),
      .rule (.inside true .relay), .rule (.relayBurst_s true), .rule .merge,
      .rule (.inside false .merge), .rule (.inside false .relay), .rule (.relayBurst_s false),
      .rule (.relayData_s false), .rule (.relayData_s true), .rule .relay, .rule .merge,
      .rule .relay, .enq 0 11, .rule (.inside false .relay), .rule (.relayData_s false),
      .rule .relayBurst, .rule .relayData, .rule .relayBurst, .rule .relayData, .rule .relay,
      .getBurst, .getBurst, .deq, .deq, .rule .relayData, .deq]
    (fun s => (s.2.got, s.2.dequeued)) ([(9, 1), (5, 2)], [30, 10, 11]) (by
      have two : (mkBurst 2 : BurstMerge Nat (BitVec 8 × BitVec 4) 4) = .pair .init := by
        unfold mkBurst
        rfl
      have three : (mkBurst 3 : BurstMerge Nat (BitVec 8 × BitVec 4) 4)
          = .node (fun _ => .pair .init) .init .empty .empty := by
        unfold mkBurst
        rw [if_pos (by decide), show halfUp 3 = 2 from rfl, two]
      rw [mkBurstIOMergeN, three]
      rfl)
  simp only [Prod.mk.injEq] at seen
  exact ⟨t, log, run, seen.1, seen.2, (burstMerge_atomic 3).2 t log run⟩

end BluespecPcie
