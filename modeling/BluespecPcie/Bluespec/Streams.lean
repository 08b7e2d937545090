import Mathlib.Algebra.Order.Ring.Nat
import Mathlib.Data.List.Basic
import Mathlib.Tactic.Common

/-! Labelled streams: the elements of each label, and runs of one label announced by size. -/

namespace Bluespec

variable {ι κ α β γ : Type}

-----------------------------------------------------------------------------------------
-- Elements of a label
-----------------------------------------------------------------------------------------

/-- The elements with label `i`. -/
def withLabel [DecidableEq ι] (i : ι) (xs : List (ι × α)) : List α :=
  (xs.filter (fun x => x.1 = i)).map Prod.snd

section Labels

variable [DecidableEq ι]

@[simp] theorem withLabel_nil (i : ι) : withLabel i ([] : List (ι × α)) = [] := rfl

theorem withLabel_append (i : ι) (xs ys : List (ι × α))
    : withLabel i (xs ++ ys) = withLabel i xs ++ withLabel i ys := by
  simp only [withLabel, List.filter_append, List.map_append]

/-- The oldest element. -/
theorem withLabel_cons (i j : ι) (a : α) (xs : List (ι × α))
    : withLabel i ((j, a) :: xs) = if j = i then a :: withLabel i xs else withLabel i xs := by
  by_cases same : j = i
  · simp [withLabel, same]
  · simp [withLabel, same]

/-- A further element. -/
theorem withLabel_snoc (i j : ι) (a : α) (xs : List (ι × α))
    : withLabel i (xs ++ [(j, a)]) = if j = i then withLabel i xs ++ [a] else withLabel i xs := by
  rw [withLabel_append, withLabel_cons, withLabel_nil]
  split
  · rfl
  · rw [List.append_nil]

/-- A prefix has a prefix of the elements of each label. -/
theorem withLabel_grows (i : ι) {xs ys : List (ι × α)} (fewer : xs <+: ys)
    : withLabel i xs <+: withLabel i ys :=
  (fewer.filter _).map _

/-- Elements taken apart under their labels. -/
theorem withLabel_pieces (f : α → List β) (i : ι) (xs : List (ι × α))
    : withLabel i (xs.flatMap (fun x => (f x.2).map (fun b => (x.1, b))))
      = (withLabel i xs).flatMap f := by
  induction xs with
  | nil => rfl
  | cons x xs ih =>
      obtain ⟨j, a⟩ := x
      rw [List.flatMap_cons, withLabel_append, ih, withLabel_cons]
      by_cases same : j = i
      · rw [if_pos same, List.flatMap_cons]
        refine congrArg (· ++ _) ?_
        simp [withLabel, same, List.filter_map, Function.comp_def]
      · rw [if_neg same]
        simp [withLabel, same, List.filter_map, Function.comp_def]

/-- An element is among those of its label. -/
theorem mem_withLabel {i : ι} {a : α} {xs : List (ι × α)} (member : (i, a) ∈ xs)
    : a ∈ withLabel i xs := by
  have kept : (i, a) ∈ xs.filter (fun x => x.1 = i) := List.mem_filter.mpr ⟨member, by simp⟩
  exact List.mem_map_of_mem kept

end Labels

-----------------------------------------------------------------------------------------
-- Runs
-----------------------------------------------------------------------------------------

/-- The labels of the elements that runs announce: each run has `size` elements of its label. -/
def runLabels (size : β → Nat) (runs : List (ι × β)) : List ι :=
  runs.flatMap (fun run => List.replicate (size run.2) run.1)

theorem runLabels_append (size : β → Nat) (runs more : List (ι × β))
    : runLabels size (runs ++ more) = runLabels size runs ++ runLabels size more := by
  simp only [runLabels, List.flatMap_append]

theorem runLabels_singleton (size : β → Nat) (i : ι) (b : β)
    : runLabels size [(i, b)] = List.replicate (size b) i := by
  simp [runLabels]

/-- More runs announce more elements. -/
theorem runLabels_prefix {size : β → Nat} {runs more : List (ι × β)} (fewer : runs <+: more)
    : runLabels size runs <+: runLabels size more := by
  obtain ⟨rest, rfl⟩ := fewer
  rw [runLabels_append]
  exact List.prefix_append _ _

/-- Renaming the labels of the runs. -/
theorem map_runLabels (size : β → Nat) (f : ι → κ) (runs : List (ι × β))
    : (runLabels size runs).map f = runLabels size (runs.map (fun run => (f run.1, run.2))) := by
  simp only [runLabels, List.map_flatMap, List.flatMap_map, List.map_replicate]

/-- The elements of the runs whose labels have a property. -/
theorem filter_runLabels (size : β → Nat) (p : ι → Bool) (runs : List (ι × β))
    : (runLabels size runs).filter p = runLabels size (runs.filter (fun run => p run.1)) := by
  induction runs with
  | nil => rfl
  | cons run rest ih =>
      have head : runLabels size (run :: rest)
          = List.replicate (size run.2) run.1 ++ runLabels size rest := by
        simp [runLabels]
      rw [head, List.filter_append, ih, List.filter_cons]
      by_cases kept : p run.1 = true
      · rw [if_pos kept, List.filter_replicate_of_pos kept]
        simp [runLabels]
      · rw [if_neg kept, List.filter_replicate_of_neg kept, List.nil_append]

/-- Labels in two parts, for the elements in order. -/
theorem zip_append_labels (front back : List ι) (xs : List α)
    : (front ++ back).zip xs = front.zip xs ++ back.zip (xs.drop front.length) := by
  induction front generalizing xs with
  | nil => simp
  | cons i front ih =>
      cases xs with
      | nil => simp
      | cons a xs =>
          rw [List.cons_append, List.zip_cons_cons, ih, List.zip_cons_cons]
          simp

section RunElements

variable [DecidableEq ι]

/-- The elements of a run of one label. -/
theorem withLabel_replicate (i : ι) (n : Nat) (xs : List α)
    : withLabel i ((List.replicate n i).zip xs) = xs.take n := by
  induction n generalizing xs with
  | zero => simp
  | succ n ih =>
      cases xs with
      | nil => simp
      | cons a xs =>
          rw [List.replicate_succ, List.zip_cons_cons, withLabel_cons, if_pos rfl, ih,
            List.take_succ_cons]

/-- Runs of other labels have no element of a label. -/
theorem withLabel_others {size : β → Nat} {i : ι} {runs : List (ι × β)}
    (others : ∀ run ∈ runs, run.1 ≠ i) (xs : List α)
    : withLabel i ((runLabels size runs).zip xs) = [] := by
  rw [withLabel, List.map_eq_nil_iff, List.filter_eq_nil_iff]
  intro x member same
  obtain ⟨run, inRuns, label⟩ := List.mem_flatMap.mp (List.of_mem_zip member).1
  exact others run inRuns ((List.eq_of_mem_replicate label).symm.trans (of_decide_eq_true same))

/-- The elements of the last run of a label come behind those of its earlier runs. -/
theorem withLabel_lastRun (size : β → Nat) {i : ι} {b : β} {front back : List (ι × β)}
    (last : ∀ run ∈ back, run.1 ≠ i) (xs : List α)
    : withLabel i ((runLabels size (front ++ (i, b) :: back)).zip xs)
      = withLabel i ((runLabels size front).zip xs)
        ++ (xs.drop (runLabels size front).length).take (size b) := by
  have split : runLabels size (front ++ (i, b) :: back)
      = runLabels size front ++ (List.replicate (size b) i ++ runLabels size back) := by
    rw [runLabels_append]
    rfl
  rw [split, zip_append_labels, zip_append_labels, withLabel_append, withLabel_append,
    withLabel_replicate, withLabel_others last, List.append_nil]

/-- As many elements of a label as its runs announce, if there are enough in all; induction on the
runs.
-/
theorem length_withLabel_runs (size : β → Nat) (i : ι) {runs : List (ι × β)} {xs : List α}
    (enough : (runLabels size runs).length ≤ xs.length)
    : (withLabel i ((runLabels size runs).zip xs)).length
      = ((withLabel i runs).map size).sum := by
  induction runs generalizing xs with
  | nil => rfl
  | cons run runs ih =>
      obtain ⟨j, b⟩ := run
      have split : runLabels size ((j, b) :: runs)
          = List.replicate (size b) j ++ runLabels size runs := rfl
      rw [split, List.length_append, List.length_replicate] at enough
      have later := @ih (xs.drop (size b)) (by rw [List.length_drop]; omega)
      rw [split, zip_append_labels, withLabel_append, List.length_append, List.length_replicate,
        later, withLabel_cons]
      by_cases same : j = i
      · subst same
        rw [withLabel_replicate, List.length_take, if_pos rfl, List.map_cons, List.sum_cons]
        omega
      · rw [if_neg same]
        have other : ∀ run ∈ [(j, b)], run.1 ≠ i :=
          fun run member => List.mem_singleton.mp member ▸ same
        have none : withLabel i ((runLabels size [(j, b)]).zip xs) = [] :=
          withLabel_others other xs
        rw [runLabels_singleton] at none
        rw [none, List.length_nil, Nat.zero_add]

end RunElements

-----------------------------------------------------------------------------------------
-- Codes of one length
-----------------------------------------------------------------------------------------

/-- What is coded in pieces of one length is a prefix if its code is; induction on the list. -/
theorem prefix_of_pieces {f : α → List β} {n : Nat} (positive : 0 < n)
    (size : ∀ a, (f a).length = n) (injective : Function.Injective f) {xs ys : List α}
    (coded : xs.flatMap f <+: ys.flatMap f)
    : xs <+: ys := by
  induction xs generalizing ys with
  | nil => exact List.nil_prefix
  | cons x xs ih =>
      cases ys with
      | nil =>
          have short := coded.length_le
          rw [List.flatMap_cons, List.length_append, size, List.flatMap_nil,
            List.length_nil] at short
          omega
      | cons y ys =>
          obtain ⟨rest, joined⟩ := coded
          rw [List.flatMap_cons, List.flatMap_cons, List.append_assoc] at joined
          obtain ⟨head, tail⟩ := List.append_inj joined (by rw [size, size])
          rw [injective head]
          exact List.cons_prefix_cons.mpr ⟨rfl, ih ⟨rest, tail⟩⟩

-----------------------------------------------------------------------------------------
-- Elements side by side
-----------------------------------------------------------------------------------------

/-- A list is determined by the side of each element and the elements of each side; induction
on the list.
-/
theorem prefix_of_sides [DecidableEq κ] (side : γ → κ) {xs ys : List γ}
    (sides : xs.map side <+: ys.map side)
    (each : ∀ i, xs.filter (fun x => side x = i) <+: ys.filter (fun y => side y = i))
    : xs <+: ys := by
  induction xs generalizing ys with
  | nil => exact List.nil_prefix
  | cons x xs ih =>
      cases ys with
      | nil => simp at sides
      | cons y ys =>
          rw [List.map_cons, List.map_cons, List.cons_prefix_cons] at sides
          obtain ⟨same, sides⟩ := sides
          have first := each (side x)
          rw [List.filter_cons_of_pos (by simp), List.filter_cons_of_pos (by simp [same]),
            List.cons_prefix_cons] at first
          obtain ⟨rfl, _⟩ := first
          refine List.cons_prefix_cons.mpr ⟨rfl, ih sides ?_⟩
          intro i
          have whole := each i
          by_cases mine : side x = i
          · rw [List.filter_cons_of_pos (by simp [mine]),
              List.filter_cons_of_pos (by simp [mine]), List.cons_prefix_cons] at whole
            exact whole.2
          · rwa [List.filter_cons_of_neg (by simp [mine]),
              List.filter_cons_of_neg (by simp [mine])] at whole

end Bluespec
