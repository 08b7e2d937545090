import Mathlib.Algebra.Order.Ring.Nat
import Mathlib.Data.List.Infix
import Mathlib.Logic.Function.Basic
import Mathlib.Tactic.Common

/-! Words under tags, parked in bounded lanes, one lane for each tag, and taken out in the order in
which they were requested. Words of one tag arrive in order, words of different tags in any order,
and all of them pass one queue before they get to their lanes.
-/

namespace Bluespec

variable {τ α : Type} [DecidableEq τ]

-----------------------------------------------------------------------------------------
-- The words of a tag
-----------------------------------------------------------------------------------------

namespace Lanes

/-- The words of a tag, in their order. -/
def ofTag (tag : τ) (entries : List (τ × α)) : List α :=
  (entries.filter (fun entry => entry.1 = tag)).map Prod.snd

@[simp] theorem ofTag_nil (tag : τ) : ofTag tag ([] : List (τ × α)) = [] := rfl

@[simp] theorem ofTag_append (tag : τ) (entries more : List (τ × α))
    : ofTag tag (entries ++ more) = ofTag tag entries ++ ofTag tag more := by
  simp [ofTag]

theorem ofTag_cons (tag : τ) (entry : τ × α) (entries : List (τ × α))
    : ofTag tag (entry :: entries)
      = if entry.1 = tag then entry.2 :: ofTag tag entries else ofTag tag entries := by
  by_cases mine : entry.1 = tag
  · simp [ofTag, mine]
  · simp [ofTag, mine]

/-- Words that all have one tag. -/
theorem ofTag_tagged (tag t : τ) (words : List α)
    : ofTag tag (words.map (t, ·)) = if t = tag then words else [] := by
  by_cases mine : t = tag
  · simp [ofTag, mine, List.filter_map, Function.comp_def]
  · simp [ofTag, mine, List.filter_map, Function.comp_def]

-----------------------------------------------------------------------------------------
-- What is in line
-----------------------------------------------------------------------------------------

/-- Under each tag, the words in its lane, those in the queue before the lanes and those still to
come are the words that are due under it.
-/
def InLine (lanes : τ → List α) (transit : List (τ × α)) (owed : τ → List α)
    (due : List (τ × α)) : Prop :=
  ∀ tag, lanes tag ++ ofTag tag transit ++ owed tag = ofTag tag due

namespace InLine

variable {lanes owed : τ → List α} {transit due rest : List (τ × α)} {tag : τ} {word : α}

/-- A request adds words at the end. -/
theorem request (line : InLine lanes transit owed due) (tag : τ) (words : List α)
    : InLine lanes transit (Function.update owed tag (owed tag ++ words))
        (due ++ words.map (tag, ·)) := by
  intro other
  have same := line other
  rw [ofTag_append, ofTag_tagged, ← same]
  by_cases mine : other = tag
  · subst mine
    simp
  · simp [mine, Ne.symm mine]

/-- A word arrives. -/
theorem arrive (line : InLine lanes transit owed due) {words : List α}
    (next : owed tag = word :: words)
    : InLine lanes (transit ++ [(tag, word)]) (Function.update owed tag words) due := by
  intro other
  have same := line other
  rw [← same, ofTag_append, ofTag_cons]
  by_cases mine : other = tag
  · subst mine
    simp [next]
  · simp [mine, Ne.symm mine]

/-- The head of the queue goes to its lane. -/
theorem relay (line : InLine lanes ((tag, word) :: rest) owed due)
    : InLine (Function.update lanes tag (lanes tag ++ [word])) rest owed due := by
  intro other
  have same := line other
  rw [← same, ofTag_cons]
  by_cases mine : other = tag
  · subst mine
    simp
  · simp [mine, Ne.symm mine]

/-- The head of the lane of the tag that is due first is the word that is due. -/
theorem drain {words : List α} {taken : α} (line : InLine lanes transit owed ((tag, word) :: rest))
    (head : lanes tag = taken :: words)
    : taken = word ∧ InLine (Function.update lanes tag words) transit owed rest := by
  have first := line tag
  rw [head, ofTag_cons, if_pos rfl, List.cons_append, List.cons_append] at first
  obtain ⟨same, later⟩ := List.cons.inj first
  refine ⟨same, ?_⟩
  intro other
  by_cases mine : other = tag
  · subst mine
    rw [Function.update_self]
    exact later
  · have unchanged := line other
    rw [ofTag_cons, if_neg (Ne.symm mine)] at unchanged
    rw [Function.update_of_ne mine]
    exact unchanged

end InLine

-----------------------------------------------------------------------------------------
-- Room in the lanes
-----------------------------------------------------------------------------------------

/-- A further word of a tag has room in its lane, now or once words that have arrived are taken
out: there are words due first that have all arrived, and without them less than `depth` words of
the tag are left.
-/
def RoomFor (depth : Nat) (arrived : τ → Nat) (order : List τ) (tag : τ) : Prop :=
  ∃ first ∈ order.inits,
    (∀ t ∈ first, first.count t ≤ arrived t) ∧ arrived tag < depth + first.count tag

instance (depth : Nat) (arrived : τ → Nat) (order : List τ) (tag : τ)
    : Decidable (RoomFor depth arrived order tag) := by
  unfold RoomFor
  infer_instance

/-- Every word in the queue before the lanes has room in its lane once the words before it are in
theirs.
-/
def Unblocked (depth : Nat) (held : τ → Nat) (transit order : List τ) : Prop :=
  ∀ before tag after, transit = before ++ tag :: after →
    RoomFor depth (fun t => held t + before.count t) order tag

namespace RoomFor

variable {depth : Nat} {arrived arrived' : τ → Nat} {order : List τ} {tag : τ}

/-- More words may become due. -/
theorem append (room : RoomFor depth arrived order tag) (more : List τ)
    : RoomFor depth arrived (order ++ more) tag := by
  obtain ⟨first, isFirst, here, enough⟩ := room
  refine ⟨first, (List.mem_inits _ _).mpr ?_, here, enough⟩
  exact ((List.mem_inits _ _).mp isFirst).trans (List.prefix_append _ _)

/-- The word that is due first may be taken out, for it is the first of the words that make room,
or room needs none.
-/
theorem tail {head : τ} (room : RoomFor depth arrived (head :: order) tag)
    (taken : ∀ t, arrived t = arrived' t + if t = head then 1 else 0)
    : RoomFor depth arrived' order tag := by
  obtain ⟨first, isFirst, here, enough⟩ := room
  have start := (List.mem_inits _ _).mp isFirst
  rcases List.prefix_cons_iff.mp start with rfl | ⟨rest, rfl, later⟩
  case inl =>
    refine ⟨[], by simp, by simp, ?_⟩
    have before := taken tag
    simp only [List.count_nil] at enough ⊢
    omega
  case inr =>
    refine ⟨rest, (List.mem_inits _ _).mpr later, ?_, ?_⟩
    · intro t member
      have arrivedFirst := here t (List.mem_cons_of_mem _ member)
      have before := taken t
      rw [List.count_cons] at arrivedFirst
      by_cases mine : t = head
      · simp [mine] at before arrivedFirst ⊢
        omega
      · simp [mine, Ne.symm mine] at before arrivedFirst
        omega
    · have before := taken tag
      rw [List.count_cons] at enough
      by_cases mine : tag = head
      · simp [mine] at before enough ⊢
        omega
      · simp [mine, Ne.symm mine] at before enough
        omega

end RoomFor

namespace Unblocked

variable {depth : Nat} {held held' : τ → Nat} {transit order : List τ} {tag : τ}

theorem empty (depth : Nat) (held : τ → Nat) (order : List τ)
    : Unblocked depth held [] order := by
  intro before tag after split
  simp at split

/-- More words become due. -/
theorem request (free : Unblocked depth held transit order) (more : List τ)
    : Unblocked depth held transit (order ++ more) :=
  fun before tag after split => (free before tag after split).append more

/-- A word with room in its lane arrives. -/
theorem arrive (free : Unblocked depth held transit order)
    (room : RoomFor depth (fun t => held t + transit.count t) order tag)
    : Unblocked depth held (transit ++ [tag]) order := by
  intro before other after split
  rcases List.eq_nil_or_concat after with rfl | ⟨later, last, rfl⟩
  case inl =>
    obtain ⟨rfl, same⟩ := List.append_inj' split rfl
    obtain rfl : tag = other := by simpa using same
    exact room
  case inr =>
    rw [List.concat_eq_append, ← List.cons_append, ← List.append_assoc] at split
    exact free before other later (List.append_inj' split rfl).1

/-- The head of the queue goes to its lane. -/
theorem relay (free : Unblocked depth held (tag :: transit) order)
    (moved : ∀ t, held' t = held t + if t = tag then 1 else 0)
    : Unblocked depth held' transit order := by
  intro before other after split
  have room := free (tag :: before) other after (by rw [split, List.cons_append])
  have same
      : (fun t => held t + (tag :: before).count t) = fun t => held' t + before.count t := by
    funext t
    rw [moved, List.count_cons]
    by_cases mine : t = tag
    · simp [mine]
      omega
    · simp [mine, Ne.symm mine]
  rwa [same] at room

/-- The word that is due first is taken out of its lane. -/
theorem drain {head : τ} (free : Unblocked depth held transit (head :: order))
    (taken : ∀ t, held t = held' t + if t = head then 1 else 0)
    : Unblocked depth held' transit order := by
  intro before other after split
  refine (free before other after split).tail ?_
  intro t
  have same := taken t
  omega

/-- While the head of the queue has no room, the tag that is due first has a word in its lane. -/
theorem head (free : Unblocked depth held (tag :: transit) order) (full : depth ≤ held tag)
    : ∃ next later, order = next :: later ∧ 0 < held next := by
  obtain ⟨first, isFirst, here, enough⟩ := free [] tag transit rfl
  have start := (List.mem_inits _ _).mp isFirst
  simp only [List.count_nil, Nat.add_zero] at here enough
  cases first with
  | nil =>
      rw [List.count_nil] at enough
      omega
  | cons next later =>
      obtain ⟨more, rfl⟩ := start
      refine ⟨next, later ++ more, rfl, ?_⟩
      have arrived := here next (List.mem_cons_self ..)
      rw [List.count_cons_self] at arrived
      omega

end Unblocked

end Lanes

end Bluespec
