import BluespecPcie.Bluespec.Fifo
import BluespecPcie.Bluespec.Machine
import BluespecPcie.Bluespec.Ring

/-! `ShmFifo`: a queue of 64-bit words in shared memory. -/

namespace BluespecPcie

open Bluespec

-----------------------------------------------------------------------------------------
-- The shared words
-----------------------------------------------------------------------------------------

/-- The words that the objects share, from `mem_` on. -/
abbrev ShmWords := Nat → BitVec 64

namespace ShmFifo

/-- `*headidx`. -/
def headidx (m : ShmWords) : BitVec 64 := m 0

/-- `*tailidx`. -/
def tailidx (m : ShmWords) : BitVec 64 := m 1

/-- `mem[i]`. -/
def mem (m : ShmWords) (i : Nat) : BitVec 64 := m (3 + i)

/-- What the constructor leaves. -/
def construct (m : ShmWords) : ShmWords :=
  if m 2 ≠ 0xc001d00d then
    Function.update (Function.update (Function.update m 0 0) 1 0) 2 0xc001d00d
  else m

/-- The field `size` of an object constructed with `size`. -/
def slots (size : Nat) : BitVec 64 := BitVec.ofNat 64 size - 3

/-- `nexthead` for a head index. -/
def nexthead (n head : BitVec 64) : BitVec 64 := if head + 1 ≥ n then 0 else head + 1

def pop (n : BitVec 64) (m : ShmWords) : ShmWords :=
  if tailidx m = headidx m then m
  else
    let m := Function.update m 1 (tailidx m + 1)
    if tailidx m ≥ n then Function.update m 1 0 else m

def push (n : BitVec 64) (m : ShmWords) (v : BitVec 64) : ShmWords :=
  let next := nexthead n (headidx m)
  if next = tailidx m then m
  else Function.update (Function.update m (3 + (headidx m).toNat) v) 0 next

def tail (m : ShmWords) : BitVec 64 := mem m (tailidx m).toNat

def empty (m : ShmWords) : Bool := tailidx m = headidx m

def full (n : BitVec 64) (m : ShmWords) : Bool := nexthead n (headidx m) = tailidx m

end ShmFifo

/-- The shared words and the number of attached objects. -/
structure ShmShared where
  words : ShmWords
  objects : Nat

/-- What an attached object can do, or a further one; `tail`, `empty` and `full` only read. -/
inductive ShmEvent where
  | attach
  | push (v : BitVec 64)
  | pop

/-- One event; a method needs an object. -/
def ShmShared.step (size : Nat) (s : ShmShared) : ShmEvent → Option ShmShared
  | .attach => some { words := ShmFifo.construct s.words, objects := s.objects + 1 }
  | .push v =>
      if 0 < s.objects then some { s with words := ShmFifo.push (ShmFifo.slots size) s.words v }
      else none
  | .pop =>
      if 0 < s.objects then some { s with words := ShmFifo.pop (ShmFifo.slots size) s.words }
      else none

-----------------------------------------------------------------------------------------
-- The queue it stands for
-----------------------------------------------------------------------------------------

/-- A queue with one place less than there are slots. -/
abbrev ShmQueue (size : Nat) := Fifo (BitVec 64) (size - 3 - 1)

/-- A push is dropped when the queue is full, a pop when it is empty; attaching does nothing. -/
def ShmQueue.record {size : Nat} (_ : ShmShared) (e : ShmEvent) (q : ShmQueue size)
    : ShmQueue size :=
  match e with
  | .attach => q
  | .push v => (q.enq v).getD q
  | .pop => (q.deq.map Prod.snd).getD q

/-- The words stand for a queue, which the methods read exactly; a push on a full queue, a pop
on an empty one and another constructor change no word.
-/
structure ShmFifo.Refines {size : Nat} (m : ShmWords) (q : ShmQueue size) : Prop where
  head_lt : (ShmFifo.headidx m).toNat < size - 3
  tail_lt : (ShmFifo.tailidx m).toNat < size - 3
  stored : Ring.stored (size - 3) (ShmFifo.mem m) (ShmFifo.tailidx m).toNat
    (ShmFifo.headidx m).toNat = q.items
  full : ShmFifo.full (ShmFifo.slots size) m = true ↔ q.items.length = size - 3 - 1
  empty : ShmFifo.empty m = true ↔ q.items = []
  oldest : ∀ v rest, q.items = v :: rest → ShmFifo.tail m = v
  push_full : ShmFifo.full (ShmFifo.slots size) m = true →
    ∀ v, ShmFifo.push (ShmFifo.slots size) m v = m
  pop_empty : ShmFifo.empty m = true → ShmFifo.pop (ShmFifo.slots size) m = m
  attach : ShmFifo.construct m = m

-----------------------------------------------------------------------------------------
-- Indices
-----------------------------------------------------------------------------------------

namespace ShmFifo

variable {size : Nat} {m : ShmWords}

/-- The slots of an object. -/
theorem toNat_slots (large : 5 ≤ size) (small : size < 2 ^ 31)
    : (slots size).toNat = size - 3 := by
  have wide : size < 2 ^ 64 := Nat.lt_trans small (by decide)
  have value : (BitVec.ofNat 64 size).toNat = size := by
    rw [BitVec.toNat_ofNat]
    exact Nat.mod_eq_of_lt wide
  rw [slots, BitVec.toNat_sub_of_le ?_, value]
  · rfl
  · rw [BitVec.le_def, value]
    exact Nat.le_trans (by decide) large

/-- A successor of an index does not wrap. -/
theorem toNat_succ {i : BitVec 64} (small : i.toNat < 2 ^ 31)
    : (i + 1).toNat = i.toNat + 1 := by
  rw [BitVec.toNat_add]
  exact Nat.mod_eq_of_lt (Nat.lt_of_le_of_lt small (by decide))

/-- `nexthead` is the index behind, in a ring of the slots. -/
theorem toNat_nexthead (large : 5 ≤ size) (small : size < 2 ^ 31) {i : BitVec 64}
    (within : i.toNat < size - 3)
    : (nexthead (slots size) i).toNat = Ring.next (size - 3) i.toNat := by
  have succ := toNat_succ (i := i) (by omega)
  have wraps : i + 1 ≥ slots size ↔ ¬i.toNat + 1 < size - 3 := by
    rw [ge_iff_le, BitVec.le_def, toNat_slots large small, succ, Nat.not_lt]
  unfold nexthead Ring.next
  simp only [wraps]
  by_cases more : i.toNat + 1 < size - 3
  · rw [if_neg (not_not_intro more), if_pos more, succ]
  · rw [if_pos more, if_neg more]
    rfl

/-- What the words stand for between two methods. -/
structure Stands (size : Nat) (m : ShmWords) (items : List (BitVec 64)) : Prop where
  magic : m 2 = 0xc001d00d
  head_lt : (headidx m).toNat < size - 3
  tail_lt : (tailidx m).toNat < size - 3
  stored : Ring.stored (size - 3) (mem m) (tailidx m).toNat (headidx m).toNat = items

/-- The first constructor leaves an empty queue. -/
theorem stands_construct (large : 5 ≤ size) (fresh : m 2 ≠ 0xc001d00d)
    : Stands size (construct m) [] := by
  have written : construct m
      = Function.update (Function.update (Function.update m 0 0) 1 0) 2 0xc001d00d :=
    if_pos fresh
  have head : headidx (construct m) = 0 := by
    rw [written]
    rfl
  have tail : tailidx (construct m) = 0 := by
    rw [written]
    rfl
  constructor
  case magic => rw [written, Function.update_self]
  case head_lt =>
    rw [head]
    exact Nat.sub_pos_of_lt (Nat.lt_of_lt_of_le (by decide) large)
  case tail_lt =>
    rw [tail]
    exact Nat.sub_pos_of_lt (Nat.lt_of_lt_of_le (by decide) large)
  case stored =>
    rw [head, tail]
    exact (Ring.stored_eq_nil (Nat.sub_pos_of_lt (Nat.lt_of_lt_of_le (by decide) large))).mpr rfl

section Stands

variable {items : List (BitVec 64)} (large : 5 ≤ size) (small : size < 2 ^ 31)

/-- A further constructor changes nothing. -/
theorem Stands.attach (stands : Stands size m items) : construct m = m :=
  if_neg (not_not_intro stands.magic)

/-- `empty` is exact. -/
theorem Stands.empty_iff (stands : Stands size m items)
    : tailidx m = headidx m ↔ items = [] := by
  rw [← stands.stored, Ring.stored_eq_nil stands.tail_lt, BitVec.toNat_inj]

include large small in
/-- `full` is exact. -/
theorem Stands.full_iff (stands : Stands size m items)
    : nexthead (slots size) (headidx m) = tailidx m ↔ items.length = size - 3 - 1 := by
  have used := Ring.count_full stands.tail_lt stands.head_lt
  rw [← BitVec.toNat_inj, toNat_nexthead large small stands.head_lt, ← used, ← stands.stored,
    Ring.length_stored]
  omega

/-- `tail` reads the oldest value. -/
theorem Stands.tail_eq {v : BitVec 64} {rest : List (BitVec 64)}
    (stands : Stands size m (v :: rest))
    : tail m = v := by
  have differ : (tailidx m).toNat ≠ (headidx m).toNat := by
    intro same
    cases stands.empty_iff.mp (BitVec.toNat_inj.mp same)
  have stored := stands.stored
  rw [Ring.stored_pop stands.tail_lt stands.head_lt differ] at stored
  exact (List.cons.inj stored).1

/-- No more is stored than the places. -/
theorem Stands.bounded (stands : Stands size m items) : items.length ≤ size - 3 - 1 := by
  have bound := Ring.count_lt stands.tail_lt stands.head_lt
  rw [← stands.stored, Ring.length_stored]
  omega

include large small in
/-- A push with room. -/
theorem Stands.push (stands : Stands size m items) (v : BitVec 64)
    (room : nexthead (slots size) (headidx m) ≠ tailidx m)
    : Stands size (push (slots size) m v) (items ++ [v]) := by
  have next := toNat_nexthead large small stands.head_lt
  have room' : Ring.next (size - 3) (headidx m).toNat ≠ (tailidx m).toNat := by
    rw [← next]
    exact fun same => room (BitVec.toNat_inj.mp same)
  let stored := Function.update m (3 + (headidx m).toNat) v
  have written : ShmFifo.push (slots size) m v
      = Function.update stored 0 (nexthead (slots size) (headidx m)) :=
    if_neg room
  have head : headidx (ShmFifo.push (slots size) m v) = nexthead (slots size) (headidx m) := by
    rw [written]
    exact Function.update_self ..
  have tail : tailidx (ShmFifo.push (slots size) m v) = tailidx m := by
    rw [written, tailidx, Function.update_of_ne (by decide)]
    exact Function.update_of_ne (by omega) ..
  have cells (i : Nat) : mem (ShmFifo.push (slots size) m v) i
      = if i = (headidx m).toNat then v else mem m i := by
    rw [written, mem, Function.update_of_ne (by omega)]
    by_cases here : i = (headidx m).toNat
    · rw [if_pos here, here]
      exact Function.update_self ..
    · rw [if_neg here]
      exact Function.update_of_ne (by omega) ..
  constructor
  case magic =>
    rw [written, Function.update_of_ne (by decide)]
    exact (Function.update_of_ne (by omega) ..).trans stands.magic
  case head_lt =>
    rw [head, next]
    exact Ring.next_lt (by omega)
  case tail_lt =>
    rw [tail]
    exact stands.tail_lt
  case stored =>
    rw [head, tail, next, Ring.stored_push stands.tail_lt stands.head_lt room',
      Ring.stored_congr stands.tail_lt stands.head_lt ?_, stands.stored, cells, if_pos rfl]
    intro i _ other
    rw [cells, if_neg other]

include large small in
/-- A pop of a stored value. -/
theorem Stands.pop {v : BitVec 64} {rest : List (BitVec 64)}
    (stands : Stands size m (v :: rest))
    : Stands size (pop (slots size) m) rest := by
  have differ : tailidx m ≠ headidx m := by
    intro same
    cases stands.empty_iff.mp same
  have differ' : (tailidx m).toNat ≠ (headidx m).toNat :=
    fun same => differ (BitVec.toNat_inj.mp same)
  -- both stores together write the index behind
  have written : ShmFifo.pop (slots size) m
      = Function.update m 1 (nexthead (slots size) (tailidx m)) := by
    have moved : tailidx (Function.update m 1 (tailidx m + 1)) = tailidx m + 1 :=
      Function.update_self ..
    rw [ShmFifo.pop, if_neg differ]
    simp only [moved]
    unfold nexthead
    split
    next => exact Function.update_idem ..
    next => rfl
  have next := toNat_nexthead large small stands.tail_lt
  have head : headidx (ShmFifo.pop (slots size) m) = headidx m := by
    rw [written]
    exact Function.update_of_ne (by decide) ..
  have tail : tailidx (ShmFifo.pop (slots size) m) = nexthead (slots size) (tailidx m) := by
    rw [written]
    exact Function.update_self ..
  have cells : mem (ShmFifo.pop (slots size) m) = mem m := by
    funext i
    rw [written]
    exact Function.update_of_ne (by omega) ..
  constructor
  case magic =>
    rw [written]
    exact (Function.update_of_ne (by decide) ..).trans stands.magic
  case head_lt =>
    rw [head]
    exact stands.head_lt
  case tail_lt =>
    rw [tail, next]
    exact Ring.next_lt (by have := stands.tail_lt; omega)
  case stored =>
    have stored := stands.stored
    rw [Ring.stored_pop stands.tail_lt stands.head_lt differ'] at stored
    rw [head, tail, next, cells]
    exact (List.cons.inj stored).2

include large small in
/-- Words that stand for the contents of a queue refine it. -/
theorem Stands.refines {q : ShmQueue size} (stands : Stands size m q.items) : Refines m q := by
  constructor
  case head_lt => exact stands.head_lt
  case tail_lt => exact stands.tail_lt
  case stored => exact stands.stored
  case full => rw [← stands.full_iff large small, full, decide_eq_true_iff]
  case empty => rw [← stands.empty_iff, empty, decide_eq_true_iff]
  case oldest =>
    intro v rest items
    rw [items] at stands
    exact stands.tail_eq
  case push_full => exact fun full v => if_pos (of_decide_eq_true full)
  case pop_empty => exact fun empty => if_pos (of_decide_eq_true empty)
  case attach => exact stands.attach

end Stands

end ShmFifo

-----------------------------------------------------------------------------------------
-- Runs
-----------------------------------------------------------------------------------------

/-- Before the first constructor nothing happens; after it the words stand for the queue. -/
def ShmShared.Inv {size : Nat} (s : ShmShared) (q : ShmQueue size) : Prop :=
  (s.objects = 0 ∧ s.words 2 ≠ 0xc001d00d ∧ q.items = [])
    ∨ (0 < s.objects ∧ ShmFifo.Stands size s.words q.items)

/-- Every event keeps the invariant. -/
theorem ShmShared.Inv.step {size : Nat} (large : 5 ≤ size) (small : size < 2 ^ 31)
    {s s' : ShmShared} {q : ShmQueue size} {e : ShmEvent} (inv : s.Inv q)
    (fires : s.step size e = some s')
    : s'.Inv (ShmQueue.record s e q) := by
  cases e with
  | attach =>
      cases fires
      right
      refine ⟨Nat.succ_pos _, ?_⟩
      rcases inv with ⟨_, fresh, empty⟩ | ⟨_, stands⟩
      · rw [ShmQueue.record, empty]
        exact ShmFifo.stands_construct large fresh
      · rw [stands.attach]
        exact stands
  | push v =>
      simp only [ShmShared.step] at fires
      split at fires
      next attached =>
        cases fires
        rcases inv with ⟨none, _⟩ | ⟨_, stands⟩
        · omega
        · refine .inr ⟨attached, ?_⟩
          have full := stands.full_iff large small
          rw [ShmQueue.record]
          by_cases stuck : ShmFifo.nexthead (ShmFifo.slots size) (ShmFifo.headidx s.words)
              = ShmFifo.tailidx s.words
          · have none : q.enq v = none := by
              refine Option.not_isSome_iff_eq_none.mp ?_
              rw [Fifo.enq_isSome_iff, full.mp stuck]
              exact Nat.lt_irrefl _
            have same : ShmFifo.push (ShmFifo.slots size) s.words v = s.words := if_pos stuck
            rw [none, Option.getD_none, same]
            exact stands
          · have bound := stands.bounded
            have notFull := (not_congr full).mp stuck
            have room : q.items.length < size - 3 - 1 := Nat.lt_of_le_of_ne bound notFull
            obtain ⟨q', put⟩ := Fifo.enq_of_room room v
            rw [put, Option.getD_some, (Fifo.enq_eq_some.mp put).2]
            exact stands.push large small v stuck
      next => cases fires
  | pop =>
      simp only [ShmShared.step] at fires
      split at fires
      next attached =>
        cases fires
        rcases inv with ⟨none, _⟩ | ⟨_, stands⟩
        · omega
        · refine .inr ⟨attached, ?_⟩
          rw [ShmQueue.record]
          cases items : q.items with
          | nil =>
              have none : q.deq = none := by
                refine Option.not_isSome_iff_eq_none.mp ?_
                rw [Fifo.deq_isSome_iff, items]
                exact not_not_intro rfl
              have same : ShmFifo.pop (ShmFifo.slots size) s.words = s.words :=
                if_pos (stands.empty_iff.mpr items)
              rw [none, Option.map_none, Option.getD_none, same]
              exact stands
          | cons v rest =>
              obtain ⟨q', taken, left⟩ := Fifo.deq_of_items items
              rw [taken, Option.map_some, Option.getD_some, left]
              rw [items] at stands
              exact stands.pop large small
      next => cases fires

/-- In every run of attachments, pushes and pops the shared words are a bounded queue. -/
theorem shmFifo_refines {size : Nat} (large : 5 ≤ size) (small : size < 2 ^ 31)
    (words : ShmWords) (fresh : words 2 ≠ 0xc001d00d) (s : ShmShared) (q : ShmQueue size)
    (reach : Reach (traced (ShmShared.step size) ShmQueue.record) anyEvent
      (⟨words, 0⟩, .empty) (s, q))
    (attached : 0 < s.objects)
    : ShmFifo.Refines s.words q := by
  have inv : s.Inv q := by
    refine reach.invariant (P := fun s => s.1.Inv s.2) (.inl ⟨rfl, fresh, rfl⟩) ?_
    intro s e s' inv _ fires
    obtain ⟨fired, recorded⟩ := traced_eq_some.mp fires
    rw [recorded]
    exact inv.step large small fired
  rcases inv with ⟨none, _⟩ | ⟨_, stands⟩
  · omega
  · exact stands.refines large small

/-- A queue of two words that wraps: of four pushes one is dropped, and 4 is left. -/
theorem shmFifo_refines_wrap
    : ∃ (s : ShmShared) (q : ShmQueue 6),
        Reach (traced (ShmShared.step 6) ShmQueue.record) anyEvent
          (⟨fun _ => 0, 0⟩, .empty) (s, q)
        ∧ q.items = [4] ∧ ShmFifo.Refines s.words q := by
  obtain ⟨⟨s, q⟩, run, seen⟩ := exec_reach_map (traced (ShmShared.step 6) ShmQueue.record)
    anyEvent (⟨fun _ => 0, 0⟩, (.empty : ShmQueue 6))
    [.attach, .push 1, .push 2, .push 3, .attach, .pop, .pop, .push 4]
    (fun s => (s.1.objects, s.2.items)) (2, [4]) (by decide +kernel)
  simp only [Prod.mk.injEq] at seen
  refine ⟨s, q, run, seen.2, ?_⟩
  exact shmFifo_refines (by decide) (by decide) _ (by decide) s q run (by omega)

end BluespecPcie
