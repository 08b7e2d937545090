import BluespecPcie.Host.ShmFifo

/-! One producer and one consumer of a `ShmFifo`, each load and store a step. -/

namespace BluespecPcie

open Bluespec

-----------------------------------------------------------------------------------------
-- The processes
-----------------------------------------------------------------------------------------

/-- What the producer does next; the arguments are the values it has loaded. -/
inductive ShmProducer where
  | idle
  | push (v : BitVec 64)
  | pushCheck (v next : BitVec 64)
  | pushIndex (v next : BitVec 64)
  | pushStore (v next head : BitVec 64)
  | pushHead (v next : BitVec 64)
  | full
  | fullCheck (next : BitVec 64)

/-- What the consumer does next; the arguments are the values it has loaded. -/
inductive ShmConsumer where
  | idle
  | pop
  | popCheck (tail : BitVec 64)
  | popLoad
  | popStore (tail : BitVec 64)
  | popTest
  | popFold
  | empty
  | emptyCheck (tail : BitVec 64)
  | tail
  | tailRead (tail : BitVec 64)

/-- The shared words and the two processes. -/
structure ShmProcesses where
  words : ShmWords
  producer : ShmProducer
  consumer : ShmConsumer

namespace ShmProcesses

/-- One load or store of the producer. -/
def produce (size : Nat) (s : ShmProcesses) : Option ShmProcesses :=
  let n := ShmFifo.slots size
  match s.producer with
  | .idle => none
  | .push v =>
      some { s with producer := .pushCheck v (ShmFifo.nexthead n (ShmFifo.headidx s.words)) }
  | .pushCheck v next =>
      if next = ShmFifo.tailidx s.words then some { s with producer := .idle }
      else some { s with producer := .pushIndex v next }
  | .pushIndex v next =>
      some { s with producer := .pushStore v next (ShmFifo.headidx s.words) }
  | .pushStore v next head =>
      some { s with
        words := Function.update s.words (3 + head.toNat) v
        producer := .pushHead v next }
  | .pushHead _ next =>
      some { s with words := Function.update s.words 0 next, producer := .idle }
  | .full =>
      some { s with producer := .fullCheck (ShmFifo.nexthead n (ShmFifo.headidx s.words)) }
  | .fullCheck _ => some { s with producer := .idle }

/-- One load or store of the consumer. -/
def consume (size : Nat) (s : ShmProcesses) : Option ShmProcesses :=
  match s.consumer with
  | .idle => none
  | .pop => some { s with consumer := .popCheck (ShmFifo.tailidx s.words) }
  | .popCheck tail =>
      if tail = ShmFifo.headidx s.words then some { s with consumer := .idle }
      else some { s with consumer := .popLoad }
  | .popLoad => some { s with consumer := .popStore (ShmFifo.tailidx s.words) }
  | .popStore tail =>
      some { s with words := Function.update s.words 1 (tail + 1), consumer := .popTest }
  | .popTest =>
      if ShmFifo.tailidx s.words ≥ ShmFifo.slots size then some { s with consumer := .popFold }
      else some { s with consumer := .idle }
  | .popFold => some { s with words := Function.update s.words 1 0, consumer := .idle }
  | .empty => some { s with consumer := .emptyCheck (ShmFifo.tailidx s.words) }
  | .emptyCheck _ => some { s with consumer := .idle }
  | .tail => some { s with consumer := .tailRead (ShmFifo.tailidx s.words) }
  | .tailRead _ => some { s with consumer := .idle }

end ShmProcesses

/-- Calls of an idle process, and the steps of both. -/
inductive ShmStep where
  | callPush (v : BitVec 64)
  | callFull
  | callPop
  | callEmpty
  | callTail
  | produce
  | consume

namespace ShmProcesses

/-- An idle producer starts with a method. -/
def callProducer (s : ShmProcesses) (producer : ShmProducer) : Option ShmProcesses :=
  match s.producer with
  | .idle => some { s with producer }
  | _ => none

/-- An idle consumer starts with a method. -/
def callConsumer (s : ShmProcesses) (consumer : ShmConsumer) : Option ShmProcesses :=
  match s.consumer with
  | .idle => some { s with consumer }
  | _ => none

/-- One step of a sequentially consistent interleaving. -/
def step (size : Nat) (s : ShmProcesses) : ShmStep → Option ShmProcesses
  | .callPush v => s.callProducer (.push v)
  | .callFull => s.callProducer .full
  | .callPop => s.callConsumer .pop
  | .callEmpty => s.callConsumer .empty
  | .callTail => s.callConsumer .tail
  | .produce => s.produce size
  | .consume => s.consume size

/-- Both processes have an object and do nothing yet. -/
def start (words : ShmWords) : ShmProcesses := ⟨ShmFifo.construct words, .idle, .idle⟩

/-- The slot that `tailidx` stands for; it is `size` between the two stores of a pop. -/
def tailSlot (size : Nat) (m : ShmWords) : Nat :=
  if (ShmFifo.tailidx m).toNat < size - 3 then (ShmFifo.tailidx m).toNat else 0

/-- The values between tail and head. -/
def stored (size : Nat) (m : ShmWords) : List (BitVec 64) :=
  Ring.stored (size - 3) (ShmFifo.mem m) (tailSlot size m) (ShmFifo.headidx m).toNat

end ShmProcesses

/-- The values whose push was accepted, and those that were consumed. -/
structure ShmLog where
  accepted : List (BitVec 64)
  consumed : List (BitVec 64)

/-- A push is accepted with its store of `headidx`, and a pop consumes with its first store of
`tailidx`.
-/
def ShmLog.record (s : ShmProcesses) (e : ShmStep) (log : ShmLog) : ShmLog :=
  match e with
  | .produce =>
      match s.producer with
      | .pushHead v _ => { log with accepted := log.accepted ++ [v] }
      | _ => log
  | .consume =>
      match s.consumer with
      | .popStore tail =>
          { log with consumed := log.consumed ++ [ShmFifo.mem s.words tail.toNat] }
      | _ => log
  | _ => log

/-- Consumed and stored values are the accepted ones in order, no more are stored than there
are places, and a `tail` that is about to read its slot reads the oldest stored value.
-/
structure ShmLog.Safe (size : Nat) (s : ShmProcesses) (log : ShmLog) : Prop where
  order : log.consumed ++ ShmProcesses.stored size s.words = log.accepted
  bounded : log.accepted.length ≤ log.consumed.length + (size - 3 - 1)
  oldest : ∀ tail v rest, s.consumer = .tailRead tail → ShmProcesses.stored size s.words = v :: rest →
    ShmFifo.mem s.words tail.toNat = v

/-- A push compares `headidx` before the last slot with `tailidx` only when that is an index,
not between the two stores of a pop at the last slot.
-/
def ShmProcesses.ChecksIndex (size : Nat) (s : ShmProcesses) : ShmStep → Prop
  | .produce =>
      match s.producer with
      | .pushCheck _ next => next = 0 → (ShmFifo.tailidx s.words).toNat < size - 3
      | _ => True
  | _ => True

instance (size : Nat) (s : ShmProcesses) (e : ShmStep) : Decidable (s.ChecksIndex size e) := by
  cases e with
  | produce =>
      unfold ShmProcesses.ChecksIndex
      cases s.producer <;> infer_instance
  | _ => exact isTrue trivial

-----------------------------------------------------------------------------------------
-- What each process relies on
-----------------------------------------------------------------------------------------

/-- The queue the words stand for has room. -/
def ShmFifo.Room (size : Nat) (m : ShmWords) : Prop :=
  Ring.next (size - 3) (ShmFifo.headidx m).toNat ≠ ShmProcesses.tailSlot size m

/-- What the producer has loaded and knows. -/
def ShmProducer.Knows (size : Nat) (m : ShmWords) : ShmProducer → Prop
  | .idle | .push _ | .full | .fullCheck _ => True
  | .pushCheck _ next => next = ShmFifo.nexthead (ShmFifo.slots size) (ShmFifo.headidx m)
  | .pushIndex _ next =>
      next = ShmFifo.nexthead (ShmFifo.slots size) (ShmFifo.headidx m) ∧ ShmFifo.Room size m
  | .pushStore _ next head =>
      next = ShmFifo.nexthead (ShmFifo.slots size) (ShmFifo.headidx m) ∧ ShmFifo.Room size m
        ∧ head = ShmFifo.headidx m
  | .pushHead v next =>
      next = ShmFifo.nexthead (ShmFifo.slots size) (ShmFifo.headidx m) ∧ ShmFifo.Room size m
        ∧ ShmFifo.mem m (ShmFifo.headidx m).toNat = v

/-- What the consumer has loaded and knows; only between the two stores of a pop may
`tailidx` be `size`.
-/
def ShmConsumer.Knows (size : Nat) (m : ShmWords) : ShmConsumer → Prop
  | .idle | .pop | .empty | .emptyCheck _ | .tail => (ShmFifo.tailidx m).toNat < size - 3
  | .popCheck loaded | .tailRead loaded =>
      loaded = ShmFifo.tailidx m ∧ (ShmFifo.tailidx m).toNat < size - 3
  | .popLoad =>
      (ShmFifo.tailidx m).toNat < size - 3
        ∧ (ShmFifo.tailidx m).toNat ≠ (ShmFifo.headidx m).toNat
  | .popStore loaded =>
      loaded = ShmFifo.tailidx m ∧ (ShmFifo.tailidx m).toNat < size - 3
        ∧ (ShmFifo.tailidx m).toNat ≠ (ShmFifo.headidx m).toNat
  | .popTest => (ShmFifo.tailidx m).toNat ≤ size - 3
  | .popFold => (ShmFifo.tailidx m).toNat = size - 3

/-- The invariant of both processes. -/
structure ShmProcesses.Inv (size : Nat) (s : ShmProcesses) (log : ShmLog) : Prop where
  head_lt : (ShmFifo.headidx s.words).toNat < size - 3
  producer : s.producer.Knows size s.words
  consumer : s.consumer.Knows size s.words
  order : log.consumed ++ ShmProcesses.stored size s.words = log.accepted

section Words

variable {size : Nat} {m m' : ShmWords}

/-- `tailidx` stands for itself when it is an index. -/
theorem ShmProcesses.tailSlot_of_lt (within : (ShmFifo.tailidx m).toNat < size - 3)
    : ShmProcesses.tailSlot size m = (ShmFifo.tailidx m).toNat :=
  if_pos within

/-- `tailidx` always stands for a slot. -/
theorem ShmProcesses.tailSlot_lt (large : 5 ≤ size)
    : ShmProcesses.tailSlot size m < size - 3 := by
  unfold tailSlot
  split <;> omega

/-- The values between tail and head stay when no index and no slot but `head` changes. -/
theorem ShmProcesses.stored_congr (large : 5 ≤ size)
    (within : (ShmFifo.headidx m).toNat < size - 3)
    (head : ShmFifo.headidx m' = ShmFifo.headidx m)
    (tail : tailSlot size m' = tailSlot size m)
    (same : ∀ i, i ≠ (ShmFifo.headidx m).toNat → ShmFifo.mem m' i = ShmFifo.mem m i)
    : stored size m' = stored size m := by
  rw [stored, stored, head, tail]
  exact Ring.stored_congr (tailSlot_lt large) within (fun i _ other => same i other)

/-- The next index is not that of another. -/
theorem ringNext_injective {n i j : Nat} (within : i < n) (within' : j < n)
    (same : Ring.next n i = Ring.next n j)
    : i = j := by
  unfold Ring.next at same
  split at same <;> split at same <;> omega

/-- The words after the store of a value behind the queue. -/
theorem ShmFifo.store_value (v : BitVec 64) (i : Nat)
    : headidx (Function.update m (3 + i) v) = headidx m
      ∧ tailidx (Function.update m (3 + i) v) = tailidx m
      ∧ ∀ j, mem (Function.update m (3 + i) v) j = if j = i then v else mem m j := by
  refine ⟨Function.update_of_ne (by omega) .., Function.update_of_ne (by omega) .., ?_⟩
  intro j
  by_cases here : j = i
  · rw [if_pos here, here]
    exact Function.update_self ..
  · rw [if_neg here]
    exact Function.update_of_ne (by omega) ..

/-- The words after a store of `headidx`. -/
theorem ShmFifo.store_head (next : BitVec 64)
    : headidx (Function.update m 0 next) = next
      ∧ tailidx (Function.update m 0 next) = tailidx m
      ∧ mem (Function.update m 0 next) = mem m := by
  refine ⟨Function.update_self .., Function.update_of_ne (by decide) .., ?_⟩
  funext j
  exact Function.update_of_ne (by omega) ..

/-- The words after a store of `tailidx`. -/
theorem ShmFifo.store_tail (tail : BitVec 64)
    : headidx (Function.update m 1 tail) = headidx m
      ∧ tailidx (Function.update m 1 tail) = tail
      ∧ mem (Function.update m 1 tail) = mem m := by
  refine ⟨Function.update_of_ne (by decide) .., Function.update_self .., ?_⟩
  funext j
  exact Function.update_of_ne (by omega) ..

/-- The producer's knowledge is about `headidx`, the slot it has stored to, and room. -/
theorem ShmProducer.Knows.congr {producer : ShmProducer} (knows : producer.Knows size m)
    (head : ShmFifo.headidx m' = ShmFifo.headidx m) (cells : ShmFifo.mem m' = ShmFifo.mem m)
    (room : ShmFifo.Room size m → ShmFifo.Room size m')
    : producer.Knows size m' := by
  cases producer with
  | idle | push | full | fullCheck => trivial
  | pushCheck v next =>
      rw [Knows, head]
      exact knows
  | pushIndex v next =>
      rw [Knows, head]
      exact ⟨knows.1, room knows.2⟩
  | pushStore v next loaded =>
      rw [Knows, head]
      exact ⟨knows.1, room knows.2.1, knows.2.2⟩
  | pushHead v next =>
      rw [Knows, head, cells]
      exact ⟨knows.1, room knows.2.1, knows.2.2⟩

/-- The consumer's knowledge is about `tailidx` and that it is not `headidx`. -/
theorem ShmConsumer.Knows.congr {consumer : ShmConsumer} (knows : consumer.Knows size m)
    (tail : ShmFifo.tailidx m' = ShmFifo.tailidx m)
    (differ : (ShmFifo.tailidx m).toNat < size - 3 →
      (ShmFifo.tailidx m).toNat ≠ (ShmFifo.headidx m).toNat →
      (ShmFifo.tailidx m).toNat ≠ (ShmFifo.headidx m').toNat)
    : consumer.Knows size m' := by
  cases consumer with
  | idle | pop | empty | emptyCheck | tail | popTest | popFold | popCheck | tailRead =>
      rw [Knows, tail]
      exact knows
  | popLoad =>
      rw [Knows, tail]
      exact ⟨knows.1, differ knows.1 knows.2⟩
  | popStore loaded =>
      rw [Knows, tail]
      exact ⟨knows.1, knows.2.1, differ knows.2.1 knows.2.2⟩

end Words

-----------------------------------------------------------------------------------------
-- Steps
-----------------------------------------------------------------------------------------

namespace ShmProcesses

variable {size : Nat} {s s' : ShmProcesses} {log : ShmLog}

/-- A step that changes only what a process has loaded. -/
theorem Inv.local_ (inv : s.Inv size log) (words : s'.words = s.words)
    (producer : s'.producer.Knows size s.words) (consumer : s'.consumer.Knows size s.words)
    : s'.Inv size log := by
  rw [← words] at producer consumer
  refine ⟨?_, producer, consumer, ?_⟩
  · rw [words]
    exact inv.head_lt
  · rw [words]
    exact inv.order

section Steps

variable (large : 5 ≤ size) (small : size < 2 ^ 31)

include large small in
/-- The comparison of a push tells that there is room, if `tailidx` is an index or the slot
behind the head is not the first one.
-/
theorem Inv.room (inv : s.Inv size log) {v next : BitVec 64}
    (point : s.producer = .pushCheck v next) (checks : s.ChecksIndex size .produce)
    (differ : next ≠ ShmFifo.tailidx s.words)
    : ShmFifo.Room size s.words := by
  have knows := inv.producer
  rw [point] at knows
  have number := ShmFifo.toNat_nexthead large small inv.head_lt
  rw [← show next = _ from knows] at number
  intro same
  by_cases index : (ShmFifo.tailidx s.words).toNat < size - 3
  · rw [tailSlot_of_lt index, ← number] at same
    exact differ (BitVec.toNat_inj.mp same)
  · have first : next.toNat = 0 := by
      rw [number, same, tailSlot, if_neg index]
    simp only [ChecksIndex, point] at checks
    exact index (checks (BitVec.eq_of_toNat_eq first))

include large small in
/-- A step of the producer. -/
theorem Inv.produce (inv : s.Inv size log) (checks : s.ChecksIndex size .produce)
    (fires : s.produce size = some s')
    : s'.Inv size (log.record s .produce) := by
  have knows := inv.producer
  cases point : s.producer with
  | idle =>
      rw [ShmProcesses.produce, point] at fires
      cases fires
  | push v =>
      rw [ShmProcesses.produce, point] at fires
      cases fires
      rw [ShmLog.record, point]
      exact inv.local_ rfl rfl inv.consumer
  | pushCheck v next =>
      have room := inv.room large small point checks
      rw [point] at knows
      simp only [ShmProcesses.produce, point] at fires
      rw [ShmLog.record, point]
      split at fires
      next =>
        cases fires
        exact inv.local_ rfl trivial inv.consumer
      next differ =>
        cases fires
        exact inv.local_ rfl ⟨knows, room differ⟩ inv.consumer
  | pushIndex v next =>
      rw [point] at knows
      rw [ShmProcesses.produce, point] at fires
      cases fires
      rw [ShmLog.record, point]
      exact inv.local_ rfl ⟨knows.1, knows.2, rfl⟩ inv.consumer
  | pushStore v next head =>
      rw [point] at knows
      rw [ShmProcesses.produce, point] at fires
      cases fires
      rw [ShmLog.record, point]
      obtain ⟨next_, room, rfl⟩ := knows
      obtain ⟨headidx, tailidx, cells⟩ :=
        ShmFifo.store_value (m := s.words) v (ShmFifo.headidx s.words).toNat
      have slot : tailSlot size
          (Function.update s.words (3 + (ShmFifo.headidx s.words).toNat) v)
            = tailSlot size s.words := by
        rw [tailSlot, tailidx]
        rfl
      refine ⟨?_, ?_, ?_, ?_⟩
      · rw [headidx]
        exact inv.head_lt
      · refine ⟨?_, ?_, ?_⟩
        · rw [headidx]
          exact next_
        · rw [ShmFifo.Room, headidx, slot]
          exact room
        · rw [headidx, cells, if_pos rfl]
      · refine inv.consumer.congr tailidx ?_
        rw [headidx]
        exact fun _ => id
      · rw [stored_congr large inv.head_lt headidx slot (fun i other => by rw [cells, if_neg other])]
        exact inv.order
  | pushHead v next =>
      rw [point] at knows
      rw [ShmProcesses.produce, point] at fires
      cases fires
      rw [ShmLog.record, point]
      obtain ⟨next_, room, value⟩ := knows
      obtain ⟨headidx, tailidx, cells⟩ := ShmFifo.store_head (m := s.words) next
      have number : next.toNat = Ring.next (size - 3) (ShmFifo.headidx s.words).toNat := by
        rw [next_]
        exact ShmFifo.toNat_nexthead large small inv.head_lt
      have slot : tailSlot size (Function.update s.words 0 next) = tailSlot size s.words := by
        rw [tailSlot, tailidx]
        rfl
      refine ⟨?_, trivial, ?_, ?_⟩
      · rw [headidx, number]
        exact Ring.next_lt (by omega)
      · refine inv.consumer.congr tailidx ?_
        rw [headidx, number]
        intro index _ same
        refine room ?_
        rw [tailSlot_of_lt index]
        exact same.symm
      · change log.consumed ++ stored size (Function.update s.words 0 next) = log.accepted ++ [v]
        rw [stored, slot, cells, headidx, number,
          Ring.stored_push (tailSlot_lt large) inv.head_lt room, ← List.append_assoc, value]
        exact congrArg (· ++ [v]) inv.order
  | full =>
      rw [ShmProcesses.produce, point] at fires
      cases fires
      rw [ShmLog.record, point]
      exact inv.local_ rfl trivial inv.consumer
  | fullCheck next =>
      rw [ShmProcesses.produce, point] at fires
      cases fires
      rw [ShmLog.record, point]
      exact inv.local_ rfl trivial inv.consumer

include large small in
/-- A step of the consumer. -/
theorem Inv.consume (inv : s.Inv size log) (fires : s.consume size = some s')
    : s'.Inv size (log.record s .consume) := by
  have knows := inv.consumer
  cases point : s.consumer with
  | idle =>
      rw [ShmProcesses.consume, point] at fires
      cases fires
  | pop | empty | tail =>
      rw [point] at knows
      rw [ShmProcesses.consume, point] at fires
      cases fires
      rw [ShmLog.record, point]
      first
      | exact inv.local_ rfl inv.producer knows
      | exact inv.local_ rfl inv.producer ⟨rfl, knows⟩
  | emptyCheck loaded =>
      rw [point] at knows
      rw [ShmProcesses.consume, point] at fires
      cases fires
      rw [ShmLog.record, point]
      exact inv.local_ rfl inv.producer knows
  | tailRead loaded =>
      rw [point] at knows
      rw [ShmProcesses.consume, point] at fires
      cases fires
      rw [ShmLog.record, point]
      exact inv.local_ rfl inv.producer knows.2
  | popCheck loaded =>
      rw [point] at knows
      obtain ⟨rfl, index⟩ := knows
      simp only [ShmProcesses.consume, point] at fires
      rw [ShmLog.record, point]
      split at fires
      next =>
        cases fires
        exact inv.local_ rfl inv.producer index
      next differ =>
        cases fires
        refine inv.local_ rfl inv.producer ⟨index, ?_⟩
        exact fun same => differ (BitVec.toNat_inj.mp same)
  | popLoad =>
      rw [point] at knows
      rw [ShmProcesses.consume, point] at fires
      cases fires
      rw [ShmLog.record, point]
      exact inv.local_ rfl inv.producer ⟨rfl, knows⟩
  | popStore loaded =>
      rw [point] at knows
      obtain ⟨rfl, index, differ⟩ := knows
      rw [ShmProcesses.consume, point] at fires
      cases fires
      rw [ShmLog.record, point]
      obtain ⟨headidx, tailidx, cells⟩ :=
        ShmFifo.store_tail (m := s.words) (ShmFifo.tailidx s.words + 1)
      have number := ShmFifo.toNat_succ (i := ShmFifo.tailidx s.words) (by omega)
      have slot : tailSlot size (Function.update s.words 1 (ShmFifo.tailidx s.words + 1))
          = Ring.next (size - 3) (ShmFifo.tailidx s.words).toNat := by
        rw [tailSlot, tailidx, number]
        rfl
      refine ⟨?_, ?_, ?_, ?_⟩
      · rw [headidx]
        exact inv.head_lt
      · refine inv.producer.congr headidx cells ?_
        intro _ same
        rw [headidx, slot] at same
        exact differ (ringNext_injective inv.head_lt index same).symm
      · change (ShmFifo.tailidx _).toNat ≤ size - 3
        rw [tailidx, number]
        exact index
      · have order := inv.order
        rw [stored, tailSlot_of_lt index, Ring.stored_pop index inv.head_lt differ] at order
        change (log.consumed ++ [_]) ++ stored size _ = log.accepted
        rw [stored, slot, cells, headidx, List.append_assoc]
        exact order
  | popTest =>
      rw [point] at knows
      simp only [ShmProcesses.consume, point] at fires
      rw [ShmLog.record, point]
      have compare : ShmFifo.tailidx s.words ≥ ShmFifo.slots size
          ↔ size - 3 ≤ (ShmFifo.tailidx s.words).toNat := by
        rw [ge_iff_le, BitVec.le_def, ShmFifo.toNat_slots large small]
      split at fires
      next past =>
        cases fires
        exact inv.local_ rfl inv.producer (Nat.le_antisymm knows (compare.mp past))
      next short =>
        cases fires
        exact inv.local_ rfl inv.producer (Nat.lt_of_not_le (mt compare.mpr short))
  | popFold =>
      rw [point] at knows
      rw [ShmProcesses.consume, point] at fires
      cases fires
      rw [ShmLog.record, point]
      obtain ⟨headidx, tailidx, cells⟩ := ShmFifo.store_tail (m := s.words) 0
      have slot : tailSlot size (Function.update s.words 1 0) = tailSlot size s.words := by
        have whole : ¬(ShmFifo.tailidx s.words).toNat < size - 3 := Nat.not_lt_of_le (Nat.le_of_eq knows.symm)
        rw [tailSlot, tailSlot, if_neg whole, tailidx]
        split <;> rfl
      refine ⟨?_, ?_, ?_, ?_⟩
      · rw [headidx]
        exact inv.head_lt
      · refine inv.producer.congr headidx cells ?_
        rw [ShmFifo.Room, ShmFifo.Room, headidx, slot]
        exact id
      · change (ShmFifo.tailidx _).toNat < size - 3
        rw [tailidx]
        exact Nat.sub_pos_of_lt (Nat.lt_of_lt_of_le (by decide) large)
      · rw [stored_congr large inv.head_lt headidx slot (fun i _ => by rw [cells])]
        exact inv.order

include large small in
/-- Every step keeps the invariant. -/
theorem Inv.step {e : ShmStep} (inv : s.Inv size log) (checks : s.ChecksIndex size e)
    (fires : s.step size e = some s')
    : s'.Inv size (log.record s e) := by
  cases e with
  | produce => exact inv.produce large small checks fires
  | consume => exact inv.consume large small fires
  | callPush | callFull =>
      simp only [ShmProcesses.step, callProducer] at fires
      split at fires
      next =>
        cases fires
        exact inv.local_ rfl trivial inv.consumer
      next => cases fires
  | callPop | callEmpty | callTail =>
      have knows := inv.consumer
      simp only [ShmProcesses.step, callConsumer] at fires
      split at fires
      next idle =>
        rw [idle] at knows
        cases fires
        exact inv.local_ rfl inv.producer knows
      next => cases fires

/-- What the invariant says about consumed and stored values. -/
theorem Inv.safe (large : 5 ≤ size) (inv : s.Inv size log) : log.Safe size s := by
  have order := inv.order
  constructor
  case order => exact order
  case bounded =>
    have bound := Ring.count_lt (tailSlot_lt (m := s.words) large) inv.head_lt
    rw [← order, List.length_append, stored, Ring.length_stored]
    omega
  case oldest =>
    intro loaded v rest reads some
    have knows := inv.consumer
    rw [reads] at knows
    obtain ⟨rfl, index⟩ := knows
    have differ : (ShmFifo.tailidx s.words).toNat ≠ (ShmFifo.headidx s.words).toNat := by
      intro same
      rw [stored, tailSlot_of_lt index, (Ring.stored_eq_nil index).mpr same] at some
      cases some
    rw [stored, tailSlot_of_lt index, Ring.stored_pop index inv.head_lt differ] at some
    exact (List.cons.inj some).1

end Steps

end ShmProcesses

-----------------------------------------------------------------------------------------
-- Runs
-----------------------------------------------------------------------------------------

/-- One producer and one consumer are safe in every run in which no push before the last slot
looks at `tailidx` between the two stores of a pop there.
-/
theorem shmProcesses_safe {size : Nat} (large : 5 ≤ size) (small : size < 2 ^ 31)
    (words : ShmWords) (fresh : words 2 ≠ 0xc001d00d) (s : ShmProcesses) (log : ShmLog)
    (reach : Reach (traced (ShmProcesses.step size) ShmLog.record)
      (fun s e => s.1.ChecksIndex size e) (.start words, ⟨[], []⟩) (s, log))
    : log.Safe size s := by
  have inv : s.Inv size log := by
    refine reach.invariant (P := fun s => s.1.Inv size s.2) ?_ ?_
    · have stands := ShmFifo.stands_construct large fresh
      refine ⟨stands.head_lt, trivial, stands.tail_lt, ?_⟩
      have stored := stands.stored
      rw [← ShmProcesses.tailSlot_of_lt stands.tail_lt] at stored
      exact stored
    · intro s e s' inv checks fires
      obtain ⟨fired, recorded⟩ := traced_eq_some.mp fires
      rw [recorded]
      exact inv.step large small checks fired
  exact inv.safe large

/-- The loads and stores of a push that is accepted. -/
def pushSteps (v : BitVec 64) : List ShmStep :=
  [.callPush v, .produce, .produce, .produce, .produce, .produce]

/-- The loads and stores of a pop up to its first store. -/
def popSteps : List ShmStep := [.callPop, .consume, .consume, .consume, .consume]

/-- Two slots: both processes work at once, and the second push waits for the fold. -/
theorem shmProcesses_safe_fold
    : ∃ (s : ShmProcesses) (log : ShmLog),
        Reach (traced (ShmProcesses.step 5) ShmLog.record)
          (fun s e => s.1.ChecksIndex 5 e) (.start (fun _ => 0), ⟨[], []⟩) (s, log)
        ∧ log.accepted = [1, 2, 3] ∧ log.consumed = [1, 2] ∧ log.Safe 5 s := by
  obtain ⟨⟨s, log⟩, run, seen⟩ := exec_reach_map (traced (ShmProcesses.step 5) ShmLog.record)
    (fun s e => s.1.ChecksIndex 5 e) (.start (fun _ => 0), ⟨[], []⟩)
    (pushSteps 1 ++ popSteps ++ [.consume] ++ pushSteps 2 ++ popSteps ++ pushSteps 3
      ++ [.consume, .consume])
    (fun s => (s.2.accepted, s.2.consumed)) ([1, 2, 3], [1, 2]) (by decide +kernel)
  simp only [Prod.mk.injEq] at seen
  exact ⟨s, log, run, seen.1, seen.2,
    shmProcesses_safe (by decide) (by decide) _ (by decide) s log run⟩

/-- Between the two stores of a pop at the last slot two pushes are accepted where one has
room, and after the fold the queue is empty: 3 and 4 are lost.
-/
theorem shmProcesses_loses
    : ¬∀ size, 5 ≤ size → size < 2 ^ 31 → ∀ words : ShmWords, words 2 ≠ 0xc001d00d →
        ∀ (s : ShmProcesses) (log : ShmLog),
          Reach (traced (ShmProcesses.step size) ShmLog.record) anyEvent
            (.start words, ⟨[], []⟩) (s, log) →
          log.Safe size s := by
  intro claim
  obtain ⟨⟨s, log⟩, run, seen⟩ := exec_reach_map (traced (ShmProcesses.step 5) ShmLog.record)
    anyEvent (.start (fun _ => 0), ⟨[], []⟩)
    (pushSteps 1 ++ popSteps ++ [.consume] ++ pushSteps 2 ++ popSteps ++ pushSteps 3
      ++ pushSteps 4 ++ [.consume, .consume])
    (fun s => (s.2.accepted, s.2.consumed, ShmProcesses.stored 5 s.1.words))
    ([1, 2, 3, 4], [1, 2], []) (by decide +kernel)
  simp only [Prod.mk.injEq] at seen
  have order := (claim 5 (by decide) (by decide) _ (by decide) s log run).order
  rw [seen.1, seen.2.1, seen.2.2] at order
  exact absurd order (by decide)

end BluespecPcie
