import BluespecPcie.Bluespec.Fifo

/-! The pipelined shifters of Shifter.bsv: one stage per bit of the shift amount. -/

namespace BluespecPcie

open Bluespec

-----------------------------------------------------------------------------------------
-- The pipeline, for any shift that composes additively
-----------------------------------------------------------------------------------------

/-- A pipelined shifter for `width`-bit values with `size` stages. A stage holds the value
shifted so far with the whole shift amount; stage `i` applies bit `i` of the amount.
-/
structure PipelineShifter (width size : Nat) where
  stageFifos : Nat → Fifo (BitVec width × BitVec size) 2
  outputFifo : Fifo (BitVec width) 1

namespace PipelineShifter

variable {width size : Nat}

def init : PipelineShifter width size := ⟨fun _ => .empty, .empty⟩

/-- What stage `i` does to the value it holds. -/
def stageValue (shift : Nat → BitVec width → BitVec width) (i : Nat)
    (args : BitVec width × BitVec size) : BitVec width :=
  if args.2.getLsbD i then shift (2 ^ i) args.1 else args.1

/-- Rule `doStage` of stage `i`: pass the value on, to the output behind stage 0. -/
def doStage (shift : Nat → BitVec width → BitVec width) (i : Nat)
    (s : PipelineShifter width size) : Option (PipelineShifter width size) :=
  if i < size then do
    let (args, rest) ← (s.stageFifos i).deq
    let val := stageValue shift i args
    let stageFifos := Function.update s.stageFifos i rest
    match i with
    | 0 => do
        let outputFifo ← s.outputFifo.enq val
        return { stageFifos, outputFifo }
    | j + 1 => do
        let next ← (s.stageFifos j).enq (val, args.2)
        return { s with stageFifos := Function.update stageFifos j next }
  else none

/-- Method `rotateByteBy`: enter the pipeline at its highest stage. -/
def rotateByteBy (s : PipelineShifter width size) (v : BitVec width) (shift : BitVec size)
    : Option (PipelineShifter width size) := do
  let entered ← (s.stageFifos (size - 1)).enq (v, shift)
  return { s with stageFifos := Function.update s.stageFifos (size - 1) entered }

/-- Method `getVal`: take the oldest finished value. -/
def getVal (s : PipelineShifter width size)
    : Option (BitVec width × PipelineShifter width size) := do
  let (v, outputFifo) ← s.outputFifo.deq
  return (v, { s with outputFifo })

/-- What a value becomes in the stages below `i`. -/
def finish (shift : Nat → BitVec width → BitVec width)
    : Nat → BitVec width × BitVec size → BitVec width
  | 0, args => args.1
  | i + 1, args => finish shift i (stageValue shift i args, args.2)

/-- The values `getVal` will return, oldest first, from the output queue and stages below `n`.
-/
def resultsBelow (shift : Nat → BitVec width → BitVec width)
    (s : PipelineShifter width size) : Nat → List (BitVec width)
  | 0 => s.outputFifo.items
  | n + 1 => resultsBelow shift s n ++ (s.stageFifos n).items.map (finish shift (n + 1))

/-- The values `getVal` will return for what is in the pipeline, oldest first. -/
def results (shift : Nat → BitVec width → BitVec width)
    (s : PipelineShifter width size) : List (BitVec width) :=
  resultsBelow shift s size

section

variable {shift : Nat → BitVec width → BitVec width} {s s' : PipelineShifter width size}

@[simp] theorem results_init : (init : PipelineShifter width size).results shift = [] := by
  have below (n : Nat) : resultsBelow shift (init : PipelineShifter width size) n = [] := by
    induction n with
    | zero => rfl
    | succ n ih =>
        simp only [resultsBelow, ih, List.nil_append]
        rfl
  exact below size

/-- The part of the pipeline below `n` is not affected by a queue at or above `n`. -/
theorem resultsBelow_congr {n : Nat} (output : s'.outputFifo = s.outputFifo)
    (stages : ∀ i < n, s'.stageFifos i = s.stageFifos i)
    : resultsBelow shift s' n = resultsBelow shift s n := by
  induction n with
  | zero => simp only [resultsBelow, output]
  | succ n ih =>
      simp only [resultsBelow, stages n (Nat.lt_succ_self n),
        ih (fun i below => stages i (Nat.lt_succ_of_lt below))]

/-- A change that keeps the results below `n` keeps them further up, if no stage from `n`
on changes; induction on the distance.
-/
theorem resultsBelow_of_le {n m : Nat} (le : n ≤ m)
    (same : resultsBelow shift s' n = resultsBelow shift s n)
    (stages : ∀ i, n ≤ i → s'.stageFifos i = s.stageFifos i)
    : resultsBelow shift s' m = resultsBelow shift s m := by
  obtain ⟨distance, rfl⟩ := Nat.exists_eq_add_of_le le
  clear le
  induction distance with
  | zero => exact same
  | succ distance ih =>
      change resultsBelow shift s' (n + distance) ++ _ = resultsBelow shift s (n + distance) ++ _
      rw [ih]
      exact congrArg (fun queue : Fifo _ 2 => _ ++ queue.items.map _)
        (stages (n + distance) (Nat.le_add_right ..))

/-- A stage rule moves one value between neighbouring queues, so the results stay the same.
Witness: below the stage nothing changes, at the stage the head moves across the append.
-/
theorem doStage_results {i : Nat} (fires : doStage shift i s = some s')
    : s'.results shift = s.results shift := by
  unfold doStage at fires
  split at fires
  next within =>
    cases i with
    | zero =>
        simp only [Option.bind_eq_bind, Option.bind_eq_some_iff, Prod.exists,
          Fifo.deq_eq_some, Fifo.enq_eq_some, Option.pure_def, Option.some.injEq] at fires
        obtain ⟨v, amount, rest, taken, output, ⟨_, put⟩, rfl⟩ := fires
        refine resultsBelow_of_le (Nat.succ_le_of_lt within) ?_ ?_
        · simp [resultsBelow, put, taken, finish]
        · intro k above
          simp [Function.update_of_ne (show k ≠ 0 by omega)]
    | succ j =>
        simp only [Option.bind_eq_bind, Option.bind_eq_some_iff, Prod.exists,
          Fifo.deq_eq_some, Fifo.enq_eq_some, Option.pure_def, Option.some.injEq] at fires
        obtain ⟨v, amount, rest, taken, next, ⟨_, put⟩, rfl⟩ := fires
        refine resultsBelow_of_le (Nat.succ_le_of_lt within) ?_ ?_
        · let moved := Function.update (Function.update s.stageFifos (j + 1) rest) j next
          have below : resultsBelow shift { s with stageFifos := moved } j
              = resultsBelow shift s j := by
            refine resultsBelow_congr rfl ?_
            intro i lt
            simp [moved, Function.update_of_ne (show i ≠ j by omega),
              Function.update_of_ne (show i ≠ j + 1 by omega)]
          simp [resultsBelow, moved, below, put, taken, finish]
        · intro k above
          simp [Function.update_of_ne (show k ≠ j by omega),
            Function.update_of_ne (show k ≠ j + 1 by omega)]
  next => cases fires

/-- Entering the pipeline appends one result, the value shifted by all stages. -/
theorem rotateByteBy_results {v : BitVec width} {amount : BitVec size} (stages : 0 < size)
    (fires : s.rotateByteBy v amount = some s')
    : s'.results shift = s.results shift ++ [finish shift size (v, amount)] := by
  obtain ⟨top, rfl⟩ : ∃ top, size = top + 1 := ⟨size - 1, by omega⟩
  simp only [rotateByteBy, Option.bind_eq_bind, Option.bind_eq_some_iff, Fifo.enq_eq_some,
    Option.pure_def, Option.some.injEq, Nat.add_sub_cancel] at fires
  obtain ⟨entered, ⟨_, put⟩, rfl⟩ := fires
  let next := Function.update s.stageFifos top entered
  have below : resultsBelow shift { s with stageFifos := next } top
      = resultsBelow shift s top := by
    refine resultsBelow_congr rfl ?_
    intro i lt
    exact Function.update_of_ne (by omega) ..
  change resultsBelow shift { s with stageFifos := next } top ++ (next top).items.map _ = _
  rw [below]
  simp [next, results, resultsBelow, put]

/-- `getVal` returns the oldest result. -/
theorem getVal_results {v : BitVec width} (fires : s.getVal = some (v, s'))
    : s.results shift = v :: s'.results shift := by
  simp only [getVal, Option.bind_eq_bind, Option.bind_eq_some_iff, Prod.exists,
    Fifo.deq_eq_some, Option.pure_def, Option.some.injEq, Prod.mk.injEq] at fires
  obtain ⟨v, output, taken, rfl, rfl⟩ := fires
  have below (n : Nat) : resultsBelow shift s n
      = v :: resultsBelow shift { s with outputFifo := output } n := by
    induction n with
    | zero => exact taken
    | succ n ih => simp only [resultsBelow, ih, List.cons_append]
  exact below size

end

/-- With a shift that is additive in its amount, the pipeline shifts by the whole amount.
Witness: induction on the stages, each contributing one bit of the amount.
-/
theorem finish_eq {shift : Nat → BitVec width → BitVec width}
    (zero : ∀ v, shift 0 v = v)
    (add : ∀ a b v, shift (a + b) v = shift a (shift b v))
    (i : Nat) (v : BitVec width) (amount : BitVec size)
    : finish shift i (v, amount) = shift (amount.toNat % 2 ^ i) v := by
  induction i generalizing v with
  | zero => simp [finish, Nat.mod_one, zero]
  | succ i ih =>
      have bit : amount.toNat % 2 ^ (i + 1)
          = amount.toNat % 2 ^ i + (if amount.getLsbD i then 2 ^ i else 0) := by
        rw [Nat.mod_pow_succ, BitVec.getLsbD, Nat.testBit_eq_decide_div_mod_eq]
        rcases Nat.mod_two_eq_zero_or_one (amount.toNat / 2 ^ i) with even | odd
        · simp [even]
        · simp [odd]
      simp only [finish, ih, stageValue]
      rw [bit]
      split
      · rw [add]
      · simp

end PipelineShifter

-----------------------------------------------------------------------------------------
-- mkPipelineLeftShifterBits
-----------------------------------------------------------------------------------------

/-- `mkPipelineLeftShifterBits` shifts left by bits: stage `i` applies `val << (1<<i)`. -/
def leftShiftBits {width : Nat} (amount : Nat) (v : BitVec width) : BitVec width :=
  v <<< amount

/-- Through all stages, a value is shifted left by the amount given with it. -/
theorem finish_leftShiftBits {width size : Nat} (v : BitVec width) (amount : BitVec size)
    : PipelineShifter.finish leftShiftBits size (v, amount) = v <<< amount.toNat := by
  rw [PipelineShifter.finish_eq (by simp [leftShiftBits])
    (fun a b v => by simp only [leftShiftBits, Nat.add_comm a b, BitVec.shiftLeft_add])]
  rw [Nat.mod_eq_of_lt amount.isLt]
  rfl

-----------------------------------------------------------------------------------------
-- mkCombinationalRightShifter
-----------------------------------------------------------------------------------------

/-- `mkCombinationalRightShifter`: values and byte counts wait side by side, and the shift is
applied on the way out.
-/
structure CombinationalRightShifter (width size : Nat) where
  inputFifo : Fifo (BitVec width) 2
  inputFifo_sft : Fifo (BitVec size) 2

namespace CombinationalRightShifter

variable {width size : Nat}

def init : CombinationalRightShifter width size := ⟨.empty, .empty⟩

/-- Method `rotateByteBy`. -/
def rotateByteBy (s : CombinationalRightShifter width size) (v : BitVec width)
    (shift : BitVec size) : Option (CombinationalRightShifter width size) := do
  let inputFifo ← s.inputFifo.enq v
  let inputFifo_sft ← s.inputFifo_sft.enq shift
  return { inputFifo, inputFifo_sft }

/-- `data >> {shft, 3'b0}`. -/
def shifted (data : BitVec width) (shft : BitVec size) : BitVec width :=
  data >>> (shft ++ 0#3)

/-- Method `getVal`. -/
def getVal (s : CombinationalRightShifter width size)
    : Option (BitVec width × CombinationalRightShifter width size) := do
  let (data, inputFifo) ← s.inputFifo.deq
  let (shft, inputFifo_sft) ← s.inputFifo_sft.deq
  return (shifted data shft, { inputFifo, inputFifo_sft })

/-- The values `getVal` will return, oldest first. -/
def results (s : CombinationalRightShifter width size) : List (BitVec width) :=
  List.zipWith shifted s.inputFifo.items s.inputFifo_sft.items

/-- Values and byte counts are entered and taken in pairs. -/
def Paired (s : CombinationalRightShifter width size) : Prop :=
  s.inputFifo.items.length = s.inputFifo_sft.items.length

variable {s s' : CombinationalRightShifter width size}

/-- The empty shifter returns nothing. -/
@[simp] theorem results_init
    : (init : CombinationalRightShifter width size).results = [] := rfl

/-- Entering appends one result. -/
theorem rotateByteBy_results {v : BitVec width} {shift : BitVec size} (paired : s.Paired)
    (fires : s.rotateByteBy v shift = some s')
    : s'.Paired ∧ s'.results = s.results ++ [shifted v shift] := by
  simp only [rotateByteBy, Option.bind_eq_bind, Option.pure_def, Fifo.bind_enq_eq_some,
    Option.some.injEq] at fires
  obtain ⟨inputFifo, _, put, inputFifo_sft, _, putShift, rfl⟩ := fires
  constructor
  · simp only [Paired] at paired ⊢
    rw [put, putShift, List.length_append, List.length_append, paired]
    rfl
  · simp only [results, put, putShift]
    rw [List.zipWith_append paired]
    rfl

/-- `getVal` returns the oldest result. -/
theorem getVal_results {v : BitVec width} (paired : s.Paired)
    (fires : s.getVal = some (v, s'))
    : s'.Paired ∧ s.results = v :: s'.results := by
  simp only [getVal, Option.bind_eq_bind, Option.pure_def, Fifo.bind_deq_eq_some,
    Option.some.injEq, Prod.mk.injEq] at fires
  obtain ⟨data, inputFifo, taken, shft, inputFifo_sft, takenShift, rfl, rfl⟩ := fires
  constructor
  · simpa [Paired, taken, takenShift] using paired
  · simp [results, taken, takenShift]

end CombinationalRightShifter

end BluespecPcie
