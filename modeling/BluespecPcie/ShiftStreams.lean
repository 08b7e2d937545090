import BluespecPcie.Bluespec.Pipeline
import BluespecPcie.Shifter

/-! The shifters of Shifter.bsv over any stream of calls: what the pipelined ones return, and that
the byte shifters agree with the combinational ones.
-/

namespace BluespecPcie

open Bluespec

-----------------------------------------------------------------------------------------
-- The pipelined shifters
-----------------------------------------------------------------------------------------

namespace PipelineShifter

variable {width size : Nat}

/-- The methods and rules of a pipelined shifter; a call is a value with its shift amount. -/
def pipeline (width size : Nat) (shift : Nat → BitVec width → BitVec width)
    : Pipeline (PipelineShifter width size) (BitVec width × BitVec size) (BitVec width) Nat where
  init := init
  put s call := s.rotateByteBy call.1 call.2
  rule s i := doStage shift i s
  take := getVal

variable {shift : Nat → BitVec width → BitVec width} {s : PipelineShifter width size}

/-- Stage 0 of a drained pipeline is empty, and each stage behind an empty one. -/
theorem stage_empty_of_drained (drained : (pipeline width size shift).Drained s) {i : Nat}
    (within : i < size)
    : (s.stageFifos i).items = [] := by
  obtain ⟨rules, output⟩ := drained
  have none : s.outputFifo.items = [] := by
    by_contra some
    obtain ⟨v, rest, items⟩ := List.exists_cons_of_ne_nil some
    obtain ⟨outputFifo, taken, -⟩ := Fifo.deq_of_items items
    simp [pipeline, getVal, taken] at output
  induction i with
  | zero =>
      by_contra some
      obtain ⟨args, rest, items⟩ := List.exists_cons_of_ne_nil some
      obtain ⟨stage, taken, -⟩ := Fifo.deq_of_items items
      obtain ⟨outputFifo, put⟩ :=
        Fifo.enq_of_room (q := s.outputFifo) (by simp [none]) (stageValue shift 0 args)
      have blocked : doStage shift 0 s = Option.none := rules 0
      simp [doStage, within, taken, put] at blocked
  | succ i ih =>
      by_contra some
      obtain ⟨args, rest, items⟩ := List.exists_cons_of_ne_nil some
      obtain ⟨stage, taken, -⟩ := Fifo.deq_of_items items
      obtain ⟨next, put⟩ := Fifo.enq_of_room (q := s.stageFifos i)
        (by simp [ih (Nat.lt_of_succ_lt within)]) (stageValue shift (i + 1) args, args.2)
      have blocked : doStage shift (i + 1) s = Option.none := rules (i + 1)
      simp [doStage, within, taken, put] at blocked

/-- A drained pipeline has no results to return; induction on its stages. -/
theorem results_of_drained (drained : (pipeline width size shift).Drained s)
    : s.results shift = [] := by
  have output : s.outputFifo.items = [] := by
    by_contra some
    obtain ⟨v, rest, items⟩ := List.exists_cons_of_ne_nil some
    obtain ⟨outputFifo, taken, -⟩ := Fifo.deq_of_items items
    have blocked : s.getVal = Option.none := drained.2
    simp [getVal, taken] at blocked
  have below : ∀ n ≤ size, resultsBelow shift s n = [] := by
    intro n within
    induction n with
    | zero => exact output
    | succ n ih =>
        rw [resultsBelow, ih (Nat.le_of_succ_le within), stage_empty_of_drained drained within]
        rfl
  exact below size (Nat.le_refl size)

/-- With a shift that is additive in its amount, the pipeline returns each value shifted by its
whole amount.
-/
theorem pipeline_returns (stages : 0 < size) (zero : ∀ v, shift 0 v = v)
    (add : ∀ a b v, shift (a + b) v = shift a (shift b v))
    : (pipeline width size shift).Returns (fun call => shift call.2.toNat call.1) := by
  suffices carries
      : (pipeline width size shift).Carries (fun call => shift call.2.toNat call.1)
          (fun _ => True) (fun s => s.results shift) from carries.returns
  refine ⟨⟨trivial, results_init⟩, ?_, ?_, ?_, ?_⟩
  · intro s s' call _ fires
    refine ⟨trivial, ?_⟩
    rw [rotateByteBy_results stages fires, finish_eq zero add, Nat.mod_eq_of_lt call.2.isLt]
  · intro s s' i _ fires
    exact ⟨trivial, doStage_results fires⟩
  · intro s s' v _ fires
    exact ⟨trivial, getVal_results fires⟩
  · intro s _ drained
    exact results_of_drained drained

end PipelineShifter

/-- `val >> ((1<<i)*8)` in stage `i`. -/
def mkPipelineRightShifter (width size : Nat)
    : Pipeline (PipelineShifter width size) (BitVec width × BitVec size) (BitVec width) Nat :=
  PipelineShifter.pipeline width size (fun amount v => v >>> (amount * 8))

/-- `val << ((1<<i)*8)` in stage `i`. -/
def mkPipelineLeftShifter (width size : Nat)
    : Pipeline (PipelineShifter width size) (BitVec width × BitVec size) (BitVec width) Nat :=
  PipelineShifter.pipeline width size (fun amount v => v <<< (amount * 8))

/-- `val >> ((1<<i)*8)` in stage `i`, as the byte shifter has it. -/
def mkPipelineRightShifterBits (width size : Nat)
    : Pipeline (PipelineShifter width size) (BitVec width × BitVec size) (BitVec width) Nat :=
  PipelineShifter.pipeline width size (fun amount v => v >>> (amount * 8))

/-- `val << (1<<i)` in stage `i`. -/
def mkPipelineLeftShifterBits (width size : Nat)
    : Pipeline (PipelineShifter width size) (BitVec width × BitVec size) (BitVec width) Nat :=
  PipelineShifter.pipeline width size leftShiftBits

section Pipelined

variable {width size : Nat}

/-- Right by bytes. -/
theorem pipelineRight_returns (stages : 0 < size)
    : (mkPipelineRightShifter width size).Returns
        (fun call => call.1 >>> (8 * call.2.toNat)) := by
  have returns
      : (mkPipelineRightShifter width size).Returns
          (fun call => call.1 >>> (call.2.toNat * 8)) :=
    PipelineShifter.pipeline_returns stages (by simp) (by
      intro a b v
      rw [Nat.add_mul, Nat.add_comm, BitVec.shiftRight_add])
  simpa only [Nat.mul_comm 8] using returns

/-- Left by bytes. -/
theorem pipelineLeft_returns (stages : 0 < size)
    : (mkPipelineLeftShifter width size).Returns
        (fun call => call.1 <<< (8 * call.2.toNat)) := by
  have returns
      : (mkPipelineLeftShifter width size).Returns
          (fun call => call.1 <<< (call.2.toNat * 8)) :=
    PipelineShifter.pipeline_returns stages (by simp) (by
      intro a b v
      rw [Nat.add_mul, Nat.add_comm, BitVec.shiftLeft_add])
  simpa only [Nat.mul_comm 8] using returns

/-- Left by bits. -/
theorem pipelineLeftBits_returns (stages : 0 < size)
    : (mkPipelineLeftShifterBits width size).Returns
        (fun call => call.1 <<< call.2.toNat) :=
  PipelineShifter.pipeline_returns stages (by simp [leftShiftBits])
    (fun a b v => by simp only [leftShiftBits, Nat.add_comm a b, BitVec.shiftLeft_add])

end Pipelined

-----------------------------------------------------------------------------------------
-- The combinational shifters
-----------------------------------------------------------------------------------------

namespace CombinationalRightShifter

variable {width size : Nat}

/-- The oldest value with its shift amount. -/
def takeArgs (s : CombinationalRightShifter width size)
    : Option ((BitVec width × BitVec size) × CombinationalRightShifter width size) := do
  let (data, inputFifo) ← s.inputFifo.deq
  let (shft, inputFifo_sft) ← s.inputFifo_sft.deq
  return ((data, shft), { inputFifo, inputFifo_sft })

/-- The methods of a combinational shifter, which has no rules. -/
def pipeline (width size : Nat) (shifted : BitVec width → BitVec size → BitVec width)
    : Pipeline (CombinationalRightShifter width size) (BitVec width × BitVec size) (BitVec width)
        Empty where
  init := init
  put s call := s.rotateByteBy call.1 call.2
  rule _ i := i.elim
  take s := s.takeArgs.map (fun taken => (shifted taken.1.1 taken.1.2, taken.2))

/-- `getVal` shifts on the way out. -/
theorem getVal_eq (s : CombinationalRightShifter width size)
    : s.getVal = s.takeArgs.map (fun taken => (shifted taken.1.1 taken.1.2, taken.2)) := by
  unfold getVal takeArgs
  cases s.inputFifo.deq with
  | none => rfl
  | some data => cases s.inputFifo_sft.deq <;> rfl

/-- Values and amounts wait in pairs, so each value is shifted by its own amount. -/
theorem pipeline_returns (shifted : BitVec width → BitVec size → BitVec width)
    : (pipeline width size shifted).Returns (fun call => shifted call.1 call.2) := by
  suffices carries
      : (pipeline width size shifted).Carries (fun call => shifted call.1 call.2) Paired
          (fun s => List.zipWith shifted s.inputFifo.items s.inputFifo_sft.items)
    from carries.returns
  refine ⟨⟨rfl, rfl⟩, ?_, nofun, ?_, ?_⟩
  · intro s s' call paired fires
    refine ⟨(rotateByteBy_results paired fires).1, ?_⟩
    obtain ⟨inputFifo, put, fires⟩ := Option.bind_eq_some_iff.mp fires
    obtain ⟨inputFifo_sft, putShift, ⟨⟩⟩ := Option.bind_eq_some_iff.mp fires
    simp only [(Fifo.enq_eq_some.mp put).2, (Fifo.enq_eq_some.mp putShift).2]
    rw [List.zipWith_append paired]
    rfl
  · intro s s' v paired fires
    obtain ⟨⟨⟨data, shft⟩, next⟩, taken, fired⟩ := Option.map_eq_some_iff.mp fires
    obtain ⟨⟨_, inputFifo⟩, first, taken⟩ := Option.bind_eq_some_iff.mp taken
    obtain ⟨⟨_, inputFifo_sft⟩, firstShift, ⟨⟩⟩ := Option.bind_eq_some_iff.mp taken
    cases fired
    have items := Fifo.deq_eq_some.mp first
    have amounts := Fifo.deq_eq_some.mp firstShift
    constructor
    · simpa [Paired, items, amounts] using paired
    · simp [items, amounts]
  · intro s paired drained
    cases items : s.inputFifo.items with
    | nil => rfl
    | cons data rest =>
        cases amounts : s.inputFifo_sft.items with
        | nil => rfl
        | cons shft others =>
            obtain ⟨inputFifo, first, -⟩ := Fifo.deq_of_items items
            obtain ⟨inputFifo_sft, firstShift, -⟩ := Fifo.deq_of_items amounts
            have blocked := drained.2
            simp [pipeline, takeArgs, first, firstShift] at blocked

end CombinationalRightShifter

/-- `mkCombinationalRightShifter` with its methods. -/
def mkCombinationalRightShifter (width size : Nat)
    : Pipeline (CombinationalRightShifter width size) (BitVec width × BitVec size) (BitVec width)
        Empty where
  init := .init
  put s call := s.rotateByteBy call.1 call.2
  rule _ i := i.elim
  take := CombinationalRightShifter.getVal

/-- `mkCombinationalLeftShifter`: the same two queues, and `data << {shft, 3'b0}` on the way out. -/
def mkCombinationalLeftShifter (width size : Nat)
    : Pipeline (CombinationalRightShifter width size) (BitVec width × BitVec size) (BitVec width)
        Empty :=
  CombinationalRightShifter.pipeline width size (fun data shft => data <<< (shft ++ 0#3))

section Combinational

variable {width size : Nat}

/-- `{shft, 3'b0}` is eight times the amount. -/
theorem toNat_bytes (shft : BitVec size) : (shft ++ 0#3).toNat = 8 * shft.toNat := by
  rw [BitVec.toNat_append]
  simp [Nat.shiftLeft_eq, Nat.mul_comm]

/-- Right by bytes. -/
theorem combinationalRight_returns
    : (mkCombinationalRightShifter width size).Returns
        (fun call => call.1 >>> (8 * call.2.toNat)) := by
  have same
      : mkCombinationalRightShifter width size
        = CombinationalRightShifter.pipeline width size CombinationalRightShifter.shifted := by
    simp only [mkCombinationalRightShifter, CombinationalRightShifter.pipeline,
      ← CombinationalRightShifter.getVal_eq]
  have returns :=
    CombinationalRightShifter.pipeline_returns (@CombinationalRightShifter.shifted width size)
  rw [← same] at returns
  simpa only [CombinationalRightShifter.shifted, BitVec.ushiftRight_eq', toNat_bytes]
    using returns

/-- Left by bytes. -/
theorem combinationalLeft_returns
    : (mkCombinationalLeftShifter width size).Returns
        (fun call => call.1 <<< (8 * call.2.toNat)) := by
  have returns := CombinationalRightShifter.pipeline_returns
    (fun (data : BitVec width) (shft : BitVec size) => data <<< (shft ++ 0#3))
  simpa only [mkCombinationalLeftShifter, BitVec.shiftLeft_eq', toNat_bytes] using returns

end Combinational

-----------------------------------------------------------------------------------------
-- Byte shifters
-----------------------------------------------------------------------------------------

/-- A value of two bytes goes through two stages, shifted by three bytes. -/
def beyondWidth : List (PipelineEvent (BitVec 16 × BitVec 2) Nat) :=
  [.put (0xabcd, 1), .rule 1, .put (0xabcd, 3), .rule 0, .rule 1, .take, .rule 0, .take]

/-- What was put in and what was taken out, and whether stages and output are empty. -/
def seenResults (state : PipelineShifter 16 2 × PipelineLog (BitVec 16 × BitVec 2) (BitVec 16))
    : List (BitVec 16 × BitVec 2) × List (BitVec 16) :=
  (state.2.given, state.2.taken)

/-- Shifting right by eight times the amount is shifting by the amount for an amount of zero and
for a value without bits from the amount on.
-/
theorem shiftRight_bytes_eq_bits {width : Nat} (v : BitVec width) (n : Nat)
    : v >>> (8 * n) = v >>> n ↔ n = 0 ∨ v >>> n = 0 := by
  have more : v >>> (8 * n) = (v >>> n) >>> (7 * n) := by
    rw [← BitVec.shiftRight_add]
    congr 1
    omega
  rw [more]
  generalize v >>> n = x
  constructor
  · intro same
    by_contra neither
    obtain ⟨positive, some⟩ := not_or.mp neither
    have below : x.toNat / 2 ^ (7 * n) < x.toNat := by
      refine Nat.div_lt_self ?_ (Nat.one_lt_two_pow (by omega))
      exact Nat.pos_of_ne_zero (fun zero => some (BitVec.eq_of_toNat_eq zero))
    have equal := congrArg BitVec.toNat same
    rw [BitVec.toNat_ushiftRight, Nat.shiftRight_eq_div_pow] at equal
    omega
  · rintro (rfl | rfl)
    · simp
    · simp

end BluespecPcie
