import BluespecPcie.Bluespec.Machine

/-! Pipelines: what is taken out is a function of what was put in, in the order of the puts. -/

namespace Bluespec

/-- The actions of a module with one input and one output; `ρ` are the rules inside. -/
structure Pipeline (σ ι ο ρ : Type) where
  init : σ
  put : σ → ι → Option σ
  rule : σ → ρ → Option σ
  take : σ → Option (ο × σ)

/-- What can happen at a pipeline. -/
inductive PipelineEvent (ι ρ : Type) where
  | put (input : ι)
  | rule (rule : ρ)
  | take

/-- What was put in and what was taken out. -/
structure PipelineLog (ι ο : Type) where
  given : List ι := []
  taken : List ο := []

namespace Pipeline

variable {σ ι ο ρ : Type}

/-- One event. -/
def step (m : Pipeline σ ι ο ρ) (s : σ) : PipelineEvent ι ρ → Option σ
  | .put input => m.put s input
  | .rule rule => m.rule s rule
  | .take => (m.take s).map Prod.snd

/-- How an event extends the history. -/
def record (m : Pipeline σ ι ο ρ) (s : σ) (e : PipelineEvent ι ρ) (log : PipelineLog ι ο)
    : PipelineLog ι ο :=
  match e with
  | .put input => { log with given := log.given ++ [input] }
  | .rule _ => log
  | .take => { log with taken := log.taken ++ ((m.take s).map Prod.fst).toList }

/-- Neither a rule can fire nor can anything be taken out. -/
def Drained (m : Pipeline σ ι ο ρ) (s : σ) : Prop :=
  (∀ rule, m.rule s rule = none) ∧ m.take s = none

/-- A run from the initial state, in any order of puts, rules and takes. -/
def Runs (m : Pipeline σ ι ο ρ) (s : σ) (log : PipelineLog ι ο) : Prop :=
  Reach (traced m.step m.record) anyEvent (m.init, {}) (s, log)

/-- In every run, what is taken out is `f` of what was put in, in order, and all of it once the
pipeline is drained.
-/
def Returns (m : Pipeline σ ι ο ρ) (f : ι → ο) : Prop :=
  ∀ s log, m.Runs s log →
    log.taken <+: log.given.map f ∧ (m.Drained s → log.taken = log.given.map f)

/-- What the states of an invariant hold: a put appends its result, a rule moves results inside, a
take removes the oldest, and a drained pipeline holds none.
-/
structure Carries (m : Pipeline σ ι ο ρ) (f : ι → ο) (inv : σ → Prop) (held : σ → List ο)
    : Prop where
  init : inv m.init ∧ held m.init = []
  put : ∀ {s s' input}, inv s → m.put s input = some s' →
    inv s' ∧ held s' = held s ++ [f input]
  rule : ∀ {s s' rule}, inv s → m.rule s rule = some s' → inv s' ∧ held s' = held s
  take : ∀ {s s' d}, inv s → m.take s = some (d, s') → inv s' ∧ held s = d :: held s'
  drained : ∀ {s}, inv s → m.Drained s → held s = []

variable {m : Pipeline σ ι ο ρ} {f : ι → ο} {inv : σ → Prop} {held : σ → List ο}

/-- In every run, what was taken and what is held are the results of what was put in; induction on
the run.
-/
theorem Carries.held_of_runs (carries : m.Carries f inv held) {s : σ} {log : PipelineLog ι ο}
    (run : m.Runs s log)
    : inv s ∧ log.taken ++ held s = log.given.map f := by
  refine Reach.invariant (P := fun state => inv state.1 ∧
    state.2.taken ++ held state.1 = state.2.given.map f) run ?_ ?_
  · exact ⟨carries.init.1, by rw [carries.init.2]; rfl⟩
  · intro state e state' kept _ fires
    obtain ⟨holds, same⟩ := kept
    obtain ⟨fired, recorded⟩ := traced_eq_some.mp fires
    rw [recorded]
    cases e with
    | put input =>
        obtain ⟨holds', more⟩ := carries.put holds fired
        refine ⟨holds', ?_⟩
        change state.2.taken ++ held state'.1 = (state.2.given ++ [input]).map f
        rw [more, ← List.append_assoc, same, List.map_append]
        rfl
    | rule rule =>
        obtain ⟨holds', moved⟩ := carries.rule holds fired
        exact ⟨holds', moved ▸ same⟩
    | take =>
        obtain ⟨⟨d, next⟩, taken, after⟩ := Option.map_eq_some_iff.mp fired
        obtain ⟨holds', less⟩ := carries.take holds taken
        obtain rfl : next = state'.1 := after
        refine ⟨holds', ?_⟩
        change (state.2.taken ++ ((m.take state.1).map Prod.fst).toList) ++ held state'.1
          = state.2.given.map f
        rw [taken, ← same, less, List.append_assoc]
        rfl

/-- The account of what is held gives what the pipeline returns. -/
theorem Carries.returns (carries : m.Carries f inv held) : m.Returns f := by
  intro s log run
  obtain ⟨holds, same⟩ := carries.held_of_runs run
  refine ⟨⟨held s, same⟩, ?_⟩
  intro drained
  rw [← same, carries.drained holds drained, List.append_nil]

/-- Two pipelines return the same for the same inputs: what one has returned is behind or ahead of
what the other has returned, and once both are drained it is the same.
-/
def SameResults {σ' ρ' : Type} (m : Pipeline σ ι ο ρ) (m' : Pipeline σ' ι ο ρ') : Prop :=
  ∀ s log s' log', m.Runs s log → m'.Runs s' log' → log.given = log'.given →
    (log.taken <+: log'.taken ∨ log'.taken <+: log.taken)
    ∧ (m.Drained s → m'.Drained s' → log.taken = log'.taken)

/-- Two pipelines that return the same function of their inputs return the same. -/
theorem Returns.sameResults {σ' ρ' : Type} {m' : Pipeline σ' ι ο ρ'} (one : m.Returns f)
    (other : m'.Returns f)
    : m.SameResults m' := by
  intro s log s' log' run run' same
  obtain ⟨part, all⟩ := one s log run
  obtain ⟨part', all'⟩ := other s' log' run'
  rw [← same] at part' all'
  exact ⟨List.prefix_or_prefix_of_prefix part part',
    fun drained drained' => (all drained).trans (all' drained').symm⟩

end Pipeline

end Bluespec
