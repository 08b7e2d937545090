import BluespecPcie.Bluespec.Machine

/-! Demultiplexers: elements enqueued for a lane come out of that lane in their order. -/

namespace Bluespec

/-- The actions of a module that routes elements to lanes; `δ` are the destinations and `ρ` the
rules inside.
-/
structure Demux (σ α δ ρ : Type) where
  enq : σ → α → δ → Option σ
  rule : σ → ρ → Option σ
  get : σ → Nat → Option (α × σ)

/-- What can happen at a demultiplexer. -/
inductive DemuxEvent (α δ ρ : Type) where
  | enq (data : α) (dst : δ)
  | rule (rule : ρ)
  | get (k : Nat)

/-- What was enqueued, and what each lane gave. -/
structure DemuxLog (α δ : Type) where
  enqueued : List (α × δ)
  got : Nat → List α

namespace Demux

variable {σ α δ ρ : Type}

/-- One event. -/
def step (m : Demux σ α δ ρ) (s : σ) : DemuxEvent α δ ρ → Option σ
  | .enq data dst => m.enq s data dst
  | .rule rule => m.rule s rule
  | .get k => (m.get s k).map Prod.snd

/-- How an event extends the history. -/
def record (m : Demux σ α δ ρ) (s : σ) (e : DemuxEvent α δ ρ) (log : DemuxLog α δ)
    : DemuxLog α δ :=
  match e with
  | .enq data dst => { log with enqueued := log.enqueued ++ [(data, dst)] }
  | .rule _ => log
  | .get k =>
      { log with
        got := Function.update log.got k (log.got k ++ ((m.get s k).map Prod.fst).toList) }

/-- Destinations are lanes of `n`. -/
def InLanes (lane : δ → Nat) (n : Nat) (_ : σ × DemuxLog α δ) : DemuxEvent α δ ρ → Prop
  | .enq _ dst => lane dst < n
  | .rule _ => True
  | .get k => k < n

instance (lane : δ → Nat) (n : Nat) (s : σ × DemuxLog α δ) (e : DemuxEvent α δ ρ)
    : Decidable (InLanes lane n s e) := by
  cases e <;> unfold InLanes <;> infer_instance

/-- The elements for lane `k`. -/
def forLane (lane : δ → Nat) (k : Nat) (entries : List (α × δ)) : List α :=
  (entries.filter (fun entry => lane entry.2 = k)).map Prod.fst

/-- A further element. -/
theorem forLane_snoc (lane : δ → Nat) (k : Nat) (entries : List (α × δ)) (data : α) (dst : δ)
    : forLane lane k (entries ++ [(data, dst)])
      = if lane dst = k then forLane lane k entries ++ [data] else forLane lane k entries := by
  by_cases mine : lane dst = k
  · simp [forLane, mine]
  · simp [forLane, mine]

/-- The oldest element. -/
theorem forLane_cons (lane : δ → Nat) (k : Nat) (data : α) (dst : δ) (rest : List (α × δ))
    : forLane lane k ((data, dst) :: rest)
      = if lane dst = k then data :: forLane lane k rest else forLane lane k rest := by
  by_cases mine : lane dst = k
  · simp [forLane, mine]
  · simp [forLane, mine]

/-- The contents of the lanes in the states of an invariant: an enqueue appends to the lane of
its destination, a rule moves nothing between lanes, a get takes the oldest of its lane, and
when nothing but an enqueue can happen, the lanes are empty.
-/
structure Carries (m : Demux σ α δ ρ) (lane : δ → Nat) (n : Nat) (inv : σ → Prop)
    (held : σ → Nat → List α) : Prop where
  enq : ∀ {s s' data dst}, inv s → lane dst < n → m.enq s data dst = some s' →
    inv s' ∧ ∀ k < n, held s' k = if lane dst = k then held s k ++ [data] else held s k
  rule : ∀ {s s' rule}, inv s → m.rule s rule = some s' →
    inv s' ∧ ∀ k < n, held s' k = held s k
  get : ∀ {s s' i d}, inv s → i < n → m.get s i = some (d, s') →
    inv s' ∧ ∀ k < n, held s k = if i = k then d :: held s' k else held s' k
  quiet : ∀ {s}, inv s → (∀ rule, m.rule s rule = none) → (∀ k < n, m.get s k = none) →
    ∀ k < n, held s k = []

/-- What came out of a lane and what it holds is what was enqueued for it. -/
structure Delivers (lane : δ → Nat) (n : Nat) (inv : σ → Prop) (held : σ → Nat → List α)
    (s : σ) (log : DemuxLog α δ) : Prop where
  inv : inv s
  exact_ : ∀ k < n, log.got k ++ held s k = forLane lane k log.enqueued

variable {m : Demux σ α δ ρ} {lane : δ → Nat} {n : Nat} {inv : σ → Prop}
  {held : σ → Nat → List α}

/-- Every event keeps the account. -/
theorem Delivers.step {s s' : σ} {log : DemuxLog α δ} {e : DemuxEvent α δ ρ}
    (carries : m.Carries lane n inv held) (delivers : Delivers lane n inv held s log)
    (allowed : InLanes lane n (s, log) e) (fires : m.step s e = some s')
    : Delivers lane n inv held s' (m.record s e log) := by
  obtain ⟨holds, same⟩ := delivers
  cases e with
  | enq data dst =>
      obtain ⟨holds', held'⟩ := carries.enq holds allowed fires
      refine ⟨holds', ?_⟩
      intro k within
      change log.got k ++ held s' k = forLane lane k (log.enqueued ++ [(data, dst)])
      rw [held' k within, forLane_snoc, ← same k within]
      split
      · rw [List.append_assoc]
      · rfl
  | rule rule =>
      obtain ⟨holds', held'⟩ := carries.rule holds fires
      refine ⟨holds', ?_⟩
      intro k within
      change log.got k ++ held s' k = forLane lane k log.enqueued
      rw [held' k within, same k within]
  | get i =>
      obtain ⟨⟨d, next⟩, taken, rfl⟩ := Option.map_eq_some_iff.mp fires
      obtain ⟨holds', held'⟩ := carries.get holds allowed taken
      refine ⟨holds', ?_⟩
      intro k within
      have before := same k within
      rw [held' k within] at before
      change Function.update log.got i (log.got i ++ ((m.get s i).map Prod.fst).toList) k
        ++ held next k = forLane lane k log.enqueued
      rw [taken, ← before]
      by_cases mine : i = k
      · subst mine
        rw [Function.update_self, if_pos rfl, List.append_assoc]
        rfl
      · rw [Function.update_of_ne (Ne.symm mine), if_neg mine]

/-- In every run each lane gives what was enqueued for it, in order; induction on the run. -/
theorem Carries.delivers {start s : σ} {log : DemuxLog α δ}
    (carries : m.Carries lane n inv held) (initial : inv start)
    (empty : ∀ k < n, held start k = [])
    (reach : Reach (traced m.step m.record) (InLanes lane n) (start, ⟨[], fun _ => []⟩)
      (s, log))
    : Delivers lane n inv held s log := by
  refine reach.invariant (P := fun s => Delivers lane n inv held s.1 s.2) ?_ ?_
  · refine ⟨initial, ?_⟩
    intro k within
    rw [empty k within]
    rfl
  · intro s e s' delivers allowed fires
    obtain ⟨fired, recorded⟩ := traced_eq_some.mp fires
    rw [recorded]
    exact delivers.step carries allowed fired

/-- Once neither a rule nor a get can fire, each lane has given everything. -/
theorem Delivers.complete {s : σ} {log : DemuxLog α δ} (carries : m.Carries lane n inv held)
    (delivers : Delivers lane n inv held s log) (rules : ∀ rule, m.rule s rule = none)
    (gets : ∀ k < n, m.get s k = none) {k : Nat} (within : k < n)
    : log.got k = forLane lane k log.enqueued := by
  rw [← delivers.exact_ k within, carries.quiet delivers.inv rules gets k within,
    List.append_nil]

end Demux

end Bluespec
