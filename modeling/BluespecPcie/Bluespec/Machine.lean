import Mathlib.Algebra.Order.Ring.Nat
import Mathlib.Tactic.Common

/-! Guarded-action machines: one event at a time, in any order the guards allow. -/

namespace Bluespec

variable {σ τ ε η : Type}

/-- States reached from `init` by events that are enabled (`step` gives a state) and that
satisfy `ok` in the state they fire in.
-/
inductive Reach (step : σ → ε → Option σ) (ok : σ → ε → Prop) (init : σ) : σ → Prop
  | refl : Reach step ok init init
  | tail {s s' : σ} {e : ε} (earlier : Reach step ok init s) (allowed : ok s e)
    (fires : step s e = some s')
    : Reach step ok init s'

/-- The condition that allows every event. -/
def anyEvent : σ → ε → Prop := fun _ _ => True

instance (s : σ) (e : ε) : Decidable (anyEvent s e) := isTrue trivial

/-- What holds initially and is kept by every allowed step holds wherever a run leads. -/
theorem Reach.invariant {step : σ → ε → Option σ} {ok : σ → ε → Prop} {init s : σ}
    {P : σ → Prop} (run : Reach step ok init s) (initial : P init)
    (preserved : ∀ {s e s'}, P s → ok s e → step s e = some s' → P s')
    : P s := by
  induction run with
  | refl => exact initial
  | tail _ allowed fires ih => exact preserved ih allowed fires

/-- A run under a stronger condition is a run under a weaker one. -/
theorem Reach.weaken {step : σ → ε → Option σ} {ok ok' : σ → ε → Prop} {init s : σ}
    (run : Reach step ok init s) (weaker : ∀ {s e}, ok s e → ok' s e)
    : Reach step ok' init s := by
  induction run with
  | refl => exact .refl
  | tail _ allowed fires ih => exact ih.tail (weaker allowed) fires

/-- A run under a condition is one under what the condition promises in the states it reaches;
induction on the run.
-/
theorem Reach.promise {step : σ → ε → Option σ} {ok ok' : σ → ε → Prop} {init s : σ}
    (run : Reach step ok init s)
    (promised : ∀ {s e}, Reach step ok init s → ok s e → ok' s e)
    : Reach step ok' init s := by
  induction run with
  | refl => exact .refl
  | tail earlier allowed fires ih => exact ih.tail (promised earlier allowed) fires

/-- Runs compose. -/
theorem Reach.trans {step : σ → ε → Option σ} {ok : σ → ε → Prop} {init mid s : σ}
    (first : Reach step ok init mid) (second : Reach step ok mid s)
    : Reach step ok init s := by
  induction second with
  | refl => exact first
  | tail _ allowed fires ih => exact ih.tail allowed fires

/-- The state after a list of events, if each is enabled where it is taken. -/
def exec (step : σ → ε → Option σ) : σ → List ε → Option σ
  | s, [] => some s
  | s, e :: rest =>
      match step s e with
      | none => none
      | some s' => exec step s' rest

/-- Schedules run one after the other; induction on the first. -/
theorem exec_append {step : σ → ε → Option σ} {s mid : σ} {es : List ε}
    (done : exec step s es = some mid) (later : List ε)
    : exec step s (es ++ later) = exec step mid later := by
  induction es generalizing s with
  | nil =>
      cases done
      rfl
  | cons e rest ih =>
      unfold exec at done
      split at done
      next => cases done
      next next fires =>
        rw [List.cons_append, exec, fires]
        exact ih done

/-- The machine that also refuses the events `ok` does not allow. -/
def guarded (step : σ → ε → Option σ) (ok : σ → ε → Prop) [∀ s e, Decidable (ok s e)]
    (s : σ) (e : ε) : Option σ :=
  if ok s e then step s e else none

/-- An executed schedule of allowed events is a run; induction on the schedule. -/
theorem exec_reach {step : σ → ε → Option σ} {ok : σ → ε → Prop} [∀ s e, Decidable (ok s e)]
    {s s' : σ} {es : List ε} (done : exec (guarded step ok) s es = some s')
    : Reach step ok s s' := by
  induction es generalizing s with
  | nil =>
      cases done
      exact .refl
  | cons e rest ih =>
      unfold exec at done
      split at done
      next blocked => cases done
      next mid fires =>
        unfold guarded at fires
        split at fires
        next allowed => exact ((Reach.refl).tail allowed fires).trans (ih done)
        next => cases fires

/-- What an executed schedule leaves observable is what some run leaves observable. -/
theorem exec_reach_map (step : σ → ε → Option σ) (ok : σ → ε → Prop)
    [∀ s e, Decidable (ok s e)] (s : σ) (es : List ε) (f : σ → τ) (v : τ)
    (done : (exec (guarded step ok) s es).map f = some v)
    : ∃ s', Reach step ok s s' ∧ f s' = v := by
  obtain ⟨s', ran, seen⟩ := Option.map_eq_some_iff.mp done
  exact ⟨s', exec_reach ran, seen⟩

/-- A machine that also keeps a history; `record` sees the state before the event. -/
def traced (step : σ → ε → Option σ) (record : σ → ε → η → η)
    (s : σ × η) (e : ε) : Option (σ × η) :=
  (step s.1 e).map (fun s' => (s', record s.1 e s.2))

/-- A traced step is a step of the machine together with its record. -/
theorem traced_eq_some {step : σ → ε → Option σ} {record : σ → ε → η → η}
    {s s' : σ × η} {e : ε}
    : traced step record s e = some s'
      ↔ step s.1 e = some s'.1 ∧ s'.2 = record s.1 e s.2 := by
  obtain ⟨s', h'⟩ := s'
  simp only [traced, Option.map_eq_some_iff, Prod.mk.injEq]
  constructor
  · rintro ⟨next, fires, rfl, rfl⟩
    exact ⟨fires, rfl⟩
  · rintro ⟨fires, rfl⟩
    exact ⟨s', fires, rfl, rfl⟩

/-- A run that keeps a history is a run that keeps what `f` retains of it; induction on it. -/
theorem Reach.forget {step : σ → ε → Option σ} {record : σ → ε → η → η}
    {r : σ → ε → τ → τ} {f : η → τ} {ok : σ × η → ε → Prop} {init state : σ × η}
    (same : ∀ s e h, f (record s e h) = r s e (f h))
    (run : Reach (traced step record) ok init state)
    : Reach (traced step r) anyEvent (init.1, f init.2) (state.1, f state.2) := by
  induction run with
  | refl => exact .refl
  | tail _ _ fires ih =>
      obtain ⟨fired, recorded⟩ := traced_eq_some.mp fires
      refine ih.tail trivial (traced_eq_some.mpr ⟨fired, ?_⟩)
      rw [recorded, same]

/-- What a run retains of its history, under a condition on what is retained; induction on it. -/
theorem Reach.retain {step : σ → ε → Option σ} {record : σ → ε → η → η}
    {r : σ → ε → τ → τ} {f : η → τ} {ok : σ × η → ε → Prop} {ok' : σ × τ → ε → Prop}
    {init state : σ × η} (same : ∀ s e h, f (record s e h) = r s e (f h))
    (weaker : ∀ s e h, ok (s, h) e → ok' (s, f h) e)
    (run : Reach (traced step record) ok init state)
    : Reach (traced step r) ok' (init.1, f init.2) (state.1, f state.2) := by
  induction run with
  | refl => exact .refl
  | tail _ allowed fires ih =>
      obtain ⟨fired, recorded⟩ := traced_eq_some.mp fires
      refine ih.tail (weaker _ _ _ allowed) (traced_eq_some.mpr ⟨fired, ?_⟩)
      rw [recorded, same]

/-- A schedule of events that are allowed anywhere is a run that keeps some history; induction
on the schedule.
-/
theorem exec_traced {step : σ → ε → Option σ} {record : σ → ε → η → η}
    {ok : σ × η → ε → Prop} {s s' : σ} {es : List ε}
    (allowed : ∀ e ∈ es, ∀ state, ok state e) (done : exec step s es = some s') (h : η)
    : ∃ h', Reach (traced step record) ok (s, h) (s', h') := by
  induction es generalizing s h with
  | nil =>
      cases done
      exact ⟨h, .refl⟩
  | cons e rest ih =>
      unfold exec at done
      split at done
      next blocked => cases done
      next mid fires =>
        obtain ⟨h', later⟩ := ih (fun other member => allowed other (by simp [member])) done
          (record s e h)
        exact ⟨h', ((Reach.refl).tail (allowed e (by simp) (s, h))
          (traced_eq_some.mpr ⟨fires, rfl⟩)).trans later⟩

end Bluespec
