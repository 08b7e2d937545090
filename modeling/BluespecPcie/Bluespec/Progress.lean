import BluespecPcie.Bluespec.Machine

/-! Machines that get done: work that is left, and rules that lower it. -/

namespace Bluespec

variable {σ ε : Type} {step : σ → ε → Option σ} {rule : σ → ε → Prop}

/-- A rule fires that leaves less work. -/
def Moves (step : σ → ε → Option σ) (rule : σ → ε → Prop) (work : σ → Nat) (s : σ) : Prop :=
  ∃ e s', rule s e ∧ step s e = some s' ∧ work s' < work s

/-- Where a rule always leaves less work until the goal is met, the rules lead to the goal;
induction on the work left.
-/
theorem reach_goal {K G : σ → Prop} (work : σ → Nat)
    (keeps : ∀ {s e s'}, K s → rule s e → step s e = some s' → K s')
    (moves : ∀ {s}, K s → G s ∨ Moves step rule work s) {s : σ} (start : K s)
    : ∃ s', Reach step rule s s' ∧ K s' ∧ G s' := by
  generalize total : work s = n
  induction n using Nat.strong_induction_on generalizing s with
  | _ n ih =>
      rcases moves start with met | ⟨e, mid, allowed, fires, less⟩
      case inl => exact ⟨s, .refl, start, met⟩
      case inr =>
        obtain ⟨s', rest, kept', met⟩ :=
          ih (work mid) (total ▸ less) (keeps start allowed fires) rfl
        exact ⟨s', ((Reach.refl).tail allowed fires).trans rest, kept', met⟩

end Bluespec
