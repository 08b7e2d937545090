import BluespecPcie.Bluespec.Machine

/-! Simulations: machines whose events another machine can follow. -/

namespace Bluespec

variable {σ τ ε η : Type} {step : σ → ε → Option σ} {step' : τ → ε → Option τ}
  {ok : σ → ε → Prop} {R : σ → τ → Prop}

/-- What an allowed event does in one machine, it does in the other, from states that are related
to states that are related.
-/
def Simulates (step : σ → ε → Option σ) (step' : τ → ε → Option τ) (ok : σ → ε → Prop)
    (R : σ → τ → Prop) : Prop :=
  ∀ ⦃s t e s'⦄, R s t → ok s e → step s e = some s' → ∃ t', step' t e = some t' ∧ R s' t'

/-- The other machine can follow a whole run; induction on the run. -/
theorem Simulates.reach {ok' : τ → ε → Prop} {init s : σ} {init' : τ}
    (simulates : Simulates step step' ok R) (allowed : ∀ {s t e}, R s t → ok s e → ok' t e)
    (start : R init init') (run : Reach step ok init s)
    : ∃ t, Reach step' ok' init' t ∧ R s t := by
  induction run with
  | refl => exact ⟨init', .refl, start⟩
  | tail _ may fires ih =>
      obtain ⟨t, run, related⟩ := ih
      obtain ⟨t', fires', related'⟩ := simulates related may fires
      exact ⟨t', run.tail (allowed related may) fires', related'⟩

/-- The other machine can take the same schedule; induction on the schedule. -/
theorem Simulates.exec {may : ε → Prop} {s s' : σ} {t : τ} {es : List ε}
    (simulates : Simulates step step' (fun _ e => may e) R) (related : R s t)
    (allowed : ∀ e ∈ es, may e) (done : Bluespec.exec step s es = some s')
    : ∃ t', Bluespec.exec step' t es = some t' ∧ R s' t' := by
  induction es generalizing s t with
  | nil =>
      cases done
      exact ⟨t, rfl, related⟩
  | cons e rest ih =>
      unfold Bluespec.exec at done
      split at done
      next => cases done
      next mid fires =>
        obtain ⟨mid', fires', related'⟩ := simulates related (allowed e List.mem_cons_self) fires
        obtain ⟨t', done', ends⟩ :=
          ih related' (fun e member => allowed e (List.mem_cons_of_mem _ member)) done
        refine ⟨t', ?_, ends⟩
        rw [Bluespec.exec, fires']
        exact done'

/-- Machines that record the same keep the same history. -/
theorem Simulates.traced {record : σ → ε → η → η} {record' : τ → ε → η → η}
    {ok' : σ × η → ε → Prop} (simulates : Simulates step step' ok R)
    (allowed : ∀ {state e}, ok' state e → ok state.1 e)
    (same : ∀ {s t} e h, R s t → record s e h = record' t e h)
    : Simulates (traced step record) (traced step' record') ok'
        (fun state state' => R state.1 state'.1 ∧ state.2 = state'.2) := by
  rintro ⟨s, h⟩ ⟨t, h'⟩ e ⟨s', h''⟩ ⟨related, rfl⟩ may fires
  obtain ⟨fires, recorded⟩ := traced_eq_some.mp fires
  obtain ⟨t', fires', related'⟩ := simulates related (allowed may) fires
  exact ⟨(t', record' t e h), traced_eq_some.mpr ⟨fires', rfl⟩, related',
    recorded.trans (same e h related)⟩

end Bluespec
