import Bzing.Data.Handler

/-!
# Runs that agree

Two runs agree when both fail or both return the same, in related states. What every operation
keeps, and every program that works through its handler alone, keeps too.
-/

namespace Handler

variable {Op σ τ ε α β : Type}

/-- Both fail, or both return the same and leave related states. -/
inductive Agrees (R : σ → τ → Prop) : Except ε (α × σ) → Except ε (α × τ) → Prop where
  | error (e e' : ε) : Agrees R (.error e) (.error e')
  | ok (a : α) {s : σ} {t : τ} (related : R s t) : Agrees R (.ok (a, s)) (.ok (a, t))

variable {R : σ → τ → Prop}

theorem Agrees.bind {x : Except ε (α × σ)} {y : Except ε (α × τ)} {σ' τ' : Type}
    {R' : σ' → τ' → Prop} {f : α × σ → Except ε (β × σ')} {g : α × τ → Except ε (β × τ')}
    (first : Agrees R x y) (rest : ∀ a s t, R s t → Agrees R' (f (a, s)) (g (a, t))) :
    Agrees R' (x >>= f) (y >>= g) := by
  cases first with
  | error e e' => exact .error e e'
  | ok a related => exact rest a _ _ related

theorem Agrees.map {x : Except ε (α × σ)} {y : Except ε (α × τ)} (agrees : Agrees R x y)
    (f : α → β) :
    Agrees R (x.map fun r => (f r.1, r.2)) (y.map fun r => (f r.1, r.2)) := by
  cases agrees with
  | error e e' => exact .error e e'
  | ok a related => exact .ok (f a) related

/-- A program under handlers that agree on what it performs. -/
theorem Scripted.agrees {P : Op → Prop} {p : Program Op ε α} (hp : Scripted P p)
    {h : Handler Op σ ε} {k : Handler Op τ ε} {s : σ} {t : τ}
    (performed : ∀ a ops, script p = .ok (a, ops) →
      Agrees R ((perform h ops).run s) ((perform k ops).run t)) :
    Agrees R ((p σ h).run s) ((p τ k).run t) := by
  cases written : script p with
  | ok r =>
    obtain ⟨-, same⟩ := hp.eq_of_script written
    rw [same, same, StateT.run_bind, StateT.run_bind]
    exact (performed r.1 r.2 written).bind fun _ _ _ related => .ok r.1 related
  | error e =>
    have fails : ∀ (σ : Type) (h : Handler Op σ ε) (s : σ), ∃ e, (p σ h).run s = .error e := by
      intro σ h s
      cases ran : (p σ h).run s with
      | error e => exact ⟨e, rfl⟩
      | ok r =>
        obtain ⟨ops, written', -⟩ := hp.run_ok ran
        rw [written] at written'
        cases written'
    obtain ⟨e1, left⟩ := fails σ h s
    obtain ⟨e2, right⟩ := fails τ k t
    rw [left, right]
    exact .error e1 e2

end Handler
