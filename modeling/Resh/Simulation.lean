import Resh.Run

namespace Resh

/-!
# Simulations between systems

A system simulates another one if each step of the other one is some steps of its own, none among
them possibly.  What is known of every state of the first system then carries over.

* `run_single`, `run_append`, `Meets.append` — runs of one step, and runs one behind the other;
* `simulation` — every run of the other system is a run of the first one.
-/

section Append

variable {σ α : Type} {step : σ → α → Option σ} {s s' : σ} {as bs : List α}

/-- A run in two parts. -/
theorem run_append (h : run step s as = some s') : run step s (as ++ bs) = run step s' bs := by
  induction as generalizing s with
  | nil =>
    rw [run, Option.some.injEq] at h
    rw [h, List.nil_append]
  | cons a as ih =>
    rw [List.cons_append, run]
    rw [run] at h
    cases hstep : step s a with
    | none => rw [hstep] at h; cases h
    | some t =>
      rw [hstep] at h
      exact ih h

/-- The condition holds along both parts. -/
theorem Meets.append {cond : σ → α → Prop} (h : run step s as = some s')
    (has : Meets step cond s as) (hbs : Meets step cond s' bs) : Meets step cond s (as ++ bs) := by
  induction as generalizing s with
  | nil =>
    rw [run, Option.some.injEq] at h
    rw [h, List.nil_append]
    exact hbs
  | cons a as ih =>
    refine ⟨has.1, ?_⟩
    rw [run] at h
    have hrest := has.2
    cases hstep : step s a with
    | none => trivial
    | some t =>
      rw [hstep] at h hrest
      exact ih h hrest

/-- A run of one step. -/
theorem run_single {a : α} (h : step s a = some s') : run step s [a] = some s' := by
  rw [run, h]
  rfl

/-- The condition on a run of one step. -/
theorem Meets.single {cond : σ → α → Prop} {a : α} (h : cond s a) : Meets step cond s [a] := by
  refine ⟨h, ?_⟩
  cases step s a with
  | none => trivial
  | some t => trivial

end Append

section Simulation

variable {σ α γ β : Type} {step : σ → α → Option σ} {fine : γ → β → Option γ}
  {cond : σ → α → Prop} {good : β → Prop} {P : σ → Prop} {R : γ → σ → Prop}

/-- **Simulation.**  `P` is an invariant of the runs that meet `cond`; a step of the finer system,
    from states that correspond, is such a run and ends in states that correspond. -/
theorem simulation (hP : ∀ s a s', P s → cond s a → step s a = some s' → P s')
    (hsim : ∀ c b c' s, R c s → P s → good b → fine c b = some c' →
      ∃ as s', run step s as = some s' ∧ Meets step cond s as ∧ R c' s')
    {c c' : γ} {s : σ} {bs : List β} (hR : R c s) (hs : P s) (hgood : ∀ b ∈ bs, good b)
    (hr : run fine c bs = some c') :
    ∃ as s', run step s as = some s' ∧ Meets step cond s as ∧ R c' s' ∧ P s' := by
  induction bs generalizing c s with
  | nil =>
    rw [run, Option.some.injEq] at hr
    exact ⟨[], s, rfl, trivial, hr ▸ hR, hs⟩
  | cons b bs ih =>
    rw [run] at hr
    cases hfine : fine c b with
    | none => rw [hfine] at hr; cases hr
    | some c₁ =>
      rw [hfine] at hr
      obtain ⟨as, s₁, hrun, hmeets, hR₁⟩ := hsim c b c₁ s hR hs (hgood b List.mem_cons_self) hfine
      have hs₁ : P s₁ := run_invariant hP hs hmeets hrun
      obtain ⟨as', s', hrun', hmeets', hend⟩ := ih hR₁ hs₁
        (fun b' hb' => hgood b' (List.mem_cons_of_mem b hb')) hr
      exact ⟨as ++ as', s', (run_append hrun).trans hrun', hmeets.append hrun hmeets', hend⟩

end Simulation

end Resh
