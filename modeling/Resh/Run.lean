import Mathlib.Data.List.Basic
import Mathlib.Tactic.Common

namespace Resh

/-!
# Runs of a system

A system is a step function: `step s a` is the state after the action `a`, or `none` where `a`
cannot happen in `s`.  Actions are the choices of whoever is not modelled, so a statement about
every list of actions is one about every behaviour of the environment.

* `run` — the state after a list of actions;
* `Meets` — every step of a run meets a condition on the action and the state it starts in;
* `run_invariant` — what the initial state has and every such step keeps, the final state has;
* `run_induction` — the same for what every step keeps.
-/

variable {σ α : Type} (step : σ → α → Option σ)

/-- The state after a list of actions. -/
def run : σ → List α → Option σ
  | s, [] => some s
  | s, a :: as =>
    match step s a with
    | none => none
    | some s' => run s' as

/-- Every step of the run from `s` meets `cond`. -/
def Meets (cond : σ → α → Prop) : σ → List α → Prop
  | _, [] => True
  | s, a :: as => cond s a ∧
    match step s a with
    | none => True
    | some s' => Meets cond s' as

instance Meets.decidable (cond : σ → α → Prop) [∀ s a, Decidable (cond s a)] (s : σ) (as : List α) :
    Decidable (Meets step cond s as) :=
  match as with
  | [] => isTrue trivial
  | a :: as =>
    match h : step s a with
    | none => decidable_of_iff (cond s a) (by simp [Meets, h])
    | some s' =>
      have := Meets.decidable cond s' as
      decidable_of_iff (cond s a ∧ Meets step cond s' as) (by simp [Meets, h])

variable {step}

/-- **Invariants.** -/
theorem run_invariant {P : σ → Prop} {cond : σ → α → Prop}
    (hstep : ∀ s a s', P s → cond s a → step s a = some s' → P s') {s s' : σ} {as : List α}
    (hs : P s) (hm : Meets step cond s as) (hr : run step s as = some s') : P s' := by
  induction as generalizing s with
  | nil =>
    rw [run, Option.some.injEq] at hr
    exact hr ▸ hs
  | cons a as ih =>
    rw [run] at hr
    rw [Meets] at hm
    cases h : step s a with
    | none => rw [h] at hr; cases hr
    | some t =>
      rw [h] at hr hm
      exact ih (hstep s a t hs hm.1 h) hm.2 hr

theorem meets_true (s : σ) (as : List α) : Meets step (fun _ _ => True) s as := by
  induction as generalizing s with
  | nil => trivial
  | cons a as ih =>
    refine ⟨trivial, ?_⟩
    cases step s a with
    | none => trivial
    | some s' => exact ih s'

/-- A run may be taken to meet its condition where that is assumed. -/
theorem Meets.of_imp {cond : σ → α → Prop} {b : Prop} {s : σ} {as : List α}
    (hm : b → Meets step cond s as) : Meets step (fun s a => b → cond s a) s as := by
  induction as generalizing s with
  | nil => trivial
  | cons a as ih =>
    refine ⟨fun hb => (hm hb).1, ?_⟩
    cases hs : step s a with
    | none => trivial
    | some s' =>
      refine ih fun hb => ?_
      have hrest := (hm hb).2
      rwa [hs] at hrest

/-- A condition on the actions alone can be added. -/
theorem Meets.and_mem {cond : σ → α → Prop} {q : α → Prop} {s : σ} {as : List α}
    (hm : Meets step cond s as) (hq : ∀ a ∈ as, q a) :
    Meets step (fun s a => cond s a ∧ q a) s as := by
  induction as generalizing s with
  | nil => trivial
  | cons a as ih =>
    obtain ⟨ha, hrest⟩ := hm
    refine ⟨⟨ha, hq a List.mem_cons_self⟩, ?_⟩
    cases hs : step s a with
    | none => trivial
    | some s' =>
      rw [hs] at hrest
      exact ih hrest fun b hb => hq b (List.mem_cons_of_mem a hb)

/-- **Unconditional invariants.** -/
theorem run_induction {P : σ → Prop} (hstep : ∀ s a s', P s → step s a = some s' → P s') {s s' : σ}
    {as : List α} (hs : P s) (hr : run step s as = some s') : P s' :=
  run_invariant (fun s a s' h _ => hstep s a s' h) hs (meets_true s as) hr

end Resh
