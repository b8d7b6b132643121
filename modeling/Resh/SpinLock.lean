import Mathlib.Logic.Function.Basic
import Resh.Run

namespace Resh.SpinLock

/-!
# Critical sections under a spin lock

Threads share a state and a lock word.  Each thread has a program of operations; an operation is a
critical section, which takes the lock by compare-and-swap, works on the shared state and on a value
of its own in small steps, and stores zero into the lock word.  Between any two of these steps the
other threads may do theirs.

* `step` — one atomic action of one thread;
* `replay` — the operations as if each was one step;
* `Inv`, `run_inv` — in every interleaving, one thread at most is in its section, and the shared
  state is what the operations make of it one by one, in the order in which they took the lock;
* `program_order` — that order is the one of the program, for each thread.
-/

variable {σ ℓ ι κ : Type}

/-- One step on the shared state and the own value. -/
abbrev Micro (σ ℓ : Type) := σ × ℓ → σ × ℓ

/-- Steps, one after the other. -/
def exec (ms : List (Micro σ ℓ)) (x : σ × ℓ) : σ × ℓ := ms.foldl (fun x m => m x) x

/-- A section done in two parts: where it stops in between does not matter. -/
theorem exec_append (ms ms' : List (Micro σ ℓ)) (x : σ × ℓ) :
    exec (ms ++ ms') x = exec ms' (exec ms x) := by
  rw [exec, List.foldl_append]
  rfl

/-- The threads, with what they share. -/
structure State (σ ℓ ι κ : Type) where
  shared : σ
  lock : Bool
  own : ι → ℓ
  /-- the steps that are left of the section that the thread is in -/
  inside : ι → Option (List (Micro σ ℓ))
  /-- the operations that the thread has not begun -/
  todo : ι → List κ
  /-- the operations in the order in which they took the lock; nothing reads it -/
  order : List (ι × κ)

inductive Act (ι : Type) where
  /-- the next operation: a compare-and-swap on the lock word -/
  | enter (t : ι)
  | micro (t : ι)
  /-- the store of zero into the lock word -/
  | leave (t : ι)

section Step

variable [DecidableEq ι] (code : κ → List (Micro σ ℓ))

/-- One action; a compare-and-swap that fails changes nothing. -/
def step (s : State σ ℓ ι κ) : Act ι → Option (State σ ℓ ι κ)
  | .enter t =>
    match s.inside t, s.todo t with
    | none, k :: ks =>
      if s.lock then some s
      else some { s with
        lock := true
        inside := Function.update s.inside t (some (code k))
        todo := Function.update s.todo t ks
        order := s.order ++ [(t, k)] }
    | _, _ => none
  | .micro t =>
    match s.inside t with
    | some (m :: ms) => some { s with
        shared := (m (s.shared, s.own t)).1
        own := Function.update s.own t (m (s.shared, s.own t)).2
        inside := Function.update s.inside t (some ms) }
    | _ => none
  | .leave t =>
    match s.inside t with
    | some [] => some { s with lock := false, inside := Function.update s.inside t none }
    | _ => none

/-- One operation as one step. -/
def apply (x : σ × (ι → ℓ)) (p : ι × κ) : σ × (ι → ℓ) :=
  ((exec (code p.2) (x.1, x.2 p.1)).1, Function.update x.2 p.1 (exec (code p.2) (x.1, x.2 p.1)).2)

/-- The operations one by one. -/
def replay (x : σ × (ι → ℓ)) (ps : List (ι × κ)) : σ × (ι → ℓ) := ps.foldl (apply code) x

/-- One section more in the serial replay. -/
theorem replay_snoc (x : σ × (ι → ℓ)) (ps : List (ι × κ)) (p : ι × κ) :
    replay code x (ps ++ [p]) = apply code (replay code x ps) p := by
  rw [replay, List.foldl_append]
  rfl

end Step

/-! ### Every interleaving -/

/-- The threads before they begin. -/
def start (x : σ × (ι → ℓ)) (prog : ι → List κ) : State σ ℓ ι κ where
  shared := x.1
  lock := false
  own := x.2
  inside := fun _ => none
  todo := prog
  order := []

/-- **What holds between the steps.** -/
inductive Inv [DecidableEq ι] (code : κ → List (Micro σ ℓ)) (x : σ × (ι → ℓ)) (s : State σ ℓ ι κ) :
    Prop
  /-- nobody is in a section -/
  | free (lock : s.lock = false) (outside : ∀ t, s.inside t = none)
      (replayed : (s.shared, s.own) = replay code x s.order)
  /-- `t` has done `done` of its section, from where the others left it -/
  | held {t : ι} {k : κ} {before : List (ι × κ)} {done left : List (Micro σ ℓ)}
      (lock : s.lock = true) (order : s.order = before ++ [(t, k)]) (split : code k = done ++ left)
      (inside : s.inside t = some left) (outside : ∀ u, u ≠ t → s.inside u = none)
      (shared : (s.shared, s.own t) = exec done
        ((replay code x before).1, (replay code x before).2 t))
      (own : ∀ u, u ≠ t → s.own u = (replay code x before).2 u)

section Inv

variable [DecidableEq ι] {code : κ → List (Micro σ ℓ)} {x : σ × (ι → ℓ)} {s s' : State σ ℓ ι κ}

/-- Before the first step the lock is free and nothing has been replayed. -/
theorem inv_start (code : κ → List (Micro σ ℓ)) (x : σ × (ι → ℓ)) (prog : ι → List κ) :
    Inv code x (start x prog) := .free rfl (fun _ => rfl) rfl

/-- Who is in a section holds the lock. -/
theorem Inv.eq_of_inside (h : Inv code x s) {t u : ι} (ht : s.inside t ≠ none)
    (hu : s.inside u ≠ none) : t = u := by
  cases h with
  | free _ outside => exact absurd (outside t) ht
  | @held v k before done left _ _ _ _ outside =>
    have htv : t = v := by
      by_contra hne
      exact ht (outside t hne)
    have huv : u = v := by
      by_contra hne
      exact hu (outside u hne)
    exact htv.trans huv.symm

/-- Who takes a free lock is the only one inside, and its section goes to the end of the order. -/
theorem enter_inv (h : Inv code x s) {t : ι} {k : κ} {ks : List κ} (hlock : s.lock = false) :
    Inv code x { s with
      lock := true
      inside := Function.update s.inside t (some (code k))
      todo := Function.update s.todo t ks
      order := s.order ++ [(t, k)] } := by
  cases h with
  | held lock => exact absurd lock (by simp [hlock])
  | free _ outside replayed =>
    have hsplit : code k = [] ++ code k := rfl
    refine .held (t := t) rfl rfl hsplit (by simp) (fun u hu => ?_) ?_ (fun u hu => ?_)
    · simp only [Function.update_of_ne hu]
      exact outside u
    · rw [← replayed]
      rfl
    · rw [← replayed]

/-- A micro step of whoever is inside is a step of the section that the replay has last. -/
theorem micro_inv (h : Inv code x s) {t : ι} {m : Micro σ ℓ} {ms : List (Micro σ ℓ)}
    (hin : s.inside t = some (m :: ms)) :
    Inv code x { s with
      shared := (m (s.shared, s.own t)).1
      own := Function.update s.own t (m (s.shared, s.own t)).2
      inside := Function.update s.inside t (some ms) } := by
  cases h with
  | free _ outside => exact absurd (outside t) (by simp [hin])
  | @held v k before done left lock order split inside outside shared own =>
    obtain rfl : t = v := by
      by_contra hne
      rw [outside t hne] at hin
      cases hin
    rw [hin, Option.some.injEq] at inside
    have hsplit : code k = (done ++ [m]) ++ ms := by rw [split, ← inside, List.append_cons]
    refine .held lock order hsplit (by simp) (fun u hu => ?_) ?_ (fun u hu => ?_)
    · simp only [Function.update_of_ne hu]
      exact outside u hu
    · simp only [Function.update_self]
      rw [exec_append, ← shared]
      rfl
    · simp only [Function.update_of_ne hu]
      exact own u hu

/-- At the end of its section the replay has done all of it, so the lock can be free again. -/
theorem leave_inv (h : Inv code x s) {t : ι} (hin : s.inside t = some []) :
    Inv code x { s with lock := false, inside := Function.update s.inside t none } := by
  cases h with
  | free _ outside => exact absurd (outside t) (by simp [hin])
  | @held v k before done left lock order split inside outside shared own =>
    obtain rfl : t = v := by
      by_contra hne
      rw [outside t hne] at hin
      cases hin
    rw [hin, Option.some.injEq] at inside
    rw [← inside, List.append_nil] at split
    refine .free rfl (fun u => ?_) ?_
    · by_cases hu : u = t
      · simp only [hu, Function.update_self]
      · simp only [Function.update_of_ne hu]
        exact outside u hu
    · -- the whole section is one operation
      show (s.shared, s.own) = replay code x s.order
      rw [order, replay_snoc, apply, split, ← shared]
      refine Prod.ext rfl ?_
      funext u
      by_cases hu : u = t
      · simp only [hu, Function.update_self]
      · simp only [Function.update_of_ne hu]
        exact own u hu

/-- **One action.** -/
theorem step_inv (h : Inv code x s) {a : Act ι} (hstep : step code s a = some s') :
    Inv code x s' := by
  cases a with
  | enter t =>
    simp only [step] at hstep
    split at hstep
    · split at hstep
      · exact Option.some.inj hstep ▸ h
      · rename_i hlock
        exact Option.some.inj hstep ▸ enter_inv h (Bool.eq_false_iff.mpr hlock)
    · cases hstep
  | micro t =>
    simp only [step] at hstep
    split at hstep
    · rename_i hin
      exact Option.some.inj hstep ▸ micro_inv h hin
    · cases hstep
  | leave t =>
    simp only [step] at hstep
    split at hstep
    · rename_i hin
      exact Option.some.inj hstep ▸ leave_inv h hin
    · cases hstep

/-- **Every interleaving.** -/
theorem run_inv {prog : ι → List κ} {acts : List (Act ι)}
    (hr : run (step code) (start x prog) acts = some s) : Inv code x s :=
  run_induction (P := Inv code x) (fun _ _ _ h hstep => step_inv h hstep) (inv_start code x prog) hr

/-- The order is the one of the program, for each thread. -/
theorem program_order {prog : ι → List κ} {acts : List (Act ι)}
    (hr : run (step code) (start x prog) acts = some s) (t : ι) :
    ((s.order.filter (·.1 = t)).map Prod.snd) ++ s.todo t = prog t := by
  refine run_induction (P := fun s => (s.order.filter (·.1 = t)).map Prod.snd ++ s.todo t = prog t)
    (fun s a s' h hstep => ?_) rfl hr
  cases a with
  | enter u =>
    simp only [step] at hstep
    split at hstep
    · rename_i k ks _ htodo
      split at hstep
      · exact Option.some.inj hstep ▸ h
      · rw [← Option.some.inj hstep]
        simp only [List.filter_append, List.map_append]
        by_cases hu : u = t
        · subst hu
          rw [htodo] at h
          simpa using h
        · simpa [hu, Function.update_of_ne (Ne.symm hu)] using h
    · cases hstep
  | micro u =>
    simp only [step] at hstep
    split at hstep
    · exact Option.some.inj hstep ▸ h
    · cases hstep
  | leave u =>
    simp only [step] at hstep
    split at hstep
    · exact Option.some.inj hstep ▸ h
    · cases hstep

end Inv

end Resh.SpinLock
