import Mathlib.Data.List.Basic
import Mathlib.Tactic.Common

namespace Resh

/-!
# Incremental consumers

A consumer is called again and again on a growing buffer.  A call may rewrite the buffer, keeps
a state for the next call, and ends with a value, with an error, with a run-time panic, or with
the request for more input (`Ret.more`).

* `feed` — the calls after each of a list of reads, up to the first one that does not ask for
  more;
* `Resumable` — the two facts about single calls that make a consumer independent of the cuts:
  a call that asked for more is resumed by the next one as if the whole input had been there at
  once, and a call that did not is unchanged by longer input;
* `feed_spec` — a resumable consumer gives, for every list of reads, what one call gives.
-/

/-- What a call ends with. -/
inductive Ret (ε ρ : Type) where
  | ok (a : ρ)
  | more
  | fail (e : ε)
  | panic
  deriving DecidableEq, Repr

namespace Ret

variable {ε ρ τ : Type}

/-- Go on with the value; everything else ends the call. -/
def bind (r : Ret ε ρ) (f : ρ → Ret ε τ) : Ret ε τ :=
  match r with
  | ok a => f a
  | more => more
  | fail e => fail e
  | panic => panic

instance : Monad (Ret ε) where
  pure := ok
  bind := bind

/-- A value is handed on. -/
@[simp] theorem ok_bind (a : ρ) (f : ρ → Ret ε τ) : (ok a >>= f) = f a := rfl

/-- A call that asks for more input does not come to its second part. -/
@[simp] theorem more_bind (f : ρ → Ret ε τ) : ((more : Ret ε ρ) >>= f) = more := rfl

/-- A call that fails does not come to its second part. -/
@[simp] theorem fail_bind (e : ε) (f : ρ → Ret ε τ) : (fail e >>= f) = fail e := rfl

/-- A call that panics does not come to its second part. -/
@[simp] theorem panic_bind (f : ρ → Ret ε τ) : ((panic : Ret ε ρ) >>= f) = panic := rfl

/-- A call with two parts gives a value only through a value of the first. -/
theorem bind_eq_ok {r : Ret ε ρ} {f : ρ → Ret ε τ} {b : τ} :
    (r >>= f) = ok b ↔ ∃ a, r = ok a ∧ f a = ok b := by
  cases r with
  | ok a => simp
  | more => simp
  | fail e => simp
  | panic => simp

/-- A run-time check: the value of an access in range, a panic otherwise. -/
def ofOption (o : Option ρ) : Ret ε ρ :=
  match o with
  | some a => ok a
  | none => panic

/-- The access is in range. -/
@[simp] theorem ofOption_some (a : ρ) : (ofOption (some a) : Ret ε ρ) = ok a := rfl

end Ret

namespace Incremental

variable {σ α ε ρ : Type}

/-- The result of one call: the state and the buffer it leaves, and how it ended. -/
structure Call (σ α ε ρ : Type) where
  state : σ
  buf : List α
  ret : Ret ε ρ

/-- Call the consumer after each read, on the buffer the last call left with the new bytes
    behind it; stop at the first result other than `more`. -/
def feed (call : σ → List α → Call σ α ε ρ) : σ → List α → List (List α) → Call σ α ε ρ
  | s, b, [] => ⟨s, b, .more⟩
  | s, b, d :: ds =>
    let c := call s (b ++ d)
    match c.ret with
    | .more => feed call c.state c.buf ds
    | _ => c

/-- What a consumer has to keep from one call to the next. -/
structure Resumable (call : σ → List α → Call σ α ε ρ) (s₀ : σ) : Prop where
  /-- Without input the first call changes nothing and asks for more. -/
  start : call s₀ [] = ⟨s₀, [], .more⟩
  /-- A call that asked for more is continued by the next one. -/
  resume : ∀ p d s b, call s₀ p = ⟨s, b, .more⟩ → call s (b ++ d) = call s₀ (p ++ d)
  /-- A call that did not ask for more does not look behind its input. -/
  stable : ∀ p d, (call s₀ p).ret ≠ .more →
    call s₀ (p ++ d) = ⟨(call s₀ p).state, (call s₀ p).buf ++ d, (call s₀ p).ret⟩

variable {call : σ → List α → Call σ α ε ρ} {s₀ : σ}

/-- A read whose call asks for more is followed by the next read, from the state and buffer which
    the call has left. -/
theorem feed_cons_more {s : σ} {b d : List α} {ds : List (List α)} {c : Call σ α ε ρ}
    (h : call s (b ++ d) = c) (hm : c.ret = .more) :
    feed call s b (d :: ds) = feed call c.state c.buf ds := by
  simp only [feed, h, hm]

/-- Any other result ends the reads: the ones that are left are not fed to the consumer. -/
theorem feed_cons_stop {s : σ} {b d : List α} {ds : List (List α)} {c : Call σ α ε ρ}
    (h : call s (b ++ d) = c) (hm : c.ret ≠ .more) : feed call s b (d :: ds) = c := by
  simp only [feed, h]

/-- The induction behind `feed_spec`: the state and buffer kept so far stand for the input `p`. -/
private theorem feed_spec_aux (R : Resumable call s₀) (ds : List (List α)) (p : List α) (s : σ)
    (b : List α) (h : call s₀ p = ⟨s, b, .more⟩) :
    ((feed call s b ds).ret = .more → feed call s b ds = call s₀ (p ++ ds.flatten)) ∧
      ((feed call s b ds).ret ≠ .more → ∃ rest, ∀ t, call s₀ (p ++ ds.flatten ++ t)
        = ⟨(feed call s b ds).state, (feed call s b ds).buf ++ (rest ++ t),
            (feed call s b ds).ret⟩) := by
  induction ds generalizing p s b with
  | nil =>
    refine ⟨fun _ => by simp [feed, h], ?_⟩
    intro hm
    exact absurd rfl hm
  | cons d ds ih =>
    have hres := R.resume p d s b h
    by_cases hm : (call s₀ (p ++ d)).ret = .more
    · rw [feed_cons_more hres hm]
      have hcall : call s₀ (p ++ d) = ⟨(call s₀ (p ++ d)).state,
          (call s₀ (p ++ d)).buf, .more⟩ := by
        rw [← hm]
      have ih' := ih (p ++ d) _ _ hcall
      simpa only [List.flatten_cons, List.append_assoc] using ih'
    · rw [feed_cons_stop hres hm]
      refine ⟨fun h' => absurd h' hm, fun _ => ⟨ds.flatten, fun t => ?_⟩⟩
      have hst := R.stable (p ++ d) (ds.flatten ++ t) hm
      simpa only [List.flatten_cons, List.append_assoc] using hst

/-- **Independence of the cuts.** Reads that all end in `more` leave what one call on all of
    them leaves; and once a result is reached, one call on everything read, with any bytes
    behind it, gives the same state, buffer and result. -/
theorem feed_spec (R : Resumable call s₀) (ds : List (List α)) :
    ((feed call s₀ [] ds).ret = .more → feed call s₀ [] ds = call s₀ ds.flatten) ∧
      ((feed call s₀ [] ds).ret ≠ .more → ∃ rest, ∀ t, call s₀ (ds.flatten ++ t)
        = ⟨(feed call s₀ [] ds).state, (feed call s₀ [] ds).buf ++ (rest ++ t),
            (feed call s₀ [] ds).ret⟩) := by
  simpa using feed_spec_aux R ds [] s₀ [] R.start

/-- The induction behind `feed_eq_call`, with the state and buffer kept so far for the input `p`. -/
private theorem feed_eq_call_aux (R : Resumable call s₀) (ds : List (List α)) (p : List α) (s : σ)
    (b : List α) (h : call s₀ p = ⟨s, b, .more⟩) :
    ∃ q, q <+: ds.flatten ∧ feed call s b ds = call s₀ (p ++ q) := by
  induction ds generalizing p s b with
  | nil => exact ⟨[], List.nil_prefix, by rw [List.append_nil, h]; rfl⟩
  | cons d ds ih =>
    have hres := R.resume p d s b h
    by_cases hm : (call s₀ (p ++ d)).ret = .more
    · have hcall : call s₀ (p ++ d) = ⟨(call s₀ (p ++ d)).state,
          (call s₀ (p ++ d)).buf, .more⟩ := by
        rw [← hm]
      obtain ⟨q, hq, hfeed⟩ := ih (p ++ d) _ _ hcall
      refine ⟨d ++ q, ?_, ?_⟩
      · rw [List.flatten_cons]
        exact (List.prefix_append_right_inj d).mpr hq
      · rw [feed_cons_more hres hm, hfeed, List.append_assoc]
    · refine ⟨d, ?_, feed_cons_stop hres hm⟩
      rw [List.flatten_cons]
      exact List.prefix_append d _

/-- The reads end with one call on what was read up to there. -/
theorem feed_eq_call (R : Resumable call s₀) (ds : List (List α)) :
    ∃ p, p <+: ds.flatten ∧ feed call s₀ [] ds = call s₀ p :=
  feed_eq_call_aux R ds [] s₀ [] R.start

/-- In particular the result and the state are those of one call: only the buffer tells how much was
    read when it ended. -/
theorem feed_eq (R : Resumable call s₀) (ds : List (List α)) :
    (feed call s₀ [] ds).ret = (call s₀ ds.flatten).ret ∧
      (feed call s₀ [] ds).state = (call s₀ ds.flatten).state := by
  by_cases hm : (feed call s₀ [] ds).ret = .more
  · rw [(feed_spec R ds).1 hm]
    exact ⟨rfl, rfl⟩
  · obtain ⟨rest, h⟩ := (feed_spec R ds).2 hm
    have hcall := h []
    rw [List.append_nil] at hcall
    rw [hcall]
    exact ⟨rfl, rfl⟩

/-- The result by itself. -/
theorem feed_ret (R : Resumable call s₀) (ds : List (List α)) :
    (feed call s₀ [] ds).ret = (call s₀ ds.flatten).ret := (feed_eq R ds).1

/-- The state by itself. -/
theorem feed_state (R : Resumable call s₀) (ds : List (List α)) :
    (feed call s₀ [] ds).state = (call s₀ ds.flatten).state := (feed_eq R ds).2

end Incremental

end Resh
