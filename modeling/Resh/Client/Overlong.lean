import Resh.Client.Element
import Mathlib.Logic.Relation

namespace Resh.Client

open Resh.Go

/-!
# Where the framing panics

`readElement` adds a length from the wire to an offset in `int`s.  Near `2 ^ 63` the sum wraps, the
comparison with the length of the input then passes, and the slice expression panics.  Nothing else
goes out of range, at any depth.

* `Calls inp rest` — `readElement inp` calls itself on `rest`;
* `Overlong rest` — the header of a bulk string whose end is not an `int`;
* `readElement_eq_panic` — it panics exactly where such a header is reached;
* `framing_in_range` — everywhere else it returns, with an element within the input or with an
  error.
-/

/-- `readElement inp` calls itself on `rest`: this is an element of an array, and all the elements
    in front of it were found. -/
def Calls (inp rest : Bytes) : Prop :=
  ∃ text t v j c, inp = ch '*' :: (text ++ crlf ++ t) ∧ Numeral text v ∧ InInt64 v ∧ j < v.toNat ∧
    readMany readElement inp j (text.length + 1 + 2) = .ok c ∧ rest = inp.drop c

/-- The calls inside each other. -/
def Reached : Bytes → Bytes → Prop := Relation.ReflTransGen Calls

/-- A bulk string whose end is not an `int`. -/
def Overlong (rest : Bytes) : Prop :=
  ∃ text t sz, rest = ch '$' :: (text ++ crlf ++ t) ∧ Numeral text sz ∧ InInt64 sz ∧ 0 ≤ sz ∧
    (2 ^ 63 : ℤ) ≤ text.length + 1 + 2 + sz + 2

theorem Calls.length_lt {inp rest : Bytes} (h : Calls inp rest) : rest.length < inp.length := by
  obtain ⟨text, t, v, j, c, rfl, -, -, -, hc, rfl⟩ := h
  have hle := readMany_le hc
  rw [List.length_drop, List.length_cons]
  omega

/-! ### The array loop -/

/-- The loop panics where one of its rounds does. -/
theorem readMany_eq_panic {inp : Bytes} {count c : ℕ} (hc : c ≤ inp.length) :
    readMany readElement inp count c = .panic ↔
      ∃ j < count, ∃ c', readMany readElement inp j c = .ok c' ∧
      readElement (inp.drop c') = .panic := by
  induction count generalizing c with
  | zero =>
    constructor
    · intro h
      cases h
    · rintro ⟨j, hj, -⟩
      exact absurd hj (by omega)
  | succ count ih =>
    -- nothing comes behind a first round without a value
    have hstuck : (∀ x, readElement (inp.drop c) ≠ .ok x) → readElement (inp.drop c) ≠ .panic →
        ¬ ∃ j < count + 1, ∃ c', readMany readElement inp j c = .ok c' ∧
          readElement (inp.drop c') = .panic := by
      rintro hok hpanic ⟨j, -, c', hc', hpanic'⟩
      cases j with
      | zero =>
        cases hc'
        exact hpanic hpanic'
      | succ j =>
        obtain ⟨-, x, hx, -⟩ := readMany_succ_ok.mp hc'
        exact hok x hx
    rw [readMany_succ readElement hc]
    cases hx : readElement (inp.drop c) with
    | ok x =>
      have hle := (readElement_le hx).2
      rw [List.length_drop] at hle
      rw [Ret.ok_bind, ih (by omega)]
      constructor
      · rintro ⟨j, hj, c', hc', hpanic⟩
        exact ⟨j + 1, by omega, c', readMany_succ_ok.mpr ⟨hc, x, hx, hc'⟩, hpanic⟩
      · rintro ⟨j, hj, c', hc', hpanic⟩
        cases j with
        | zero =>
          cases hc'
          rw [hx] at hpanic
          cases hpanic
        | succ j =>
          rw [readMany_succ readElement hc, hx] at hc'
          exact ⟨j, by omega, c', hc', hpanic⟩
    | panic => exact iff_of_true rfl ⟨0, by omega, c, rfl, hx⟩
    | more => exact iff_of_false (by simp) (hstuck (by simp [hx]) (by simp [hx]))
    | fail e => exact iff_of_false (by simp) (hstuck (by simp [hx]) (by simp [hx]))

/-! ### One call -/

section Step

variable {inp : Bytes}

/-- An overlong header panics. -/
theorem Overlong.readElement (h : Overlong inp) (hlen : inp.length < 2 ^ 63) :
    readElement inp = .panic := by
  obtain ⟨text, t, sz, rfl, hnum, hrange, hneg, hlarge⟩ := h
  have hidx := index?_header (b := ch '$') (by decide) hnum.noCrlf t
  have hsz := (lineNumber_header (b := ch '$') t).mpr ⟨hnum, hrange⟩
  rw [readElement_eq, elementStep_bulk _ hidx, hsz, Ret.ok_bind]
  apply readBulk_large hlen
  · simp only [List.length_cons, List.length_append, crlf_length]
    omega
  · exact hrange
  · exact hneg
  · push_cast
    omega

/-- A panic inside a call ends it. -/
theorem Calls.panic {rest : Bytes} (h : Calls inp rest) (hrest : Client.readElement rest = .panic) :
    Client.readElement inp = .panic := by
  obtain ⟨text, t, v, j, c, rfl, hnum, hrange, hj, hc, rfl⟩ := h
  have hidx := index?_header (b := ch '*') (by decide) hnum.noCrlf t
  have hv := (lineNumber_header (b := ch '*') t).mpr ⟨hnum, hrange⟩
  rw [readElement_eq, elementStep_array _ hidx, hv, Ret.ok_bind, readMany_eq_panic]
  · exact ⟨j, hj, c, hc, hrest⟩
  · simp only [List.length_cons, List.length_append, crlf_length]
    omega

/-- **What a panic comes from:** the header of the call itself, or a call inside it. -/
theorem panic_cases (h : readElement inp = .panic) :
    Overlong inp ∨ ∃ rest, Calls inp rest ∧ readElement rest = .panic := by
  cases readElement_shape inp with
  | waits ret =>
    rw [ret] at h
    cases h
  | fails ret =>
    rw [ret] at h
    cases h
  | line eq kind noCrlf ret =>
    rw [ret] at h
    cases h
  | @bulk text t sz eq number range ret =>
    rw [ret] at h
    left
    refine ⟨text, t, sz, eq, number, range, ?_⟩
    by_cases hneg : sz < 0
    · rw [readBulk] at h
      split at h
      · cases h
      · cases h
    · obtain ⟨k, rfl⟩ := Int.eq_ofNat_of_zero_le (not_lt.mp hneg)
      refine ⟨by omega, ?_⟩
      by_contra hsmall
      rw [readBulk_small (by omega)] at h
      split at h
      · split at h <;> cases h
      · cases h
  | @array text t v eq number range ret =>
    have hhead : text.length + 1 + 2 ≤ inp.length := by
      rw [eq]
      simp only [List.length_cons, List.length_append, crlf_length]
      omega
    rw [ret, readMany_eq_panic hhead] at h
    obtain ⟨j, hj, c, hc, hpanic⟩ := h
    exact .inr ⟨inp.drop c, ⟨text, t, v, j, c, eq, number, range, hj, hc, rfl⟩, hpanic⟩

end Step

/-! ### All calls -/

/-- **The framing panics exactly where it reaches an overlong header.** -/
theorem readElement_eq_panic {inp : Bytes} (hlen : inp.length < 2 ^ 63) :
    readElement inp = .panic ↔ ∃ rest, Reached inp rest ∧ Overlong rest := by
  constructor
  · intro h
    -- by induction on the length: the calls inside are on shorter inputs
    obtain ⟨m, hm⟩ : ∃ m, inp.length ≤ m := ⟨_, le_rfl⟩
    induction m generalizing inp with
    | zero =>
      rw [List.length_eq_zero_iff.mp (Nat.le_zero.mp hm)] at h
      cases h
    | succ m ih =>
      obtain hover | ⟨rest, hcall, hpanic⟩ := panic_cases h
      · exact ⟨inp, .refl, hover⟩
      · have hlt := hcall.length_lt
        obtain ⟨last, hreach, hover⟩ := ih (by omega) hpanic (by omega)
        exact ⟨last, .head hcall hreach, hover⟩
  · rintro ⟨rest, hreach, hover⟩
    induction hreach using Relation.ReflTransGen.head_induction_on with
    | refl => exact hover.readElement hlen
    | head hcall _ ih =>
      have hlt := hcall.length_lt
      exact hcall.panic (ih (by omega))

/-- **Range.**  The framing does not panic if and only if no overlong header is reached; an element
    that it finds is not empty and lies within the input. -/
theorem framing_in_range (inp : Bytes) (hlen : inp.length < 2 ^ 63) :
    (readElement inp ≠ .panic ↔ ∀ rest, Reached inp rest → ¬ Overlong rest) ∧
      ∀ n, readElement inp = .ok n → 0 < n ∧ n ≤ inp.length := by
  refine ⟨?_, fun n => readElement_le⟩
  rw [Ne, readElement_eq_panic hlen]
  push Not
  rfl

/-- A length that is announced and not there yet. -/
theorem framing_in_range_long :
    readElement (ascii "*1\r\n$9223372036854775000\r\n") = .more ∧
      ∀ rest, Reached (ascii "*1\r\n$9223372036854775000\r\n") rest → ¬ Overlong rest := by
  have hmore : readElement (ascii "*1\r\n$9223372036854775000\r\n") = .more := by decide +kernel
  have hrange := framing_in_range (ascii "*1\r\n$9223372036854775000\r\n") (by decide)
  refine ⟨hmore, hrange.1.mp ?_⟩
  rw [hmore]
  simp

/-- The largest `int` as a length: the end of the string wraps. -/
theorem framing_panics :
    readElement (ascii "$9223372036854775807\r\n") = .panic ∧
      readElement (ascii "*1\r\n$9223372036854775790\r\n") = .panic := by
  decide +kernel

end Resh.Client
