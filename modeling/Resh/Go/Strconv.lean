import Resh.Go.Bytes
import Mathlib.Tactic.IntervalCases

namespace Resh.Go

/-!
# Package `strconv`, base ten

`parseInt` follows `strconv.ParseInt(s, 10, 64)` with both of its results: the value, which is
clamped on overflow and `0` on bad text, and the error.  `formatInt` is `strconv.FormatInt`,
`strconv.AppendInt` being the same bytes at the end of a buffer.

* `Numeral s v` — the text `s` is a decimal numeral (one optional sign, at least one digit) for
  the integer `v`, of any size;
* `parseInt_eq_iff` — `parseInt` accepts exactly the numerals whose value is an `int64`;
* `parseInt_formatInt` — every `int64` is read back from its decimal text.
-/

/-- The `int64` range. -/
def InInt64 (v : ℤ) : Prop := -2 ^ 63 ≤ v ∧ v < 2 ^ 63

instance (v : ℤ) : Decidable (InInt64 v) := inferInstanceAs (Decidable (_ ∧ _))

/-- The largest `uint64`. -/
def maxUint64 : ℕ := 2 ^ 64 - 1

/-- `strconv.NumError.Err`: `ErrSyntax` or `ErrRange`. -/
inductive NumError where
  | syntax_
  | range
  deriving DecidableEq, Repr

def isDigit (c : UInt8) : Bool := decide (48 ≤ c.toNat ∧ c.toNat ≤ 57)

/-- The loop of `strconv.ParseUint(s, 10, 64)` with `n` read so far.  In base ten a letter or an
    underscore is a syntax error like every other byte that is no digit. -/
def parseUint : Bytes → ℕ → Except NumError ℕ
  | [], n => .ok n
  | c :: s, n =>
    if isDigit c then
      if n * 10 + (c.toNat - 48) > maxUint64 then .error .range
      else parseUint s (n * 10 + (c.toNat - 48))
    else .error .syntax_

/-- The sign in front of a numeral, and the rest. -/
def cutSign : Bytes → Bool × Bytes
  | [] => (false, [])
  | c :: s => if c = ch '+' then (false, s) else if c = ch '-' then (true, s) else (false, c :: s)

/-- `strconv.ParseInt(s, 10, 64)`. -/
def parseInt (s : Bytes) : ℤ × Option NumError :=
  let (neg, ds) := cutSign s
  if ds = [] then (0, some .syntax_)
  else match parseUint ds 0 with
    | .error .syntax_ => (0, some .syntax_)
    | .error .range => if neg then (-2 ^ 63, some .range) else (2 ^ 63 - 1, some .range)
    | .ok un =>
      if ¬ neg ∧ 2 ^ 63 ≤ un then (2 ^ 63 - 1, some .range)
      else if neg ∧ 2 ^ 63 < un then (-2 ^ 63, some .range)
      else (if neg then -(un : ℤ) else un, none)

/-- `strconv.Atoi`; an `int` has 64 bits. -/
def atoi (s : Bytes) : ℤ × Option NumError := parseInt s

/-- `strconv.FormatUint(n, base)`. -/
def formatUint (base n : ℕ) : Bytes := (Nat.toDigits base n).map ch

/-- `strconv.FormatInt(v, base)`. -/
def formatIntBase (base : ℕ) (v : ℤ) : Bytes :=
  if v < 0 then ch '-' :: formatUint base v.natAbs else formatUint base v.natAbs

/-- `strconv.FormatInt(v, 10)`. -/
def formatInt (v : ℤ) : Bytes := formatIntBase 10 v

/-! ### Digit strings -/

/-- The value of a digit string read after `n`. -/
def digitsVal (ds : Bytes) (n : ℕ) : ℕ := ds.foldl (fun n c => n * 10 + (c.toNat - 48)) n

/-- No digit, no change. -/
@[simp] theorem digitsVal_nil (n : ℕ) : digitsVal [] n = n := rfl

/-- One digit more: ten times the value so far, and the digit. -/
@[simp] theorem digitsVal_cons (c : UInt8) (ds : Bytes) (n : ℕ) :
    digitsVal (c :: ds) n = digitsVal ds (n * 10 + (c.toNat - 48)) := by
  rw [digitsVal, digitsVal, List.foldl_cons]

/-- The value of a numeral, part by part. -/
theorem digitsVal_append (ds es : Bytes) (n : ℕ) :
    digitsVal (ds ++ es) n = digitsVal es (digitsVal ds n) := by
  simp [digitsVal]

/-- Further digits do not make the value smaller. -/
theorem le_digitsVal (ds : Bytes) (n : ℕ) : n ≤ digitsVal ds n := by
  induction ds generalizing n with
  | nil => simp
  | cons c ds ih =>
    have h := ih (n * 10 + (c.toNat - 48))
    rw [digitsVal_cons]; omega

/-- On digits, `parseUint` is their value or a range error. -/
theorem parseUint_of_digits {ds : Bytes} (hd : ∀ c ∈ ds, isDigit c = true) {n : ℕ}
    (hn : n ≤ maxUint64) :
    parseUint ds n
      = if digitsVal ds n ≤ maxUint64 then .ok (digitsVal ds n) else .error .range := by
  induction ds generalizing n with
  | nil => simp [parseUint, hn]
  | cons c ds ih =>
    rw [parseUint, if_pos (hd c (by simp)), digitsVal_cons]
    by_cases h : n * 10 + (c.toNat - 48) > maxUint64
    · have hle := le_digitsVal ds (n * 10 + (c.toNat - 48))
      rw [if_pos h, if_neg (by omega)]
    · rw [if_neg h, ih (fun d hd' => hd d (by simp [hd'])) (by omega)]

/-- `parseUint` gives a value only for digits, and then theirs. -/
theorem parseUint_eq_ok {ds : Bytes} {n m : ℕ} (h : parseUint ds n = .ok m) :
    (∀ c ∈ ds, isDigit c = true) ∧ m = digitsVal ds n := by
  induction ds generalizing n with
  | nil =>
    rw [parseUint, Except.ok.injEq] at h
    exact ⟨by simp, h.symm⟩
  | cons c ds ih =>
    rw [parseUint] at h
    split at h
    · rename_i hc
      split at h
      · exact absurd h (by simp)
      · obtain ⟨hd, hm⟩ := ih h
        exact ⟨by simpa [hc] using hd, hm⟩
    · exact absurd h (by simp)

/-! ### Numerals -/

/-- The text `s` is a decimal numeral for `v`: an optional sign and at least one digit. -/
def Numeral (s : Bytes) (v : ℤ) : Prop :=
  (cutSign s).2 ≠ [] ∧ (∀ c ∈ (cutSign s).2, isDigit c = true) ∧
    v = if (cutSign s).1 then -(digitsVal (cutSign s).2 0 : ℤ) else digitsVal (cutSign s).2 0

instance (s : Bytes) (v : ℤ) : Decidable (Numeral s v) := inferInstanceAs (Decidable (_ ∧ _ ∧ _))

/-- The bytes of a numeral are digits and signs. -/
theorem Numeral.mem {s : Bytes} {v : ℤ} (h : Numeral s v) {c : UInt8} (hc : c ∈ s) :
    isDigit c = true ∨ c = ch '+' ∨ c = ch '-' := by
  obtain ⟨-, hd, -⟩ := h
  cases s with
  | nil => exact absurd hc (by simp)
  | cons b s =>
    simp only [cutSign] at hd
    by_cases h₁ : b = ch '+'
    · rw [if_pos h₁] at hd
      rcases List.mem_cons.mp hc with rfl | hc
      · exact Or.inr (Or.inl h₁)
      · exact Or.inl (hd c hc)
    · rw [if_neg h₁] at hd
      by_cases h₂ : b = ch '-'
      · rw [if_pos h₂] at hd
        rcases List.mem_cons.mp hc with rfl | hc
        · exact Or.inr (Or.inr h₂)
        · exact Or.inl (hd c hc)
      · rw [if_neg h₂] at hd
        exact Or.inl (hd c hc)

/-- A numeral has signs and digits only, in particular no CR. -/
theorem Numeral.not_mem_cr {s : Bytes} {v : ℤ} (h : Numeral s v) : (13 : UInt8) ∉ s := by
  intro hc
  rcases h.mem hc with h | h | h
  · exact absurd h (by decide)
  · exact absurd h (by decide)
  · exact absurd h (by decide)

/-- A text without CR holds no CR LF. -/
theorem noCrlf_of_not_mem_cr {s : Bytes} (h : (13 : UInt8) ∉ s) : NoCrlf s :=
  fun hi => h (hi.subset (by simp [crlf]))

/-- A numeral has no CR LF, so a header line ends behind it. -/
theorem Numeral.noCrlf {s : Bytes} {v : ℤ} (h : Numeral s v) : NoCrlf s :=
  noCrlf_of_not_mem_cr h.not_mem_cr

/-- **`ParseInt` accepts exactly the `int64` numerals.** -/
theorem parseInt_eq_iff (s : Bytes) (v : ℤ) :
    parseInt s = (v, none) ↔ Numeral s v ∧ InInt64 v := by
  obtain ⟨neg, ds, hsign⟩ : ∃ neg ds, cutSign s = (neg, ds) := ⟨_, _, rfl⟩
  simp only [parseInt, Numeral, InInt64, hsign]
  by_cases hnil : ds = []
  · simp [hnil]
  rw [if_neg hnil]
  cases hu : parseUint ds 0 with
  | error e =>
    -- Neither error can come from digits whose value is an `int64`.
    have hbad : ¬ ((∀ c ∈ ds, isDigit c = true) ∧ digitsVal ds 0 ≤ maxUint64) := by
      rintro ⟨hd, hle⟩
      rw [parseUint_of_digits hd (by decide), if_pos hle] at hu
      exact absurd hu (by simp)
    have hrhs : ¬ ((ds ≠ [] ∧ (∀ c ∈ ds, isDigit c = true) ∧
        v = if neg then -(digitsVal ds 0 : ℤ) else digitsVal ds 0) ∧ -2 ^ 63 ≤ v ∧ v < 2 ^ 63) := by
      rintro ⟨⟨-, hd, hv⟩, h₁, h₂⟩
      refine hbad ⟨hd, ?_⟩
      rw [maxUint64]
      cases neg <;> simp only [Bool.false_eq_true, if_false, if_true] at hv <;> omega
    cases e with
    | syntax_ => simpa using hrhs
    | range => cases neg <;> simpa using hrhs
  | ok un =>
    obtain ⟨hd, rfl⟩ := parseUint_eq_ok hu
    cases neg
    · by_cases hbig : 2 ^ 63 ≤ digitsVal ds 0
      · simp only [hbig, Bool.false_eq_true, not_false_eq_true, and_self, if_true, Prod.mk.injEq,
          reduceCtorEq, and_false, false_iff]
        rintro ⟨⟨-, -, hv⟩, -, h₂⟩
        simp only [if_false] at hv
        omega
      · simp only [hbig, Bool.false_eq_true, and_false, false_and,
          if_false, Prod.mk.injEq, and_true]
        constructor
        · rintro rfl; exact ⟨⟨hnil, hd, rfl⟩, by omega, by omega⟩
        · rintro ⟨⟨-, -, hv⟩, -, -⟩; exact hv.symm
    · by_cases hbig : 2 ^ 63 < digitsVal ds 0
      · simp only [hbig, not_true_eq_false, false_and, if_false, and_self, if_true, Prod.mk.injEq,
          reduceCtorEq, and_false, false_iff]
        rintro ⟨⟨-, -, hv⟩, h₁, -⟩
        omega
      · simp only [hbig, not_true_eq_false, false_and, and_false, if_false, if_true, Prod.mk.injEq,
          and_true]
        constructor
        · rintro rfl; exact ⟨⟨hnil, hd, rfl⟩, by omega, by omega⟩
        · rintro ⟨⟨-, -, hv⟩, -, -⟩; exact hv.symm

/-! ### Reading back what was written -/

/-- The decimal digits are the bytes from 48 on. -/
private theorem ch_digitChar_toNat {d : ℕ} (h : d < 10) : (ch d.digitChar).toNat = 48 + d := by
  interval_cases d <;> rfl

/-- Decimal text is digits, not empty, and has the value it was made from. -/
theorem formatUint_digits (n : ℕ) :
    formatUint 10 n ≠ [] ∧ (∀ c ∈ formatUint 10 n, isDigit c = true) ∧
      digitsVal (formatUint 10 n) 0 = n := by
  induction n using Nat.strong_induction_on with
  | _ n ih =>
    by_cases hn : n < 10
    · have hd := ch_digitChar_toNat hn
      simp only [formatUint, Nat.toDigits_of_lt_base hn, List.map_cons, List.map_nil]
      refine ⟨by simp, ?_, ?_⟩
      · intro c hc
        rw [List.mem_singleton] at hc
        subst hc
        simp only [isDigit, hd, decide_eq_true_eq]; omega
      · simp [hd]
    · obtain ⟨h₁, h₂, h₃⟩ := ih (n / 10) (by omega)
      have hd := ch_digitChar_toNat (Nat.mod_lt n (show 0 < 10 by omega))
      have heq : formatUint 10 n = formatUint 10 (n / 10) ++ [ch (n % 10).digitChar] := by
        simp [formatUint, Nat.toDigits_of_base_le (by omega : 1 < 10) (by omega : 10 ≤ n)]
      rw [heq]
      refine ⟨by simp, ?_, ?_⟩
      · intro c hc
        rcases List.mem_append.mp hc with hc | hc
        · exact h₂ c hc
        · rw [List.mem_singleton] at hc
          subst hc
          simp only [isDigit, hd, decide_eq_true_eq]; omega
      · rw [digitsVal_append, h₃, digitsVal_cons, digitsVal_nil, hd]
        omega

/-- Decimal text does not begin with a sign. -/
theorem cutSign_formatUint (n : ℕ) : cutSign (formatUint 10 n) = (false, formatUint 10 n) := by
  obtain ⟨h₁, h₂, -⟩ := formatUint_digits n
  cases hf : formatUint 10 n with
  | nil => exact absurd hf h₁
  | cons c s =>
    have hc := h₂ c (by rw [hf]; simp)
    have hp : c ≠ ch '+' := by rintro rfl; exact absurd hc (by decide)
    have hm : c ≠ ch '-' := by rintro rfl; exact absurd hc (by decide)
    rw [cutSign, if_neg hp, if_neg hm]

/-- `strconv.AppendUint` writes a numeral of its number. -/
theorem numeral_formatUint (n : ℕ) : Numeral (formatUint 10 n) n := by
  obtain ⟨h₁, h₂, h₃⟩ := formatUint_digits n
  rw [Numeral, cutSign_formatUint]
  exact ⟨h₁, h₂, by simp [h₃]⟩

/-- `strconv.AppendInt` writes a numeral of its number, with a minus in front of a negative one. -/
theorem numeral_formatInt (v : ℤ) : Numeral (formatInt v) v := by
  unfold formatInt formatIntBase
  by_cases hv : v < 0
  · obtain ⟨h₁, h₂, h₃⟩ := formatUint_digits v.natAbs
    have hs : cutSign (ch '-' :: formatUint 10 v.natAbs) = (true, formatUint 10 v.natAbs) := by
      rw [cutSign, if_neg (by decide), if_pos rfl]
    rw [if_pos hv]
    simp only [Numeral, hs, if_true, h₃]
    exact ⟨h₁, h₂, by omega⟩
  · rw [if_neg hv]
    have hn := numeral_formatUint v.natAbs
    rwa [Int.natAbs_of_nonneg (by omega)] at hn

/-- **Round trip.** Every `int64` is read back from its decimal text. -/
theorem parseInt_formatInt {v : ℤ} (h : InInt64 v) : parseInt (formatInt v) = (v, none) :=
  (parseInt_eq_iff _ _).mpr ⟨numeral_formatInt v, h⟩

example : parseInt (ascii "-0042") = (-42, none) := by decide

end Resh.Go
