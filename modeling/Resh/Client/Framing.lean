import Resh.Client.Parser

namespace Resh.Client

open Resh.Go

/-!
# The framing of replies

What the event loop of the client relies on when it calls `readElement` on the bytes it has:

* `readElement_eq` — `readElement` is its own body, with itself on the elements of an array;
* `readElement_le` — an element it finds is not empty and lies within the input;
* `readElement_append` — once it does not ask for more, longer input does not change the answer.

Each is a fact about the body first, under the same fact for the shorter inputs of the recursive
calls, and then holds for every input by induction on its length.
-/

/-! ### The body -/

section Body

variable (f : Bytes → Ret RespErr ℕ) {b : UInt8} {l : Bytes} {i : ℕ}

/-- A `$` line is a header with a number, and the bulk string of that length follows. -/
theorem elementStep_bulk (h : index? crlf (ch '$' :: l) = some (i + 1)) :
    elementStep f (ch '$' :: l)
      = lineNumber (ch '$' :: l) (i + 1) >>= readBulk (ch '$' :: l) (i + 1) := by
  simp only [elementStep, h, if_true]

/-- A `+`, `-` or `:` line is an element by itself; its text is not looked at. -/
theorem elementStep_line (hb : b = ch '+' ∨ b = ch '-' ∨ b = ch ':')
    (h : index? crlf (b :: l) = some (i + 1)) : elementStep f (b :: l) = .ok (i + 1 + 2) := by
  have hd : b ≠ ch '$' := by rcases hb with rfl | rfl | rfl <;> decide
  simp only [elementStep, h, if_neg hd, if_pos hb]

/-- A `*` line is a header with a number, and that many elements follow. -/
theorem elementStep_array (h : index? crlf (ch '*' :: l) = some (i + 1)) :
    elementStep f (ch '*' :: l) = lineNumber (ch '*' :: l) (i + 1) >>= fun count =>
      readMany f (ch '*' :: l) count.toNat (i + 1 + 2) := by
  have hd : ch '*' ≠ ch '$' := by decide
  have hl : ¬ (ch '*' = ch '+' ∨ ch '*' = ch '-' ∨ ch '*' = ch ':') := by decide
  simp only [elementStep, h, if_neg hd, if_neg hl, if_true]

/-- Any other first byte is an error, which names the byte. -/
theorem elementStep_other (hb : b ≠ ch '$' ∧ b ≠ ch '+' ∧ b ≠ ch '-' ∧ b ≠ ch ':' ∧ b ≠ ch '*') :
    elementStep f (b :: l) = .fail (.firstByte b) := by
  obtain ⟨h₁, h₂, h₃, h₄, h₅⟩ := hb
  simp only [elementStep, h₁, h₂, h₃, h₄, h₅, if_false, or_self]

/-- Without a line end there is nothing to be found in a line. -/
theorem elementStep_more (hb : ¬ (b ≠ ch '$' ∧ b ≠ ch '+' ∧ b ≠ ch '-' ∧ b ≠ ch ':' ∧ b ≠ ch '*'))
    (h : ∀ i, index? crlf (b :: l) ≠ some (i + 1)) : elementStep f (b :: l) = .more := by
  unfold elementStep
  cases hidx : index? crlf (b :: l) with
  | none => grind
  | some j =>
    cases j with
    | zero => grind
    | succ i => exact absurd hidx (h i)

end Body

/-- **What the body can do.** It waits; or it fails at the first byte; or it goes by the first line
    end, which is the same in every longer input. -/
theorem elementStep_cases (inp : Bytes) :
    (∀ f, elementStep f inp = .more) ∨
    (∃ b, ∀ f t, elementStep f (inp ++ t) = .fail (.firstByte b)) ∨
    ∃ i, index? crlf inp = some (i + 1) ∧
      ((∀ f t, elementStep f (inp ++ t) = .ok (i + 1 + 2)) ∨
        (∀ f t, elementStep f (inp ++ t)
          = lineNumber (inp ++ t) (i + 1) >>= readBulk (inp ++ t) (i + 1)) ∨
        ∀ f t, elementStep f (inp ++ t) = lineNumber (inp ++ t) (i + 1) >>= fun count =>
          readMany f (inp ++ t) count.toNat (i + 1 + 2)) := by
  cases inp with
  | nil => exact .inl fun f => rfl
  | cons b l =>
    by_cases hbad : b ≠ ch '$' ∧ b ≠ ch '+' ∧ b ≠ ch '-' ∧ b ≠ ch ':' ∧ b ≠ ch '*'
    · exact .inr (.inl ⟨b, fun f t => elementStep_other f hbad⟩)
    · by_cases hidx : ∃ i, index? crlf (b :: l) = some (i + 1)
      · obtain ⟨i, hidx⟩ := hidx
        have happ : ∀ t, index? crlf (b :: (l ++ t)) = some (i + 1) :=
          fun t => index?_append (by simp [crlf]) hidx t
        refine .inr (.inr ⟨i, hidx, ?_⟩)
        by_cases hd : b = ch '$'
        · subst hd
          exact .inr (.inl fun f t => elementStep_bulk f (happ t))
        · by_cases hl : b = ch '+' ∨ b = ch '-' ∨ b = ch ':'
          · exact .inl fun f t => elementStep_line f hl (happ t)
          · have ha : b = ch '*' := by grind
            subst ha
            exact .inr (.inr fun f t => elementStep_array f (happ t))
      · exact .inl fun f => elementStep_more f hbad (not_exists.mp hidx)

/-! ### `readElement` is its body -/

/-- The loop over the elements of an array looks only at shorter inputs. -/
theorem readMany_congr {f g : Bytes → Ret RespErr ℕ} {inp : Bytes}
    (h : ∀ rest : Bytes, rest.length < inp.length → f rest = g rest) (count : ℕ) {c : ℕ}
    (hc : 0 < c) : readMany f inp count c = readMany g inp count c := by
  induction count generalizing c with
  | zero => rfl
  | succ count ih =>
    rw [readMany, readMany]
    cases hs : slice? inp c inp.length with
    | none => rfl
    | some rest =>
      have hlt : rest.length < inp.length := by
        obtain ⟨hle, rfl⟩ := slice?_tail_eq_some.mp hs
        rw [List.length_drop]
        omega
      simp only [h rest hlt]
      cases g rest with
      | ok x => exact ih (by omega)
      | more => rfl
      | fail e => rfl
      | panic => rfl

/-- The step calls its argument on shorter inputs only, so it is well founded. -/
theorem elementStep_congr {f g : Bytes → Ret RespErr ℕ} {inp : Bytes}
    (h : ∀ rest : Bytes, rest.length < inp.length → f rest = g rest) :
    elementStep f inp = elementStep g inp := by
  obtain hm | ⟨b, hb⟩ | ⟨i, -, hl | hb | ha⟩ := elementStep_cases inp
  · rw [hm, hm]
  · simpa using (hb f []).trans (hb g []).symm
  · simpa using (hl f []).trans (hl g []).symm
  · simpa using (hb f []).trans (hb g []).symm
  · have hf := ha f []
    have hg := ha g []
    rw [List.append_nil] at hf hg
    rw [hf, hg]
    congr 1
    funext count
    exact readMany_congr h _ (by omega)

/-- Nesting the body deeper than the input is long changes nothing. -/
theorem readElementN_congr (n m : ℕ) {inp : Bytes} (hn : inp.length < n) (hm : inp.length < m) :
    readElementN n inp = readElementN m inp := by
  induction n generalizing m inp with
  | zero => exact absurd hn (by omega)
  | succ n ih =>
    cases m with
    | zero => exact absurd hm (by omega)
    | succ m => exact elementStep_congr fun rest hrest => ih m (by omega) (by omega)

/-- `readElement` is its own step: the recursion of the source, for which the nesting by the length
    of the input is deep enough. -/
theorem readElement_eq (inp : Bytes) : readElement inp = elementStep readElement inp :=
  elementStep_congr fun _ hrest => readElementN_congr _ _ hrest (Nat.lt_succ_self _)

/-! ### The element lies within the input -/

/-- The end of a bulk string. -/
theorem readBulk_cases (inp : Bytes) {idx : ℕ} (sz : ℤ) (hidx : idx + 2 ≤ inp.length) :
    readBulk inp idx sz = .more ∨
      ∃ r, (∀ t, readBulk (inp ++ t) idx sz = r) ∧ ∀ n, r = .ok n → 0 < n ∧ n ≤ inp.length := by
  by_cases h₁ : sz = -1
  · refine .inr ⟨.ok (idx + 2), fun t => by rw [readBulk, if_pos h₁], fun n hn => ?_⟩
    cases hn
    omega
  by_cases h₂ : sz < 0
  · exact .inr ⟨_, fun t => by rw [readBulk, if_neg h₁, if_pos h₂], fun n hn => by cases hn⟩
  by_cases h₃ : wrap64 (idx + 2 + sz + 2) ≤ inp.length
  · refine .inr ?_
    -- the end of the bulk string, in the arithmetic of `int`
    generalize hstop : wrap64 (idx + 2 + sz + 2) = stop at h₃
    have hlen : ∀ t : Bytes, stop ≤ (inp ++ t).length := fun t => by
      rw [List.length_append]; push_cast; omega
    by_cases h₄ : stop < 0
    · -- the sum has wrapped: the slice expression panics
      refine ⟨.panic, fun t => ?_, fun n hn => by cases hn⟩
      rw [readBulk, if_neg h₁, if_neg h₂]
      simp only [hstop, if_pos (hlen t), slice?_eq_none _ h₄]
    · obtain ⟨k, rfl⟩ := Int.eq_ofNat_of_zero_le (not_lt.mp h₄)
      have hk : k ≤ inp.length := by omega
      have hslice : ∀ t : Bytes, slice? (inp ++ t) 0 k = some (inp.take k) := fun t => by
        have := slice?_eq_some (inp ++ t) (Nat.zero_le k) (by rw [List.length_append]; omega)
        rwa [List.drop_zero, List.take_append_of_le_length hk] at this
      refine ⟨readBulk inp idx sz, fun t => ?_, fun n hn => ?_⟩
      · have hnil := hslice []
        rw [List.append_nil] at hnil
        rw [readBulk, readBulk, if_neg h₁, if_neg h₂, if_neg h₁, if_neg h₂]
        simp only [hstop, if_pos (hlen t), if_pos h₃, hslice t, hnil]
      · have hnil := hslice []
        rw [List.append_nil] at hnil
        rw [readBulk, if_neg h₁, if_neg h₂] at hn
        simp only [hstop, if_pos h₃, hnil] at hn
        split at hn
        · split at hn
          · cases hn
            rename_i x y hx hy _
            have hpos : 0 < (inp.take k).length := by
              by_contra hzero
              rw [at?_neg _ (by omega)] at hx
              cases hx
            exact ⟨hpos, by rw [List.length_take]; omega⟩
          · cases hn
        · cases hn
  · exact .inl (by rw [readBulk, if_neg h₁, if_neg h₂]; simp only [if_neg h₃])

/-- The facts about the recursive calls that the loop over the elements needs. -/
structure Framed (f g : Bytes → Ret RespErr ℕ) (inp t : Bytes) : Prop where
  le : ∀ rest : Bytes, rest.length < inp.length → ∀ x, f rest = .ok x → 0 < x ∧ x ≤ rest.length
  append : ∀ rest : Bytes, rest.length < inp.length → f rest ≠ .more → g (rest ++ t) = f rest

section Step

variable {f g : Bytes → Ret RespErr ℕ} {inp t : Bytes}

/-- The loop of an array, by induction over its count: it ends within the input, and more input does
    not change a verdict. -/
theorem readMany_framed (F : Framed f g inp t) (count : ℕ) {c : ℕ} (hc : 0 < c)
    (hle : c ≤ inp.length) :
    (∀ n, readMany f inp count c = .ok n → 0 < n ∧ n ≤ inp.length) ∧
      (readMany f inp count c ≠ .more → readMany g (inp ++ t) count c
        = readMany f inp count c) := by
  induction count generalizing c with
  | zero => exact ⟨fun n hn => by cases hn; omega, fun _ => rfl⟩
  | succ count ih =>
    have hs : slice? inp c inp.length = some (inp.drop c) := slice?_tail_eq_some.mpr ⟨hle, rfl⟩
    have hst : slice? (inp ++ t) c (inp ++ t).length = some (inp.drop c ++ t) :=
      slice?_tail_eq_some.mpr ⟨by rw [List.length_append]; omega,
        (List.drop_append_of_le_length hle).symm⟩
    have hlt : (inp.drop c).length < inp.length := by rw [List.length_drop]; omega
    rw [readMany, readMany]
    simp only [hs, hst]
    cases hf : f (inp.drop c) with
    | ok x =>
      obtain ⟨-, hx⟩ := F.le _ hlt x hf
      rw [List.length_drop] at hx
      rw [F.append _ hlt (by simp [hf]), hf]
      exact ih (by omega) (by omega)
    | more => exact ⟨fun n hn => (by cases hn), fun hm => absurd rfl hm⟩
    | fail e =>
      rw [F.append _ hlt (by simp [hf]), hf]
      exact ⟨fun n hn => (by cases hn), fun _ => rfl⟩
    | panic =>
      rw [F.append _ hlt (by simp [hf]), hf]
      exact ⟨fun n hn => (by cases hn), fun _ => rfl⟩

/-- A header line is not changed by what follows it. -/
theorem lineNumber_append {idx : ℕ} (h : idx ≤ inp.length) (t : Bytes) :
    lineNumber (inp ++ t) idx = lineNumber inp idx := by
  rw [lineNumber, lineNumber, List.take_append_of_le_length h]

/-- **One call.** The body finds elements within its input and does not look behind it. -/
theorem elementStep_framed (F : Framed f g inp t) :
    (∀ n, elementStep f inp = .ok n → 0 < n ∧ n ≤ inp.length) ∧
      (elementStep f inp ≠ .more → elementStep g (inp ++ t) = elementStep f inp) := by
  -- no line end, another first byte, or a header line: it is the same with `t` behind it
  obtain hm | ⟨b, hb⟩ | ⟨i, hidx, hkind⟩ := elementStep_cases inp
  · rw [hm f]
    exact ⟨fun n hn => (by cases hn), fun h => absurd rfl h⟩
  · have hf := hb f []
    rw [List.append_nil] at hf
    rw [hf, hb g t]
    exact ⟨fun n hn => (by cases hn), fun _ => rfl⟩
  have hle := index?_le (by simp [crlf]) hidx
  rw [crlf_length] at hle
  have hline : lineNumber (inp ++ t) (i + 1) = lineNumber inp (i + 1) :=
    lineNumber_append (by omega) t
  obtain hl | hb | ha := hkind
  · have hf := hl f []
    rw [List.append_nil] at hf
    rw [hf, hl g t]
    exact ⟨fun n hn => by cases hn; omega, fun _ => rfl⟩
  · have hf := hb f []
    rw [List.append_nil] at hf
    rw [hf, hb g t, hline]
    cases lineNumber inp (i + 1) with
    | ok sz =>
      simp only [Ret.ok_bind]
      obtain hm | ⟨r, hr, hrle⟩ := readBulk_cases inp sz hle
      · rw [hm]
        exact ⟨fun n hn => (by cases hn), fun h => absurd rfl h⟩
      · have hnil := hr []
        rw [List.append_nil] at hnil
        rw [hnil, hr t]
        exact ⟨hrle, fun _ => rfl⟩
    | more => exact ⟨fun n hn => (by cases hn), fun _ => rfl⟩
    | fail e => exact ⟨fun n hn => (by cases hn), fun _ => rfl⟩
    | panic => exact ⟨fun n hn => (by cases hn), fun _ => rfl⟩
  · have hf := ha f []
    rw [List.append_nil] at hf
    rw [hf, ha g t, hline]
    cases lineNumber inp (i + 1) with
    | ok count => exact readMany_framed F count.toNat (by omega) hle
    | more => exact ⟨fun n hn => (by cases hn), fun _ => rfl⟩
    | fail e => exact ⟨fun n hn => (by cases hn), fun _ => rfl⟩
    | panic => exact ⟨fun n hn => (by cases hn), fun _ => rfl⟩

end Step

/-! ### Every input -/

/-- **`readElement` is framed**, by induction over the length of the input: an element ends within
    it, and a verdict other than `more` stays whatever follows. -/
theorem framed (t : Bytes) (m : ℕ) {inp : Bytes} (hm : inp.length ≤ m) :
    Framed readElement readElement inp t := by
  induction m generalizing inp with
  | zero => exact ⟨fun rest h => absurd h (by omega), fun rest h => absurd h (by omega)⟩
  | succ m ih =>
    refine ⟨fun rest h => ?_, fun rest h => ?_⟩
    · rw [readElement_eq]
      exact (elementStep_framed (ih (by omega))).1
    · rw [readElement_eq rest, readElement_eq (rest ++ t)]
      exact (elementStep_framed (ih (by omega))).2

/-- An element is not empty and ends within the input. -/
theorem readElement_le {inp : Bytes} {n : ℕ} (h : readElement inp = .ok n) :
    0 < n ∧ n ≤ inp.length := by
  rw [readElement_eq] at h
  exact (elementStep_framed (framed [] _ le_rfl)).1 n h

/-- **Longer input does not change an answer.** -/
theorem readElement_append {inp : Bytes} (h : readElement inp ≠ .more) (t : Bytes) :
    readElement (inp ++ t) = readElement inp := by
  rw [readElement_eq] at h
  rw [readElement_eq, readElement_eq inp]
  exact (elementStep_framed (framed t _ le_rfl)).2 h

/-- In front of its end an element is not found. -/
theorem readElement_cut {p q : Bytes} (h : readElement (p ++ q)
    = .ok (p ++ q).length) (hq : q ≠ []) : readElement p = .more := by
  by_contra hmore
  rw [readElement_append hmore] at h
  have hle := (readElement_le h).2
  rw [List.length_append] at hle
  exact hq (List.length_eq_zero_iff.mp (by omega))

end Resh.Client
