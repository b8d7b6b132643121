import Resh.Client.Overlong
import Resh.Client.Reader

namespace Resh.Client

open Resh.Go

/-!
# RESP2 values

The grammar of the protocol, and how far the framing of the client keeps to it.  `readElement` does
not look at the text of a `:` line, and takes every length and count that `strconv.Atoi` does: a
count below zero is an empty array, and `$-01` is null.  So what it accepts is a value if the lines
that it reads are written as the protocol says, and only then.

* `Resp2 p` — `p` is the encoding of one value;
* `WellWritten rest` — the first line of `rest` is written as in a value;
* `framing_resp2` — an accepted text is a value exactly if all lines that are reached are well
  written, and then the reader returns the numbers that were sent.
-/

/-! ### The grammar -/

/-- Decimal digits, at least one. -/
def Digits (text : Bytes) : Prop := text ≠ [] ∧ ∀ c ∈ text, isDigit c = true

instance (text : Bytes) : Decidable (Digits text) := inferInstanceAs (Decidable (_ ∧ _))

/-- The encoding of one value. -/
inductive Resp2 : Bytes → Prop
  | simple {text : Bytes} (noCrlf : NoCrlf text) : Resp2 (ch '+' :: (text ++ crlf))
  | error {text : Bytes} (noCrlf : NoCrlf text) : Resp2 (ch '-' :: (text ++ crlf))
  | int {text : Bytes} {v : ℤ} (number : Numeral text v) (range : InInt64 v) :
  Resp2 (ch ':' :: (text ++ crlf))
  | bulk {text data : Bytes} (digits : Digits text) (length : digitsVal text 0 = data.length) :
      Resp2 (ch '$' :: (text ++ crlf ++ (data ++ crlf)))
  | null : Resp2 (ch '$' :: (ascii "-1" ++ crlf))
  | array {text : Bytes} {ps : List Bytes} (digits : Digits text)
      (count : digitsVal text 0 = ps.length)
      (elements : ∀ p ∈ ps, Resp2 p) : Resp2 (ch '*' :: (text ++ crlf ++ ps.flatten))
  | nullArray : Resp2 (ch '*' :: (ascii "-1" ++ crlf))

/-- The first line is written as in a value: a numeral for an `int64` behind `:`, digits or `-1`
    behind `$` and `*`. -/
def WellWritten (rest : Bytes) : Prop :=
  ∀ b text t, rest = b :: (text ++ crlf ++ t) → NoCrlf text →
    (b = ch ':' → ∃ v, Numeral text v ∧ InInt64 v) ∧
      (b = ch '$' ∨ b = ch '*' → Digits text ∨ text = ascii "-1")

/-! ### Numbers -/

theorem Numeral.unique {text : Bytes} {v w : ℤ} (h : Numeral text v) (h' : Numeral text w) :
    v = w :=
  h.2.2.trans h'.2.2.symm

/-- Digits are a numeral without a sign. -/
theorem Digits.numeral {text : Bytes} (h : Digits text) : Numeral text (digitsVal text 0) := by
  obtain ⟨hne, hd⟩ := h
  have hcut : cutSign text = (false, text) := by
    cases text with
    | nil => rfl
    | cons c s =>
      have hc := hd c List.mem_cons_self
      have hplus : c ≠ ch '+' := by
        rintro rfl
        cases hc
      have hminus : c ≠ ch '-' := by
        rintro rfl
        cases hc
      rw [cutSign, if_neg hplus, if_neg hminus]
  rw [Numeral, hcut]
  exact ⟨hne, hd, rfl⟩

theorem numeral_minusOne : Numeral (ascii "-1") (-1) := by decide +kernel

theorem noCrlf_minusOne : NoCrlf (ascii "-1") := numeral_minusOne.noCrlf

/-! ### Accepted and well written -/

/-- What is accepted and well written is a value. -/
theorem resp2_of_readElement {inp : Bytes} {n : ℕ} (hlen : inp.length < 2 ^ 63)
    (h : readElement inp = .ok n)
    (hw : ∀ rest, Reached inp rest → WellWritten rest) : Resp2 (inp.take n) := by
  revert hlen hw
  refine readElement_induction (P := fun inp n => inp.length < 2 ^ 63 →
    (∀ rest, Reached inp rest → WellWritten rest) → Resp2 (inp.take n)) ?_ ?_ ?_ h
  · intro b text t kind hno _ hw
    have hown := hw _ .refl
    rw [take_header]
    rcases kind with rfl | rfl | rfl
    · exact .simple hno
    · exact .error hno
    · obtain ⟨v, hnum, hrange⟩ := (hown _ _ _ rfl hno).1 rfl
      exact .int hnum hrange
  · intro text t sz n number range hbulk hlen hw
    have hwritten := (hw _ .refl _ _ _ rfl number.noCrlf).2 (.inl rfl)
    obtain ⟨rfl, htake⟩ | ⟨data, rfl, -, htake⟩ := readBulk_ok range hlen hbulk
    · rw [htake]
      rcases hwritten with hd | rfl
      · -- digits do not give -1
        have := Numeral.unique number hd.numeral
        omega
      · exact .null
    · rw [htake]
      rcases hwritten with hd | rfl
      · exact .bulk hd (Int.ofNat.inj (Numeral.unique hd.numeral number))
      · have := Numeral.unique number numeral_minusOne
        omega
  · intro inp text t v n heq number range hmany ih hlen hw
    have hwritten := (hw inp .refl _ _ _ heq number.noCrlf).2 (.inr rfl)
    obtain ⟨ps, hps, htake, hel⟩ := elements_of_readMany hmany fun j hj c x hc hx => by
      have hcall : Calls inp (inp.drop c) := ⟨text, t, v, j, c, heq, number, range, hj, hc, rfl⟩
      have hlt := hcall.length_lt
      exact ih j hj c x hc hx (by omega) fun rest hrest => hw rest (.head hcall hrest)
    rw [htake, heq, take_header]
    rcases hwritten with hd | rfl
    · refine .array hd ?_ hel
      have := Numeral.unique number hd.numeral
      omega
    · -- no elements
      have hv := Numeral.unique number numeral_minusOne
      rw [hv] at hps
      rw [List.length_eq_zero_iff.mp hps, List.flatten_nil, List.append_nil]
      exact .nullArray

/-! ### Values are accepted and well written -/

theorem Resp2.ne_nil {p : Bytes} (h : Resp2 p) : p ≠ [] := by
  cases h <;> exact List.cons_ne_nil _ _

/-- There are no more texts than bytes. -/
theorem length_le_flatten {ps : List Bytes} (h : ∀ p ∈ ps, p ≠ []) :
    ps.length ≤ ps.flatten.length := by
  induction ps with
  | nil => exact le_rfl
  | cons p ps ih =>
    obtain ⟨hp, hps⟩ := List.forall_mem_cons.mp h
    have hpos := List.length_pos_of_ne_nil hp
    have := ih hps
    rw [List.flatten_cons, List.length_append, List.length_cons]
    omega

/-- The framing accepts values. -/
theorem Resp2.element {p : Bytes} (h : Resp2 p) (hlen : p.length < 2 ^ 63) : Element p := by
  induction h with
  | simple noCrlf => exact .line (.inl rfl) noCrlf
  | error noCrlf => exact .line (.inr (.inl rfl)) noCrlf
  | int number range => exact .line (.inr (.inr rfl)) number.noCrlf
  | @bulk text data digits length =>
    have hnum := digits.numeral
    rw [length] at hnum
    refine .bulk hnum ?_
    simp only [List.length_cons, List.length_append, crlf_length] at hlen
    omega
  | null => exact .null numeral_minusOne
  | @array text ps digits count elements ih =>
    simp only [List.length_cons, List.length_append, crlf_length] at hlen
    have hle := length_le_flatten fun p hp => (elements p hp).ne_nil
    refine .array digits.numeral ⟨by omega, by omega⟩ (by omega) ?_
    intro p hp
    have hpart := (List.sublist_flatten_of_mem hp).length_le
    exact ih p hp (by omega)
  | nullArray =>
    have hempty : Element (ch '*' :: (ascii "-1" ++ crlf ++ List.flatten [])) :=
      .array numeral_minusOne (by decide) rfl (List.forall_mem_nil _)
    exact hempty

/-- A value by its first line; behind that of an array stand as many values as it says. -/
theorem Resp2.header {p : Bytes} (h : Resp2 p) :
    ∃ b text rest, p = b :: (text ++ crlf ++ rest) ∧ NoCrlf text ∧
      ((b = ch ':' → ∃ v, Numeral text v ∧ InInt64 v) ∧
        (b = ch '$' ∨ b = ch '*' → Digits text ∨ text = ascii "-1")) ∧
      (b = ch '*' → ∃ ps : List Bytes, rest = ps.flatten ∧ (∀ q ∈ ps, Resp2 q) ∧
        ∀ v, Numeral text v → v.toNat = ps.length) := by
  cases h with
  | @simple text noCrlf =>
    refine ⟨ch '+', text, [], (List.append_nil _).symm, noCrlf, ⟨?_, ?_⟩, ?_⟩
    all_goals exact fun hb => absurd hb (by decide)
  | @error text noCrlf =>
    refine ⟨ch '-', text, [], (List.append_nil _).symm, noCrlf, ⟨?_, ?_⟩, ?_⟩
    all_goals exact fun hb => absurd hb (by decide)
  | @int text v number range =>
    refine ⟨ch ':', text, [], (List.append_nil _).symm, number.noCrlf,
      ⟨fun _ => ⟨v, number, range⟩, ?_⟩, ?_⟩
    all_goals exact fun hb => absurd hb (by decide)
  | @bulk text data digits length =>
    refine ⟨ch '$', text, data ++ crlf, rfl, digits.numeral.noCrlf, ⟨?_, fun _ => .inl digits⟩, ?_⟩
    all_goals exact fun hb => absurd hb (by decide)
  | null =>
    refine ⟨ch '$', ascii "-1", [], rfl, noCrlf_minusOne, ⟨?_, fun _ => .inr rfl⟩, ?_⟩
    all_goals exact fun hb => absurd hb (by decide)
  | @array text ps digits count elements =>
    refine ⟨ch '*', text, ps.flatten, rfl, digits.numeral.noCrlf, ⟨?_, fun _ => .inl digits⟩, ?_⟩
    · exact fun hb => absurd hb (by decide)
    · intro _
      refine ⟨ps, rfl, elements, ?_⟩
      intro v hv
      rw [Numeral.unique hv digits.numeral, count, Int.toNat_natCast]
  | nullArray =>
    refine ⟨ch '*', ascii "-1", [], rfl, noCrlf_minusOne, ⟨?_, fun _ => .inr rfl⟩, ?_⟩
    · exact fun hb => absurd hb (by decide)
    · intro _
      refine ⟨[], rfl, List.forall_mem_nil _, ?_⟩
      intro v hv
      rw [Numeral.unique hv numeral_minusOne]
      rfl

theorem Resp2.wellWritten {p : Bytes} (h : Resp2 p) (t : Bytes) : WellWritten (p ++ t) := by
  obtain ⟨b, text, rest, rfl, hno, hwritten, -⟩ := h.header
  intro b' text' t' heq hno'
  rw [List.cons_append, List.append_assoc] at heq
  obtain ⟨rfl, rfl, -⟩ := header_inj hno hno' heq
  exact hwritten

/-- The calls on a value are on the values inside it. -/
theorem Resp2.calls {p t rest : Bytes} (h : Resp2 p) (hlen : p.length < 2 ^ 63)
    (hcall : Calls (p ++ t) rest) : ∃ q t', Resp2 q ∧ q.length < 2 ^ 63 ∧ rest = q ++ t' := by
  obtain ⟨text', t', v, j, c, heq, hnum, -, hj, hc, rfl⟩ := hcall
  obtain ⟨b, text, body, rfl, hno, -, harray⟩ := h.header
  rw [List.cons_append, List.append_assoc] at heq
  obtain ⟨rfl, rfl, -⟩ := header_inj hno hnum.noCrlf heq
  obtain ⟨ps, rfl, hps, hcount⟩ := harray rfl
  have hjps : j < ps.length := by
    rw [← hcount v hnum]
    exact hj
  have hsmall : ∀ q ∈ ps, q.length < 2 ^ 63 := by
    intro q hq
    have := (List.sublist_flatten_of_mem hq).length_le
    simp only [List.length_cons, List.length_append, crlf_length] at hlen
    omega
  -- the first `j` values are found, and the call is on the next one
  have hfound : ∀ q ∈ ps.take j, ∀ t, readElement (q ++ t) = .ok q.length := by
    intro q hq t
    have hmem := List.mem_of_mem_take hq
    exact readElement_element ((hps q hmem).element (hsmall q hmem)) t
  have hsplit : ps.flatten = (ps.take j).flatten ++ (ps[j] ++ (ps.drop (j + 1)).flatten) := by
    rw [← List.flatten_cons, ← List.drop_eq_getElem_cons hjps,
      ← List.flatten_append, List.take_append_drop]
  have htext : ch '*' :: (text ++ crlf ++ ps.flatten) ++ t
      = ch '*' :: (text ++ crlf) ++ (ps.take j).flatten
        ++ (ps[j] ++ ((ps.drop (j + 1)).flatten ++ t)) := by
    rw [hsplit]
    simp
  have hmany := readMany_flatten hfound (ch '*' :: (text ++ crlf))
    (ps[j] ++ ((ps.drop (j + 1)).flatten ++ t))
  have htake : (ps.take j).length = j := List.length_take_of_le hjps.le
  have hhead : (ch '*' :: (text ++ crlf)).length = text.length + 1 + 2 := by simp
  rw [← htext, htake, hhead, hc, Ret.ok.injEq] at hmany
  refine ⟨ps[j], (ps.drop (j + 1)).flatten ++ t, hps _ (List.getElem_mem hjps),
    hsmall _ (List.getElem_mem hjps), ?_⟩
  rw [htext, hmany, List.drop_left]

/-- All that is reached in a value is well written. -/
theorem Resp2.reached {p t rest : Bytes} (h : Resp2 p) (hlen : p.length < 2 ^ 63)
    (hreach : Reached (p ++ t) rest) : WellWritten rest := by
  obtain ⟨inp, hinp⟩ : ∃ inp, inp = p ++ t := ⟨_, rfl⟩
  rw [← hinp] at hreach
  induction hreach using Relation.ReflTransGen.head_induction_on generalizing p t with
  | refl =>
    rw [hinp]
    exact h.wellWritten t
  | head hcall _ ih =>
    rw [hinp] at hcall
    obtain ⟨q, t', hq, hsmall, heq⟩ := h.calls hlen hcall
    exact ih hq hsmall heq

/-! ### The framing -/

/-- **Soundness of the framing.**  If all lines that are reached are well written, what was accepted
    is one value, and every `:` line gives the reader the number that it denotes, wherever it
    stands.  And if it is a value, they are. -/
theorem framing_resp2 {inp : Bytes} {n : ℕ} (hlen : inp.length < 2 ^ 63)
    (h : readElement inp = .ok n) :
    ((∀ rest, Reached inp rest → WellWritten rest) → Resp2 (inp.take n) ∧
      ∀ text t, Reached inp (ch ':' :: (text ++ crlf ++ t)) → NoCrlf text → ∃ v, Numeral text v ∧
        ∀ t', readNext (ch ':' :: (text ++ crlf ++ t')) = some (.int v, t')) ∧
    (Resp2 (inp.take n) → ∀ rest, Reached inp rest → WellWritten rest) := by
  refine ⟨?_, ?_⟩
  · intro hw
    refine ⟨resp2_of_readElement hlen h hw, ?_⟩
    intro text t hreach hno
    obtain ⟨v, hnum, hrange⟩ := (hw _ hreach _ _ _ rfl hno).1 rfl
    refine ⟨v, hnum, ?_⟩
    intro t'
    have hint : parseInt text = (v, none) := (parseInt_eq_iff _ _).mpr ⟨hnum, hrange⟩
    rw [readNext_line (.inr (.inr rfl)) hno, hint]
    rfl
  · intro hvalue rest hreach
    have hsmall : (inp.take n).length < 2 ^ 63 := (List.length_take_le' n inp).trans_lt hlen
    rw [← List.take_append_drop n inp] at hreach
    exact hvalue.reached hsmall hreach

/-- An array of a number and null. -/
theorem framing_resp2_pair :
    Resp2 (ascii "*2\r\n:-7\r\n$-1\r\n") ∧
      ∀ rest, Reached (ascii "*2\r\n:-7\r\n$-1\r\n+OK") rest → WellWritten rest := by
  have hint : Resp2 (ascii ":-7\r\n") :=
    @Resp2.int (ascii "-7") (-7) (by decide +kernel) (by decide)
  have hnull : Resp2 (ascii "$-1\r\n") := .null
  have hvalue : Resp2 (ascii "*2\r\n:-7\r\n$-1\r\n") :=
    @Resp2.array (ascii "2") [ascii ":-7\r\n", ascii "$-1\r\n"]
      (by decide +kernel) rfl (by simp [hint, hnull])
  have hframe : readElement (ascii "*2\r\n:-7\r\n$-1\r\n+OK") = .ok 14 := by decide +kernel
  have hsound := framing_resp2 (by decide) hframe
  exact ⟨(hsound.1 (hsound.2 hvalue)).1, hsound.2 hvalue⟩

/-- A `:` line without a number, which reads as 0, and a count of -2. -/
theorem framing_accepts_more :
    (readElement (ascii ":abc\r\n") = .ok 6 ∧ ¬ Resp2 (ascii ":abc\r\n") ∧
      readNext (ascii ":abc\r\n") = some (.int 0, [])) ∧
    readElement (ascii "*-2\r\n") = .ok 5 ∧ ¬ Resp2 (ascii "*-2\r\n") := by
  refine ⟨⟨by decide +kernel, ?_, by decide +kernel⟩, by decide +kernel, ?_⟩
  · intro h
    obtain ⟨v, hnum, -⟩ := (h.wellWritten [] (ch ':') (ascii "abc") [] rfl (by decide)).1 rfl
    have hdigit := hnum.2.1 (ch 'a') (by decide)
    exact absurd hdigit (by decide)
  · intro h
    obtain hd | heq := (h.wellWritten [] (ch '*') (ascii "-2") [] rfl (by decide)).2 (.inr rfl)
    · exact absurd hd (by decide)
    · exact absurd heq (by decide)

end Resh.Client
