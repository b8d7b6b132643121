import Resh.Client.Framing

namespace Resh.Client

open Resh.Go

/-!
# What the framing accepts

A grammar for the elements that `readElement` finds, with no reference to its code.  Header lines
are numerals as `strconv.Atoi` reads them, so a sign or leading zeros are let through, and a count
below zero stands for no elements.

* `Element p` — the text `p` is one element;
* `readElement_element` — the framing is complete: an element is found whatever follows it;
* `element_of_readElement` — the framing is sound: what it finds is an element.

Sums are `int`s: a bulk string counts only if its end is below `2 ^ 63`, and the input of a call is
a slice, so it is shorter than that.
-/

/-! ### Header lines -/

section Header

variable {b : UInt8} {text l : Bytes} {i : ℕ} {v : ℤ}

theorem index?_header (hb : b ≠ 13) (h : NoCrlf text) (t : Bytes) :
    index? crlf (b :: (text ++ crlf ++ t)) = some (text.length + 1) := by
  have hcons : NoCrlf (b :: text) := by
    intro hin
    rcases List.infix_cons_iff.mp hin with hpre | hin
    · obtain ⟨u, hu⟩ := hpre
      simp only [crlf, List.cons_append, List.cons.injEq] at hu
      exact hb hu.1.symm
    · exact h hin
  simpa using index?_crlf_append hcons t

/-- In front of the first line end stands a header line. -/
theorem exists_header (h : index? crlf (b :: l) = some (i + 1)) :
    ∃ text t, l = text ++ crlf ++ t ∧ text.length = i ∧ NoCrlf text := by
  have hle := index?_le (by simp [crlf]) h
  have hsplit := index?_split h
  have hnone := index?_take_none (k := i + 1) (by simp [crlf]) h (by simp)
  rw [List.length_cons, crlf_length] at hle
  rw [List.take_succ_cons, index?_eq_none_iff] at hnone
  rw [List.take_succ_cons, List.cons_append, List.cons_append, List.cons.injEq] at hsplit
  refine ⟨l.take i, _, hsplit.2, ?_, ?_⟩
  · rw [List.length_take]
    omega
  · intro hin
    exact hnone (List.infix_cons hin)

/-- A text has one header line. -/
theorem header_inj {b' : UInt8} {text' t t' : Bytes} (h : NoCrlf text) (h' : NoCrlf text')
    (heq : b :: (text ++ crlf ++ t) = b' :: (text' ++ crlf ++ t')) :
    b = b' ∧ text = text' ∧ t = t' := by
  rw [List.cons.injEq] at heq
  obtain ⟨hb, hl⟩ := heq
  have hidx := index?_crlf_append h t
  rw [hl, index?_crlf_append h' t', Option.some.injEq] at hidx
  rw [List.append_assoc, List.append_assoc] at hl
  obtain ⟨htext, hrest⟩ := List.append_inj hl hidx.symm
  exact ⟨hb, htext, List.append_cancel_left hrest⟩

/-- The number of a header line. -/
theorem lineNumber_header (t : Bytes) :
    lineNumber (b :: (text ++ crlf ++ t)) (text.length + 1) = .ok v ↔
    Numeral text v ∧ InInt64 v := by
  have htext : ((b :: (text ++ crlf ++ t)).take (text.length + 1)).drop 1 = text := by simp
  rw [lineNumber, htext, atoi, ← parseInt_eq_iff]
  obtain ⟨w, err⟩ := parseInt text
  cases err with
  | none => simp
  | some e => simp

/-- The text between the first byte and the line end. -/
theorem slice?_header (t : Bytes) :
    slice? (b :: (text ++ crlf ++ t)) 1 ((text.length + 1 : ℕ) : ℤ) = some text := by
  have h : slice? (b :: (text ++ crlf ++ t)) (1 : ℕ) (text.length + 1 : ℕ) = _ :=
    slice?_eq_some _ (by omega) (by simp)
  rw [Nat.cast_one] at h
  rw [h]
  simp

theorem drop_header (b : UInt8) (text t : Bytes) :
    (b :: (text ++ crlf ++ t)).drop (text.length + 1 + 2) = t := by
  rw [show b :: (text ++ crlf ++ t) = (b :: (text ++ crlf)) ++ t by simp, List.drop_left' (by simp)]

theorem take_header (b : UInt8) (text t : Bytes) :
    (b :: (text ++ crlf ++ t)).take (text.length + 1 + 2) = b :: (text ++ crlf) := by
  rw [show b :: (text ++ crlf ++ t) = (b :: (text ++ crlf)) ++ t by simp, List.take_left' (by simp)]

end Header

/-! ### Bulk strings -/

section Bulk

variable {inp : Bytes} {idx k : ℕ}

/-- The end of a bulk string, as long as it does not wrap. -/
theorem readBulk_small (hsmall : idx + 2 + k + 2 < 2 ^ 63) :
    readBulk inp idx k = if idx + 2 + k + 2 ≤ inp.length then
        if crlf <+: inp.drop (idx + 2 + k) then .ok (idx + 2 + k + 2) else .fail .bulkEnd
      else .more := by
  have hstop : wrap64 (idx + 2 + k + 2) = ((idx + 2 + k + 2 : ℕ) : ℤ) := by
    rw [wrap64_of_inInt64 ⟨by omega, by omega⟩]
    push_cast
    rfl
  rw [readBulk, if_neg (by omega), if_neg (by omega)]
  simp only [hstop, Nat.cast_le]
  by_cases hle : idx + 2 + k + 2 ≤ inp.length
  · rw [if_pos hle, if_pos hle]
    have hslice : slice? inp 0 ((idx + 2 + k + 2 : ℕ) : ℤ) = some (inp.take (idx + 2 + k + 2)) := by
      have h := slice?_eq_some inp (Nat.zero_le _) hle
      rwa [List.drop_zero] at h
    have hlen : (inp.take (idx + 2 + k + 2)).length = idx + 2 + k + 2 := by
      rw [List.length_take]
      omega
    -- the two bytes in front of the end
    have hcr : at? (inp.take (idx + 2 + k + 2)) (((idx + 2 + k + 2 : ℕ) : ℤ) - 2)
        = inp[idx + 2 + k]? := by
      rw [show ((idx + 2 + k + 2 : ℕ) : ℤ) - 2 = ((idx + 2 + k : ℕ) : ℤ) by omega, at?_ofNat,
        List.getElem?_take_of_lt (by omega)]
    have hlf : at? (inp.take (idx + 2 + k + 2)) (((idx + 2 + k + 2 : ℕ) : ℤ) - 1)
        = inp[idx + 2 + k + 1]? := by
      rw [show ((idx + 2 + k + 2 : ℕ) : ℤ) - 1 = ((idx + 2 + k + 1 : ℕ) : ℤ) by omega, at?_ofNat,
        List.getElem?_take_of_lt (by omega)]
    have h₀ := List.getElem?_eq_getElem (l := inp) (i := idx + 2 + k) (by omega)
    have h₁ := List.getElem?_eq_getElem (l := inp) (i := idx + 2 + k + 1) (by omega)
    rw [hslice]
    simp only [hlen, hcr, hlf, crlf_prefix_drop_iff, h₀, h₁, Option.some.injEq]
  · rw [if_neg hle, if_neg hle]

/-- Where it wraps, the slice expression or the index panics. -/
theorem readBulk_large {sz : ℤ} (hlen : inp.length < 2 ^ 63) (hidx : idx + 2 ≤ inp.length)
    (hsz : InInt64 sz) (hneg : 0 ≤ sz) (hlarge : 2 ^ 63 ≤ idx + 2 + sz + 2) :
    readBulk inp idx sz = .panic := by
  obtain ⟨-, hmax⟩ := hsz
  have hstop : wrap64 (idx + 2 + sz + 2) ≤ 0 := by
    unfold wrap64
    omega
  rw [readBulk, if_neg (by omega), if_neg (by omega)]
  simp only
  rw [if_pos (by omega)]
  obtain hlt | heq := hstop.lt_or_eq
  · rw [slice?_eq_none _ hlt]
  · rw [heq]
    rfl

end Bulk

/-! ### The grammar -/

/-- The text of one element. -/
inductive Element : Bytes → Prop
  | line {b : UInt8} {text : Bytes} (kind : b = ch '+' ∨ b = ch '-' ∨ b = ch ':')
      (noCrlf : NoCrlf text) : Element (b :: (text ++ crlf))
  | null {text : Bytes} (number : Numeral text (-1)) : Element (ch '$' :: (text ++ crlf))
  | bulk {text data : Bytes} (number : Numeral text data.length)
      (small : text.length + 1 + 2 + data.length + 2 < 2 ^ 63) :
      Element (ch '$' :: (text ++ crlf ++ (data ++ crlf)))
  | array {text : Bytes} {v : ℤ} {ps : List Bytes} (number : Numeral text v) (range : InInt64 v)
      (count : ps.length = v.toNat) (elements : ∀ p ∈ ps, Element p) :
      Element (ch '*' :: (text ++ crlf ++ ps.flatten))

/-- One round of the loop over the elements of an array. -/
theorem readMany_succ (f : Bytes → Ret RespErr ℕ) {inp : Bytes}
    {c : ℕ} (hc : c ≤ inp.length) (count : ℕ) :
    readMany f inp (count + 1) c = f (inp.drop c) >>= fun x => readMany f inp count (c + x) := by
  have hs : slice? inp c inp.length = some (inp.drop c) := slice?_tail_eq_some.mpr ⟨hc, rfl⟩
  rw [readMany, hs]
  cases hx : f (inp.drop c) with
  | ok x => simp only [hx, Ret.ok_bind]
  | more => simp only [hx, Ret.more_bind]
  | fail e => simp only [hx, Ret.fail_bind]
  | panic => simp only [hx, Ret.panic_bind]

/-- A round that is got through: the loop stands inside the input and finds an element there. -/
theorem readMany_succ_ok {f : Bytes → Ret RespErr ℕ} {inp : Bytes} {count c n : ℕ} :
    readMany f inp (count + 1) c = .ok n ↔
      c ≤ inp.length ∧ ∃ x, f (inp.drop c) = .ok x ∧ readMany f inp count (c + x) = .ok n := by
  by_cases hc : c ≤ inp.length
  · rw [readMany_succ f hc, Ret.bind_eq_ok, and_iff_right hc]
  · have hs : slice? inp c inp.length = none := slice?_eq_none inp (by omega)
    rw [readMany, hs]
    exact iff_of_false (by simp) fun h => hc h.1

/-- The loop over the elements of an array finds all of them. -/
theorem readMany_flatten {f : Bytes → Ret RespErr ℕ} {ps : List Bytes}
    (h : ∀ p ∈ ps, ∀ t, f (p ++ t) = .ok p.length) (u t : Bytes) :
    readMany f (u ++ ps.flatten ++ t) ps.length u.length = .ok (u ++ ps.flatten).length := by
  induction ps generalizing u with
  | nil => simp [readMany]
  | cons p ps ih =>
    have htext : u ++ (p :: ps).flatten ++ t = (u ++ p) ++ ps.flatten ++ t := by simp
    have hdrop : (u ++ (p :: ps).flatten ++ t).drop u.length = p ++ (ps.flatten ++ t) := by
      rw [List.append_assoc, List.drop_left]
      simp
    have hps := ih (fun q hq => h q (List.mem_cons_of_mem p hq)) (u ++ p)
    refine readMany_succ_ok.mpr ⟨by simp, p.length, ?_, ?_⟩
    · rw [hdrop]
      exact h p List.mem_cons_self _
    · rw [htext, ← List.length_append, hps]
      simp

/-- **The framing is complete.** -/
theorem readElement_element {p : Bytes} (h : Element p) (t : Bytes) :
    readElement (p ++ t) = .ok p.length := by
  induction h generalizing t with
  | @line b text kind noCrlf =>
    have hb : b ≠ 13 := by rcases kind with rfl | rfl | rfl <;> decide
    have hidx := index?_header hb noCrlf t
    rw [List.cons_append, readElement_eq, elementStep_line _ kind hidx]
    simp
  | @null text number =>
    have hidx := index?_header (b := ch '$') (by decide) number.noCrlf t
    have hnum : lineNumber (ch '$' :: (text ++ crlf ++ t)) (text.length + 1) = .ok (-1) :=
      (lineNumber_header t).mpr ⟨number, by decide⟩
    rw [List.cons_append, readElement_eq, elementStep_bulk _ hidx,
      hnum, Ret.ok_bind, readBulk, if_pos rfl]
    simp
  | @bulk text data number small =>
    have htext : ch '$' :: (text ++ crlf ++ (data ++ crlf)) ++ t
        = ch '$' :: (text ++ crlf ++ (data ++ crlf ++ t)) := by simp
    have hidx := index?_header (b := ch '$') (by decide) number.noCrlf (data ++ crlf ++ t)
    have hnum : lineNumber (ch '$' :: (text ++ crlf ++ (data ++ crlf ++ t))) (text.length + 1)
        = .ok (data.length : ℤ) :=
      (lineNumber_header _).mpr ⟨number, by omega, by omega⟩
    rw [htext, readElement_eq, elementStep_bulk _ hidx, hnum, Ret.ok_bind,
      readBulk_small small, if_pos, if_pos]
    · simp
      omega
    · rw [← List.drop_drop, drop_header, List.append_assoc, List.drop_left]
      exact List.prefix_append crlf t
    · simp
      omega
  | @array text v ps number range count elements ih =>
    have htext : ch '*' :: (text ++ crlf ++ ps.flatten) ++ t
        = ch '*' :: (text ++ crlf ++ (ps.flatten ++ t)) := by simp
    have hidx := index?_header (b := ch '*') (by decide) number.noCrlf (ps.flatten ++ t)
    have hnum : lineNumber (ch '*' :: (text ++ crlf ++ (ps.flatten ++ t)))
        (text.length + 1) = .ok v :=
      (lineNumber_header _).mpr ⟨number, range⟩
    -- the elements are read one after the other, each by the induction hypothesis
    have hmany := readMany_flatten ih (ch '*' :: (text ++ crlf)) t
    have hlen : (ch '*' :: (text ++ crlf)).length = text.length + 1 + 2 := by simp
    rw [hlen, count, List.cons_append, List.cons_append, List.append_assoc] at hmany
    rw [htext, readElement_eq, elementStep_array _ hidx, hnum, Ret.ok_bind, hmany]

theorem Element.ne_nil {p : Bytes} (h : Element p) : p ≠ [] := by
  cases h <;> exact List.cons_ne_nil _ _

/-! ### What is found is an element -/

/-- What a call of `readElement` has in front of it: no line, a wrong one, or a good header line, by
    which it goes on. -/
inductive Shape (inp : Bytes) : Prop
  | waits (ret : readElement inp = .more)
  | fails {e : RespErr} (ret : readElement inp = .fail e)
  | line {b : UInt8} {text t : Bytes} (eq : inp = b :: (text ++ crlf ++ t))
      (kind : b = ch '+' ∨ b = ch '-' ∨ b = ch ':') (noCrlf : NoCrlf text)
      (ret : readElement inp = .ok (text.length + 1 + 2))
  | bulk {text t : Bytes} {sz : ℤ} (eq : inp = ch '$' :: (text ++ crlf ++ t))
      (number : Numeral text sz) (range : InInt64 sz)
      (ret : readElement inp = readBulk inp (text.length + 1) sz)
  | array {text t : Bytes} {v : ℤ} (eq : inp = ch '*' :: (text ++ crlf ++ t))
      (number : Numeral text v) (range : InInt64 v)
      (ret : readElement inp = readMany readElement inp v.toNat (text.length + 1 + 2))

/-- The number of a header line, or the error. -/
theorem lineNumber_cases (inp : Bytes) (idx : ℕ) :
    (∃ v, lineNumber inp idx = .ok v) ∨ ∃ e, lineNumber inp idx = .fail e := by
  unfold lineNumber
  split
  · exact .inl ⟨_, rfl⟩
  · exact .inr ⟨_, rfl⟩

/-- **What a call can do.** -/
theorem readElement_shape (inp : Bytes) : Shape inp := by
  cases inp with
  | nil => exact .waits rfl
  | cons b l =>
    by_cases hbad : b ≠ ch '$' ∧ b ≠ ch '+' ∧ b ≠ ch '-' ∧ b ≠ ch ':' ∧ b ≠ ch '*'
    · exact .fails ((readElement_eq _).trans (elementStep_other _ hbad))
    by_cases hidx : ∃ i, index? crlf (b :: l) = some (i + 1)
    · obtain ⟨i, hidx⟩ := hidx
      obtain ⟨text, t, rfl, rfl, hno⟩ := exists_header hidx
      have hret := readElement_eq (b :: (text ++ crlf ++ t))
      by_cases hline : b = ch '+' ∨ b = ch '-' ∨ b = ch ':'
      · rw [elementStep_line _ hline hidx] at hret
        exact .line rfl hline hno hret
      by_cases hd : b = ch '$'
      · subst hd
        rw [elementStep_bulk _ hidx] at hret
        obtain ⟨sz, hsz⟩ | ⟨e, he⟩ :=
          lineNumber_cases (ch '$' :: (text ++ crlf ++ t)) (text.length + 1)
        · rw [hsz, Ret.ok_bind] at hret
          obtain ⟨hnum, hrange⟩ := (lineNumber_header t).mp hsz
          exact .bulk rfl hnum hrange hret
        · rw [he, Ret.fail_bind] at hret
          exact .fails hret
      · have ha : b = ch '*' := by grind
        subst ha
        rw [elementStep_array _ hidx] at hret
        obtain ⟨v, hv⟩ | ⟨e, he⟩ :=
          lineNumber_cases (ch '*' :: (text ++ crlf ++ t)) (text.length + 1)
        · rw [hv, Ret.ok_bind] at hret
          obtain ⟨hnum, hrange⟩ := (lineNumber_header t).mp hv
          exact .array rfl hnum hrange hret
        · rw [he, Ret.fail_bind] at hret
          exact .fails hret
    · exact .waits ((readElement_eq _).trans (elementStep_more _ hbad (not_exists.mp hidx)))

/-- A bulk string that is found: null, or a payload with a line end behind it. -/
theorem readBulk_ok {text t : Bytes} {sz : ℤ} {n : ℕ} (hrange : InInt64 sz)
    (hlen : (ch '$' :: (text ++ crlf ++ t)).length < 2 ^ 63)
    (h : readBulk (ch '$' :: (text ++ crlf ++ t)) (text.length + 1) sz = .ok n) :
    (sz = -1 ∧ (ch '$' :: (text ++ crlf ++ t)).take n = ch '$' :: (text ++ crlf)) ∨
      ∃ data : Bytes, sz = data.length ∧ text.length + 1 + 2 + data.length + 2 < 2 ^ 63 ∧
        (ch '$' :: (text ++ crlf ++ t)).take n = ch '$' :: (text ++ crlf ++ (data ++ crlf)) := by
  by_cases hnull : sz = -1
  · rw [readBulk, if_pos hnull] at h
    cases h
    exact .inl ⟨hnull, take_header _ text t⟩
  by_cases hneg : sz < 0
  · rw [readBulk, if_neg hnull, if_pos hneg] at h
    cases h
  obtain ⟨k, rfl⟩ := Int.eq_ofNat_of_zero_le (not_lt.mp hneg)
  by_cases hsmall : text.length + 1 + 2 + k + 2 < 2 ^ 63
  · rw [readBulk_small hsmall] at h
    split at h
    · split at h
      · rename_i hle hcrlf
        cases h
        -- `t` is the payload, a line end, and what follows
        rw [← List.drop_drop, drop_header] at hcrlf
        obtain ⟨rest, hrest⟩ := hcrlf
        have hk : k ≤ t.length := by
          simp only [List.length_cons, List.length_append, crlf_length] at hle
          omega
        have hdata : (t.take k).length = k := by
          rw [List.length_take]
          omega
        have ht : t = t.take k ++ crlf ++ rest := by
          rw [List.append_assoc, hrest, List.take_append_drop]
        have hall : ch '$' :: (text ++ crlf ++ t)
            = ch '$' :: (text ++ crlf ++ (t.take k ++ crlf)) ++ rest := by
          rw [List.cons_append, List.append_assoc (text ++ crlf), ← ht]
        have hend : (ch '$' :: (text ++ crlf ++ (t.take k ++ crlf))).length
            = text.length + 1 + 2 + k + 2 := by
          simp only [List.length_cons, List.length_append, crlf_length, hdata]
          omega
        refine .inr ⟨t.take k, ?_, ?_, ?_⟩
        · rw [hdata]
        · rwa [hdata]
        · rw [hall, List.take_left' hend]
      · cases h
    · cases h
  · have hidx : text.length + 1 + 2 ≤ (ch '$' :: (text ++ crlf ++ t)).length := by
      simp only [List.length_cons, List.length_append, crlf_length]
      omega
    rw [readBulk_large hlen hidx hrange (by omega) (by omega)] at h
    cases h

theorem readMany_le {inp : Bytes} {count c n : ℕ} (h : readMany readElement inp count c = .ok n) :
    c ≤ n := by
  induction count generalizing c with
  | zero =>
    cases h
    exact le_rfl
  | succ count ih =>
    obtain ⟨-, x, -, hrest⟩ := readMany_succ_ok.mp h
    have := ih hrest
    omega

/-- The elements that the loop has found, one round after the other. -/
theorem elements_of_readMany {P : Bytes → Prop} {inp : Bytes} {count c n : ℕ}
    (h : readMany readElement inp count c = .ok n)
    (hP : ∀ j < count, ∀ c' x, readMany readElement inp j c = .ok c' →
      readElement (inp.drop c') = .ok x → P ((inp.drop c').take x)) :
    ∃ ps : List Bytes, ps.length = count ∧ inp.take n = inp.take c ++ ps.flatten ∧
    ∀ p ∈ ps, P p := by
  induction count generalizing c with
  | zero =>
    cases h
    exact ⟨[], rfl, by simp, List.forall_mem_nil _⟩
  | succ count ih =>
    obtain ⟨hc, x, hx, hrest⟩ := readMany_succ_ok.mp h
    obtain ⟨ps, hps, htake, hall⟩ := ih hrest fun j hj c' y hc' hy =>
      hP (j + 1) (by omega) c' y (readMany_succ_ok.mpr ⟨hc, x, hx, hc'⟩) hy
    refine ⟨(inp.drop c).take x :: ps, ?_, ?_, ?_⟩
    · rw [List.length_cons, hps]
    · rw [htake, List.take_add, List.flatten_cons, List.append_assoc]
    · exact List.forall_mem_cons.mpr ⟨hP 0 (by omega) c x rfl hx, hall⟩

/-- **Induction on what is found.** An array is made of elements that are found in shorter
    inputs. -/
theorem readElement_induction {P : Bytes → ℕ → Prop}
    (line : ∀ b text t, (b = ch '+' ∨ b = ch '-' ∨ b = ch ':') → NoCrlf text →
      P (b :: (text ++ crlf ++ t)) (text.length + 1 + 2))
    (bulk : ∀ text t sz n, Numeral text sz → InInt64 sz →
      readBulk (ch '$' :: (text ++ crlf ++ t)) (text.length + 1) sz = .ok n →
      P (ch '$' :: (text ++ crlf ++ t)) n)
    (array : ∀ inp text t v n, inp = ch '*' :: (text ++ crlf ++ t) → Numeral text v → InInt64 v →
      readMany readElement inp v.toNat (text.length + 1 + 2) = .ok n →
      (∀ j < v.toNat, ∀ c x, readMany readElement inp j (text.length + 1 + 2) = .ok c →
        readElement (inp.drop c) = .ok x → P (inp.drop c) x) → P inp n)
    {inp : Bytes} {n : ℕ} (h : readElement inp = .ok n) : P inp n := by
  -- by induction over the length of the input: the elements of an array are shorter
  obtain ⟨m, hm⟩ : ∃ m, inp.length ≤ m := ⟨_, le_rfl⟩
  induction m generalizing inp n with
  | zero =>
    rw [List.length_eq_zero_iff.mp (Nat.le_zero.mp hm)] at h
    cases h
  | succ m ih =>
    cases readElement_shape inp with
    | waits ret =>
      rw [ret] at h
      cases h
    | fails ret =>
      rw [ret] at h
      cases h
    | line eq kind noCrlf ret =>
      rw [ret] at h
      cases h
      rw [eq]
      exact line _ _ _ kind noCrlf
    | bulk eq number range ret =>
      rw [ret, eq] at h
      rw [eq]
      exact bulk _ _ _ _ number range h
    | @array text t v eq number range ret =>
      rw [ret] at h
      refine array inp text t v n eq number range h fun j _ c x hc hx => ih hx ?_
      have hle := readMany_le hc
      rw [List.length_drop]
      omega

/-- **The framing is sound.** -/
theorem element_of_readElement {inp : Bytes} {n : ℕ} (hlen : inp.length < 2 ^ 63)
    (h : readElement inp = .ok n) : Element (inp.take n) := by
  revert hlen
  refine readElement_induction (P := fun inp n => inp.length < 2 ^ 63 →
    Element (inp.take n)) ?_ ?_ ?_ h
  · intro b text t kind hno _
    rw [take_header]
    exact .line kind hno
  · intro text t sz n number range hbulk hlen
    obtain ⟨rfl, htake⟩ | ⟨data, rfl, hsmall, htake⟩ := readBulk_ok range hlen hbulk
    · rw [htake]
      exact .null number
    · rw [htake]
      exact .bulk number hsmall
  · intro inp text t v n heq number range hmany ih hlen
    obtain ⟨ps, hps, htake, hel⟩ := elements_of_readMany hmany fun j hj c x hc hx =>
      ih j hj c x hc hx (by rw [List.length_drop]; omega)
    rw [htake, heq, take_header]
    exact .array number range hps hel

end Resh.Client
