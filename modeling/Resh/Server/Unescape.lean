import Resh.Go.Text

namespace Resh.Server

open Resh.Go

/-!
# util.go — percent-decoding in place

`UnescapeInplace` decodes a slice into its own memory, with a write index that never overtakes
the read index.  `unescape` says what it returns as a function of the text it was given, and
`unescapeInplace_eq` what the whole memory holds afterwards: the decoded text, and behind it the
old bytes.  `unescapeInplace_decodes_iff` compares it with a decoder into a fresh buffer.
-/

/-! ### The loop of the source -/

/-- The store of the `%` case: `hex.Decode(s[x:x+1], s[i+1:i+3])`, which leaves `s[x]` alone
    when the two bytes are not hexadecimal. -/
def decodeAt? (s : Bytes) (x i : ℕ) : Option Bytes :=
  match s[i + 1]?, s[i + 2]? with
  | some p, some q =>
    match hexDecode p q with
    | some b => set? s x b
    | none => if x < s.length then some s else none
  | _, _ => none

/-- The loop of `UnescapeInplace` with read index `i` and write index `x`; `n` bounds the
    rounds. -/
def unescapeLoop (plusSpace : Bool) : ℕ → Bytes → ℕ → ℕ → Option (Bytes × ℕ)
  | 0, s, _, x => some (s, x)
  | n + 1, s, i, x =>
    match s[i]? with
    | none => some (s, x)
    | some c =>
      if c = ch '%' then
        if i + 2 < s.length then do
          let s' ← decodeAt? s x i
          unescapeLoop plusSpace n s' (i + 3) (x + 1)
        else unescapeLoop plusSpace n s (i + 1) (x + 1)
      else if c = ch '+' then do
        let s' ← set? s x (if plusSpace then ch ' ' else ch '+')
        unescapeLoop plusSpace n s' (i + 1) (x + 1)
      else do
        let s' ← set? s x c
        unescapeLoop plusSpace n s' (i + 1) (x + 1)

/-- `UnescapeInplace(s, plusSpace)`: the rewritten memory of `s` and the length of the returned
    slice `s[:x]`. -/
def unescapeInplace (s : Bytes) (plusSpace : Bool) : Option (Bytes × ℕ) :=
  unescapeLoop plusSpace s.length s 0 0

/-! ### The decoded text -/

/-- What the loop returns, as a function of the text `s` it was given: `rest` is unread, `x`
    bytes are written.  Where the source stores nothing, for a `%` without two hexadecimal digits
    behind it, the byte that `s` has at `x` stays. -/
def unescapeFrom (s : Bytes) (plusSpace : Bool) : Bytes → ℕ → Bytes
  | [], _ => []
  | c :: rest, x =>
    if c = ch '%' then
      match rest with
      | p :: q :: rest => (hexDecode p q).getD (s.getD x 0) :: unescapeFrom s plusSpace rest (x + 1)
      | rest => s.getD x 0 :: unescapeFrom s plusSpace rest (x + 1)
    else (if c = ch '+' ∧ plusSpace then ch ' ' else c) :: unescapeFrom s plusSpace rest (x + 1)

/-- The decoded text. -/
def unescape (s : Bytes) (plusSpace : Bool) : Bytes := unescapeFrom s plusSpace s 0

/-- A byte that is no `%` is copied; a plus becomes a space where `plusSpace` says so. -/
theorem unescapeFrom_plain {s : Bytes} {plusSpace : Bool} {c : UInt8}
    (hc : c ≠ ch '%') (rest : Bytes) (x : ℕ) : unescapeFrom s plusSpace (c :: rest) x
      = (if c = ch '+' ∧ plusSpace then ch ' ' else c) :: unescapeFrom
      s plusSpace rest (x + 1) := by
  match rest with
  | [] => simp [unescapeFrom, hc]
  | [_] => simp [unescapeFrom, hc]
  | _ :: _ :: _ => rw [unescapeFrom, if_neg hc]

/-- An escape gives its byte if both digits are hexadecimal; otherwise the old byte under the write
    position stays. -/
theorem unescapeFrom_percent {s : Bytes} {plusSpace : Bool} (p q : UInt8) (rest : Bytes) (x : ℕ) :
    unescapeFrom s plusSpace (ch '%' :: p :: q :: rest) x
      = (hexDecode p q).getD (s.getD x 0) :: unescapeFrom s plusSpace rest (x + 1) := by
  rw [unescapeFrom, if_pos rfl]

/-- A `%` with fewer than two bytes behind it leaves the old byte, too, and the bytes behind it are
    read one by one. -/
theorem unescapeFrom_cut {s : Bytes} {plusSpace : Bool} {rest : Bytes}
    (hrest : rest.length < 2) (x : ℕ) :
    unescapeFrom s plusSpace (ch '%' :: rest) x = s.getD x 0 :: unescapeFrom
    s plusSpace rest (x + 1) := by
  match rest, hrest with
  | [], _ => simp [unescapeFrom]
  | [_], _ => simp [unescapeFrom]

/-- What is written is no longer than what is read. -/
theorem unescapeFrom_length_le (s : Bytes) (plusSpace : Bool) (rest : Bytes) (x : ℕ) :
    (unescapeFrom s plusSpace rest x).length ≤ rest.length := by
  fun_induction unescapeFrom s plusSpace rest x with
  | case1 => simp
  | case2 x p q rest ih => simp only [List.length_cons] at ih ⊢; omega
  | case3 x rest _ ih => simp only [List.length_cons] at ih ⊢; omega
  | case4 x c rest _ ih => simp only [List.length_cons] at ih ⊢; omega

/-- Decoding in place never runs ahead of itself. -/
theorem unescape_length_le (s : Bytes) (plusSpace : Bool) :
    (unescape s plusSpace).length ≤ s.length :=
  unescapeFrom_length_le s plusSpace s 0

/-! ### The memory of the loop

At every round it holds what is written so far, and then the rest of `s` as it was. -/

section Overwritten

variable {s out : Bytes} {i : ℕ}

/-- The memory keeps its length. -/
theorem overwritten_length (h : out.length ≤ s.length) :
    (out ++ s.drop out.length).length = s.length := by
  rw [List.length_append, List.length_drop]; omega

/-- From the write position on the old bytes are there, those the loop still has to read. -/
theorem overwritten_getElem? (h : out.length ≤ i) : (out ++ s.drop out.length)[i]? = s[i]? := by
  rw [List.getElem?_append_right h, List.getElem?_drop]
  congr 1
  omega

/-- Writing the next byte moves the write position on by one. -/
theorem overwritten_set? (h : out.length < s.length) (b : UInt8) :
    set? (out ++ s.drop out.length) out.length b
      = some ((out ++ [b]) ++ s.drop (out ++ [b]).length) := by
  rw [set?, if_pos (by rw [overwritten_length h.le]; exact h), List.set_append_right _ _ le_rfl,
    Nat.sub_self, List.drop_eq_getElem_cons h, List.set_cons_zero]
  simp

/-- Not writing a byte amounts to writing the old one. -/
theorem overwritten_keep (h : out.length < s.length) :
    out ++ s.drop out.length
      = (out ++ [s.getD out.length 0]) ++ s.drop (out ++ [s.getD out.length 0]).length := by
  have hget : s.getD out.length 0 = s.get ⟨out.length, h⟩ := by
    rw [List.getD_eq_getElem?_getD, List.getElem?_eq_getElem h]; rfl
  rw [hget, List.drop_eq_getElem_cons h]
  simp

/-- Decoding an escape reads its digits from bytes that have not been overwritten, and writes one
    byte. -/
theorem overwritten_decodeAt? {p q : UInt8} (hx : out.length ≤ i) (hi : i < s.length)
    (hp : s[i + 1]? = some p) (hq : s[i + 2]? = some q) :
    decodeAt? (out ++ s.drop out.length) out.length i
      = some ((out ++ [(hexDecode p q).getD (s.getD out.length 0)])
          ++ s.drop (out ++ [(hexDecode p q).getD (s.getD out.length 0)]).length) := by
  unfold decodeAt?
  rw [overwritten_getElem? (by omega), overwritten_getElem? (by omega), hp, hq]
  simp only
  cases hexDecode p q with
  | some b => exact overwritten_set? (by omega) b
  | none =>
    simp only [Option.getD_none]
    rw [if_pos (by rw [overwritten_length (by omega)]; omega), ← overwritten_keep (by omega)]

/-- Reading at an offset of the rest. -/
theorem getElem?_of_drop {rest : Bytes} (h : s.drop i = rest) (k : ℕ) : s[i + k]? = rest[k]? := by
  rw [← h, List.getElem?_drop]

/-- The byte at the read index is still the one of `s`. -/
theorem overwritten_head {c : UInt8} {rest : Bytes} (hx : out.length ≤ i)
    (h : s.drop i = c :: rest) : (out ++ s.drop out.length)[i]? = some c := by
  rw [overwritten_getElem? hx]
  exact getElem?_of_drop h 0

/-- How much is left to read. -/
theorem length_of_drop {c : UInt8} {rest : Bytes} (h : s.drop i = c :: rest) :
    i + 1 + rest.length = s.length := by
  have := congrArg List.length h
  rw [List.length_drop, List.length_cons] at this
  omega

end Overwritten

/-- The loop at read index `i`, with `out` written: it writes the rest of the decoded text. -/
theorem unescapeLoop_eq (s : Bytes) (plusSpace : Bool) (rest : Bytes)
    (x : ℕ) (out : Bytes) (n i : ℕ)
    (hrest : s.drop i = rest) (hout : out.length = x) (hx : x ≤ i) (hn : rest.length ≤ n) :
    unescapeLoop plusSpace n (out ++ s.drop out.length) i x
      = some (out ++ unescapeFrom s plusSpace rest x
          ++ s.drop (out ++ unescapeFrom s plusSpace rest x).length,
        (out ++ unescapeFrom s plusSpace rest x).length) := by
  fun_induction unescapeFrom s plusSpace rest x generalizing out n i with
  | case1 x =>
    have hread : (out ++ s.drop out.length)[i]? = none := by
      rw [overwritten_getElem? (by omega)]; exact getElem?_of_drop hrest 0
    cases n with
    | zero => simp [unescapeLoop, hout]
    | succ n => rw [unescapeLoop, hread]; simp [hout]
  | case2 x p q rest ih =>
    have hlen := length_of_drop hrest
    simp only [List.length_cons] at hn hlen
    obtain ⟨m, rfl⟩ : ∃ m, n = m + 1 := ⟨n - 1, by omega⟩
    have hread := overwritten_head (by omega : out.length ≤ i) hrest
    have hdec := overwritten_decodeAt? (by omega : out.length ≤ i) (by omega : i < s.length)
      (getElem?_of_drop hrest 1) (getElem?_of_drop hrest 2)
    have hstep := ih (out ++ [(hexDecode p q).getD (s.getD x 0)]) m (i + 3)
      (by rw [← List.drop_drop, hrest]; rfl) (by simp [hout]) (by omega) (by omega)
    rw [unescapeLoop, hread]
    simp only [if_true]
    rw [if_pos (by rw [overwritten_length (by omega)]; omega), ← hout, hdec]
    simp only [hout, Option.bind_eq_bind, Option.bind_some]
    rw [hstep]
    simp
  | case3 x rest hshort ih =>
    have hlen := length_of_drop hrest
    simp only [List.length_cons] at hn
    obtain ⟨m, rfl⟩ : ∃ m, n = m + 1 := ⟨n - 1, by omega⟩
    have hread := overwritten_head (by omega : out.length ≤ i) hrest
    -- Fewer than two bytes follow the percent sign.
    have hend : ¬ i + 2 < s.length := by
      match rest, hshort with
      | [], _ => simp at hlen; omega
      | [_], _ => simp at hlen; omega
      | p :: q :: r, hshort => exact absurd rfl (hshort p q r)
    have hstep := ih (out ++ [s.getD x 0]) m (i + 1) (by rw [← List.drop_drop, hrest]; rfl)
      (by simp [hout]) (by omega) (by omega)
    rw [unescapeLoop, hread]
    simp only [if_true]
    rw [if_neg (by rw [overwritten_length (by omega)]; omega),
      overwritten_keep (by omega), hout, hstep]
    simp
  | case4 c rest x hc ih =>
    have hlen := length_of_drop hrest
    simp only [List.length_cons] at hn
    obtain ⟨m, rfl⟩ : ∃ m, n = m + 1 := ⟨n - 1, by omega⟩
    have hread := overwritten_head (by omega : out.length ≤ i) hrest
    have hstep := ih (out ++ [if c = ch '+' ∧ plusSpace then ch ' ' else c]) m (i + 1)
      (by rw [← List.drop_drop, hrest]; rfl) (by simp [hout]) (by omega) (by omega)
    have hset : ∀ b, set? (out ++ s.drop out.length) out.length b
        = some ((out ++ [b]) ++ s.drop (out ++ [b]).length) := overwritten_set? (by omega)
    rw [unescapeLoop, hread]
    simp only [if_neg hc]
    have hbyte : (if c = ch '+' ∧ plusSpace then ch ' ' else c)
        = if c = ch '+' then if plusSpace then ch ' ' else ch '+' else c := by
      by_cases hplus : c = ch '+'
      · cases plusSpace <;> simp [hplus]
      · simp [hplus]
    rw [hbyte] at hstep ⊢
    by_cases hplus : c = ch '+'
    · rw [if_pos hplus] at hstep
      rw [if_pos hplus, if_pos hplus, ← hout, hset, hout]
      simp only [Option.bind_eq_bind, Option.bind_some]
      rw [hstep]
      simp
    · rw [if_neg hplus] at hstep
      rw [if_neg hplus, if_neg hplus, ← hout, hset, hout]
      simp only [Option.bind_eq_bind, Option.bind_some]
      rw [hstep]
      simp

/-- **`UnescapeInplace` writes the decoded text over the begin of its slice.** -/
theorem unescapeInplace_eq (s : Bytes) (plusSpace : Bool) :
    unescapeInplace s plusSpace
      = some (unescape s plusSpace ++ s.drop (unescape s plusSpace).length,
          (unescape s plusSpace).length) := by
  have h := unescapeLoop_eq s plusSpace s 0 [] s.length 0 rfl rfl le_rfl le_rfl
  simpa [unescapeInplace, unescape] using h

/-- It keeps the length of the memory and stays inside. -/
theorem unescapeInplace_spec (s : Bytes) (plusSpace : Bool) :
    ∃ s' k, unescapeInplace s plusSpace = some (s', k) ∧ s'.length = s.length ∧ k ≤ s.length := by
  have hle := unescape_length_le s plusSpace
  exact ⟨_, _, unescapeInplace_eq s plusSpace, overwritten_length hle, hle⟩

/-- A stale byte: the `%` of a truncated escape is not stored. -/
example : unescape (ascii "%41%") false = ascii "A4" := by decide

/-! ### Against a decoder into a fresh buffer

The reference keeps a `%` without two hexadecimal digits behind it as a literal, and goes on with
the byte after it.  The source stores nothing there, and skips two more bytes if it has them. -/

/-- The reference decoder. -/
def percentDecode (plusSpace : Bool) : Bytes → Bytes
  | [] => []
  | c :: rest =>
    if c = ch '%' then
      match rest with
      | p :: q :: rest =>
        match hexDecode p q with
        | some b => b :: percentDecode plusSpace rest
        | none => ch '%' :: percentDecode plusSpace (p :: q :: rest)
      | rest => ch '%' :: percentDecode plusSpace rest
    else (if c = ch '+' ∧ plusSpace then ch ' ' else c) :: percentDecode plusSpace rest

/-- Every `%` with two bytes behind it has two hexadecimal digits behind it. -/
def wellEscaped : Bytes → Bool
  | [] => true
  | c :: rest =>
    if c = ch '%' then
      match rest with
      | p :: q :: rest => (hexDecode p q).isSome && wellEscaped rest
      | rest => wellEscaped rest
    else wellEscaped rest

/-- Down the unread `rest` of the text `s`, with `x` bytes written: where a truncated escape
    stores nothing, `s` has a `%` at the write index. -/
def noStale (s : Bytes) : Bytes → ℕ → Bool
  | [], _ => true
  | c :: rest, x =>
    if c = ch '%' then
      match rest with
      | _ :: _ :: rest => noStale s rest (x + 1)
      | rest => (s.getD x 0 == ch '%') && noStale s rest (x + 1)
    else noStale s rest (x + 1)

/-- The reference copies a byte that is no `%`, and reads a plus as the source does. -/
theorem percentDecode_plain {plusSpace : Bool} {c : UInt8} (hc : c ≠ ch '%') (rest : Bytes) :
    percentDecode plusSpace (c :: rest)
      = (if c = ch '+' ∧ plusSpace then ch ' ' else c) :: percentDecode plusSpace rest := by
  match rest with
  | [] => simp [percentDecode, hc]
  | [_] => simp [percentDecode, hc]
  | _ :: _ :: _ => rw [percentDecode, if_neg hc]

/-- Where every complete escape is hexadecimal, a stale byte is the only difference. -/
theorem unescapeFrom_eq_percentDecode_iff (s : Bytes) (plusSpace : Bool) (rest : Bytes) (x : ℕ)
    (hrest : wellEscaped rest = true) :
    unescapeFrom s plusSpace rest x = percentDecode plusSpace rest ↔ noStale s rest x = true := by
  -- The recursion of the source: a complete escape, a truncated one, any other byte.
  fun_induction unescapeFrom s plusSpace rest x with
  | case1 x => simp [percentDecode, noStale]
  | case2 x p q rest ih =>
    rw [wellEscaped, if_pos rfl, Bool.and_eq_true, Option.isSome_iff_exists] at hrest
    obtain ⟨⟨b, hb⟩, hrest⟩ := hrest
    rw [percentDecode, if_pos rfl, noStale, if_pos rfl]
    simp only [hb, Option.getD_some, List.cons.injEq, true_and]
    exact ih hrest
  | case3 x rest hshort ih =>
    match rest, hshort with
    | [], _ => simp [unescapeFrom, percentDecode, noStale]
    | [c], _ =>
      have hc : wellEscaped [c] = true := by simp [wellEscaped]
      have hsplit : percentDecode plusSpace [ch '%', c]
          = ch '%' :: percentDecode plusSpace [c] := by
        simp [percentDecode]
      rw [hsplit, List.cons.injEq, ih hc]
      simp [noStale]
    | p :: q :: r, hshort => exact absurd rfl (hshort p q r)
  | case4 c rest x hc ih =>
    have hrest' : wellEscaped rest = true := by
      match rest, hrest with
      | [], h => rfl
      | [_], h => simp [wellEscaped]
      | _ :: _ :: _, h => rwa [wellEscaped, if_neg hc] at h
    have hstale : noStale s (c :: rest) x = noStale s rest (x + 1) := by
      match rest with
      | [] => simp [noStale, hc]
      | [_] => simp [noStale, hc]
      | _ :: _ :: _ => rw [noStale, if_neg hc]
    rw [percentDecode_plain hc, hstale, List.cons.injEq]
    exact ⟨fun h => (ih hrest').mp h.2, fun h => ⟨rfl, (ih hrest').mpr h⟩⟩

/-- **In-place unescaping and the reference decoder.** On every text whose complete escapes are
    hexadecimal, `UnescapeInplace` returns what the reference decoder returns iff no truncated
    escape leaves a stale byte. -/
theorem unescapeInplace_decodes_iff (s : Bytes) (plusSpace : Bool) (hs : wellEscaped s = true) :
    (∃ mem k, unescapeInplace s plusSpace = some (mem, k) ∧
      mem.take k = percentDecode plusSpace s) ↔ noStale s s 0 = true := by
  have htake : (unescape s plusSpace ++ s.drop (unescape s plusSpace).length).take
      (unescape s plusSpace).length = unescape s plusSpace := List.take_left
  rw [← unescapeFrom_eq_percentDecode_iff s plusSpace s 0 hs, unescapeInplace_eq]
  constructor
  · rintro ⟨mem, k, heq, hdec⟩
    cases heq
    exact htake.symm.trans hdec
  · intro hdec
    exact ⟨_, _, rfl, htake.trans hdec⟩

/-- Two escapes and a plus. -/
theorem unescapeInplace_decodes_iff_plus :
    ∃ mem k, unescapeInplace (ascii "a%20b+%4a") true = some (mem, k) ∧
    mem.take k = ascii "a b J" := by
  have hdec : percentDecode true (ascii "a%20b+%4a") = ascii "a b J" := by decide +kernel
  rw [← hdec]
  exact (unescapeInplace_decodes_iff (ascii "a%20b+%4a") true (by decide +kernel)).mpr
    (by decide +kernel)

/-- A malformed escape loses its two bytes; a truncated one behind an escape gives a byte that is
    left over from before. -/
theorem unescapeInplace_diverges :
    (∃ mem, unescapeInplace (ascii "%zz") false = some (mem, 1) ∧ mem.take 1 = ascii "%" ∧
      percentDecode false (ascii "%zz") = ascii "%zz") ∧
    ∃ mem, unescapeInplace (ascii "%41%4") false = some (mem, 3) ∧ mem.take 3 = ascii "A44" ∧
      percentDecode false (ascii "%41%4") = ascii "A%4" := by
  constructor
  · exact ⟨ascii "%zz", by decide +kernel, by decide +kernel, by decide +kernel⟩
  · exact ⟨ascii "A44%4", by decide +kernel, by decide +kernel, by decide +kernel⟩

end Resh.Server
