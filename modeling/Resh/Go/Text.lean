import Resh.Go.Bytes

namespace Resh.Go

/-!
# Text functions of the Go library

`bytes.TrimSpace`, `strings.EqualFold` against an ASCII text, ASCII case, one pair of
`encoding/hex.Decode`, and stores into a slice.  White space is Unicode's, so
`trimSpace` also removes the UTF-8 encodings of the white space above ASCII; a byte sequence
that is not UTF-8 is never white space.
-/

/-- `b[i] = c`; `none` is the panic of an index out of range. -/
def set? (b : Bytes) (i : ℕ) (c : UInt8) : Option Bytes :=
  if i < b.length then some (b.set i c) else none

/-- Overwrite the memory of `b` at `off`. -/
def splice (b : Bytes) (off : ℕ) (s : Bytes) : Bytes := b.take off ++ s ++ b.drop (off + s.length)

theorem splice_length {b s : Bytes} {off : ℕ} (h : off + s.length ≤ b.length) :
    (splice b off s).length = b.length := by
  simp only [splice, List.length_append, List.length_take, List.length_drop]
  omega

/-- Overwriting a part where it stands. -/
theorem splice_middle {pre l l' rest : Bytes} (h : l'.length = l.length) :
    splice (pre ++ l ++ rest) pre.length l' = pre ++ l' ++ rest := by
  have htake : (pre ++ l ++ rest).take pre.length = pre := by
    rw [List.append_assoc, List.take_left]
  have hdrop : (pre ++ l ++ rest).drop (pre.length + l'.length) = rest := by
    rw [h, ← List.length_append, List.drop_left]
  rw [splice, htake, hdrop]

/-! ### Memory that differs in some places only -/

/-- Two memories of one length, with the same bytes outside `P`. -/
structure EqOff (P : ℕ → Prop) (b d : Bytes) : Prop where
  length_eq : b.length = d.length
  get_eq : ∀ i, ¬ P i → b[i]? = d[i]?

namespace EqOff

variable {P Q : ℕ → Prop} {b c b' c' s : Bytes}

theorem refl (P : ℕ → Prop) (b : Bytes) : EqOff P b b := ⟨rfl, fun _ _ => rfl⟩

theorem mono (h : EqOff P b c) (hPQ : ∀ i, P i → Q i) : EqOff Q b c :=
  ⟨h.length_eq, fun i hi => h.get_eq i fun hp => hi (hPQ i hp)⟩

theorem append (h : EqOff P b c) (h' : EqOff Q b' c') :
    EqOff (fun i => P i ∨ (c.length ≤ i ∧ Q (i - c.length))) (b ++ b') (c ++ c') := by
  refine ⟨?_, fun i hi => ?_⟩
  · rw [List.length_append, List.length_append, h.length_eq, h'.length_eq]
  · rcases Nat.lt_or_ge i c.length with hlt | hge
    · have hlt' : i < b.length := by rwa [h.length_eq]
      rw [List.getElem?_append_left hlt, List.getElem?_append_left hlt']
      exact h.get_eq i fun hp => hi (.inl hp)
    · have hge' : b.length ≤ i := by rwa [h.length_eq]
      rw [List.getElem?_append_right hge, List.getElem?_append_right hge', h.length_eq]
      exact h'.get_eq _ fun hq => hi (.inr ⟨hge, hq⟩)

/-- A part replaced by one of the same length. -/
theorem middle (pre post : Bytes) (h : b.length = c.length) :
    EqOff (fun i => pre.length ≤ i ∧ i < pre.length + c.length)
    (pre ++ b ++ post) (pre ++ c ++ post) := by
  have hpart : EqOff (· < c.length) b c := by
    refine ⟨h, fun i hi => ?_⟩
    rw [List.getElem?_eq_none (by omega), List.getElem?_eq_none (by omega)]
  refine (((EqOff.refl (fun _ => False) pre).append hpart).append
    (.refl (fun _ => False) post)).mono ?_
  rintro i ((hfalse | ⟨hge, hlt⟩) | ⟨-, hfalse⟩)
  · exact absurd hfalse id
  · exact ⟨hge, by omega⟩
  · exact absurd hfalse id

/-- A store changes what it overwrites. -/
theorem splice {off : ℕ} (hs : off + s.length ≤ b.length) :
    EqOff (fun i => off ≤ i ∧ i < off + s.length) (splice b off s) b := by
  refine ⟨splice_length hs, fun i hi => ?_⟩
  have htake : (b.take off).length = off := by rw [List.length_take]; omega
  unfold Go.splice
  rcases Nat.lt_or_ge i off with hlt | hge
  · rw [List.append_assoc, List.getElem?_append_left (by omega), List.getElem?_take_of_lt hlt]
  · have hlen : (b.take off ++ s).length = off + s.length := by rw [List.length_append, htake]
    have hout : off + s.length ≤ i := by
      by_contra hin
      exact hi ⟨hge, by omega⟩
    rw [List.getElem?_append_right (by omega), hlen, List.getElem?_drop]
    congr 1
    omega

theorem take (h : EqOff P b c) (n : ℕ) : EqOff P (b.take n) (c.take n) := by
  refine ⟨?_, fun i hi => ?_⟩
  · rw [List.length_take, List.length_take, h.length_eq]
  · rw [List.getElem?_take, List.getElem?_take, h.get_eq i hi]

/-- A part outside `P` is the same in both. -/
theorem slice_eq (h : EqOff P b c) {lo hi : ℕ} (hout : ∀ i, lo ≤ i → i < hi → ¬ P i) :
    (b.take hi).drop lo = (c.take hi).drop lo := by
  apply List.ext_getElem?
  intro i
  rw [List.getElem?_drop, List.getElem?_drop, List.getElem?_take, List.getElem?_take]
  split
  · exact h.get_eq _ (hout _ (by omega) (by omega))
  · rfl

/-- What stands behind every place of `P` is the same in both. -/
theorem drop_eq (h : EqOff P b c) {lo : ℕ} (hout : ∀ i, lo ≤ i → ¬ P i) :
    b.drop lo = c.drop lo := by
  apply List.ext_getElem?
  intro i
  rw [List.getElem?_drop, List.getElem?_drop]
  exact h.get_eq _ (hout _ (by omega))

end EqOff

/-- The UTF-8 encodings of Unicode white space (`unicode.IsSpace`). -/
def spaces : List Bytes :=
  [[9], [10], [11], [12], [13], [32], [0xC2, 0x85], [0xC2, 0xA0], [0xE1, 0x9A, 0x80],
    [0xE2, 0x80, 0x80], [0xE2, 0x80, 0x81], [0xE2, 0x80, 0x82], [0xE2, 0x80, 0x83],
    [0xE2, 0x80, 0x84], [0xE2, 0x80, 0x85], [0xE2, 0x80, 0x86], [0xE2, 0x80, 0x87],
    [0xE2, 0x80, 0x88], [0xE2, 0x80, 0x89], [0xE2, 0x80, 0x8A], [0xE2, 0x80, 0xA8],
    [0xE2, 0x80, 0xA9], [0xE2, 0x80, 0xAF], [0xE2, 0x81, 0x9F], [0xE3, 0x80, 0x80]]

/-- Drop members of `rs` from the front, at most `n` of them. -/
def trimFront (rs : List Bytes) : ℕ → Bytes → Bytes
  | 0, s => s
  | n + 1, s =>
    match rs.find? (fun r => r.isPrefixOf s) with
    | some r => trimFront rs n (s.drop r.length)
    | none => s

/-- `bytes.TrimSpace(s)`. -/
def trimSpace (s : Bytes) : Bytes :=
  let t := trimFront spaces s.length s
  (trimFront (spaces.map List.reverse) t.length t.reverse).reverse

/-- ASCII upper case to lower case, every other byte unchanged. -/
def lower (c : UInt8) : UInt8 :=
  if ch 'A' ≤ c ∧ c ≤ ch 'Z' then c - ch 'A' + ch 'a' else c

/-- Only letters come from upper case. -/
theorem eq_of_lower_eq {c d : UInt8} (h : lower c = d) (hd : ¬ (ch 'a' ≤ d ∧ d ≤ ch 'z')) :
    c = d := by
  unfold lower at h
  split at h
  · rename_i hc
    have hA : ch 'A' = 65 := rfl
    have hZ : ch 'Z' = 90 := rfl
    have ha : ch 'a' = 97 := rfl
    have hz : ch 'z' = 122 := rfl
    rw [hA, hZ] at hc
    rw [hA, ha] at h
    rw [ha, hz] at hd
    refine absurd ?_ hd
    rw [← h]
    simp only [UInt8.le_iff_toNat_le, UInt8.toNat_add, UInt8.toNat_sub, UInt8.reduceToNat] at hc ⊢
    omega
  · exact h

/-- `strings.EqualFold(s, t)` for an ASCII text `t`.  Above ASCII only the long s (U+017F) and
    the Kelvin sign (U+212A) fold to ASCII letters. -/
def equalFold : Bytes → Bytes → Bool
  | s, [] => s.isEmpty
  | s, c :: t =>
    match s with
    | 0xC5 :: 0xBF :: s => lower c == ch 's' && equalFold s t
    | 0xE2 :: 0x84 :: 0xAA :: s => lower c == ch 'k' && equalFold s t
    | b :: s => lower b == lower c && equalFold s t
    | [] => false

/-- The value of a hexadecimal digit. -/
def hexVal (c : UInt8) : Option UInt8 :=
  if ch '0' ≤ c ∧ c ≤ ch '9' then some (c - ch '0')
  else if ch 'a' ≤ c ∧ c ≤ ch 'f' then some (c - ch 'a' + 10)
  else if ch 'A' ≤ c ∧ c ≤ ch 'F' then some (c - ch 'A' + 10)
  else none

/-- The byte of two hexadecimal digits; `none` where `hex.Decode` fails and stores nothing. -/
def hexDecode (p q : UInt8) : Option UInt8 :=
  match hexVal p, hexVal q with
  | some a, some b => some (a * 16 + b)
  | _, _ => none

example : trimSpace (ascii " \t a b \r") = ascii "a b" := by decide
example : equalFold (ascii "WebSocket") (ascii "websocket") = true := by decide

end Resh.Go
