import Mathlib.Data.List.Basic
import Mathlib.Data.List.Infix
import Mathlib.Tactic.Common

namespace Resh.Go

/-!
# Go byte slices

The operations of `[]byte` and of package `bytes` that a byte-level parser uses, over
`Bytes = List UInt8`:

* `at?` / `slice?` — indexing and slicing; `none` is the run-time panic of an index out of range.  A
  slice expression of Go may reach up to the capacity; `slice?` stops at the length, so it panics at
  least as often, and a caller that can come behind the length hands it the bytes there as well;
* `index?`, `indexByte?`, `lastIndexByte?` — `bytes.Index` and its variants, `none` for `-1`;
* `splitCrlf` — the lines of a text, cut at every CR LF.

The results are about the *first* occurrence: it is the same in every longer text
(`index?_append`), and it splits the text (`index?_split`).
-/

/-- The content of a Go `[]byte` or `string`. -/
abbrev Bytes := List UInt8

/-- The byte of an ASCII character. -/
def ch (c : Char) : UInt8 := c.toNat.toUInt8

/-- The bytes of an ASCII literal. -/
def ascii (s : String) : Bytes := s.toList.map ch

/-- `"\r\n"`. -/
def crlf : Bytes := [13, 10]

/-- CR LF is two bytes. -/
@[simp] theorem crlf_length : crlf.length = 2 := rfl

/-- A fact about all bytes, from the 256 of them: so it can be decided. -/
theorem forall_byte {P : UInt8 → Prop} (h : ∀ n : Fin 256, P (UInt8.ofNat n)) (c : UInt8) :
    P c := by
  have hc := h ⟨c.toNat, c.toNat_lt⟩
  rwa [UInt8.ofNat_toNat] at hc

/-! ### Indexing and slicing -/

/-- `b[i]`. -/
def at? (b : Bytes) (i : Int) : Option UInt8 :=
  if 0 ≤ i then b[i.toNat]? else none

/-- `b[lo:hi]`. -/
def slice? (b : Bytes) (lo hi : Int) : Option Bytes :=
  if 0 ≤ lo ∧ lo ≤ hi ∧ hi ≤ b.length then some ((b.take hi.toNat).drop lo.toNat) else none

/-- A negative index is out of range, as in Go. -/
theorem at?_neg (b : Bytes) {i : Int} (h : i < 0) : at? b i = none :=
  if_neg (by omega)

/-- Other indices are those of the list. -/
theorem at?_ofNat (b : Bytes) (i : ℕ) : at? b i = b[i]? := by
  simp [at?]

/-- A byte in range stays where it is when the text grows. -/
theorem at?_append (b t : Bytes) {i : Int} (h : i < b.length) : at? (b ++ t) i = at? b i := by
  unfold at?
  by_cases h0 : 0 ≤ i
  · rw [if_pos h0, if_pos h0, List.getElem?_append_left (by omega)]
  · rw [if_neg h0, if_neg h0]

/-- An index in range has a byte. -/
theorem at?_isSome (b : Bytes) {i : Int} (h0 : 0 ≤ i) (h : i < b.length) : ∃ c, at? b i = some c :=
  ⟨b.get ⟨i.toNat, by omega⟩, by
    rw [at?, if_pos h0, List.getElem?_eq_getElem (by omega)]; rfl⟩

/-- A line end is read back where it was appended. -/
theorem at?_crlf (u v : Bytes) :
    at? (u ++ crlf ++ v) u.length = some 13 ∧ at? (u ++ crlf ++ v) (u.length + 1) = some 10 := by
  have hsucc : (u.length + 1 : ℤ) = ((u.length + 1 : ℕ) : ℤ) := by push_cast; rfl
  rw [hsucc, at?_ofNat, at?_ofNat]
  simp [crlf]

/-- A line end read at `n` is where the text goes on. -/
theorem drop_eq_crlf_append {b : Bytes} {n : ℕ} (hcr : at? b n = some 13)
    (hlf : at? b (n + 1) = some 10) : b.drop n = crlf ++ b.drop (n + 2) := by
  rw [at?_ofNat] at hcr
  rw [show (n + 1 : ℤ) = ((n + 1 : ℕ) : ℤ) by push_cast; rfl, at?_ofNat] at hlf
  obtain ⟨h₁, e₁⟩ := List.getElem?_eq_some_iff.mp hcr
  obtain ⟨h₂, e₂⟩ := List.getElem?_eq_some_iff.mp hlf
  rw [List.drop_eq_getElem_cons h₁, List.drop_eq_getElem_cons h₂, e₁, e₂]
  rfl

/-- A slice expression whose bounds are in order and within the length. -/
theorem slice?_eq_some (b : Bytes) {lo hi : ℕ} (h₁ : lo ≤ hi) (h₂ : hi ≤ b.length) :
    slice? b lo hi = some ((b.take hi).drop lo) := by
  unfold slice?
  rw [if_pos (by omega)]
  simp

/-- Bounds that cross are a panic. -/
theorem slice?_eq_none (b : Bytes) {lo hi : Int} (h : hi < lo) : slice? b lo hi = none :=
  if_neg (by omega)

/-- A slice up to the end. -/
theorem slice?_tail_eq_some {b : Bytes} {c : ℕ} {r : Bytes} :
    slice? b c b.length = some r ↔ c ≤ b.length ∧ r = b.drop c := by
  unfold slice?
  split
  · rename_i h
    simp only [Int.toNat_natCast, List.take_length, Option.some.injEq]
    exact ⟨fun e => ⟨by omega, e.symm⟩, fun e => e.2.symm⟩
  · rename_i h
    exact ⟨fun e => absurd e (by simp), fun e => absurd e.1 (by omega)⟩

/-! ### First occurrences -/

/-- `bytes.Index(s, sep)`; `none` where Go returns `-1`. -/
def index? (sep : Bytes) : Bytes → Option ℕ
  | [] => if sep = [] then some 0 else none
  | b :: s => if sep.isPrefixOf (b :: s) then some 0 else (index? sep s).map (· + 1)

/-- `bytes.IndexByte(s, c)`. -/
def indexByte? (c : UInt8) (s : Bytes) : Option ℕ := s.findIdx? (· == c)

/-- `bytes.LastIndexByte(s, c)`. -/
def lastIndexByte? (c : UInt8) (s : Bytes) : Option ℕ :=
  (s.reverse.findIdx? (· == c)).map (fun i => s.length - 1 - i)

/-- **First occurrence.** `index? sep s = some i` says that `sep` stands at `i` and at no
    earlier place. -/
theorem index?_eq_some_iff (sep s : Bytes) (i : ℕ) :
    index? sep s = some i ↔ sep <+: s.drop i ∧ ∀ j < i, ¬ sep <+: s.drop j := by
  induction s generalizing i with
  | nil =>
    by_cases hs : sep = []
    · simp only [index?, hs, if_true, Option.some.injEq, List.drop_nil, List.prefix_rfl, true_and]
      constructor
      · rintro rfl; intro j hj; omega
      · intro h
        by_contra hi
        exact h 0 (by omega) trivial
    · simp [index?, hs]
  | cons b s ih =>
    by_cases hp : sep <+: b :: s
    · have hp' : sep.isPrefixOf (b :: s) = true := List.isPrefixOf_iff_prefix.mpr hp
      simp only [index?, hp', if_true, Option.some.injEq]
      constructor
      · rintro rfl; exact ⟨by simpa using hp, by intro j hj; omega⟩
      · rintro ⟨-, h⟩
        by_contra hi
        exact h 0 (by omega) (by simpa using hp)
    · have hp' : ¬ sep.isPrefixOf (b :: s) = true := fun h => hp (List.isPrefixOf_iff_prefix.mp h)
      simp only [index?, hp', Bool.false_eq_true, if_false, Option.map_eq_some_iff, ih]
      constructor
      · rintro ⟨j, ⟨h₁, h₂⟩, rfl⟩
        refine ⟨by simpa using h₁, ?_⟩
        intro k hk
        cases k with
        | zero => simpa using hp
        | succ k => simpa using h₂ k (by omega)
      · rintro ⟨h₁, h₂⟩
        cases i with
        | zero => exact absurd (by simpa using h₁) hp
        | succ i =>
          exact ⟨i, ⟨by simpa using h₁, fun j hj => by simpa using h₂ (j + 1) (by omega)⟩, rfl⟩

/-- A separator that is found stands within the text to its end. -/
theorem index?_le {sep s : Bytes} {i : ℕ} (hs : sep ≠ []) (h : index? sep s = some i) :
    i + sep.length ≤ s.length := by
  have hp := ((index?_eq_some_iff sep s i).mp h).1.length_le
  have hpos : 0 < sep.length := List.length_pos_iff.mpr hs
  rw [List.length_drop] at hp
  omega

/-- An occurrence inside a prefix of the text is one of the prefix. -/
private theorem prefix_drop_append_iff (sep s t : Bytes) (j : ℕ) (h : j + sep.length ≤ s.length) :
    sep <+: (s ++ t).drop j ↔ sep <+: s.drop j := by
  rw [List.drop_append_of_le_length (by omega)]
  constructor
  · intro hp
    exact List.prefix_of_prefix_length_le hp (List.prefix_append _ _)
      (by rw [List.length_drop]; omega)
  · intro hp; exact hp.trans (List.prefix_append _ _)

/-- **Stability.** The first occurrence stays the first one in every longer text. -/
theorem index?_append {sep s : Bytes} {i : ℕ} (hs : sep ≠ []) (h : index? sep s = some i)
    (t : Bytes) : index? sep (s ++ t) = some i := by
  have hle := index?_le hs h
  rw [index?_eq_some_iff] at h ⊢
  refine ⟨(prefix_drop_append_iff sep s t i hle).mpr h.1, ?_⟩
  intro j hj
  rw [prefix_drop_append_iff sep s t j (by omega)]
  exact h.2 j hj

/-- The text around the first occurrence. -/
theorem index?_split {sep s : Bytes} {i : ℕ} (h : index? sep s = some i) :
    s = s.take i ++ sep ++ s.drop (i + sep.length) := by
  obtain ⟨t, ht⟩ := ((index?_eq_some_iff sep s i).mp h).1
  have hd : s.drop (i + sep.length) = t := by
    rw [← List.drop_drop, ← ht, List.drop_left]
  rw [hd, List.append_assoc, ht, List.take_append_drop]

/-- `-1` means that the separator does not occur at all. -/
theorem index?_eq_none_iff (sep s : Bytes) : index? sep s = none ↔ ¬ sep <:+: s := by
  induction s with
  | nil =>
    by_cases hs : sep = [] <;> simp [index?, hs]
  | cons b s ih =>
    have hp : sep.isPrefixOf (b :: s) = true ↔ sep <+: b :: s := List.isPrefixOf_iff_prefix
    rw [List.infix_cons_iff, not_or, ← ih]
    by_cases h : sep <+: b :: s
    · simp [index?, hp.mpr h, h]
    · simp [index?, mt hp.mp h, h]

/-- A text cut before the end of the first occurrence does not hold the separator. -/
theorem index?_take_none {sep s : Bytes} {i k : ℕ} (hs : sep ≠ []) (h : index? sep s = some i)
    (hk : k < i + sep.length) : index? sep (s.take k) = none := by
  cases hj : index? sep (s.take k) with
  | none => rfl
  | some j =>
    have hle := index?_le hs hj
    have hji := index?_append hs hj (s.drop k)
    rw [List.take_append_drop, h, Option.some.injEq] at hji
    rw [List.length_take] at hle
    omega

/-- A byte that is found stands within the text. -/
theorem indexByte?_lt {c : UInt8} {s : Bytes} {i : ℕ} (h : indexByte? c s = some i) :
    i < s.length := by
  obtain ⟨hlt, -, -⟩ := List.findIdx?_eq_some_iff_getElem.mp h
  exact hlt

/-- The last occurrence is within the text, too. -/
theorem lastIndexByte?_lt {c : UInt8} {s : Bytes} {i : ℕ} (h : lastIndexByte? c s = some i) :
    i < s.length := by
  unfold lastIndexByte? at h
  rw [Option.map_eq_some_iff] at h
  obtain ⟨j, hj, rfl⟩ := h
  obtain ⟨hlt, -, -⟩ := List.findIdx?_eq_some_iff_getElem.mp hj
  rw [List.length_reverse] at hlt
  omega

/-- The last occurrence of a byte is not in front of the first one. -/
theorem indexByte?_le_lastIndexByte? {c : UInt8} {s : Bytes} {i j : ℕ}
    (hi : indexByte? c s = some i) (hj : lastIndexByte? c s = some j) : i ≤ j := by
  obtain ⟨hlt, hc, -⟩ := List.findIdx?_eq_some_iff_getElem.mp hi
  unfold lastIndexByte? at hj
  rw [Option.map_eq_some_iff] at hj
  obtain ⟨k, hk, rfl⟩ := hj
  obtain ⟨hklt, -, hmin⟩ := List.findIdx?_eq_some_iff_getElem.mp hk
  rw [List.length_reverse] at hklt
  by_contra hij
  -- Then the reversed text would hold the byte before its first occurrence there.
  have hno := hmin (s.length - 1 - i) (by omega)
  rw [List.getElem_reverse] at hno
  have hidx : s.length - 1 - (s.length - 1 - i) = i := by omega
  simp only [hidx] at hno
  exact hno hc

/-- At the index that is found stands the byte. -/
theorem indexByte?_get {c : UInt8} {s : Bytes} {i : ℕ} (h : indexByte? c s = some i) :
    s[i]? = some c := by
  obtain ⟨hlt, hc, -⟩ := List.findIdx?_eq_some_iff_getElem.mp h
  rw [List.getElem?_eq_getElem hlt, eq_of_beq hc]

/-- The text from the byte that is found: the byte, and what is behind it. -/
theorem indexByte?_drop {c : UInt8} {s : Bytes} {i : ℕ} (h : indexByte? c s = some i) :
    s.drop i = c :: s.drop (i + 1) := by
  have hlt := indexByte?_lt h
  have hget := indexByte?_get h
  rw [List.getElem?_eq_getElem hlt, Option.some.injEq] at hget
  rw [List.drop_eq_getElem_cons hlt, hget]

/-- At the last occurrence stands the byte, too. -/
theorem lastIndexByte?_get {c : UInt8} {s : Bytes} {i : ℕ} (h : lastIndexByte? c s = some i) :
    s[i]? = some c := by
  unfold lastIndexByte? at h
  rw [Option.map_eq_some_iff] at h
  obtain ⟨j, hj, rfl⟩ := h
  have hget := indexByte?_get hj
  have hlt := indexByte?_lt hj
  rwa [List.getElem?_reverse (by rwa [List.length_reverse] at hlt)] at hget

/-- The first occurrence of a byte, behind a text without it. -/
theorem indexByte?_append {c : UInt8} {u : Bytes} (hu : c ∉ u) (v : Bytes) :
    indexByte? c (u ++ c :: v) = some u.length := by
  refine List.findIdx?_eq_some_iff_getElem.mpr ⟨by simp, by simp, fun j hj => ?_⟩
  rw [List.getElem_append_left hj]
  intro hc
  exact hu (eq_of_beq hc ▸ List.getElem_mem hj)

/-- The last occurrence of a byte, in front of a text without it. -/
theorem lastIndexByte?_append {c : UInt8} (u : Bytes) {v : Bytes} (hv : c ∉ v) :
    lastIndexByte? c (u ++ c :: v) = some u.length := by
  have hrev : indexByte? c (u ++ c :: v).reverse = some v.length := by
    rw [List.reverse_append, List.reverse_cons, List.append_assoc, List.singleton_append,
      indexByte?_append (by simpa using hv), List.length_reverse]
  show (indexByte? c (u ++ c :: v).reverse).map _ = _
  rw [hrev, Option.map_some, Option.some.injEq, List.length_append, List.length_cons]
  omega

/-- The search fails exactly on texts without the byte. -/
theorem indexByte?_eq_none {c : UInt8} {s : Bytes} : indexByte? c s = none ↔ c ∉ s := by
  unfold indexByte?
  rw [List.findIdx?_eq_none_iff]
  constructor
  · intro h hc
    exact absurd (h c hc) (by simp)
  · intro h d hd
    simpa using fun hdc : d = c => h (hdc ▸ hd)

/-- Two occurrences. -/
theorem two_le_count {c : UInt8} {s : Bytes} {i j : ℕ} (hij : i < j) (hi : s[i]? = some c)
    (hj : s[j]? = some c) : 2 ≤ s.count c := by
  have hfirst : c ∈ s.take j := List.mem_iff_getElem?.mpr ⟨i, by rwa [List.getElem?_take_of_lt hij]⟩
  have hlast : c ∈ s.drop j := List.mem_iff_getElem?.mpr
    ⟨0, by rwa [List.getElem?_drop, Nat.add_zero]⟩
  have hsplit : s.count c = (s.take j).count c + (s.drop j).count c := by
    rw [← List.count_append, List.take_append_drop]
  have := List.count_pos_iff.mpr hfirst
  have := List.count_pos_iff.mpr hlast
  omega

/-! ### Lines -/

/-- A text without CR LF. -/
def NoCrlf (s : Bytes) : Prop := ¬ crlf <:+: s

instance (s : Bytes) : Decidable (NoCrlf s) := inferInstanceAs (Decidable (¬ crlf <:+: s))

/-- A text has no CR LF exactly when the search for it fails. -/
theorem noCrlf_iff (s : Bytes) : NoCrlf s ↔ index? crlf s = none := (index?_eq_none_iff crlf s).symm

/-- A line end stands at `j` iff its two bytes do. -/
theorem crlf_prefix_drop_iff (s : Bytes) (j : ℕ) :
    crlf <+: s.drop j ↔ s[j]? = some 13 ∧ s[j + 1]? = some 10 := by
  constructor
  · rintro ⟨t, ht⟩
    have hget : ∀ i, s[j + i]? = (crlf ++ t)[i]? := fun i => by rw [ht, List.getElem?_drop]
    exact ⟨hget 0, hget 1⟩
  · rintro ⟨hcr, hlf⟩
    refine ⟨s.drop (j + 2), (drop_eq_crlf_append ?_ ?_).symm⟩
    · rwa [at?_ofNat]
    · rwa [show (j + 1 : ℤ) = ((j + 1 : ℕ) : ℤ) by push_cast; rfl, at?_ofNat]

/-- A text holds CR LF iff the two bytes stand side by side in it. -/
theorem crlf_infix_iff (s : Bytes) :
    crlf <:+: s ↔ ∃ j : ℕ, s[j]? = some 13 ∧ s[j + 1]? = some 10 := by
  simp only [← crlf_prefix_drop_iff]
  constructor
  · rintro ⟨u, v, rfl⟩
    refine ⟨u.length, v, ?_⟩
    rw [List.append_assoc, List.drop_left]
  · rintro ⟨j, hj⟩
    exact hj.isInfix.trans (List.drop_suffix j s).isInfix

/-- A text whose CRs and LFs are also in `s` has no CR LF if `s` has none. -/
theorem NoCrlf.of_getElem? {s s' : Bytes} (h : NoCrlf s)
    (hsub : ∀ (j : ℕ) (c : UInt8), c = 13 ∨ c = 10 → s'[j]? = some c → s[j]? = some c) :
    NoCrlf s' := by
  rw [NoCrlf, crlf_infix_iff]
  rintro ⟨j, hcr, hlf⟩
  exact h ((crlf_infix_iff s).mpr ⟨j, hsub j _ (Or.inl rfl) hcr, hsub (j + 1) _ (Or.inr rfl) hlf⟩)

/-- A text without LF puts no line end behind one without. -/
theorem NoCrlf.append {u v : Bytes} (hu : NoCrlf u) (hv : (10 : UInt8) ∉ v) : NoCrlf (u ++ v) := by
  intro hinf
  obtain ⟨j, hcr, hlf⟩ := (crlf_infix_iff _).mp hinf
  rcases Nat.lt_or_ge (j + 1) u.length with hlt | hge
  · rw [List.getElem?_append_left (by omega)] at hcr
    rw [List.getElem?_append_left hlt] at hlf
    exact hu ((crlf_infix_iff u).mpr ⟨j, hcr, hlf⟩)
  · rw [List.getElem?_append_right hge] at hlf
    exact hv (List.mem_of_getElem? hlf)

/-- Put one byte in front of the first piece. -/
def consHead (b : UInt8) : List Bytes → List Bytes
  | [] => [[b]]
  | l :: ls => (b :: l) :: ls

/-- The pieces of a text between its CR LFs; `n` separators give `n + 1` pieces. -/
def splitCrlf : Bytes → List Bytes
  | [] => [[]]
  | 13 :: 10 :: s => [] :: splitCrlf s
  | b :: s => consHead b (splitCrlf s)

/-- Text and line end, line by line. -/
def joinLines (ls : List Bytes) : Bytes := ls.flatMap (· ++ crlf)

/-- No lines, no bytes. -/
@[simp] theorem joinLines_nil : joinLines [] = [] := rfl

/-- Every line is followed by its CR LF, the first too. -/
@[simp] theorem joinLines_cons (l : Bytes) (ls : List Bytes) :
    joinLines (l :: ls) = l ++ crlf ++ joinLines ls := by
  simp [joinLines]

/-- Blocks of lines are written one behind the other. -/
theorem joinLines_append (ls ms : List Bytes) :
    joinLines (ls ++ ms) = joinLines ls ++ joinLines ms := by
  simp [joinLines]

/-- Every line has a line end. -/
theorem length_le_joinLines (ls : List Bytes) : ls.length ≤ (joinLines ls).length := by
  induction ls with
  | nil => exact Nat.le_refl _
  | cons l ls ih =>
    simp only [joinLines_cons, List.length_append, List.length_cons, crlf_length]
    omega

/-- One byte that does not open a CR LF is put in front of the first piece. -/
theorem splitCrlf_cons {b : UInt8} {s : Bytes} (h : ¬ crlf <+: b :: s) :
    splitCrlf (b :: s) = consHead b (splitCrlf s) := by
  rw [splitCrlf]
  rintro s' rfl rfl
  exact h ⟨s', rfl⟩

/-- A byte in front of the first line stays there when lines are added at the end. -/
theorem consHead_append (b : UInt8) {ls : List Bytes} (h : ls ≠ []) (ms : List Bytes) :
    consHead b (ls ++ ms) = consHead b ls ++ ms := by
  cases ls with
  | nil => exact absurd rfl h
  | cons l ls => rfl

/-- A text has at least one piece, the empty text an empty one. -/
theorem splitCrlf_ne_nil (s : Bytes) : splitCrlf s ≠ [] := by
  unfold splitCrlf
  split
  · simp
  · simp
  · unfold consHead; split <;> simp

/-- **A line end cuts.** Nothing in front of a CR LF reaches over it. -/
theorem splitCrlf_append_crlf (u s : Bytes) :
    splitCrlf (u ++ crlf ++ s) = splitCrlf u ++ splitCrlf s := by
  induction u using splitCrlf.induct with
  | case1 => rfl
  | case2 u ih => simpa [splitCrlf] using ih
  | case3 b u hb ih =>
    have hu : ¬ crlf <+: b :: u := by
      rintro ⟨t, ht⟩
      simp only [crlf, List.cons_append, List.nil_append, List.cons.injEq] at ht
      exact hb t ht.1.symm ht.2.symm
    -- The only new neighbour of `b` is the CR of the separator, never an LF.
    have hus : ¬ crlf <+: b :: (u ++ crlf ++ s) := by
      rintro ⟨t, ht⟩
      cases u with
      | nil => simp [crlf] at ht
      | cons c u =>
        simp only [crlf, List.cons_append, List.nil_append, List.cons.injEq] at ht
        exact hb u ht.1.symm (by rw [ht.2.1])
    rw [List.cons_append, List.cons_append, splitCrlf_cons hus, splitCrlf_cons hu, ih,
      consHead_append b (splitCrlf_ne_nil u)]

/-- A text without CR LF is its only piece. -/
theorem splitCrlf_of_noCrlf {s : Bytes} (h : NoCrlf s) : splitCrlf s = [s] := by
  induction s with
  | nil => rfl
  | cons b s ih =>
    have hs : NoCrlf s := fun hi => h (List.infix_cons hi)
    rw [splitCrlf_cons (fun hp => h hp.isInfix), ih hs]
    rfl

/-- `splitCrlf` is the repeated search for CR LF that the parsers make. -/
theorem splitCrlf_of_index? {s : Bytes} {i : ℕ} (h : index? crlf s = some i) :
    splitCrlf s = s.take i :: splitCrlf (s.drop (i + 2)) := by
  have hno : NoCrlf (s.take i) :=
    (noCrlf_iff _).mpr (index?_take_none (by simp [crlf]) h (by simp))
  conv_lhs => rw [index?_split h]
  rw [splitCrlf_append_crlf, splitCrlf_of_noCrlf hno]
  rfl

/-- A text without CR LF is found again in front of the first line end. -/
theorem index?_crlf_append {l : Bytes} (h : NoCrlf l) (s : Bytes) :
    index? crlf (l ++ crlf ++ s) = some l.length := by
  cases hi : index? crlf (l ++ crlf ++ s) with
  | none =>
    rw [index?_eq_none_iff] at hi
    exact absurd ⟨l, s, rfl⟩ hi
  | some i =>
    have h₁ := splitCrlf_of_index? hi
    rw [splitCrlf_append_crlf, splitCrlf_of_noCrlf h, List.singleton_append, List.cons.injEq] at h₁
    have hle := index?_le (by simp [crlf]) hi
    rw [h₁.1, List.length_take]
    simp only [Option.some.injEq]
    omega

/-- The pieces hold no line end. -/
theorem noCrlf_of_mem_splitCrlf {s l : Bytes} (h : l ∈ splitCrlf s) : NoCrlf l := by
  cases hi : index? crlf s with
  | none =>
    rw [splitCrlf_of_noCrlf ((noCrlf_iff s).mpr hi), List.mem_singleton] at h
    rw [h, noCrlf_iff, hi]
  | some i =>
    have hle := index?_le (by simp [crlf]) hi
    rw [splitCrlf_of_index? hi, List.mem_cons] at h
    rcases h with rfl | h
    · exact (noCrlf_iff _).mpr (index?_take_none (by simp [crlf]) hi (by simp))
    · exact noCrlf_of_mem_splitCrlf h
termination_by s.length
decreasing_by simp only [crlf_length, List.length_drop] at hle ⊢; omega

/-- Every piece closed by a line end gives the text back, closed by a line end. -/
theorem splitCrlf_joinLines {ls : List Bytes} (h : ∀ l ∈ ls, NoCrlf l) (s : Bytes) :
    splitCrlf (joinLines ls ++ s) = ls ++ splitCrlf s := by
  induction ls with
  | nil => rfl
  | cons l ls ih =>
    rw [joinLines_cons, List.append_assoc, splitCrlf_append_crlf,
      splitCrlf_of_noCrlf (h l (by simp)), ih (fun m hm => h m (by simp [hm]))]
    rfl

/-- **Splitting loses nothing**: the pieces, each with a CR LF behind it, are the text with one CR
    LF more. -/
theorem joinLines_splitCrlf (s : Bytes) : joinLines (splitCrlf s) = s ++ crlf := by
  cases hi : index? crlf s with
  | none =>
    rw [splitCrlf_of_noCrlf ((noCrlf_iff s).mpr hi)]
    simp
  | some i =>
    have hle := index?_le (by simp [crlf]) hi
    rw [splitCrlf_of_index? hi, joinLines_cons, joinLines_splitCrlf (s.drop (i + 2))]
    conv_rhs => rw [index?_split hi]
    simp
termination_by s.length
decreasing_by simp only [crlf_length, List.length_drop] at hle ⊢; omega

/-- **An empty piece** stands between two line ends, or between one and an end of the text. -/
theorem nil_mem_splitCrlf_iff (s : Bytes) :
    [] ∈ splitCrlf s ↔ ∃ j ≤ s.length, (j = 0 ∨ ∃ k, j = k + 2 ∧ crlf <+: s.drop k) ∧
      (j = s.length ∨ crlf <+: s.drop j) := by
  constructor
  · intro hnil
    cases hi : index? crlf s with
    | none =>
      rw [splitCrlf_of_noCrlf ((noCrlf_iff s).mpr hi), List.mem_singleton] at hnil
      exact ⟨0, Nat.zero_le _, .inl rfl, .inl (by rw [← hnil]; rfl)⟩
    | some i =>
      have hle := index?_le (by simp [crlf]) hi
      have hcrlf := ((index?_eq_some_iff _ _ _).mp hi).1
      rw [crlf_length] at hle
      rw [splitCrlf_of_index? hi, List.mem_cons] at hnil
      rcases hnil with hfirst | hlater
      · have hzero : i = 0 := by
          have hlen := congrArg List.length hfirst
          rw [List.length_nil, List.length_take] at hlen
          omega
        subst hzero
        exact ⟨0, Nat.zero_le _, .inl rfl, .inr hcrlf⟩
      · obtain ⟨j, hj, hbefore, hbehind⟩ := (nil_mem_splitCrlf_iff (s.drop (i + 2))).mp hlater
        rw [List.length_drop] at hj hbehind
        rw [List.drop_drop] at hbehind
        have hstart : ∃ k, i + 2 + j = k + 2 ∧ crlf <+: s.drop k := by
          rcases hbefore with rfl | ⟨k, rfl, hk⟩
          · exact ⟨i, rfl, hcrlf⟩
          · exact ⟨i + 2 + k, rfl, by rwa [List.drop_drop] at hk⟩
        clear hbefore
        exact ⟨i + 2 + j, by omega, .inr hstart, hbehind.imp_left fun hend => by omega⟩
  · rintro ⟨j, hj, hbefore, hbehind⟩
    -- the text from `j` on begins with the empty piece
    have hhere : [] ∈ splitCrlf (s.drop j) := by
      rcases hbehind with rfl | ⟨t, ht⟩
      · rw [List.drop_length]
        exact List.mem_singleton_self _
      · rw [← ht, show crlf ++ t = [] ++ crlf ++ t from rfl, splitCrlf_append_crlf]
        exact List.mem_append_left _ (List.mem_singleton_self _)
    rcases hbefore with rfl | ⟨k, rfl, t, ht⟩
    · exact hhere
    · rw [← List.drop_drop, ← ht] at hhere
      rw [← List.take_append_drop k s, ← ht, ← List.append_assoc, splitCrlf_append_crlf]
      exact List.mem_append_right _ hhere
termination_by s.length
decreasing_by simp only [crlf_length, List.length_drop] at hle ⊢; omega

/-- A list of lines ends with a line end. -/
theorem exists_joinLines_eq (l : Bytes) (ls : List Bytes) :
    ∃ u, joinLines (l :: ls) = u ++ crlf := by
  induction ls generalizing l with
  | nil => exact ⟨l, by simp⟩
  | cons m ls ih =>
    obtain ⟨u, hu⟩ := ih m
    exact ⟨l ++ crlf ++ u, by rw [joinLines_cons, hu]; simp⟩

/-- **The header block.** A text cut behind its first CR LF CR LF is a first line (perhaps
    empty), a list of non-empty lines and one empty line. -/
theorem exists_lines_of_index? {s : Bytes} {i : ℕ} (h : index? (crlf ++ crlf) s = some i) :
    ∃ l ls, s.take (i + 4) = l ++ crlf ++ joinLines ls ++ crlf ∧ NoCrlf l ∧
      ∀ m ∈ ls, NoCrlf m ∧ m ≠ [] := by
  have hle := index?_le (by simp [crlf]) h
  have hcut : s.take (i + 4) = s.take i ++ crlf ++ crlf := by
    conv_lhs => rw [index?_split h]
    have hlen : (s.take i).length = i := by
      rw [List.length_take]; simp only [List.length_append, crlf_length] at hle; omega
    rw [List.take_left' (by simp [hlen]), ← List.append_assoc]
  cases hsp : splitCrlf (s.take i) with
  | nil => exact absurd hsp (splitCrlf_ne_nil _)
  | cons l ls =>
    have hjoin := joinLines_splitCrlf (s.take i)
    rw [hsp, joinLines_cons] at hjoin
    refine ⟨l, ls, by rw [hcut, ← hjoin], noCrlf_of_mem_splitCrlf (hsp ▸ List.mem_cons_self), ?_⟩
    intro m hm
    refine ⟨noCrlf_of_mem_splitCrlf (s := s.take i)
      (by rw [hsp]; exact List.mem_cons_of_mem _ hm), ?_⟩
    rintro rfl
    -- An empty line in front of the last one would be an earlier CR LF CR LF.
    obtain ⟨a, b, rfl⟩ := List.append_of_mem hm
    have htwo : s.take (i + 2) = s.take i ++ crlf := by
      have := congrArg (List.take (i + 2)) hcut
      rw [List.take_take, Nat.min_eq_left (by omega)] at this
      rw [this, List.take_left' (by
        simp only [List.length_append, List.length_take, crlf_length] at hle ⊢; omega)]
    have hnone := index?_take_none (k := i + 2) (by simp [crlf]) h (by simp)
    rw [index?_eq_none_iff, htwo, ← hjoin] at hnone
    obtain ⟨u, hu⟩ := exists_joinLines_eq l a
    refine hnone ⟨u, joinLines b, ?_⟩
    have hsplit : l ++ crlf ++ joinLines (a ++ [] :: b) = joinLines (l :: a)
        ++ crlf ++ joinLines b := by
      simp [joinLines_append]
    rw [hsplit, hu]
    simp

end Resh.Go
