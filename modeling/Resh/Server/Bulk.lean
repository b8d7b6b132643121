import Resh.Server.Segmentation

namespace Resh.Server

open Resh.Go Resh.Incremental

/-!
# The chain of bulk strings

The loop of stage 1 follows the bulk headers of the input: a header at offset `p` announces a
length, the tail of the string stands that far behind the header, and the next header two bytes
later.  `Chain` states this walk by itself, over offsets and integer lengths, without the
request that `bulkLoop` fills; a length may be negative, and then the walk steps back.

* `bulkLoop_cases` — below `2^32` bytes no offset wraps, and the loop is the walk: it completes
  a chain, or completes a part of one and ends with what the next round gives;
* `chain_of_groups` / `Chain.exists_groups` — a chain of non-negative lengths is a text of
  groups `$L b`, one after the other.
-/

/-- A number line at offset `p`: the head byte `b`, a numeral for `v` and a line end, `w` bytes
    in all. -/
def NumberLine (b : UInt8) (inp : Bytes) (p : ℕ) (v : ℤ) (w : ℕ) : Prop :=
  ∃ text rest, inp.drop p = b :: text ++ crlf ++ rest ∧ Numeral text v ∧ InInt64 v ∧
    w = text.length + 3

/-- The header of a bulk string at offset `p`. -/
abbrev BulkHead (inp : Bytes) (p : ℕ) (length : ℤ) (w : ℕ) :
    Prop := NumberLine (ch '$') inp p length w

/-- The count at the begin of a request. -/
abbrev CountHead (inp : Bytes) (num : ℤ) (w : ℕ) : Prop := NumberLine (ch '*') inp 0 num w

/-- The walk over bulk strings from offset `p` to offset `q`, with the start and the announced
    length of each. -/
inductive Chain (inp : Bytes) : ℕ → List (ℕ × ℤ) → ℕ → Prop
  | nil (p : ℕ) : Chain inp p [] p
  | cons {p w q : ℕ} {length : ℤ} {gs : List (ℕ × ℤ)} (head : BulkHead inp p length w)
      (small : length ≤ 2 ^ 32 - 1) (nonneg : 0 ≤ (p + w + length : ℤ))
      (fits : (p + w + length + 2 : ℤ) ≤ inp.length)
      (cr : at? inp (p + w + length) = some 13) (lf : at? inp (p + w + length + 1) = some 10)
      (rest : Chain inp (p + w + length + 2 : ℤ).toNat gs q) :
      Chain inp p ((p + w, length) :: gs) q

variable {inp : Bytes} {r r' : Redis}

/-- The request after the walk `gs` that ended at `q`. -/
def Redis.push (r : Redis) (gs : List (ℕ × ℤ)) (q : ℕ) : Redis :=
  { r with ai := r.ai ++ gs.map (fun g => (g.1, (g.2 % 2 ^ 32).toNat)), read := q }

/-- **Number lines are what `readByteAndNumberCrLf` reads.** -/
theorem numberLine_iff {b : UInt8} (hb : b ≠ 13) {p : ℕ} {v : ℤ} {w : ℕ} :
    NumberLine b inp p v w ↔ readByteAndNumberCrLf b (inp.drop p) = .ok (v, w) ∧ w ≠ 0 := by
  constructor
  · rintro ⟨text, rest, hdrop, hn, hv, rfl⟩
    rw [hdrop]
    exact ⟨readByteAndNumberCrLf_of_numeral hb hn hv rest, by omega⟩
  · rintro ⟨hq, hw⟩
    obtain ⟨text, htext, hwl, hn, hv⟩ := readByteAndNumberCrLf_eq_ok hq hw hb
    exact ⟨text, _, htext, hn, hv, hwl⟩

/-- The header of a bulk string in the terms of the parser. -/
theorem bulkHead_iff {p : ℕ} {length : ℤ} {w : ℕ} : BulkHead inp p length w ↔
    readByteAndNumberCrLf (ch '$') (inp.drop p) = .ok (length, w) ∧ w ≠ 0 :=
  numberLine_iff (by decide)

/-- The header of a request in the terms of the parser. -/
theorem countHead_iff {num : ℤ} {w : ℕ} :
    CountHead inp num w ↔ readByteAndNumberCrLf (ch '*') inp = .ok (num, w) ∧ w ≠ 0 :=
  numberLine_iff (p := 0) (by decide)

/-- At most one number line stands at an offset. -/
theorem NumberLine.unique {b : UInt8} (hb : b ≠ 13) {p : ℕ} {v v' : ℤ} {w w' : ℕ}
    (h : NumberLine b inp p v w) (h' : NumberLine b inp p v' w') : v = v' ∧ w = w' := by
  have heq := ((numberLine_iff hb).mp h).1.symm.trans ((numberLine_iff hb).mp h').1
  simpa using heq

/-- The line lies inside the input. -/
theorem NumberLine.le {b : UInt8} {p : ℕ} {v : ℤ} {w : ℕ} (h : NumberLine b inp p v w) :
    0 < w ∧ p + w ≤ inp.length := by
  obtain ⟨text, rest, hdrop, -, -, rfl⟩ := h
  have hlen := congrArg List.length hdrop
  simp at hlen
  omega

/-! ### The loop follows the chain -/

/-- One step of the walk is one round of the loop. -/
theorem bulkStep_of_head {length : ℤ} {w : ℕ} (hlen : inp.length < 2 ^ 32)
    (hread : r.read ≤ inp.length)
    (head : BulkHead inp r.read length w) (small : length ≤ 2 ^ 32 - 1)
    (nonneg : 0 ≤ (r.read + w + length : ℤ)) (fits : (r.read + w + length + 2 : ℤ) ≤ inp.length)
    (cr : at? inp (r.read + w + length) = some 13)
    (lf : at? inp (r.read + w + length + 1) = some 10) :
    bulkStep inp r = .ok (r.push [(r.read + w, length)] (r.read + w + length + 2 : ℤ).toNat) := by
  obtain ⟨hq, hw⟩ := bulkHead_iff.mp head
  have hle := head.le.2
  unfold bulkStep
  rw [slice?_rest hread]
  simp only [hq, if_neg hw, if_neg (show ¬ length > 2 ^ 32 - 1 by omega)]
  unfold bulkBody
  rw [if_neg (by omega), cr, lf]
  simp only [ne_eq, not_true_eq_false, or_self, if_false, Ret.ok.injEq, Redis.push]
  rw [Nat.mod_eq_of_lt (by omega : r.read + w < 2 ^ 32),
    show (r.read + (w + length + 2) : ℤ) = r.read + w + length + 2 by omega,
    Int.emod_eq_of_lt (by omega) (by omega)]
  rfl

/-- A completed round is one step of the walk. -/
theorem chain_of_bulkStep (hlen : inp.length < 2 ^ 32) (hread : r.read ≤ inp.length)
    (h : bulkStep inp r = .ok r') :
    ∃ g, r' = r.push [g] r'.read ∧ Chain inp r.read [g] r'.read := by
  obtain ⟨length, w, hq, hw, hbig, hb⟩ := bulkStep_eq_ok hread h
  obtain ⟨h0, hle, hcr, hlf, -⟩ := bulkBody_eq_ok hb
  have head : BulkHead inp r.read length w := bulkHead_iff.mpr ⟨hq, hw⟩
  have heq := bulkStep_of_head hlen hread head hbig h0 hle hcr hlf
  rw [h, Ret.ok.injEq] at heq
  subst heq
  exact ⟨(r.read + w, length), rfl, .cons head hbig h0 hle hcr hlf (.nil _)⟩

/-- A chain of bulk strings ends within the input. -/
theorem Chain.end_le {p q : ℕ} {gs : List (ℕ × ℤ)} (h : Chain inp p gs q) (hp : p ≤ inp.length) :
    q ≤ inp.length := by
  induction h with
  | nil p => exact hp
  | cons head small nonneg fits cr lf rest ih => exact ih (by omega)

/-- Walks one after the other. -/
theorem Chain.append {p q s : ℕ} {gs hs : List (ℕ × ℤ)} (h : Chain inp p gs q)
    (h' : Chain inp q hs s) : Chain inp p (gs ++ hs) s := by
  induction h with
  | nil p => exact h'
  | cons head small nonneg fits cr lf rest ih => exact .cons head small nonneg fits cr lf (ih h')

/-- A walk may be interrupted anywhere. -/
theorem Chain.split {p q : ℕ} {gs hs : List (ℕ × ℤ)} (h : Chain inp p (gs ++ hs) q) :
    ∃ m, Chain inp p gs m ∧ Chain inp m hs q := by
  induction gs generalizing p with
  | nil => exact ⟨p, .nil p, h⟩
  | cons g gs ih =>
    cases h with
    | cons head small nonneg fits cr lf rest =>
      obtain ⟨m, h₁, h₂⟩ := ih rest
      exact ⟨m, .cons head small nonneg fits cr lf h₁, h₂⟩

/-- Nothing was read. -/
theorem Redis.push_nil (r : Redis) : r.push [] r.read = r := by
  simp [Redis.push]

/-- What is read one after the other is read at once: the arguments follow one another. -/
theorem Redis.push_push (r : Redis) (gs hs : List (ℕ × ℤ)) (p q : ℕ) :
    (r.push gs p).push hs q = r.push (gs ++ hs) q := by
  simp [Redis.push]

/-- **The loop runs along a chain.** -/
theorem bulkLoop_of_chain {p q : ℕ} {gs : List (ℕ × ℤ)} (hlen : inp.length < 2 ^ 32)
    (h : Chain inp p gs q) (hp : p ≤ inp.length) (n : ℕ) (r : Redis) (hr : r.read = p) :
    bulkLoop inp (gs.length + n) r = bulkLoop inp n (r.push gs q) := by
  induction h generalizing r with
  | nil p =>
    subst hr
    rw [Redis.push_nil]; simp
  | @cons p w q length gs head small nonneg fits cr lf rest ih =>
    subst hr
    rw [List.length_cons, show gs.length + 1 + n = gs.length + n + 1 by omega, bulkLoop,
      bulkStep_of_head hlen hp head small nonneg fits cr lf]
    simp only
    rw [ih (by omega) _ rfl, Redis.push_push]
    rfl

/-- **The loop is the walk.** It completes a chain of `n` strings, or a part of one, and then
    ends with the result of the next round. -/
theorem bulkLoop_cases (hlen : inp.length < 2 ^ 32) (n : ℕ) (r : Redis)
    (hread : r.read ≤ inp.length) : ∃ gs q, Chain inp r.read gs q ∧
      ((gs.length = n ∧ bulkLoop inp n r = (r.push gs q, .ok ())) ∨
        (gs.length < n ∧ (∀ r', bulkStep inp (r.push gs q) ≠ .ok r') ∧
          bulkLoop inp n r = bulkLoop inp 1 (r.push gs q))) := by
  induction n generalizing r with
  | zero => exact ⟨[], r.read, .nil _, Or.inl ⟨rfl, by rw [Redis.push_nil]; rfl⟩⟩
  | succ n ih =>
    by_cases hs : ∃ r₁, bulkStep inp r = .ok r₁
    · obtain ⟨r₁, hr₁⟩ := hs
      obtain ⟨g, hpush, hchain⟩ := chain_of_bulkStep hlen hread hr₁
      obtain ⟨gs, q, hc, hcase⟩ := ih r₁ (bulkStep_read_le hread hr₁).1
      have hstep : bulkLoop inp (n + 1) r = bulkLoop inp n r₁ := by rw [bulkLoop, hr₁]
      have hjoin : r₁.push gs q = r.push (g :: gs) q := by rw [hpush, Redis.push_push]; rfl
      refine ⟨g :: gs, q, hchain.append hc, ?_⟩
      rw [hstep, ← hjoin]
      rcases hcase with ⟨h₁, h₂⟩ | ⟨h₁, h₂, h₃⟩
      · exact Or.inl ⟨by simp [h₁], h₂⟩
      · exact Or.inr ⟨by simpa using h₁, h₂, h₃⟩
    · simp only [not_exists] at hs
      refine ⟨[], r.read, .nil _, Or.inr ⟨by simp, by rw [Redis.push_nil]; exact hs, ?_⟩⟩
      rw [Redis.push_nil, bulkLoop, bulkLoop]
      cases hb : bulkStep inp r with
      | ok r₁ => exact absurd hb (hs r₁)
      | more => rfl
      | fail e => rfl
      | panic => rfl

/-! ### Where a chain leads -/

/-- Every string of a chain lies inside the input, up to its tail. -/
theorem Chain.mem_bounds {p q : ℕ} {gs : List (ℕ × ℤ)} (h : Chain inp p gs q) {g : ℕ × ℤ}
    (hg : g ∈ gs) :
    0 ≤ (g.1 : ℤ) + g.2 ∧ (g.1 : ℤ) + g.2 + 2 ≤ inp.length ∧ g.1 ≤ inp.length ∧
    g.2 ≤ 2 ^ 32 - 1 := by
  induction h with
  | nil p => exact absurd hg (by simp)
  | cons head small nonneg fits cr lf rest ih =>
    rcases List.mem_cons.mp hg with rfl | hg
    · have hle := head.le.2
      exact ⟨by push_cast; omega, by push_cast; omega, by omega, small⟩
    · exact ih hg

/-- Non-negative lengths lead forward. -/
theorem Chain.forward {p q : ℕ} {gs : List (ℕ × ℤ)} (h : Chain inp p gs q)
    (hnn : ∀ g ∈ gs, 0 ≤ g.2) : p ≤ q ∧ ∀ g ∈ gs, (g.1 : ℤ) + g.2 + 2 ≤ q := by
  induction h with
  | nil p => exact ⟨le_rfl, by simp⟩
  | cons head small nonneg fits cr lf rest ih =>
    obtain ⟨hq, hall⟩ := ih (fun g hg => hnn g (by simp [hg]))
    have hl := hnn _ List.mem_cons_self
    simp only at hl
    refine ⟨by omega, fun g hg => ?_⟩
    rcases List.mem_cons.mp hg with rfl | hg
    · push_cast; omega
    · exact hall g hg

/-- The input fixes the walk: the shorter of two chains is a part of the longer one. -/
theorem Chain.exists_append {p q s : ℕ} {gs hs : List (ℕ × ℤ)} (h : Chain inp p gs q)
    (h' : Chain inp p hs s) (hle : gs.length ≤ hs.length) :
    ∃ ks, hs = gs ++ ks ∧ Chain inp q ks s := by
  induction h generalizing hs with
  | nil p => exact ⟨hs, rfl, h'⟩
  | @cons p w q length gs head small nonneg fits cr lf rest ih =>
    cases h' with
    | nil => simp at hle
    | @cons _ w' _ length' hs head' small' nonneg' fits' cr' lf' rest' =>
      obtain ⟨rfl, rfl⟩ := head.unique (by decide) head'
      obtain ⟨ks, rfl, hks⟩ := ih rest' (by simpa using hle)
      exact ⟨ks, rfl, hks⟩

/-! ### Groups -/

/-- One argument on the wire: `$` and a numeral, the bytes, each with a line end. -/
def encodeGroup (g : Bytes × Bytes) : Bytes := ch '$' :: g.1 ++ crlf ++ g.2 ++ crlf

/-- Start and length of the strings of groups that begin at `p`. -/
def offsets : ℕ → List (Bytes × Bytes) → List (ℕ × ℤ)
  | _, [] => []
  | p, g :: gs =>
    (p + (g.1.length + 3), g.2.length) :: offsets (p + (encodeGroup g).length) gs

/-- An argument is as long as its numeral and its text, with the `$` and the two line ends. -/
theorem encodeGroup_length (g : Bytes × Bytes) :
    (encodeGroup g).length = g.1.length + 3 + g.2.length + 2 := by
  simp [encodeGroup]; omega

/-- One offset for each argument. -/
theorem offsets_length (p : ℕ) (groups : List (Bytes × Bytes)) :
    (offsets p groups).length = groups.length := by
  induction groups generalizing p with
  | nil => rfl
  | cons g gs ih => simp [offsets, ih]

/-- The lengths of the arguments that were written are not negative. -/
theorem offsets_nonneg {p : ℕ} {groups : List (Bytes × Bytes)}
    {m : ℕ × ℤ} (hm : m ∈ offsets p groups) : 0 ≤ m.2 := by
  induction groups generalizing p with
  | nil => exact absurd hm (by simp [offsets])
  | cons g gs ih =>
    rcases List.mem_cons.mp hm with rfl | hm
    · exact Int.natCast_nonneg _
    · exact ih hm

/-- The string of a group stands at its offset. -/
theorem offsets_getElem? {p i : ℕ} {t : Bytes} {groups : List (Bytes × Bytes)} {g : Bytes × Bytes}
    (hdrop : inp.drop p = groups.flatMap encodeGroup ++ t) (hg : groups[i]? = some g) :
    ∃ s rest, (offsets p groups)[i]? = some (s, (g.2.length : ℤ)) ∧ inp.drop s = g.2 ++ rest := by
  induction groups generalizing p i with
  | nil => exact absurd hg (by simp)
  | cons g₀ gs ih =>
    have hsplit : inp.drop p = ch '$' :: g₀.1 ++ crlf
        ++ (g₀.2 ++ crlf ++ (gs.flatMap encodeGroup ++ t)) := by
      rw [hdrop]; simp [encodeGroup]
    cases i with
    | zero =>
      obtain rfl : g₀ = g := by simpa using hg
      refine ⟨p + (g₀.1.length + 3), crlf ++ (gs.flatMap encodeGroup ++ t), rfl, ?_⟩
      rw [← List.drop_drop, hsplit, List.drop_left' (by simp), List.append_assoc]
    | succ i =>
      refine ih ?_ (by simpa using hg)
      rw [← List.drop_drop, hdrop, List.flatMap_cons, List.append_assoc, List.drop_left]

/-- **Groups are a chain.** -/
theorem chain_of_groups (pre t : Bytes) (groups : List (Bytes × Bytes))
    (hg : ∀ g ∈ groups, Numeral g.1 g.2.length ∧ g.2.length < 2 ^ 32) :
    Chain (pre ++ groups.flatMap encodeGroup ++ t) pre.length (offsets pre.length groups)
      (pre ++ groups.flatMap encodeGroup).length := by
  induction groups generalizing pre with
  | nil => simpa [offsets] using Chain.nil _
  | cons g gs ih =>
    obtain ⟨hn, hlt⟩ := hg g (by simp)
    -- The argument at the head of the list, with the text around it.
    have hinp : pre ++ (g :: gs).flatMap encodeGroup ++ t
        = pre ++ encodeGroup g ++ gs.flatMap encodeGroup ++ t := by simp
    have hdrop : (pre ++ encodeGroup g ++ gs.flatMap encodeGroup ++ t).drop pre.length
        = ch '$' :: g.1 ++ crlf ++ (g.2 ++ crlf ++ (gs.flatMap encodeGroup ++ t)) := by
      simp only [List.append_assoc, List.drop_left, encodeGroup]
    have hhead : BulkHead (pre ++ encodeGroup g ++ gs.flatMap encodeGroup ++ t) pre.length
        g.2.length (g.1.length + 3) := ⟨g.1, _, hdrop, hn, ⟨by omega, by omega⟩, rfl⟩
    have hcut : pre ++ encodeGroup g ++ gs.flatMap encodeGroup ++ t
        = pre ++ (ch '$' :: g.1 ++ crlf ++ g.2) ++ crlf ++ (gs.flatMap encodeGroup ++ t) := by
      simp [encodeGroup]
    have hx : (pre.length + (g.1.length + 3 : ℕ) + (g.2.length : ℤ) : ℤ)
        = (pre ++ (ch '$' :: g.1 ++ crlf ++ g.2)).length := by
      simp; omega
    have hnext : (pre.length + (g.1.length + 3 : ℕ) + (g.2.length : ℤ) + 2 : ℤ).toNat
        = (pre ++ encodeGroup g).length := by
      rw [List.length_append, encodeGroup_length]; omega
    have hrest := ih (pre ++ encodeGroup g) (fun m hm => hg m (by simp [hm]))
    rw [hinp, offsets]
    refine .cons hhead (by omega) (by omega) ?_ ?_ ?_ ?_
    · simp only [List.length_append, encodeGroup_length]; push_cast; omega
    · rw [hx, hcut]; exact (at?_crlf _ _).1
    · rw [hx, hcut]; exact (at?_crlf _ _).2
    · rw [hnext]
      simpa [List.length_append, Nat.add_assoc] using hrest

/-- **A chain of non-negative lengths is a text of groups.** -/
theorem Chain.exists_groups {p q : ℕ} {gs : List (ℕ × ℤ)} (h : Chain inp p gs q)
    (hnn : ∀ g ∈ gs, 0 ≤ g.2) :
    ∃ groups, gs = offsets p groups ∧ inp.drop p = groups.flatMap encodeGroup ++ inp.drop q ∧
      ∀ g ∈ groups, Numeral g.1 g.2.length := by
  induction h with
  | nil p => exact ⟨[], rfl, rfl, by simp⟩
  | @cons p w q length gs head small nonneg fits cr lf rest ih =>
    obtain ⟨n, rfl⟩ := Int.eq_ofNat_of_zero_le (show 0 ≤ length from hnn (p + w, length) (by simp))
    obtain ⟨groups, hgs, hdrop, hnum⟩ := ih (fun g hg => hnn g (by simp [hg]))
    obtain ⟨text, rest', htext, hn, -, hwl⟩ := head
    have hrest : rest' = inp.drop (p + w) := by
      rw [← List.drop_drop, htext, hwl, List.drop_left' (by simp)]
    rw [show (p + w + (n : ℤ) : ℤ) = ((p + w + n : ℕ) : ℤ) by push_cast; rfl] at cr lf
    rw [show (p + w + (n : ℤ) + 2 : ℤ).toNat = p + w + n + 2 by omega] at hgs hdrop
    obtain ⟨body, hbody, hlen⟩ : ∃ body,
        inp.drop (p + w) = body ++ crlf ++ inp.drop (p + w + n + 2) ∧ body.length = n := by
      refine ⟨(inp.drop (p + w)).take n, ?_, by rw [List.length_take, List.length_drop]; omega⟩
      rw [List.append_assoc, ← drop_eq_crlf_append cr lf, ← List.drop_drop (i := n) (j := p + w),
        List.take_append_drop]
    have hpos : p + (encodeGroup (text, body)).length = p + w + n + 2 := by
      rw [encodeGroup_length, hwl, ← hlen]
      simp only
      omega
    refine ⟨(text, body) :: groups, ?_, ?_, ?_⟩
    · rw [offsets, hpos, hgs, hlen, hwl]
    · rw [htext, hrest, hbody, hdrop]
      simp [encodeGroup, List.append_assoc]
    · intro g hg
      rcases List.mem_cons.mp hg with rfl | hg
      · rw [hlen]; exact hn
      · exact hnum g hg

end Resh.Server
