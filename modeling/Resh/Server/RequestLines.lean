import Resh.Server.ForeachHeader

namespace Resh.Server

open Resh.Go

/-!
# The lines of a request, received and rewritten

The header block as it was received (`rawLines`, `rawHeaders`), and the same lines in the memory
after `parse`: the first line with the path of its target decoded (`decodeTarget`), the header
lines with their names lower-cased.

* `parseHeaders_headerOf` — from the rewritten header lines the scan takes the received headers;
* `parseFirstLine_eq_ok` — the rewritten first line is the decoded one;
* `parseHeader_fields` — what a header line sets.
-/

/-! ### The request as it was received -/

/-- The first line of a text. -/
def firstLine (inp : Bytes) : Bytes := (splitCrlf inp).headD []

/-- The received lines between the first line and the empty line. -/
def rawLines (inp : Bytes) : List Bytes := ((splitCrlf inp).drop 1).takeWhile (· ≠ [])

/-- A received header line: its name lower-cased, its value without white space around it. -/
def rawHeader (line : Bytes) : Bytes × Bytes :=
  let i := (indexByte? (ch ':') line).getD line.length
  ((line.take i).map lower, trimSpace (line.drop (i + 1)))

/-- The received headers. -/
def rawHeaders (inp : Bytes) : List (Bytes × Bytes) := (rawLines inp).map rawHeader

/-- The first line with the path of its target decoded where it stands: the path lies between
    the first space and the first `?` behind it, or the last space. -/
def decodeTarget (line : Bytes) : Bytes :=
  match indexByte? (ch ' ') line, lastIndexByte? (ch ' ') line with
  | some idx0, some idx1 =>
    let uri := (line.take idx1).drop (idx0 + 1)
    splice line (idx0 + 1) (unescape (uri.take ((indexByte? (ch '?') uri).getD uri.length)) false)
  | _, _ => line

/-- The pieces of a header block, whatever the first line holds. -/
theorem splitCrlf_block (u : Bytes) {ls : List Bytes} (hls : ∀ m ∈ ls, NoCrlf m) (rest : Bytes) :
    splitCrlf (u ++ crlf ++ joinLines ls ++ crlf ++ rest)
      = splitCrlf u ++ (ls ++ [] :: splitCrlf rest) := by
  have hnil := splitCrlf_append_crlf [] rest
  rw [List.nil_append] at hnil
  simp only [List.append_assoc] at hnil ⊢
  rw [← List.append_assoc, splitCrlf_append_crlf, splitCrlf_joinLines hls, hnil]
  rfl

/-- The received block, line by line. -/
theorem rawLines_eq {l : Bytes} {ls : List Bytes} (hl : NoCrlf l)
    (hls : ∀ m ∈ ls, NoCrlf m ∧ m ≠ []) (rest : Bytes) :
    firstLine (l ++ crlf ++ joinLines ls ++ crlf ++ rest) = l ∧
      rawLines (l ++ crlf ++ joinLines ls ++ crlf ++ rest) = ls := by
  have hsplit := splitCrlf_block l (fun m hm => (hls m hm).1) rest
  rw [splitCrlf_of_noCrlf hl] at hsplit
  rw [firstLine, rawLines, hsplit]
  refine ⟨rfl, ?_⟩
  rw [List.singleton_append, List.drop_succ_cons, List.drop_zero,
    List.takeWhile_append_of_pos (by simpa using fun m hm => (hls m hm).2)]
  simp

/-! ### What `parse` writes -/

section Parse

variable {env : Env} {h h' : HTTP} {l l' : Bytes}

/-- In front of the colon every byte is put into lower case. -/
theorem lowerKey_eq_map {s : Bytes} (hs : ch ':' ∉ s) : lowerKey s = s.map lower := by
  induction s with
  | nil => rfl
  | cons c s ih =>
    simp only [List.mem_cons, not_or] at hs
    rw [lowerKey, if_neg (Ne.symm hs.1), ih hs.2, List.map_cons]

/-- A byte does not occur in front of its first occurrence. -/
theorem not_mem_take_of_indexByte? {c : UInt8} {s : Bytes} {i : ℕ} (hi : indexByte? c s = some i) :
    c ∉ s.take i := by
  obtain ⟨hlt, -, hmin⟩ := List.findIdx?_eq_some_iff_getElem.mp hi
  intro hmem
  obtain ⟨j, hj, hc⟩ := List.mem_iff_getElem.mp hmem
  rw [List.length_take] at hj
  rw [List.getElem_take] at hc
  exact hmin j (by omega) (by simp [hc])

/-- **A header line after `parse`**: the scan takes from it the header that was received. -/
theorem parseHeader_headerOf (he : parseHeader env h l = .ok (h', l')) (hl : NoCrlf l) :
    headerOf l' = some (rawHeader l) ∧ NoCrlf l' ∧ l' ≠ [] := by
  obtain ⟨i, hi, rfl⟩ := parseHeader_eq_ok he
  have hlt := indexByte?_lt hi
  have hlow := lowerKey_eq_map (not_mem_take_of_indexByte? hi)
  have hlen : ((l.take (i + 1)).map lower).length = i + 1 := by
    rw [List.length_map, List.length_take]; omega
  obtain ⟨_, hcolon, _⟩ := List.findIdx?_eq_some_iff_getElem.mp hi
  -- Lower-casing writes no colon, so the name still ends where it did.
  have hidx : indexByte? (ch ':') ((l.take (i + 1)).map lower ++ l.drop (i + 1))
      = some (i + 1) := by
    refine List.findIdx?_eq_some_iff_getElem.mpr ⟨by simp; omega, ?_, fun j hj => ?_⟩
    · rw [List.getElem_append_right (by omega)]
      simpa [Nat.min_eq_left hlt.le] using hcolon
    · rw [List.getElem_append_left (by omega), List.getElem_map]
      intro hc
      have hmem : ch ':' ∈ l.take (i + 1) := by
        have hself := eq_of_lower_eq (of_decide_eq_true hc) (by decide)
        rw [← hself]
        exact List.getElem_mem _
      exact not_mem_take_of_indexByte? hi hmem
  rw [hlow]
  refine ⟨?_, ?_, ?_⟩
  · rw [headerOf, hidx]
    simp only [rawHeader, hi, Option.getD_some, Option.some.injEq, Prod.mk.injEq]
    refine ⟨List.take_left' hlen, ?_⟩
    rw [List.drop_append, hlen, List.drop_of_length_le (by omega)]
    simp [List.drop_drop, Nat.add_comm, Nat.add_left_comm]
  · refine hl.of_getElem? fun j c hc hj => ?_
    by_cases hji : j < i + 1
    · rw [List.getElem?_append_left (by omega), List.getElem?_map, List.getElem?_take_of_lt hji,
        Option.map_eq_some_iff] at hj
      obtain ⟨d, hd, hdc⟩ := hj
      rw [hd, eq_of_lower_eq hdc (by rcases hc with rfl | rfl <;> decide)]
    · rw [List.getElem?_append_right (by omega), hlen, List.getElem?_drop] at hj
      rwa [show i + 1 + (j - (i + 1)) = j by omega] at hj
  · intro hnil
    have := congrArg List.length hnil
    rw [List.length_append, hlen] at this
    simp at this

/-- The rewritten header lines have the headers of the received ones, and are still lines, none of
    them empty. -/
theorem parseHeaders_headerOf {ls ls' : List Bytes} (he : parseHeaders env h ls = .ok (h', ls'))
    (hls : ∀ m ∈ ls, NoCrlf m) :
    ls'.filterMap headerOf = ls.map rawHeader ∧ ∀ m ∈ ls', NoCrlf m ∧ m ≠ [] := by
  induction ls generalizing h h' ls' with
  | nil =>
    simp only [parseHeaders, Ret.ok.injEq, Prod.mk.injEq] at he
    rw [← he.2]
    simp
  | cons l ls ih =>
    obtain ⟨h₁, l₁, ls₂, he₁, he₂, rfl⟩ := parseHeaders_cons.mp he
    obtain ⟨hhead, hno, hne⟩ := parseHeader_headerOf he₁ (hls l (by simp))
    obtain ⟨hrest, hall⟩ := ih he₂ (fun m hm => hls m (by simp [hm]))
    refine ⟨by rw [List.filterMap_cons_some hhead, hrest, List.map_cons], fun m hm => ?_⟩
    rcases List.mem_cons.mp hm with rfl | hm
    · exact ⟨hno, hne⟩
    · exact hall m hm

/-- The rewritten header lines take the place of the received ones. -/
theorem parseHeaders_length {ls ls' : List Bytes} (he : parseHeaders env h ls = .ok (h', ls')) :
    (joinLines ls').length = (joinLines ls).length := by
  induction ls generalizing h h' ls' with
  | nil =>
    simp only [parseHeaders, Ret.ok.injEq, Prod.mk.injEq] at he
    rw [← he.2]
  | cons l ls ih =>
    obtain ⟨h₁, l₁, ls₂, he₁, he₂, rfl⟩ := parseHeaders_cons.mp he
    simp only [joinLines_cons, List.length_append, parseHeader_length he₁, ih he₂]

/-- Writing the decoded path over itself. -/
theorem splice_overwritten {l path d : Bytes} {off : ℕ} (hd : d.length ≤ path.length)
    (hpath : path <+: l.drop off) : splice l off (d ++ path.drop d.length) = splice l off d := by
  obtain ⟨rest, hrest⟩ := hpath
  have hlen : (d ++ path.drop d.length).length = path.length := by
    rw [List.length_append, List.length_drop]; omega
  rw [splice, splice, hlen, ← List.drop_drop, ← List.drop_drop, ← hrest, List.drop_left,
    List.drop_append_of_le_length hd]
  simp

/-- A path that is accepted is decoded where it stands, and the lengths of the request are not
    touched. -/
theorem parsePath_eq_ok {uri : Bytes} {off : ℕ} (huri : uri <+: l.drop off)
    (he : parsePath env h l off uri = .ok (h', l')) :
    l' = splice l off (unescape uri false) ∧ h'.hdrLen = h.hdrLen ∧ h'.bodyLen = h.bodyLen := by
  obtain ⟨rfl, path, host, rfl, -⟩ := parsePath_inv he
  exact ⟨splice_overwritten (unescape_length_le uri false) huri, rfl, rfl⟩

/-- **The first line after `parse`.** -/
theorem parseFirstLine_eq_ok (he : parseFirstLine env h l = .ok (h', l')) :
    l' = decodeTarget l ∧ (∃ idx0, indexByte? (ch ' ') l = some idx0) ∧
      h'.hdrLen = h.hdrLen ∧ h'.bodyLen = h.bodyLen := by
  obtain ⟨idx0, idx1, h₀, h₁, -, -, hcase⟩ := parseFirstLine_inv he
  have huri : (l.take idx1).drop (idx0 + 1) <+: l.drop (idx0 + 1) := by
    rw [List.drop_take]; exact List.take_prefix _ _
  unfold decodeTarget
  simp only [h₀, h₁]
  rcases hcase with ⟨q, hq, hpath⟩ | ⟨hq, hpath⟩
  · obtain ⟨hl, hh, hb⟩ := parsePath_eq_ok ((List.take_prefix q _).trans huri) hpath
    exact ⟨by rw [hl, hq]; rfl, ⟨idx0, rfl⟩, hh, hb⟩
  · obtain ⟨hl, hh, hb⟩ := parsePath_eq_ok huri hpath
    exact ⟨by rw [hl, hq, Option.getD_none, List.take_length], ⟨idx0, rfl⟩, hh, hb⟩

/-- **What a header line sets**: the length of the body, if that is its name, or else the upgrade or
    the host at most. -/
theorem parseHeader_fields (he : parseHeader env h l = .ok (h', l')) :
    ((rawHeader l).1 = ascii "content-length" ∧ ∃ cl, atoi (rawHeader l).2 = (cl, none) ∧ 0 ≤ cl ∧
      cl ≤ env.requestMaxBytes ∧ h' = { h with bodyLen := (cl % 2 ^ 32).toNat }) ∨
    ((rawHeader l).1 ≠ ascii "content-length" ∧
      ∃ upgrade host, h' = { h with wsUpgrade := upgrade, host := host }) := by
  obtain ⟨i, hi, -⟩ := parseHeader_eq_ok he
  have hraw : rawHeader l = (lowerKey (l.take (i + 1)), trimSpace (l.drop (i + 1 + 1))) := by
    rw [rawHeader, hi, lowerKey_eq_map (not_mem_take_of_indexByte? hi)]
    rfl
  unfold parseHeader at he
  rw [hi] at he
  simp only at he
  rw [hraw]
  split at he
  · rename_i hkey
    simp only [Ret.ok.injEq, Prod.mk.injEq] at he
    exact .inr ⟨by simp only [hkey]; decide, _, _, he.1.symm⟩
  split at he
  · rename_i hkey
    simp only [Ret.ok.injEq, Prod.mk.injEq] at he
    exact .inr ⟨by simp only [hkey]; decide, _, _, he.1.symm⟩
  split at he
  · rename_i hkey
    split at he
    · exact absurd he (by simp)
    · rename_i hcl
      simp only [not_or, not_lt, ne_eq, not_not] at hcl
      simp only [Ret.ok.injEq, Prod.mk.injEq] at he
      exact .inl ⟨hkey, _, Prod.ext rfl hcl.2.2, hcl.2.1, hcl.1, he.1.symm⟩
  · rename_i hkey
    simp only [Ret.ok.injEq, Prod.mk.injEq] at he
    exact .inr ⟨hkey, h.wsUpgrade, h.host, he.1.symm⟩

end Parse

end Resh.Server
