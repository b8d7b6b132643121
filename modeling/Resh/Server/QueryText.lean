import Mathlib.Data.List.TakeWhile
import Resh.Server.RequestLines

namespace Resh.Server

open Resh.Go

/-!
# The text of a query

A query is cut at `&` into parts, and each part at its first `=` into a key and a value.
`ForeachQuery` decodes the keys and the values where they stand: behind a decoded text the old bytes
stay, and a decoded `&` or `=` is a delimiter for whoever reads the text next.

* `rawPairs`, `decodedPairs` — the pairs of a query text, as they were received and decoded;
* `passed` — the text that one pass leaves;
* `StableQuery` — every key and value reads the same when it is decoded where it was decoded, and
  decoding makes no delimiter;
* `stableQuery_iff` — exactly then a second pass finds the pairs of the first;
* `StableQuery.passed_passed` — and then no pass changes the text any more.
-/

/-! ### The pairs of a query text -/

/-- The parts of a query between its `&`s; an empty part at the end is none. -/
def queryParts : Bytes → List Bytes
  | [] => []
  | c :: q => if c = ch '&' then [] :: queryParts q else consHead c (queryParts q)

/-- The key and the value of a part. -/
def cutPart (part : Bytes) : Bytes × Bytes :=
  let i := (indexByte? (ch '=') part).getD part.length
  (part.take i, part.drop (i + 1))

/-- The pairs as they are written. -/
def rawPairs (q : Bytes) : List (Bytes × Bytes) := (queryParts q).map cutPart

/-- The pairs decoded. -/
def decodedPairs (q : Bytes) : List (Bytes × Bytes) :=
  (rawPairs q).map fun kv => (unescape kv.1 true, unescape kv.2 true)

/-- A text without `&` in front of a `&` is the first part, and the parts of the rest follow. -/
theorem queryParts_append {p : Bytes} (hp : ch '&' ∉ p) (rest : Bytes) :
    queryParts (p ++ ch '&' :: rest) = p :: queryParts rest := by
  induction p with
  | nil => rfl
  | cons c p ih =>
    rw [List.mem_cons, not_or] at hp
    rw [List.cons_append, queryParts, if_neg (Ne.symm hp.1), ih hp.2]
    rfl

/-- A text without `&` that is not empty is the only part. -/
theorem queryParts_of_not_mem {p : Bytes} (hp : ch '&' ∉ p) (hne : p ≠ []) :
    queryParts p = [p] := by
  induction p with
  | nil => exact absurd rfl hne
  | cons c p ih =>
    rw [List.mem_cons, not_or] at hp
    rw [queryParts, if_neg (Ne.symm hp.1)]
    cases p with
    | nil => rfl
    | cons d p =>
      rw [ih hp.2 (List.cons_ne_nil d p)]
      rfl

/-- The first part of a query, and what is behind it. -/
theorem exists_part {q : Bytes} (hq : q ≠ []) :
    ∃ p t, q = p ++ t ∧ ch '&' ∉ p ∧
      ((t = [] ∧ queryParts q = [p]) ∨ ∃ rest, t = ch '&' :: rest ∧
        queryParts q = p :: queryParts rest) := by
  cases hi : indexByte? (ch '&') q with
  | none =>
    have hno := indexByte?_eq_none.mp hi
    exact ⟨q, [], (List.append_nil q).symm, hno, .inl ⟨rfl, queryParts_of_not_mem hno hq⟩⟩
  | some i =>
    have hno := not_mem_take_of_indexByte? hi
    have hsplit : q = q.take i ++ ch '&' :: q.drop (i + 1) := by
      rw [← indexByte?_drop hi, List.take_append_drop]
    refine ⟨q.take i, ch '&' :: q.drop (i + 1), hsplit, hno, .inr ⟨_, rfl, ?_⟩⟩
    conv_lhs => rw [hsplit]
    exact queryParts_append hno _

/-- A part is a key, perhaps a `=`, and a value. -/
theorem cutPart_cases (p : Bytes) :
    ∃ k e v, p = k ++ e ++ v ∧ ch '=' ∉ k ∧ (e = [ch '='] ∨ (e = [] ∧ v = [])) ∧
    cutPart p = (k, v) := by
  unfold cutPart
  cases hi : indexByte? (ch '=') p with
  | none =>
    refine ⟨p, [], [], by simp, indexByte?_eq_none.mp hi, .inr ⟨rfl, rfl⟩, ?_⟩
    show (p.take p.length, p.drop (p.length + 1)) = (p, [])
    rw [List.take_length, List.drop_of_length_le (Nat.le_succ _)]
  | some i =>
    refine ⟨p.take i, [ch '='], p.drop (i + 1), ?_, not_mem_take_of_indexByte? hi, .inl rfl, rfl⟩
    rw [List.append_assoc, List.singleton_append, ← indexByte?_drop hi, List.take_append_drop]

section Part

variable {k e v : Bytes}

/-- The key of a part ends in front of its first `=`. -/
theorem keyLen_eq (hk : ch '=' ∉ k) (he : e = [ch '='] ∨ (e = [] ∧ v = [])) :
    (indexByte? (ch '=') (k ++ e ++ v)).getD (k ++ e ++ v).length = k.length := by
  rcases he with rfl | ⟨rfl, rfl⟩
  · rw [List.append_assoc, List.singleton_append, indexByte?_append hk, Option.getD_some]
  · rw [List.append_nil, List.append_nil, indexByte?_eq_none.mpr hk, Option.getD_none]

/-- The value stands behind the key and the `=`; without a `=` there is nothing behind the key. -/
theorem drop_key (he : e = [ch '='] ∨ (e = [] ∧ v = [])) :
    (k ++ e ++ v).drop (k.length + 1) = v := by
  rcases he with rfl | ⟨rfl, rfl⟩
  · rw [show k.length + 1 = (k ++ [ch '=']).length by simp, List.drop_left]
  · rw [List.append_nil, List.append_nil, List.drop_of_length_le (Nat.le_succ _)]

/-- The key and the value that a part is written with are the ones it is cut into. -/
theorem cutPart_eq (hk : ch '=' ∉ k) (he : e = [ch '='] ∨ (e = [] ∧ v = [])) :
    cutPart (k ++ e ++ v) = (k, v) := by
  simp only [cutPart, keyLen_eq hk he, drop_key he]
  rw [List.append_assoc, List.take_left]

end Part

/-- **Induction over the parts** of a query. -/
theorem query_induction {motive : Bytes → Prop} (nil : motive [])
    (last : ∀ p, p ≠ [] → ch '&' ∉ p → motive p)
    (part : ∀ p rest, ch '&' ∉ p → motive rest → motive (p ++ ch '&' :: rest)) (q : Bytes) :
    motive q := by
  induction hn : q.length using Nat.strong_induction_on generalizing q with
  | _ n ih =>
    by_cases hq : q = []
    · rw [hq]
      exact nil
    · obtain ⟨p, t, rfl, hamp, ⟨rfl, -⟩ | ⟨rest, rfl, -⟩⟩ := exists_part hq
      · rw [List.append_nil] at hq ⊢
        exact last p hq hamp
      · refine part p rest hamp (ih rest.length ?_ rest rfl)
        rw [← hn, List.length_append, List.length_cons]
        omega

/-- The pairs of a query whose first part is `p`. -/
theorem rawPairs_part {p : Bytes} (hp : ch '&' ∉ p) (rest : Bytes) :
    rawPairs (p ++ ch '&' :: rest) = cutPart p :: rawPairs rest := by
  rw [rawPairs, queryParts_append hp, List.map_cons]
  rfl

/-- The pair of a query of one part. -/
theorem rawPairs_last {p : Bytes} (hp : ch '&' ∉ p) (hne : p ≠ []) : rawPairs p = [cutPart p] := by
  rw [rawPairs, queryParts_of_not_mem hp hne, List.map_singleton]

/-! ### The text behind a pass -/

/-- What the memory of a key or a value holds once it is decoded. -/
def overwrite (s : Bytes) : Bytes := unescape s true ++ s.drop (unescape s true).length

/-- Decoding in place does not move what stands behind: the decoded text is no longer than the text,
    and the old bytes fill the memory up. -/
theorem overwrite_length (s : Bytes) : (overwrite s).length = s.length :=
  overwritten_length (unescape_length_le s true)

/-- A part behind a pass: its key and its value are decoded where they stand. -/
def passedPart (part : Bytes) : Bytes :=
  let keyLen := (indexByte? (ch '=') part).getD part.length
  overwrite (part.take keyLen) ++ (part.drop keyLen).take 1 ++ overwrite (part.drop (keyLen + 1))

/-- **A query behind a pass.** -/
def passed (q : Bytes) : Bytes := [ch '&'].intercalate ((q.splitOn (ch '&')).map passedPart)

/-- A pass decodes the key and the value of a part each for itself and leaves the `=` between them.
    -/
theorem passedPart_eq {k e v : Bytes} (hk : ch '=' ∉ k) (he : e = [ch '='] ∨ (e = [] ∧ v = [])) :
    passedPart (k ++ e ++ v) = overwrite k ++ e ++ overwrite v := by
  have hsign : ((k ++ e ++ v).drop k.length).take 1 = e := by
    rw [List.append_assoc, List.drop_left]
    rcases he with rfl | ⟨rfl, rfl⟩ <;> rfl
  simp only [passedPart, keyLen_eq hk he, drop_key he, hsign]
  rw [List.append_assoc k, List.take_left]

/-- A query of one part after a pass. -/
theorem passed_last {p : Bytes} (hp : ch '&' ∉ p) : passed p = passedPart p := by
  rw [passed, List.splitOn_eq_singleton hp, List.map_singleton, List.intercalate_singleton]

/-- A pass works part by part and leaves the `&`s between them. -/
theorem passed_part {p : Bytes} (hp : ch '&' ∉ p) (rest : Bytes) :
    passed (p ++ ch '&' :: rest) = passedPart p ++ ch '&' :: passed rest := by
  rw [passed, List.splitOn_append_cons_self_of_not_mem hp, List.map_cons,
    List.intercalate_cons_of_ne_nil (by simp [List.splitOn_ne_nil]), List.append_assoc]
  rfl

/-- An empty query stays empty. -/
theorem passed_nil : passed [] = [] := passed_last List.not_mem_nil

/-- A part keeps its length. -/
theorem passedPart_length (p : Bytes) : (passedPart p).length = p.length := by
  obtain ⟨k, e, v, rfl, hk, he, -⟩ := cutPart_cases p
  rw [passedPart_eq hk he]
  simp only [List.length_append, overwrite_length]

/-- A query keeps its length under a pass, so `qStart` and `qEnd` still enclose it. -/
theorem passed_length (q : Bytes) : (passed q).length = q.length := by
  induction q using query_induction with
  | nil => rw [passed_nil]
  | last p _ hp => rw [passed_last hp, passedPart_length]
  | part p rest hp ih =>
    rw [passed_part hp]
    simp only [List.length_append, List.length_cons, passedPart_length, ih]

/-- A byte of the overwritten memory comes from the decoded text or from the text before. -/
theorem mem_overwrite {c : UInt8} {s : Bytes} (h : c ∈ overwrite s) : c ∈ unescape s true ∨ c ∈ s :=
  (List.mem_append.mp h).imp id List.mem_of_mem_drop

/-- A pass brings no byte into the query that neither it nor its decoded pairs have. -/
theorem not_mem_passed {q : Bytes} {d : UInt8} (hraw : d ∉ q)
    (hpairs : ∀ kv ∈ decodedPairs q, d ∉ kv.1 ∧ d ∉ kv.2) : d ∉ passed q := by
  have hpart : ∀ k e v : Bytes, d ∉ k ++ e ++ v → d ∉ unescape k true → d ∉ unescape v true →
      d ∉ overwrite k ++ e ++ overwrite v := by
    intro k e v hp hk hv
    simp only [List.mem_append, not_or] at hp ⊢
    exact ⟨⟨fun hmem => (mem_overwrite hmem).elim hk hp.1.1, hp.1.2⟩,
      fun hmem => (mem_overwrite hmem).elim hv hp.2⟩
  induction q using query_induction with
  | nil => rwa [passed_nil]
  | last p hne hp =>
    obtain ⟨k, e, v, rfl, hk, he, hcut⟩ := cutPart_cases p
    rw [decodedPairs, rawPairs_last hp hne, hcut, List.map_singleton,
      List.forall_mem_singleton] at hpairs
    rw [passed_last hp, passedPart_eq hk he]
    exact hpart k e v hraw hpairs.1 hpairs.2
  | part p rest hp ih =>
    obtain ⟨k, e, v, rfl, hk, he, hcut⟩ := cutPart_cases p
    rw [decodedPairs, rawPairs_part hp, hcut, List.map_cons, List.forall_mem_cons] at hpairs
    rw [List.mem_append, List.mem_cons, not_or, not_or] at hraw
    rw [passed_part hp, passedPart_eq hk he, List.mem_append, List.mem_cons, not_or, not_or]
    exact ⟨hpart k e v hraw.1 hpairs.1.1 hpairs.1.2, hraw.2.1, ih hraw.2.2 hpairs.2⟩

/-! ### Stable queries -/

/-- A text that reads the same when it is decoded where it was decoded, and has no `&` then. -/
def StableText (s : Bytes) :
    Prop := unescape (overwrite s) true = unescape s true ∧ ch '&' ∉ unescape s true

/-- **A query that can be read again**: its keys and values are stable, and no key has a decoded
    `=`. -/
def StableQuery (q : Bytes) : Prop :=
  ∀ kv ∈ rawPairs q, StableText kv.1 ∧ StableText kv.2 ∧ ch '=' ∉ unescape kv.1 true

instance (s : Bytes) : Decidable (StableText s) := inferInstanceAs (Decidable (_ ∧ _))
instance (q : Bytes) : Decidable (StableQuery q) :=
  inferInstanceAs (Decidable (∀ kv ∈ rawPairs q, _))

/-- A stable text is not changed any more. -/
theorem StableText.overwrite_overwrite {s : Bytes} (h : StableText s) :
    overwrite (overwrite s) = overwrite s := by
  rw [overwrite, h.1, overwrite, List.drop_left]

section Part

variable {k e v : Bytes}

/-- **A stable part**: the second pass cuts it where the first one did. -/
theorem passedPart_stable (hk : ch '=' ∉ k) (he : e = [ch '='] ∨ (e = [] ∧ v = []))
    (hp : ch '&' ∉ k ++ e ++ v) (hsk : StableText k) (hsv : StableText v)
    (heq : ch '=' ∉ unescape k true) :
    ch '&' ∉ passedPart (k ++ e ++ v) ∧ cutPart (passedPart (k ++ e ++ v))
      = (overwrite k, overwrite v) ∧
      passedPart (passedPart (k ++ e ++ v)) = passedPart (k ++ e ++ v) := by
  simp only [List.mem_append, not_or] at hp
  have hkey : ch '=' ∉ overwrite k := fun hmem => (mem_overwrite hmem).elim heq hk
  have he' : e = [ch '='] ∨ (e = [] ∧ overwrite v = []) :=
    he.imp id fun ⟨h, hv⟩ => ⟨h, by rw [hv]; rfl⟩
  rw [passedPart_eq hk he]
  refine ⟨?_, cutPart_eq hkey he', ?_⟩
  · simp only [List.mem_append, not_or]
    exact ⟨⟨fun hmem => (mem_overwrite hmem).elim hsk.2 hp.1.1, hp.1.2⟩,
      fun hmem => (mem_overwrite hmem).elim hsv.2 hp.2⟩
  · rw [passedPart_eq hkey he', hsk.overwrite_overwrite, hsv.overwrite_overwrite]

end Part

/-- **What a pass leaves of a stable query**: its pairs, decoded where they stand; and another pass
    leaves it alone. -/
theorem StableQuery.passed_spec {q : Bytes} (h : StableQuery q) :
    rawPairs (passed q) = (rawPairs q).map (fun kv => (overwrite kv.1, overwrite kv.2)) ∧
      passed (passed q) = passed q := by
  induction q using query_induction with
  | nil => exact ⟨rfl, by rw [passed_nil, passed_nil]⟩
  | last p hne hp =>
    obtain ⟨k, e, v, rfl, hk, he, hcut⟩ := cutPart_cases p
    rw [StableQuery, rawPairs_last hp hne, hcut, List.forall_mem_singleton] at h
    obtain ⟨hamp, hagain, hsame⟩ := passedPart_stable hk he hp h.1 h.2.1 h.2.2
    have hne' : passedPart (k ++ e ++ v) ≠ [] := by
      rw [← List.length_pos_iff, passedPart_length]
      exact List.length_pos_iff.mpr hne
    rw [passed_last hp, rawPairs_last hamp hne', hagain, rawPairs_last hp hne,
      hcut, passed_last hamp, hsame]
    exact ⟨rfl, rfl⟩
  | part p rest hp ih =>
    obtain ⟨k, e, v, rfl, hk, he, hcut⟩ := cutPart_cases p
    rw [StableQuery, rawPairs_part hp, hcut, List.forall_mem_cons] at h
    obtain ⟨hpart, hrest⟩ := h
    obtain ⟨hamp, hagain, hsame⟩ := passedPart_stable hk he hp hpart.1 hpart.2.1 hpart.2.2
    obtain ⟨hpairs, htext⟩ := ih hrest
    rw [passed_part hp, rawPairs_part hamp, hagain, hpairs, rawPairs_part hp,
      hcut, passed_part hamp, hsame, htext]
    exact ⟨rfl, rfl⟩

/-- A stable query is left alone by every pass but the first. -/
theorem StableQuery.passed_passed {q : Bytes} (h : StableQuery q) :
    passed (passed q) = passed q := h.passed_spec.2

/-- The pairs that a second pass finds in a stable query are those of the first. -/
theorem StableQuery.decodedPairs_passed {q : Bytes} (h : StableQuery q) :
    decodedPairs (passed q) = decodedPairs q := by
  rw [decodedPairs, h.passed_spec.1, decodedPairs, List.map_map]
  refine List.map_congr_left fun kv hkv => ?_
  obtain ⟨hk, hv, -⟩ := h kv hkv
  simp only [Function.comp, hk.1, hv.1]

/-! ### Queries that read the same -/

/-- The first part of a query ends in front of the first `&`. -/
theorem queryParts_head {q : Bytes} (hq : q ≠ []) :
    ∃ ps, queryParts q = q.takeWhile (· ≠ ch '&') :: ps := by
  induction q with
  | nil => exact absurd rfl hq
  | cons c q ih =>
    rw [queryParts]
    by_cases hc : c = ch '&'
    · rw [if_pos hc, List.takeWhile_cons_of_neg (by simpa using hc)]
      exact ⟨_, rfl⟩
    · rw [if_neg hc, List.takeWhile_cons_of_pos (by simpa using hc)]
      cases q with
      | nil => exact ⟨[], rfl⟩
      | cons d q =>
        obtain ⟨ps, hps⟩ := ih (List.cons_ne_nil d q)
        rw [hps]
        exact ⟨ps, rfl⟩

/-- The key of a part ends in front of the first `=`. -/
theorem cutPart_fst (p : Bytes) : (cutPart p).1 = p.takeWhile (· ≠ ch '=') := by
  obtain ⟨k, e, v, rfl, hk, he, hcut⟩ := cutPart_cases p
  have hall : ∀ c ∈ k, decide (c ≠ ch '=') = true := by
    intro c hc
    simpa using fun heq : c = ch '=' => hk (heq ▸ hc)
  rw [hcut, List.append_assoc, List.takeWhile_append_of_pos hall]
  rcases he with rfl | ⟨rfl, rfl⟩
  · rw [List.singleton_append, List.takeWhile_cons_of_neg (by simp), List.append_nil]
  · simp

/-- What is taken of a text in front of a byte that it has is shorter than the text. -/
theorem takeWhile_append_lt {P : UInt8 → Bool} {s : Bytes} (hs : ∃ c ∈ s, P c = false) (t : Bytes) :
    ((s ++ t).takeWhile P).length < s.length := by
  obtain ⟨c, hc, hP⟩ := hs
  have hlt : (s.takeWhile P).length < s.length := by
    refine lt_of_le_of_ne (List.takeWhile_prefix P).length_le fun hlen => ?_
    have hself := (List.takeWhile_prefix P).eq_of_length hlen
    rw [← hself] at hc
    rw [List.mem_takeWhile_imp hc] at hP
    cases hP
  rw [List.takeWhile_append, if_neg hlt.ne]
  exact hlt

section Part

variable {k e v t : Bytes} {kv : Bytes × Bytes} {ps : List (Bytes × Bytes)}

/-- A key with a decoded delimiter is cut there the next time. -/
theorem not_delimiter_of_key (hpairs : rawPairs (overwrite k ++ t) = kv :: ps)
    (hkey : unescape kv.1 true = unescape k true) :
    ch '&' ∉ unescape k true ∧ ch '=' ∉ unescape k true := by
  by_contra hboth
  have hne : overwrite k ++ t ≠ [] := by
    intro hnil
    rw [hnil] at hpairs
    cases hpairs
  obtain ⟨parts, hparts⟩ := queryParts_head hne
  rw [rawPairs, hparts, List.map_cons, List.cons.injEq] at hpairs
  have hfirst : kv.1 = (unescape k true ++ (k.drop (unescape k true).length ++ t)).takeWhile
      fun c => decide (c ≠ ch '=') && decide (c ≠ ch '&') := by
    rw [← hpairs.1, cutPart_fst, List.takeWhile_takeWhile, overwrite, List.append_assoc]
    simp only [Bool.decide_and, Bool.decide_eq_true, decide_not]
  have hshort : kv.1.length < (unescape k true).length := by
    rw [hfirst]
    refine takeWhile_append_lt ?_ _
    by_cases hamp : ch '&' ∈ unescape k true
    · exact ⟨_, hamp, by decide⟩
    · have heq : ch '=' ∈ unescape k true := by
        by_contra heq
        exact hboth ⟨hamp, heq⟩
      exact ⟨_, heq, by decide⟩
  have hle := unescape_length_le kv.1 true
  rw [hkey] at hle
  omega

/-- A value with a decoded `&` is cut there the next time. -/
theorem not_amp_of_value (hk : ch '=' ∉ overwrite k) (hamp : ch '&' ∉ overwrite k)
    (hpairs : rawPairs (overwrite k ++ ch '=' :: (overwrite v ++ t)) = kv :: ps)
    (hvalue : unescape kv.2 true = unescape v true) : ch '&' ∉ unescape v true := by
  intro hmem
  obtain ⟨parts, hparts⟩ :=
    queryParts_head (show overwrite k ++ ch '=' :: (overwrite v ++ t) ≠ [] by simp)
  have hall : ∀ c ∈ overwrite k, decide (c ≠ ch '&') = true := by
    intro c hc
    simpa using fun heq : c = ch '&' => hamp (heq ▸ hc)
  have hpart : (overwrite k ++ ch '=' :: (overwrite v ++ t)).takeWhile (· ≠ ch '&')
      = overwrite k ++ [ch '='] ++ (overwrite v ++ t).takeWhile (· ≠ ch '&') := by
    rw [List.takeWhile_append_of_pos hall, List.takeWhile_cons_of_pos (by decide),
      List.append_assoc]
    rfl
  rw [rawPairs, hparts, List.map_cons, hpart, cutPart_eq hk (.inl rfl), List.cons.injEq] at hpairs
  have hshort : kv.2.length < (unescape v true).length := by
    have htext : kv.2 = (overwrite v ++ t).takeWhile (· ≠ ch '&') := by rw [← hpairs.1]
    rw [htext, overwrite, List.append_assoc]
    exact takeWhile_append_lt ⟨_, hmem, by decide⟩ _
  have hle := unescape_length_le kv.2 true
  rw [hvalue] at hle
  omega

/-- **A part whose first pair reads the same** makes no delimiter. -/
theorem stable_of_first (hk : ch '=' ∉ k) (he : e = [ch '='] ∨ (e = [] ∧ v = []))
    (hp : ch '&' ∉ k ++ e ++ v) (hpairs : rawPairs (passedPart (k ++ e ++ v) ++ t) = kv :: ps)
    (hkey : unescape kv.1 true = unescape k true) (hvalue : unescape kv.2 true = unescape v true) :
    ch '=' ∉ unescape k true ∧ ch '&' ∉ unescape k true ∧ ch '&' ∉ unescape v true ∧
      ch '&' ∉ passedPart (k ++ e ++ v) ∧ cutPart (passedPart (k ++ e ++ v))
        = (overwrite k, overwrite v) := by
  simp only [List.mem_append, not_or] at hp
  rw [passedPart_eq hk he] at hpairs ⊢
  have hdelim := not_delimiter_of_key (t := e ++ overwrite v ++ t) (by simpa using hpairs) hkey
  have heq : ch '=' ∉ overwrite k := fun hmem => (mem_overwrite hmem).elim hdelim.2 hk
  have hamp : ch '&' ∉ overwrite k := fun hmem => (mem_overwrite hmem).elim hdelim.1 hp.1.1
  have hval : ch '&' ∉ unescape v true := by
    rcases he with rfl | ⟨rfl, rfl⟩
    · exact not_amp_of_value heq hamp (by simpa using hpairs) hvalue
    · exact List.not_mem_nil
  refine ⟨hdelim.2, hdelim.1, hval, ?_, cutPart_eq heq
    (he.imp id fun ⟨h, hv⟩ => ⟨h, by rw [hv]; rfl⟩)⟩
  simp only [List.mem_append, not_or]
  exact ⟨⟨hamp, hp.1.2⟩, fun hmem => (mem_overwrite hmem).elim hval hp.2⟩

end Part

/-- A query whose second pass finds the same pairs is stable. -/
theorem stableQuery_of_decodedPairs {q : Bytes} (h : decodedPairs (passed q) = decodedPairs q) :
    StableQuery q := by
  induction q using query_induction with
  | nil => exact fun kv hkv => absurd hkv List.not_mem_nil
  | last p hne hp =>
    obtain ⟨k, e, v, rfl, hk, he, hcut⟩ := cutPart_cases p
    rw [passed_last hp, decodedPairs, decodedPairs, rawPairs_last hp hne,
      hcut, List.map_singleton] at h
    obtain ⟨kv, hpairs, hkv⟩ := List.map_eq_singleton_iff.mp h
    obtain ⟨hkey, hvalue⟩ := Prod.mk.inj hkv
    obtain ⟨heq, hak, hav, hamp, hagain⟩ :=
      stable_of_first (t := []) hk he hp (by rwa [List.append_nil]) hkey hvalue
    have hne' : passedPart (k ++ e ++ v) ≠ [] := by
      rw [← List.length_pos_iff, passedPart_length]
      exact List.length_pos_iff.mpr hne
    rw [rawPairs_last hamp hne', hagain, List.cons.injEq] at hpairs
    rw [← hpairs.1] at hkey hvalue
    rw [StableQuery, rawPairs_last hp hne, hcut, List.forall_mem_singleton]
    exact ⟨⟨hkey, hak⟩, ⟨hvalue, hav⟩, heq⟩
  | part p rest hp ih =>
    obtain ⟨k, e, v, rfl, hk, he, hcut⟩ := cutPart_cases p
    rw [passed_part hp, decodedPairs, decodedPairs, rawPairs_part hp, hcut, List.map_cons] at h
    obtain ⟨kv, ps, hpairs, hkv, hrest⟩ := List.map_eq_cons_iff.mp h
    obtain ⟨hkey, hvalue⟩ := Prod.mk.inj hkv
    obtain ⟨heq, hak, hav, hamp, hagain⟩ := stable_of_first hk he hp hpairs hkey hvalue
    rw [rawPairs_part hamp, hagain, List.cons.injEq] at hpairs
    rw [← hpairs.1] at hkey hvalue
    rw [← hpairs.2] at hrest
    rw [StableQuery, rawPairs_part hp, hcut, List.forall_mem_cons]
    exact ⟨⟨⟨hkey, hak⟩, ⟨hvalue, hav⟩, heq⟩, ih hrest⟩

/-- **The second pass finds the pairs of the first one** exactly on stable queries. -/
theorem stableQuery_iff (q : Bytes) : decodedPairs (passed q) = decodedPairs q ↔ StableQuery q :=
  ⟨stableQuery_of_decodedPairs, StableQuery.decodedPairs_passed⟩

/-! ### Queries without escapes -/

/-- A text without a complete escape: at most one byte follows a `%`. -/
def NoEscape (s : Bytes) : Prop := ∀ i < s.length, s[i]? = some (ch '%') → s.length ≤ i + 2

/-- A query without a complete escape in its keys and values. -/
def PlainQuery (q : Bytes) : Prop := ∀ kv ∈ rawPairs q, NoEscape kv.1 ∧ NoEscape kv.2

instance (s : Bytes) : Decidable (NoEscape s) := inferInstanceAs (Decidable (∀ i < s.length, _))
instance (q : Bytes) : Decidable (PlainQuery q) :=
  inferInstanceAs (Decidable (∀ kv ∈ rawPairs q, _))

/-- `+` stands for a space. -/
def plusSpace (c : UInt8) : UInt8 := if c = ch '+' then ch ' ' else c

/-- Without a complete escape the decoder copies byte by byte, so that its two positions stay the
    same; a `%` near the end is kept as it is. -/
theorem NoEscape.unescapeFrom {s : Bytes} (h : NoEscape s) (rest : Bytes)
    (x : ℕ) (hrest : s.drop x = rest) : unescapeFrom s true rest x = rest.map plusSpace := by
  induction rest generalizing x with
  | nil => rfl
  | cons c rest ih =>
    have hget : s[x]? = some c := getElem?_of_drop hrest 0
    have hlen := length_of_drop hrest
    have hnext : s.drop (x + 1) = rest := by
      rw [← List.drop_drop, hrest]
      rfl
    have htail := ih (x + 1) hnext
    by_cases hc : c = ch '%'
    · -- the escape is cut off, and nothing is stored over the percent sign
      subst hc
      have hshort := h x (List.getElem?_eq_some_iff.mp hget).1 hget
      have hself : s.getD x 0 = plusSpace (ch '%') := by
        rw [List.getD_eq_getElem?_getD, hget]
        rfl
      rw [unescapeFrom_cut (by omega), hself, htail, List.map_cons]
    · rw [unescapeFrom_plain hc, htail, List.map_cons]
      simp [plusSpace]

/-- A text without a complete escape is decoded by its pluses alone. -/
theorem NoEscape.unescape_eq {s : Bytes} (h : NoEscape s) : unescape s true = s.map plusSpace :=
  h.unescapeFrom s 0 rfl

/-- A text without a complete escape takes all of its memory when it is decoded, and nothing of the
    old text is left. -/
theorem NoEscape.overwrite_eq {s : Bytes} (h : NoEscape s) : overwrite s = s.map plusSpace := by
  rw [overwrite, h.unescape_eq, List.length_map, List.drop_length, List.append_nil]

/-- Replacing pluses neither makes nor removes a byte other than plus and space. -/
theorem plusSpace_eq_iff {c d : UInt8} (hp : d ≠ ch '+') (hs : d ≠ ch ' ') :
    plusSpace c = d ↔ c = d := by
  unfold plusSpace
  split
  · rename_i hc
    exact ⟨fun h => absurd h.symm hs, fun h => absurd (h.symm.trans hc) hp⟩
  · rfl

/-- After the first replacement no plus is left. -/
theorem plusSpace_plusSpace (s : Bytes) : (s.map plusSpace).map plusSpace = s.map plusSpace := by
  rw [List.map_map]
  refine List.map_congr_left fun c _ => ?_
  by_cases hc : c = ch '+'
  · subst hc
    rfl
  · simp [plusSpace, hc]

/-- Replacing pluses makes no escape, for `%` is neither a plus nor a space. -/
theorem noEscape_plusSpace {s : Bytes} (h : NoEscape s) : NoEscape (s.map plusSpace) := by
  intro i hlt hi
  rw [List.length_map] at hlt ⊢
  rw [List.getElem?_map, Option.map_eq_some_iff] at hi
  obtain ⟨c, hc, hplus⟩ := hi
  rw [(plusSpace_eq_iff (by decide) (by decide)).mp hplus] at hc
  exact h i hlt hc

/-- A delimiter is in the replaced text exactly when it is in the text. -/
theorem mem_plusSpace {s : Bytes} {c : UInt8} (hp : c ≠ ch '+') (hs : c ≠ ch ' ') :
    c ∈ s.map plusSpace ↔ c ∈ s := by
  simp only [List.mem_map, plusSpace_eq_iff hp hs, exists_eq_right]

/-- A text without an escape that has no `&` is stable. -/
theorem NoEscape.stable {s : Bytes} (h : NoEscape s) (hamp : ch '&' ∉ s) : StableText s := by
  rw [StableText, h.overwrite_eq, (noEscape_plusSpace h).unescape_eq,
    h.unescape_eq, plusSpace_plusSpace, mem_plusSpace (by decide) (by decide)]
  exact ⟨rfl, hamp⟩

section Part

variable {k e v : Bytes}

/-- A part without escapes: it is stable, and a pass changes its pluses only. -/
theorem plainPart (hk : ch '=' ∉ k) (he : e = [ch '='] ∨ (e = [] ∧ v = []))
    (hp : ch '&' ∉ k ++ e ++ v) (hkey : NoEscape k) (hvalue : NoEscape v) :
    (StableText k ∧ StableText v ∧ ch '=' ∉ unescape k true) ∧
      passedPart (k ++ e ++ v) = (k ++ e ++ v).map plusSpace := by
  simp only [List.mem_append, not_or] at hp
  refine ⟨⟨hkey.stable hp.1.1, hvalue.stable hp.2, ?_⟩, ?_⟩
  · rwa [hkey.unescape_eq, mem_plusSpace (by decide) (by decide)]
  · have hsign : e.map plusSpace = e := by
      rcases he with rfl | ⟨rfl, -⟩ <;> rfl
    rw [passedPart_eq hk he, hkey.overwrite_eq, hvalue.overwrite_eq,
      List.map_append, List.map_append, hsign]

end Part

/-- **A query without escapes** is stable, and a pass changes its pluses only. -/
theorem PlainQuery.spec {q : Bytes} (h : PlainQuery q) :
    StableQuery q ∧ passed q = q.map plusSpace := by
  induction q using query_induction with
  | nil => exact ⟨fun kv hkv => absurd hkv List.not_mem_nil, passed_nil⟩
  | last p hne hp =>
    obtain ⟨k, e, v, rfl, hk, he, hcut⟩ := cutPart_cases p
    rw [PlainQuery, rawPairs_last hp hne, hcut, List.forall_mem_singleton] at h
    obtain ⟨hstable, htext⟩ := plainPart hk he hp h.1 h.2
    rw [StableQuery, rawPairs_last hp hne, hcut, List.forall_mem_singleton, passed_last hp]
    exact ⟨hstable, htext⟩
  | part p rest hp ih =>
    obtain ⟨k, e, v, rfl, hk, he, hcut⟩ := cutPart_cases p
    rw [PlainQuery, rawPairs_part hp, hcut, List.forall_mem_cons] at h
    obtain ⟨hstable, htext⟩ := plainPart hk he hp h.1.1 h.1.2
    obtain ⟨hrest, htail⟩ := ih h.2
    rw [StableQuery, rawPairs_part hp, hcut, List.forall_mem_cons, passed_part hp, htext, htail]
    refine ⟨⟨hstable, hrest⟩, ?_⟩
    have hamp : plusSpace (ch '&') = ch '&' := by decide
    simp only [List.map_append, List.map_cons, hamp]

end Resh.Server
