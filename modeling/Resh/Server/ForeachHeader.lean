import Resh.Server.Http

namespace Resh.Server

open Resh.Go

/-!
# http.go — reading the headers of a request

`HTTP.ForeachHeader` scans the memory of the request again, from byte 0: it skips what stands
before the first CR LF, hands every line with a name to the callback, and stops at an empty line.
It does not know where the first line ended when the request was parsed.

* `headerOf` — the name and the value that the scan takes from a line;
* `scan` — the headers that it hands out, and whether it comes to an end;
* `foreachHeader_eq` — the loop is the callback down that list (`replay`), whatever the callback
  does;
* `scan_eq_of_replay` — so two memories are told apart by no callback exactly when their scans are
  equal.
-/

/-- The name and the value of a line, if it has a name. -/
def headerOf (line : Bytes) : Option (Bytes × Bytes) :=
  match indexByte? (ch ':') line with
  | some (i + 1) => some (line.take (i + 1), trimSpace (line.drop (i + 2)))
  | _ => none

section Scan

variable {τ : Type} (f : τ → Bytes → Bytes → τ × Bool)

/-- The loop of `ForeachHeader` at offset `start`; the callback `f` changes a state `a` and says
    whether to go on, `n` bounds the rounds, `none` is a panic.  Without a CR LF
    (`bytes.Index = -1`) the first round steps one byte on, and a later one slices backwards. -/
def foreachHeaderLoop (data : Bytes) : ℕ → ℕ → τ → Option τ
  | 0, _, _ => none
  | n + 1, start, a =>
    if start < data.length then
      match index? crlf (data.drop start) with
      | none => if start = 0 then foreachHeaderLoop data n 1 a else none
      | some 0 => some a
      | some (i + 1) =>
        let idx := i + 1
        if start = 0 then foreachHeaderLoop data n (start + idx + 2) a
        else match headerOf ((data.drop start).take idx) with
          | none => foreachHeaderLoop data n (start + idx + 2) a
          | some (k, v) =>
            match f a k v with
            | (a', true) => foreachHeaderLoop data n (start + idx + 2) a'
            | (a', false) => some a'
    else some a

/-- `HTTP.ForeachHeader(f)`. -/
def HTTP.foreachHeader (h : HTTP) (a : τ) : Option τ :=
  foreachHeaderLoop f h.data (h.data.length + 1) 0 a

/-- The callback down a list of headers, until it asks to stop.  If it does not, the scan ends
    behind the last one, or panics there. -/
def replay : List (Bytes × Bytes) → Bool → τ → Option τ
  | [], ends, a => if ends then some a else none
  | (k, v) :: hs, ends, a =>
    match f a k v with
    | (a', true) => replay hs ends a'
    | (a', false) => some a'

/-- The callback down the headers of a scan that ends. -/
def visit : List (Bytes × Bytes) → τ → τ
  | [], a => a
  | (k, v) :: hs, a =>
    match f a k v with
    | (a', true) => visit hs a'
    | (a', false) => a'

end Scan

/-- `HTTP.GetHeader(key)`. -/
def HTTP.getHeader (h : HTTP) (key : Bytes) : Option Bytes :=
  h.foreachHeader (fun value k v => if k = key then (v, false) else (value, true)) []

/-- What a callback that always goes on is given. -/
def HTTP.headers (h : HTTP) : Option (List (Bytes × Bytes)) :=
  h.foreachHeader (fun hs k v => (hs ++ [(k, v)], true)) []

/-! ### The scan by lines -/

/-- Whether there is an empty piece. -/
instance decidableNilMem (ps : List Bytes) : Decidable ([] ∈ ps) :=
  decidable_of_iff (ps.any List.isEmpty = true) (by simp)

/-- What the scan takes from the pieces behind the first one: the headers up to the first empty
    piece, which is where it ends.  Without an empty one it has read all pieces but the last when it
    finds no line end. -/
def scanLines (ps : List Bytes) : List (Bytes × Bytes) × Bool :=
  ((ps.dropLast.takeWhile (· ≠ [])).filterMap headerOf, decide ([] ∈ ps))

/-- **The scan of a memory**: the headers that it hands out, and whether it ends.  Without any line
    end it steps over one byte, and ends if that was all. -/
def scan (data : Bytes) : List (Bytes × Bytes) × Bool :=
  match splitCrlf data with
  | [] => ([], true)
  | p :: ps =>
    if p = [] then ([], true)
    else if ps = [] then ([], decide (p.length = 1))
    else scanLines ps

/-- One more line in front. -/
theorem scanLines_cons {l : Bytes} {ps : List Bytes} (hl : l ≠ []) (hps : ps ≠ []) :
    scanLines (l :: ps) = ((headerOf l).toList ++ (scanLines ps).1, (scanLines ps).2) := by
  unfold scanLines
  rw [List.dropLast_cons_of_ne_nil hps, List.takeWhile_cons_of_pos (by simpa using hl),
    List.filterMap_cons]
  simp only [List.mem_cons, hl.symm, false_or]
  cases headerOf l with
  | none => rfl
  | some kv => rfl

/-- With an empty piece the scan ends there. -/
theorem scanLines_eq {ps : List Bytes} (hnil : [] ∈ ps) :
    scanLines ps = ((ps.takeWhile (· ≠ [])).filterMap headerOf, true) := by
  unfold scanLines
  rw [decide_eq_true hnil]
  congr 2
  induction ps with
  | nil => cases hnil
  | cons l ps ih =>
    by_cases hl : l = []
    · subst hl
      cases ps with
      | nil => rfl
      | cons m ps => rw [List.dropLast_cons_of_ne_nil (List.cons_ne_nil m ps)]; rfl
    · have hmem : [] ∈ ps := (List.mem_cons.mp hnil).resolve_left (Ne.symm hl)
      rw [List.dropLast_cons_of_ne_nil (List.ne_nil_of_mem hmem),
        List.takeWhile_cons_of_pos (by simpa using hl),
        List.takeWhile_cons_of_pos (by simpa using hl), ih hmem]

section Scan

variable {τ : Type} {f : τ → Bytes → Bytes → τ × Bool} {data : Bytes}

/-- From the start of a line on, the loop is the scan of the lines from there. -/
theorem foreachHeaderLoop_eq (n start : ℕ) (a : τ) (h0 : start ≠ 0) (hn : data.length - start < n) :
    foreachHeaderLoop f data n start a
      = replay f (scanLines (splitCrlf (data.drop start))).1
      (scanLines (splitCrlf (data.drop start))).2 a := by
  -- by induction over the rounds; `start` is behind a line end
  induction n generalizing start a with
  | zero => exact absurd hn (Nat.not_lt_zero _)
  | succ n ih =>
    rw [foreachHeaderLoop]
    by_cases hlt : start < data.length
    · have hne : data.drop start ≠ [] := by simpa using hlt
      rw [if_pos hlt]
      cases hi : index? crlf (data.drop start) with
      | none =>
        rw [splitCrlf_of_noCrlf ((noCrlf_iff _).mpr hi)]
        simp [scanLines, replay, h0, hne.symm]
      | some i =>
        have hle := index?_le (by simp [crlf]) hi
        rw [List.length_drop, crlf_length] at hle
        rw [splitCrlf_of_index? hi, List.drop_drop, show start + (i + 2) = start + i + 2 by omega]
        cases i with
        | zero =>
          rw [List.take_zero, scanLines_eq (List.mem_cons_self ..)]
          rfl
        | succ i =>
          have hline : (data.drop start).take (i + 1) ≠ [] := by simpa using hne
          have hstep := fun b => ih (start + (i + 1) + 2) b (by omega) (by omega)
          rw [scanLines_cons hline (splitCrlf_ne_nil _)]
          simp only [if_neg h0]
          cases headerOf ((data.drop start).take (i + 1)) with
          | none => exact hstep a
          | some kv =>
            obtain ⟨k, v⟩ := kv
            simp only [Option.toList_some, List.singleton_append, replay]
            rcases f a k v with ⟨b, go⟩
            cases go with
            | true => exact hstep b
            | false => rfl
    · rw [if_neg hlt, List.drop_eq_nil_of_le (by omega)]
      rfl

/-- **The scan by lines.** -/
theorem foreachHeader_eq (h : HTTP) (a : τ) :
    h.foreachHeader f a = replay f (scan h.data).1 (scan h.data).2 a := by
  unfold HTTP.foreachHeader scan
  rw [foreachHeaderLoop, List.drop_zero]
  by_cases hlt : 0 < h.data.length
  · have hne : h.data ≠ [] := List.length_pos_iff.mp hlt
    rw [if_pos hlt]
    cases hi : index? crlf h.data with
    | none =>
      -- the first round steps one byte on, and the second one slices backwards
      have hnone : index? crlf (h.data.drop 1) = none := by
        rw [index?_eq_none_iff] at hi ⊢
        exact fun hinf => hi (hinf.trans (List.drop_suffix 1 _).isInfix)
      obtain ⟨n, hn⟩ : ∃ n, h.data.length = n + 1 := ⟨h.data.length - 1, by omega⟩
      rw [splitCrlf_of_noCrlf ((noCrlf_iff _).mpr hi)]
      simp only [if_true, if_neg hne, hn, foreachHeaderLoop, hnone]
      by_cases hone : n = 0
      · simp [hone, replay]
      · rw [if_pos (by omega)]
        simp [hone, replay]
    | some i =>
      have hle := index?_le (by simp [crlf]) hi
      rw [crlf_length] at hle
      rw [splitCrlf_of_index? hi]
      cases i with
      | zero => rfl
      | succ i =>
        have hline : h.data.take (i + 1) ≠ [] := by simpa using hne
        simp only [if_true, if_neg hline, if_neg (splitCrlf_ne_nil _)]
        rw [foreachHeaderLoop_eq _ _ a (by omega) (by omega),
          show 0 + (i + 1) + 2 = i + 1 + 2 by omega]
  · rw [if_neg hlt, List.eq_nil_of_length_eq_zero (by omega : h.data.length = 0)]
    rfl

theorem replay_true (hs : List (Bytes × Bytes)) (a : τ) :
    replay f hs true a = some (visit f hs a) := by
  induction hs generalizing a with
  | nil => rfl
  | cons kv hs ih =>
    obtain ⟨k, v⟩ := kv
    rw [replay, visit]
    rcases f a k v with ⟨b, go⟩
    cases go with
    | true => exact ih b
    | false => rfl

/-- On a memory with a first line and an empty one, the headers between the two. -/
theorem foreachHeader_visit (h : HTTP) (a : τ) {p : Bytes} {ps : List Bytes}
    (hsplit : splitCrlf h.data = p :: ps) (hp : p ≠ []) (hnil : [] ∈ ps) :
    h.foreachHeader f a = some (visit f ((ps.takeWhile (· ≠ [])).filterMap headerOf) a) := by
  rw [foreachHeader_eq, scan, hsplit]
  simp only [if_neg hp, if_neg (List.ne_nil_of_mem hnil), scanLines_eq hnil, replay_true]

theorem visit_lookup (key : Bytes) (hs : List (Bytes × Bytes)) (value : Bytes) :
    visit (fun value k v => if k = key then (v, false) else (value, true)) hs value
      = ((hs.find? (·.1 = key)).map (·.2)).getD value := by
  induction hs generalizing value with
  | nil => rfl
  | cons kv hs ih =>
    by_cases hk : kv.1 = key
    · simp [visit, hk]
    · simp [visit, hk, ih]

end Scan

/-- What a callback that always goes on is given: all the headers, if the scan ends. -/
theorem headers_eq (h : HTTP) :
    h.headers = if (scan h.data).2 then some (scan h.data).1 else none := by
  have hcollect : ∀ (ends : Bool) (hs acc : List (Bytes × Bytes)),
      replay (fun hs k v => (hs ++ [(k, v)], true)) hs ends acc
        = if ends then some (acc ++ hs) else none := by
    intro ends hs
    induction hs with
    | nil => intro acc; rw [List.append_nil]; rfl
    | cons kv hs ih =>
      intro acc
      show replay _ hs ends (acc ++ [kv]) = _
      rw [ih, List.append_assoc, List.singleton_append]
  rw [HTTP.headers, foreachHeader_eq, hcollect, List.nil_append]

/-! ### What callbacks can tell apart -/

/-- A callback that keeps what it is given, and stops when it has `n` headers. -/
def collectUpTo (n : ℕ) (hs : List (Bytes × Bytes)) (k v : Bytes) : List (Bytes × Bytes) × Bool :=
  (hs ++ [(k, v)], decide (hs.length + 1 < n))

theorem replay_collectUpTo (n : ℕ) (ends : Bool) (hs acc : List (Bytes × Bytes))
    (hacc : acc.length < n) : replay (collectUpTo n) hs ends acc
      = if n ≤ (acc ++ hs).length then some ((acc ++ hs).take n)
      else if ends then some (acc ++ hs) else none := by
  induction hs generalizing acc with
  | nil =>
    rw [List.append_nil, if_neg (not_le.mpr hacc)]
    rfl
  | cons kv hs ih =>
    obtain ⟨k, v⟩ := kv
    have hassoc : acc ++ (k, v) :: hs = acc ++ [(k, v)] ++ hs := by simp
    rw [replay, collectUpTo, hassoc]
    by_cases hlt : acc.length + 1 < n
    · rw [decide_eq_true hlt]
      exact ih _ (by simpa using hlt)
    · have hn : n = (acc ++ [(k, v)]).length := by simp; omega
      rw [decide_eq_false hlt, if_pos (by rw [hn]; simp), hn, List.take_left]

/-- **Two scans that no callback tells apart are equal.** -/
theorem scan_eq_of_replay {s t : List (Bytes × Bytes) × Bool}
    (h : ∀ (τ : Type) (f : τ → Bytes → Bytes → τ × Bool) (a : τ),
      replay f s.1 s.2 a = replay f t.1 t.2 a) : s = t := by
  obtain ⟨hs, e⟩ := s
  obtain ⟨ht, e'⟩ := t
  have hcount : ∀ n, 0 < n →
      (if n ≤ hs.length then some (hs.take n) else if e then some hs else none)
        = if n ≤ ht.length then some (ht.take n) else if e' then some ht else none := by
    intro n hn
    have hn' := h _ (collectUpTo n) []
    rwa [replay_collectUpTo n e hs [] (by simpa using hn),
      replay_collectUpTo n e' ht [] (by simpa using hn), List.nil_append, List.nil_append] at hn'
  -- a callback that asks for more than there is sees how both end
  have hall := hcount (hs.length + ht.length + 1) (by omega)
  have hover : ¬ hs.length + ht.length + 1 ≤ hs.length ∧
      ¬ hs.length + ht.length + 1 ≤ ht.length := by omega
  rw [if_neg hover.1, if_neg hover.2] at hall
  cases e with
  | true =>
    cases e' with
    | true => rw [Option.some.inj hall]
    | false => cases hall
  | false =>
    cases e' with
    | true => cases hall
    | false =>
      -- neither ends, so the number of the headers shows where a callback can still stop
      have hlen : hs.length = ht.length := by
        by_contra hne
        rcases Nat.lt_or_gt_of_ne hne with hlt | hlt
        · have hmore := hcount ht.length (by omega)
          rw [if_neg (not_le.mpr hlt), if_pos le_rfl] at hmore
          cases hmore
        · have hmore := hcount hs.length (by omega)
          rw [if_pos le_rfl, if_neg (not_le.mpr hlt)] at hmore
          cases hmore
      rcases Nat.eq_zero_or_pos hs.length with hzero | hpos
      · obtain rfl := List.eq_nil_of_length_eq_zero hzero
        rw [List.eq_nil_of_length_eq_zero hlen.symm]
      · have heq := hcount hs.length hpos
        rw [if_pos le_rfl, if_pos hlen.le, List.take_length, hlen, List.take_length] at heq
        rw [Option.some.inj heq]

end Resh.Server
