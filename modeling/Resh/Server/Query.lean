import Resh.Server.QueryText
import Resh.Server.Request

namespace Resh.Server

open Resh.Go Resh.Incremental

/-!
# http.go — the query of a request

`ForeachQuery` cuts the query at `&` and `=`, and decodes every key and every value where it stands.
The strings that it hands out are slices of the memory of the request, not copies, and so are the
keys and the values that `Query` keeps in its map.

* `Request` — a request in its memory;
* `foreachQuery`, `url` — the accessors that read the query;
* `MapOps` — the map of `Query`, which is another module's (`plru.Map`): its operations are a
  parameter, and `MapOps.Lawful` says what is assumed of them;
* `Mapped`, `query`, `getQuery` — a request with its map, and the accessors that use it;
* `foreachQueryLoop_eq` — the loop hands out the decoded pairs of the text that it finds, and leaves
  the text `passed`, in which they stand.
-/

/-! ### The accessors -/

/-- A key and a value as the callback gets them, and where they stand. -/
structure Param where
  key : Bytes
  value : Bytes
  keyOff : ℕ
  valueOff : ℕ
  deriving DecidableEq, Repr

/-- The key and the value. -/
def Param.pair (p : Param) : Bytes × Bytes := (p.key, p.value)

/-- The loop of `ForeachQuery` on `mem[lo:hi]`; `n` bounds the rounds.  Behind the last part, which
    has no `&`, nothing is left. -/
def foreachQueryLoop : ℕ → Bytes → ℕ → ℕ → Option (Bytes × List Param)
  | 0, _, _, _ => none
  | n + 1, mem, lo, hi =>
    if lo < hi then
      let query := (mem.take hi).drop lo
      let part := query.take ((indexByte? (ch '&') query).getD query.length)
      let keyLen := (indexByte? (ch '=') part).getD part.length
      match unescapeInplace (part.take keyLen) true,
        unescapeInplace (part.drop (keyLen + 1)) true with
      | some (key, k), some (value, v) =>
        (foreachQueryLoop n (splice (splice mem lo key) (lo + keyLen + 1) value)
          (lo + part.length + 1)
          hi).map fun r => (r.1, ⟨key.take k, value.take v, lo, lo + keyLen + 1⟩ :: r.2)
      | _, _ => none
    else some (mem, [])

/-- `HTTP` with the memory behind `data`, up to the capacity of the slice. -/
structure Request where
  http : HTTP
  behind : Bytes := []
  deriving DecidableEq, Repr

namespace Request

/-- The memory that `r.data` is a slice of. -/
def mem (r : Request) : Bytes := r.http.data ++ r.behind

/-- The same request with another memory. -/
def withMem (r : Request) (m : Bytes) : Request :=
  { r with
    http := { r.http with data := m.take r.http.data.length }
    behind := m.drop r.http.data.length }

/-- `HTTP.ForeachQuery(f)`: what `f` is given, in order.  The slice expression reaches up to the
    capacity of `r.data`; `none` is a panic. -/
def foreachQuery (r : Request) : Option (Request × List Param) :=
  if r.http.qStart = 0 then some (r, [])
  else match slice? r.mem r.http.qStart r.http.qEnd with
    | none => none
    | some query =>
      (foreachQueryLoop (query.length + 1) r.mem r.http.qStart r.http.qEnd).map fun s =>
        (r.withMem s.1, s.2)

end Request

/-- A byte that `url.QueryEscape` leaves alone. -/
def unreserved (c : UInt8) : Bool :=
  decide (ch 'a' ≤ c ∧ c ≤ ch 'z') || decide (ch 'A' ≤ c ∧ c ≤ ch 'Z')
    || decide (ch '0' ≤ c ∧ c ≤ ch '9')
    || decide (c ∈ ascii "-_.~")

/-- `url.QueryEscape(s)`. -/
def queryEscape (s : Bytes) : Bytes :=
  s.flatMap fun c =>
    if c = ch ' ' then [ch '+']
    else if unreserved c then [c]
    else [ch '%', (ascii "0123456789ABCDEF").getD (c.toNat / 16) 0,
      (ascii "0123456789ABCDEF").getD (c.toNat % 16) 0]

/-- The fields of the `url.URL` that `HTTP.URL` builds. -/
structure URL where
  scheme : Bytes
  host : Bytes
  path : Bytes
  rawQuery : Bytes
  deriving DecidableEq, Repr

/-- The text that the callback of `URL` puts together. -/
def renderQuery (ps : List (Bytes × Bytes)) : Bytes :=
  ps.flatMap fun kv => queryEscape kv.1 ++ ascii "=" ++ queryEscape kv.2 ++ ascii "&"

/-- `HTTP.URL()`. -/
def Request.url (r : Request) : Option (Request × URL) :=
  r.foreachQuery.map fun s =>
    (s.1, ⟨ascii "http:", r.http.host, r.http.path, renderQuery (s.2.map Param.pair)⟩)

/-! ### The map of the query -/

/-- The key and the value stand in the memory at their offsets. -/
def Param.StandsIn (p : Param) (mem : Bytes) : Prop :=
  (mem.drop p.keyOff).take p.key.length = p.key ∧
    (mem.drop p.valueOff).take p.value.length = p.value

/-- The value of the last pair with the key, or the empty string. -/
def lastValue (ps : List (Bytes × Bytes)) (k : Bytes) : Bytes :=
  ((ps.reverse.find? (·.1 = k)).map (·.2)).getD []

/-- The operations of the map: `NewMap`, `Set(k, v)` and `Get(k)`, also on the nil map (`none`).
    What was set are slices of the memory, so `Get` reads the memory as it is at the time. -/
structure MapOps (M : Type) where
  empty : M
  set : M → Param → M
  get : Option M → Bytes → Bytes → Bytes

/-- **What is assumed of the map.**  As long as the keys and the values that were set stand in the
    memory, `Get` returns the value that was set last for its key, or the empty string. -/
structure MapOps.Lawful {M : Type} (ops : MapOps M) : Prop where
  nil : ∀ mem k, ops.get none mem k = []
  found : ∀ (l : List Param) (mem k : Bytes), (∀ p ∈ l, p.StandsIn mem) →
    ops.get (some (l.foldl ops.set ops.empty)) mem k = lastValue (l.map Param.pair) k

/-- A request with the field `qmap`. -/
structure Mapped (M : Type) where
  request : Request
  qmap : Option M := none

section Map

variable {M : Type} (ops : MapOps M)

/-- `HTTP.Query()`; the inner `none` is the nil map. -/
def Mapped.query (r : Mapped M) : Option (Mapped M × Option M) :=
  match r.qmap with
  | some m => some (r, some m)
  | none =>
    if r.request.http.qStart > 0 then
      r.request.foreachQuery.map fun s =>
        let m := s.2.foldl ops.set ops.empty
        (⟨s.1, some m⟩, some m)
    else some (r, none)

/-- `HTTP.GetQuery(k)`. -/
def Mapped.getQuery (r : Mapped M) (k : Bytes) : Option (Mapped M × Bytes) :=
  (r.query ops).map fun s => (s.1, ops.get s.2 s.1.request.mem k)

end Map

/-! ### The loop by parts -/

/-- One round. -/
theorem foreachQueryLoop_round (n : ℕ) (pre : Bytes) {k e v t : Bytes}
    (post : Bytes) (hk : ch '=' ∉ k)
    (he : e = [ch '='] ∨ (e = [] ∧ v = [])) (hp : ch '&' ∉ k ++ e ++ v)
    (ht : t = [] ∨ ∃ rest, t = ch '&' :: rest) (hne : k ++ e ++ v ++ t ≠ []) :
    foreachQueryLoop (n + 1) (pre ++ (k ++ e ++ v ++ t) ++ post) pre.length
        (pre.length + (k ++ e ++ v ++ t).length)
      = (foreachQueryLoop n (pre ++ (overwrite k ++ e ++ overwrite v ++ t) ++ post)
          (pre.length + (k ++ e ++ v).length + 1) (pre.length + (k ++ e ++ v ++ t).length)).map
          fun r =>
            (r.1, ⟨unescape k true, unescape v true, pre.length,
              pre.length + k.length + 1⟩ :: r.2) := by
  have hquery : ((pre ++ (k ++ e ++ v ++ t) ++ post).take
      (pre.length + (k ++ e ++ v ++ t).length)).drop pre.length = k ++ e ++ v ++ t := by
    rw [← List.length_append, List.take_left, List.drop_left]
  have hpart : (k ++ e ++ v ++ t).take ((indexByte? (ch '&') (k ++ e ++ v ++ t)).getD
      (k ++ e ++ v ++ t).length) = k ++ e ++ v := by
    rcases ht with rfl | ⟨rest, rfl⟩
    · rw [List.append_nil, indexByte?_eq_none.mpr hp, Option.getD_none, List.take_length]
    · rw [indexByte?_append hp, Option.getD_some, List.take_left]
  -- the key and the value are overwritten where they stand
  have hmem : splice (splice (pre ++ (k ++ e ++ v ++ t) ++ post) pre.length (overwrite k))
      (pre.length + k.length + 1) (overwrite v) = pre
        ++ (overwrite k ++ e ++ overwrite v ++ t) ++ post := by
    have hfirst : splice (pre ++ k ++ (e ++ v ++ t ++ post)) pre.length (overwrite k)
        = pre ++ overwrite k ++ (e ++ v ++ t ++ post) := splice_middle (overwrite_length k)
    simp only [List.append_assoc] at hfirst ⊢
    rw [hfirst]
    rcases he with rfl | ⟨rfl, rfl⟩
    · have hlast : splice ((pre ++ overwrite k ++ [ch '=']) ++ v ++ (t ++ post))
          (pre ++ overwrite k ++ [ch '=']).length (overwrite v)
          = (pre ++ overwrite k ++ [ch '=']) ++ overwrite v ++ (t ++ post) :=
        splice_middle (overwrite_length v)
      simpa only [List.append_assoc, List.length_append, List.length_singleton, overwrite_length,
        Nat.add_assoc] using hlast
    · have hnil : overwrite [] = [] := rfl
      rw [hnil, splice, List.append_nil, List.length_nil, Nat.add_zero, List.take_append_drop]
  have htake : (k ++ e ++ v).take k.length = k := by rw [List.append_assoc, List.take_left]
  rw [foreachQueryLoop, if_pos (by have := List.length_pos_iff.mpr hne; omega)]
  simp only [hquery, hpart, keyLen_eq hk he, drop_key he, htake, unescapeInplace_eq]
  rw [← overwrite, ← overwrite, hmem]
  simp only [overwrite, List.take_left]

/-! ### The whole loop -/

/-- A decoded part stands in its memory. -/
theorem standsIn_part (pre k : Bytes) {e v : Bytes} (post : Bytes)
    (he : e = [ch '='] ∨ (e = [] ∧ v = [])) :
    Param.StandsIn ⟨unescape k true, unescape v true, pre.length, pre.length + k.length + 1⟩
      (pre ++ (overwrite k ++ e ++ overwrite v) ++ post) := by
  constructor
  · have hkey : (pre ++ (overwrite k ++ e ++ overwrite v) ++ post).drop pre.length
        = unescape k true ++ (k.drop (unescape k true).length ++ (e ++ (overwrite v ++ post))) := by
      rw [List.append_assoc, List.drop_left, overwrite]
      simp only [List.append_assoc]
    show List.take (unescape k true).length _ = unescape k true
    rw [hkey, List.take_left]
  · rcases he with rfl | ⟨rfl, rfl⟩
    · have hvalue : (pre ++ (overwrite k ++ [ch '='] ++ overwrite v) ++ post).drop
          (pre.length + k.length + 1)
          = unescape v true ++ (v.drop (unescape v true).length ++ post) := by
        have hlen : pre.length + k.length + 1 = (pre ++ overwrite k ++ [ch '=']).length := by
          rw [List.length_append, List.length_append, overwrite_length, List.length_singleton]
        rw [hlen, ← List.append_assoc pre, ← List.append_assoc pre, List.append_assoc _ _ post,
          List.drop_left, overwrite, List.append_assoc]
      show List.take (unescape v true).length _ = unescape v true
      rw [hvalue, List.take_left]
    · rfl

/-- **The loop of `ForeachQuery`.**  It hands out the decoded pairs of the query that it finds and
    leaves the query `passed`, in which they stand; it does not touch what is around the query. -/
theorem foreachQueryLoop_eq (n : ℕ) (pre q post : Bytes) (hn : q.length < n) :
    ∃ ps, foreachQueryLoop n (pre ++ q ++ post) pre.length (pre.length + q.length)
        = some (pre ++ passed q ++ post, ps) ∧
      ps.map Param.pair = decodedPairs q ∧ ∀ p ∈ ps, p.StandsIn (pre ++ passed q ++ post) := by
  induction q using query_induction generalizing n pre with
  | nil =>
    obtain ⟨n, rfl⟩ : ∃ m, n = m + 1 := ⟨n - 1, by omega⟩
    refine ⟨[], ?_, rfl, fun p hp => absurd hp List.not_mem_nil⟩
    rw [foreachQueryLoop, List.length_nil, Nat.add_zero, if_neg (lt_irrefl _), passed_nil]
  | last p hne hamp =>
    -- the last part: behind it the loop is at the end of the query
    obtain ⟨k, e, v, rfl, hk, he, hcut⟩ := cutPart_cases p
    have hpos := List.length_pos_iff.mpr hne
    obtain ⟨n, rfl⟩ : ∃ m, n = m + 2 := ⟨n - 2, by omega⟩
    have hround := foreachQueryLoop_round (n + 1) pre post hk he
      hamp (.inl rfl) (by rwa [List.append_nil])
    rw [List.append_nil] at hround
    rw [hround, foreachQueryLoop, if_neg (by omega), passed_last hamp,
      passedPart_eq hk he, List.append_nil]
    refine ⟨_, rfl, ?_, List.forall_mem_singleton.mpr (standsIn_part pre k post he)⟩
    rw [decodedPairs, rawPairs_last hamp hne, hcut]
    rfl
  | part p rest hamp ih =>
    obtain ⟨k, e, v, rfl, hk, he, hcut⟩ := cutPart_cases p
    have hpos : 0 < n := by omega
    obtain ⟨n, rfl⟩ : ∃ m, n = m + 1 := ⟨n - 1, by omega⟩
    have hround := foreachQueryLoop_round n pre post hk he hamp (.inr ⟨rest, rfl⟩) (by simp)
    have hlen : pre.length + (k ++ e ++ v).length + 1
        = (pre ++ (overwrite k ++ e ++ overwrite v ++ [ch '&'])).length := by
      simp only [List.length_append, overwrite_length, List.length_singleton]
      omega
    have hend : pre.length + (k ++ e ++ v ++ ch '&' :: rest).length
        = (pre ++ (overwrite k ++ e ++ overwrite v ++ [ch '&'])).length + rest.length := by
      rw [← hlen]
      simp only [List.length_append, List.length_cons]
      omega
    have hmem : ∀ x, pre ++ (overwrite k ++ e ++ overwrite v ++ ch '&' :: x) ++ post
        = (pre ++ (overwrite k ++ e ++ overwrite v ++ [ch '&'])) ++ x ++ post := by
      intro x
      simp only [List.append_assoc, List.cons_append, List.nil_append]
    obtain ⟨ps, hloop, hpairs, hstands⟩ :=
      ih n (pre ++ (overwrite k ++ e ++ overwrite v ++ [ch '&'])) (by
        simp only [List.length_append, List.length_cons] at hn
        omega)
    rw [hround, hend, hlen, hmem, hloop, passed_part hamp, passedPart_eq hk he]
    refine ⟨⟨unescape k true, unescape v true, pre.length, pre.length + k.length + 1⟩ :: ps,
      ?_, ?_, ?_⟩
    · rw [hmem]
      rfl
    · rw [decodedPairs, rawPairs_part hamp, hcut, List.map_cons, List.map_cons, hpairs]
      rfl
    · rw [hmem]
      refine List.forall_mem_cons.mpr ⟨?_, hstands⟩
      have hpart := standsIn_part pre k ([ch '&'] ++ passed rest ++ post) he
      simpa only [List.append_assoc] using hpart

/-- **`ForeachQuery`** on a query that stands between `pre` and `post`. -/
theorem foreachQuery_eq {r : Request} {pre q post : Bytes} (hpos : 0 < pre.length)
    (hmem : r.mem = pre ++ q ++ post) (hstart : r.http.qStart = pre.length)
    (hend : r.http.qEnd = pre.length + q.length) :
    ∃ ps, r.foreachQuery = some (r.withMem (pre ++ passed q ++ post), ps) ∧
      ps.map Param.pair = decodedPairs q ∧ ∀ p ∈ ps, p.StandsIn (pre ++ passed q ++ post) := by
  obtain ⟨ps, hloop, hpairs, hstands⟩ :=
    foreachQueryLoop_eq (q.length + 1) pre q post (Nat.lt_succ_self _)
  have hslice : slice? (pre ++ q ++ post) pre.length (pre.length + q.length : ℕ) = some q := by
    rw [slice?_eq_some _ (Nat.le_add_right _ _) (by simp only [List.length_append]; omega),
      ← List.length_append, List.take_left, List.drop_left]
  refine ⟨ps, ?_, hpairs, hstands⟩
  unfold Request.foreachQuery
  rw [if_neg (by omega), hmem, hstart, hend, hslice]
  simp only [hloop, Option.map_some]

theorem mem_take (r : Request) : r.http.data = r.mem.take r.http.data.length := List.take_left.symm

/-- **What `ForeachQuery` changes**: the query, where there is one. -/
theorem foreachQuery_eqOff {r r' : Request} {ps : List Param} (h : r.foreachQuery = some (r', ps)) :
    r'.http = { r.http with data := r'.http.data } ∧
      EqOff (fun i => r.http.qStart ≠ 0 ∧ r.http.qStart ≤ i ∧ i < r.http.qEnd)
      r'.http.data r.http.data := by
  by_cases h0 : r.http.qStart = 0
  · rw [Request.foreachQuery, if_pos h0] at h
    cases h
    exact ⟨rfl, .refl _ _⟩
  -- the slice expression did not panic, so the query stands in the memory
  have hrange : r.http.qStart ≤ r.http.qEnd ∧ r.http.qEnd ≤ r.mem.length := by
    by_contra hout
    have hnone : slice? r.mem r.http.qStart r.http.qEnd = none := if_neg (by omega)
    rw [Request.foreachQuery, if_neg h0, hnone] at h
    cases h
  have hpre : (r.mem.take r.http.qStart).length = r.http.qStart := by
    rw [List.length_take]
    omega
  have hquery : ((r.mem.take r.http.qEnd).drop r.http.qStart).length
      = r.http.qEnd - r.http.qStart := by
    rw [List.length_drop, List.length_take]
    omega
  have hmem : r.mem = r.mem.take r.http.qStart ++ (r.mem.take r.http.qEnd).drop r.http.qStart
      ++ r.mem.drop r.http.qEnd := by
    have hcut := List.take_append_drop r.http.qStart (r.mem.take r.http.qEnd)
    rw [List.take_take, Nat.min_eq_left hrange.1] at hcut
    rw [hcut, List.take_append_drop]
  obtain ⟨ps', hpass, -⟩ := foreachQuery_eq (by omega) hmem hpre.symm (by rw [hpre, hquery]; omega)
  obtain ⟨rfl, rfl⟩ := Prod.mk.inj (Option.some.inj (hpass.symm.trans h))
  refine ⟨rfl, ?_⟩
  have hlen := passed_length ((r.mem.take r.http.qEnd).drop r.http.qStart)
  have hall := (EqOff.middle (r.mem.take r.http.qStart) (r.mem.drop r.http.qEnd) hlen).take
    r.http.data.length
  rw [← hmem, ← mem_take, hpre, hquery] at hall
  exact hall.mono fun i hi => ⟨h0, hi.1, by omega⟩

end Resh.Server
