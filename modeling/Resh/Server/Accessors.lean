import Resh.Run
import Resh.Server.Query

namespace Resh.Server

open Resh.Go Resh.Incremental

/-!
# Repeated access to a request

`ForeachQuery` decodes the query in the memory that it will read again the next time: behind a
decoded escape the old bytes stay, and a decoded `&`, `=` or CR LF is a delimiter for whoever scans
the memory next.

* `Access` — a call of `ForeachQuery`, `Query`, `GetQuery` or `URL`;
* `Sees`, `SameReports` — what each of them, and each of the other accessors, reports;
* `Repeatable` — the condition, on the received bytes: the query is stable, and the scan for headers
  and the body are the same behind a pass;
* `query_repeatable_iff` — exactly then all accessors keep reporting the same, whatever is called;
* `query_decoded_twice` — an escape that does not meet it.
-/

/-! ### The calls -/

/-- A call of one of the accessors of the query. -/
inductive Access where
  | foreachQuery
  | query
  | getQuery (k : Bytes)
  | url
  deriving DecidableEq, Repr

/-- The request in the input buffer, as it is accepted. -/
def requestAfter (env : Env) (reads : List Bytes) (h : HTTP) : Request :=
  { http := h, behind := (bufferAfter env reads).drop h.data.length }

section Calls

variable {M : Type} (ops : MapOps M)

/-- The request after a call. -/
def Mapped.access (r : Mapped M) : Access → Option (Mapped M)
  | .foreachQuery => r.request.foreachQuery.map fun s => { r with request := s.1 }
  | .query => (r.query ops).map (·.1)
  | .getQuery k => (r.getQuery ops k).map (·.1)
  | .url => r.request.url.map fun s => { r with request := s.1 }

/-- Each accessor of the query reports the pairs `ps`. -/
structure Sees (r : Mapped M) (ps : List (Bytes × Bytes)) : Prop where
  foreachQuery : r.request.foreachQuery.map (fun s => s.2.map Param.pair) = some ps
  query : ∃ r' m, r.query ops = some (r', m) ∧ (m = none ↔ r.request.http.qStart = 0) ∧
    ∀ k, ops.get m r'.request.mem k = lastValue ps k
  getQuery : ∀ k, (r.getQuery ops k).map (·.2) = some (lastValue ps k)
  url : r.request.url.map (·.2)
    = some ⟨ascii "http:", r.request.http.host, r.request.http.path, renderQuery ps⟩

end Calls

/-- The other accessors report the same for both. -/
structure SameReports (r₀ r : Request) : Prop where
  host : r.http.host = r₀.http.host
  path : r.http.path = r₀.http.path
  foreachHeader : ∀ (τ : Type) (f : τ → Bytes → Bytes → τ × Bool) (a : τ),
    r.http.foreachHeader f a = r₀.http.foreachHeader f a
  getHeader : ∀ key, r.http.getHeader key = r₀.http.getHeader key
  method : r.http.method.map (·.2) = r₀.http.method.map (·.2)
  body : r.http.body = r₀.http.body

/-! ### The condition -/

/-- The offset of the query in the first line. -/
def queryOffset (inp : Bytes) : ℕ :=
  match target? (firstLine inp) with
  | some (off, uri) => off + pathLength uri + 1
  | none => 0

/-- The first line behind a pass over the query. -/
def passedLine (inp : Bytes) : Bytes :=
  match rawQuery? inp with
  | some q => splice (decodeTarget (firstLine inp)) (queryOffset inp) (passed q)
  | none => decodeTarget (firstLine inp)

/-- The memory of a request behind a pass over its query. -/
def passedData (inp : Bytes) : Bytes :=
  if firstLine inp = [] then requestData inp
  else (passedLine inp ++ crlf ++ joinLines ((rawLines inp).map lowerName) ++ crlf
    ++ inp.drop (blockLength inp)).take (requestLength inp)

/-- The place at which the body begins. -/
def bodyStart (inp : Bytes) : ℕ := requestLength inp - announcedLength inp

/-- **The condition**: the query is stable, and a pass changes neither what the scan for headers
    finds nor, where there is one, the body. -/
structure Repeatable (inp : Bytes) : Prop where
  stable : StableQuery ((rawQuery? inp).getD [])
  headers : scan (passedData inp) = scan (requestData inp)
  body : announcedLength inp ≤ requestLength inp →
    (passedData inp).drop (bodyStart inp) = (requestData inp).drop (bodyStart inp)

instance (inp : Bytes) : Decidable (Repeatable inp) :=
  decidable_of_iff (_ ∧ _ ∧ (_ → _)) ⟨fun h => ⟨h.1, h.2.1, h.2.2⟩,
    fun h => ⟨h.stable, h.headers, h.body⟩⟩

/-! ### Where the query stands -/

/-- The query `q` of a request stands between `pre` and `post` in its memory. -/
structure Placed (r₀ : Request) (pre q post : Bytes) : Prop where
  mem : r₀.mem = pre ++ q ++ post
  start : r₀.http.qStart = pre.length
  stop : r₀.http.qEnd = pre.length + q.length
  space : ch ' ' ∈ pre

/-- **A request after some calls**: its memory is as it was, or as one pass left it; and the map of
    `Query`, if there is one, was built when it had been passed. -/
structure Kept {M : Type} (ops : MapOps M) (r₀ : Request) (pre q post : Bytes) (r : Mapped M) :
    Prop where
  http : r.request.http = { r₀.http with data := r.request.http.data }
  length : r.request.http.data.length = r₀.http.data.length
  mem : (r.request.mem = pre ++ q ++ post ∧ r.qmap = none) ∨ r.request.mem = pre ++ passed q ++ post
  map : ∀ m, r.qmap = some m → ∃ l : List Param, m = l.foldl ops.set ops.empty ∧
    l.map Param.pair = decodedPairs q ∧ ∀ p ∈ l, p.StandsIn (pre ++ passed q ++ post)

/-- The memory of a request whose memory was replaced. -/
theorem withMem_mem (r : Request) (m : Bytes) : (r.withMem m).mem = m := List.take_append_drop _ _

section Kept

variable {M : Type} {ops : MapOps M} {r₀ : Request} {r : Mapped M} {pre q post : Bytes}

/-- A request that nobody has asked yet. -/
theorem Placed.kept (P : Placed r₀ pre q post) : Kept ops r₀ pre q post ⟨r₀, none⟩ :=
  ⟨rfl, rfl, .inl ⟨P.mem, rfl⟩, fun m hm => by cases hm⟩

/-- The first pass, and what a second one finds. -/
theorem Placed.foreachQuery_twice (P : Placed r₀ pre q post) :
    ∃ l, r₀.foreachQuery = some (r₀.withMem (pre ++ passed q ++ post), l) ∧
      (r₀.withMem (pre ++ passed q ++ post)).foreachQuery.map (fun s => s.2.map Param.pair)
        = some (decodedPairs (passed q)) := by
  have hpos := List.length_pos_of_mem P.space
  obtain ⟨l, hfirst, -⟩ := foreachQuery_eq hpos P.mem P.start P.stop
  obtain ⟨l', hsecond, hpairs, -⟩ :=
    foreachQuery_eq (r := r₀.withMem (pre ++ passed q ++ post)) hpos
    (withMem_mem _ _) P.start (by rw [passed_length]; exact P.stop)
  exact ⟨l, hfirst, by rw [hsecond, Option.map_some, hpairs]⟩

/-- A query stands behind the space of the request line, so `qStart` is not zero and the query is
    there. -/
theorem Placed.qStart_pos (P : Placed r₀ pre q post) : 0 < r₀.http.qStart := by
  rw [P.start]
  exact List.length_pos_of_mem P.space

namespace Kept

/-- No call moves the begin of the query. -/
theorem qStart (K : Kept ops r₀ pre q post r) : r.request.http.qStart = r₀.http.qStart := by
  rw [K.http]

/-- No call moves the end of the query. -/
theorem qEnd (K : Kept ops r₀ pre q post r) : r.request.http.qEnd = r₀.http.qEnd := by rw [K.http]

/-- The memory has kept its length. -/
theorem mem_length (K : Kept ops r₀ pre q post r) :
    r.request.mem.length = (pre ++ q ++ post).length := by
  rcases K.mem with ⟨hmem, -⟩ | hmem
  · rw [hmem]
  · rw [hmem]
    simp only [List.length_append, passed_length]

/-- A pass, from whichever of the two memories, leaves the memory that is passed. -/
theorem withMem (K : Kept ops r₀ pre q post r) :
    Kept ops r₀ pre q post { r with request := r.request.withMem (pre ++ passed q ++ post) } := by
  have hlen : r.request.http.data.length ≤ (pre ++ passed q ++ post).length := by
    have hmem := K.mem_length
    rw [Request.mem] at hmem
    simp only [List.length_append, passed_length] at hmem ⊢
    omega
  refine ⟨?_, ?_, .inr (withMem_mem _ _), K.map⟩
  · exact congrArg (fun h : HTTP =>
      { h with data := (pre ++ passed q ++ post).take r.request.http.data.length }) K.http
  · show (List.take r.request.http.data.length _).length = _
    rw [List.length_take, Nat.min_eq_left hlen, K.length]

/-- **One pass over the query**, the first one or a later one. -/
theorem foreachQuery (P : Placed r₀ pre q post) (hstable : StableQuery q)
    (K : Kept ops r₀ pre q post r) :
    ∃ l, r.request.foreachQuery = some (r.request.withMem (pre ++ passed q ++ post), l) ∧
      l.map Param.pair = decodedPairs q ∧ ∀ p ∈ l, p.StandsIn (pre ++ passed q ++ post) := by
  have hpos := List.length_pos_of_mem P.space
  have hstart := K.qStart.trans P.start
  rcases K.mem with ⟨hmem, -⟩ | hmem
  · exact foreachQuery_eq hpos hmem hstart (K.qEnd.trans P.stop)
  · have hpass := foreachQuery_eq hpos hmem hstart (by rw [K.qEnd, P.stop, passed_length])
    rwa [hstable.passed_passed, hstable.decodedPairs_passed] at hpass

/-- **The map of `Query`**, from this call or from an earlier one. -/
theorem query (P : Placed r₀ pre q post) (hstable : StableQuery q) (K : Kept ops r₀ pre q post r) :
    ∃ (r' : Mapped M) (l : List Param), r.query ops = some (r', some (l.foldl ops.set ops.empty)) ∧
    Kept ops r₀ pre q post r' ∧
      r'.request.mem = pre ++ passed q ++ post ∧ l.map Param.pair = decodedPairs q ∧
      ∀ p ∈ l, p.StandsIn (pre ++ passed q ++ post) := by
  unfold Mapped.query
  cases hmap : r.qmap with
  | some m =>
    obtain ⟨l, rfl, hl, hstands⟩ := K.map m hmap
    have hmem := K.mem.resolve_left fun hold => by rw [hold.2] at hmap; cases hmap
    exact ⟨r, l, rfl, K, hmem, hl, hstands⟩
  | none =>
    obtain ⟨l, hpass, hl, hstands⟩ := K.foreachQuery P hstable
    have hpos : r.request.http.qStart > 0 := by rw [K.qStart]; exact P.qStart_pos
    simp only [if_pos hpos, hpass, Option.map_some]
    refine ⟨_, l, rfl, ⟨K.withMem.http, K.withMem.length, .inr (withMem_mem _ _), ?_⟩,
      withMem_mem _ _, hl, hstands⟩
    intro m hm
    exact ⟨l, (Option.some.inj hm).symm, hl, hstands⟩

/-- A call goes through, and leaves the request so. -/
theorem access (P : Placed r₀ pre q post) (hstable : StableQuery q)
    (K : Kept ops r₀ pre q post r) (a : Access) :
    ∃ r', r.access ops a = some r' ∧ Kept ops r₀ pre q post r' := by
  obtain ⟨l, hpass, -⟩ := K.foreachQuery P hstable
  obtain ⟨r', m, hquery, K', -⟩ := K.query P hstable
  cases a with
  | foreachQuery => exact ⟨_, by rw [Mapped.access, hpass]; rfl, K.withMem⟩
  | query => exact ⟨r', by rw [Mapped.access, hquery]; rfl, K'⟩
  | getQuery k => exact ⟨r', by rw [Mapped.access, Mapped.getQuery, hquery]; rfl, K'⟩
  | url => exact ⟨_, by rw [Mapped.access, Request.url, hpass]; rfl, K.withMem⟩

/-- **Every sequence of calls** on a stable query goes through and leaves the request as `Kept`
    says. -/
theorem run (P : Placed r₀ pre q post) (hstable : StableQuery q) (as : List Access)
    (K : Kept ops r₀ pre q post r) :
    ∃ r', Resh.run (Mapped.access ops) r as = some r' ∧ Kept ops r₀ pre q post r' := by
  induction as generalizing r with
  | nil => exact ⟨r, rfl, K⟩
  | cons a as ih =>
    obtain ⟨r₁, hstep, K₁⟩ := K.access P hstable a
    obtain ⟨r₂, hrun, K₂⟩ := ih K₁
    exact ⟨r₂, by rw [Resh.run, hstep]; exact hrun, K₂⟩

/-- What the accessors of the query report. -/
theorem sees (laws : ops.Lawful) (P : Placed r₀ pre q post) (hstable : StableQuery q)
    (K : Kept ops r₀ pre q post r) : Sees ops r (decodedPairs q) := by
  obtain ⟨l, hpass, hl, -⟩ := K.foreachQuery P hstable
  obtain ⟨r', l', hquery, -, hmem, hl', hstands⟩ := K.query P hstable
  have hpos : r.request.http.qStart ≠ 0 := by
    rw [K.qStart]
    exact P.qStart_pos.ne'
  have hget : ∀ k, ops.get (some (l'.foldl ops.set ops.empty)) r'.request.mem k
      = lastValue (decodedPairs q) k := by
    intro k
    rw [hmem, laws.found l' _ k hstands, hl']
  refine ⟨?_, ⟨r', _, hquery, ?_, hget⟩, fun k => ?_, ?_⟩
  · rw [hpass, Option.map_some, hl]
  · simp [hpos]
  · rw [Mapped.getQuery, hquery, Option.map_some, Option.map_some, hget]
  · rw [Request.url, hpass, Option.map_some, Option.map_some, hl]

end Kept

/-! ### The other accessors -/

/-- What is asked about the request line and the headers only reads `http`. -/
theorem SameReports.of_http {r₀ r : Request} (h : r.http = r₀.http) : SameReports r₀ r := by
  refine ⟨?_, ?_, fun τ f a => ?_, fun key => ?_, ?_, ?_⟩
  all_goals rw [h]

/-- The memory of the request itself, once the query is passed. -/
theorem Placed.passed_data (P : Placed r₀ pre q post) :
    EqOff (fun i => pre.length ≤ i ∧ i < pre.length + q.length)
      ((pre ++ passed q ++ post).take r₀.http.data.length) r₀.http.data := by
  have hall := (EqOff.middle pre post (passed_length q)).take r₀.http.data.length
  rwa [← P.mem, ← mem_take] at hall

/-- The method ends at the first space, in front of the query. -/
theorem Placed.method_eq (P : Placed r₀ pre q post) {h : HTTP}
    (hdata : h.data = (pre ++ passed q ++ post).take r₀.http.data.length) :
    h.method.map (·.2) = r₀.http.method.map (·.2) := by
  obtain ⟨i, hi⟩ : ∃ i, indexByte? (ch ' ') pre = some i :=
    Option.ne_none_iff_exists'.mp fun hnone => indexByte?_eq_none.mp hnone P.space
  by_cases hle : pre.length ≤ r₀.http.data.length
  · have hpre : pre <+: r₀.http.data := by
      refine List.prefix_of_prefix_length_le ?_ (List.prefix_append r₀.http.data r₀.behind) hle
      exact ⟨q ++ post, by rw [← List.append_assoc]; exact P.mem.symm⟩
    have hpre' : pre <+: h.data := by
      refine List.prefix_of_prefix_length_le ?_ (hdata ▸ List.take_prefix _ _) ?_
      · exact ⟨passed q ++ post, (List.append_assoc ..).symm⟩
      · rw [hdata, P.passed_data.length_eq]
        exact hle
    obtain ⟨h₁, hm₁⟩ := Server.method_eq hi hpre
    obtain ⟨h₂, hm₂⟩ := Server.method_eq hi hpre'
    rw [hm₁, hm₂]
    rfl
  · -- the memory is cut in front of the query
    have hfront : ∀ t, (pre ++ t).take r₀.http.data.length
        = pre.take r₀.http.data.length := fun t =>
      List.take_append_of_le_length (by omega)
    have hold : r₀.http.data = (pre ++ q ++ post).take r₀.http.data.length := by
      rw [← P.mem]
      exact mem_take r₀
    have hsame : h.data = r₀.http.data := by
      rw [List.append_assoc, hfront] at hdata hold
      exact hdata.trans hold.symm
    unfold HTTP.method
    rw [hsame]
    split <;> rfl

end Kept

/-! ### Accepted requests -/

section Accepted

variable {env : Env} {p : Bytes} {h : HTTP}

/-- A request with an empty first line has no query. -/
theorem qStart_of_firstLine_nil (hacc : callOnce env p = .http h) (hfirst : firstLine p = []) :
    h.qStart = 0 := by
  rw [(accepted_empty hacc hfirst).1]

/-- The query of an accepted request stands in the input buffer as it was received. -/
theorem Accepted.placed (A : Accepted env p h) {q : Bytes} (hq : rawQuery? p = some q) :
    Placed { http := h, behind := (process env {} p).buf.drop h.data.length }
      ((process env {} p).buf.take h.qStart) q ((process env {} p).buf.drop h.qEnd) := by
  obtain ⟨-, hle, hend, hspace, htext⟩ := A.query.1 q hq
  have hbuf := A.eqOff.length_eq
  have hfirst := A.firstLine_le
  have hstart : ((process env {} p).buf.take h.qStart).length = h.qStart := by
    rw [List.length_take]
    omega
  have hqlen : q.length = h.qEnd - h.qStart := by
    rw [← htext, List.length_drop, List.length_take]
    omega
  refine ⟨?_, hstart.symm, ?_, hspace⟩
  · obtain ⟨rest, hrest⟩ := A.data_prefix
    have hmem : h.data ++ (process env {} p).buf.drop h.data.length = (process env {} p).buf := by
      rw [← hrest, List.drop_left]
    have hhead : (process env {} p).buf.take h.qStart ++ q
        = (process env {} p).buf.take h.qEnd := by
      have hcut := List.take_append_drop h.qStart ((process env {} p).buf.take h.qEnd)
      rwa [List.take_take, Nat.min_eq_left hle, htext] at hcut
    show h.data ++ _ = _
    rw [hmem, hhead, List.take_append_drop]
  · rw [hstart, hqlen]
    show h.qEnd = _
    omega

/-- An accepted request has no query, or its query stands in the buffer. -/
theorem query_placed (hacc : callOnce env p = .http h) :
    (h.qStart = 0 ∧ rawQuery? p = none) ∨
      ∃ q, rawQuery? p = some q ∧
      Placed { http := h, behind := (process env {} p).buf.drop h.data.length }
        ((process env {} p).buf.take h.qStart) q ((process env {} p).buf.drop h.qEnd) := by
  by_cases hfirst : firstLine p = []
  · refine .inl ⟨qStart_of_firstLine_nil hacc hfirst, ?_⟩
    rw [rawQuery?, hfirst]
    rfl
  obtain ⟨A⟩ := accepted_of_http hacc hfirst
  cases hq : rawQuery? p with
  | none => exact .inl ⟨A.query.2 hq, rfl⟩
  | some q => exact .inr ⟨q, rfl, A.placed hq⟩

end Accepted

/-! ### The memory behind a pass -/

section Passed

variable {env : Env} {p q : Bytes} {h : HTTP}

/-- Overwriting within a text does not touch what is behind it. -/
theorem splice_append {u s : Bytes} {off : ℕ} (hle : off + s.length ≤ u.length) (t : Bytes) :
    splice (u ++ t) off s = splice u off s ++ t := by
  rw [splice, splice, List.take_append_of_le_length (by omega), List.drop_append_of_le_length hle,
    List.append_assoc _ _ t]

namespace Accepted

/-- The query stands in the first line, behind the path. -/
theorem queryOffset_eq (A : Accepted env p h) (hq : rawQuery? p = some q) :
    h.qStart = queryOffset p ∧ queryOffset p + q.length ≤ (decodeTarget (firstLine p)).length ∧
      ∀ i, indexByte? (ch ' ') (firstLine p) = some i → i + 1 ≤ queryOffset p := by
  obtain ⟨idx0, idx1, uri, h₀, h₁, hlt, -, htarget, huri, hsome, -⟩ :=
    parseFirstLine_fields A.request
  have hlen := parseFirstLine_length A.request
  have hlast := lastIndexByte?_lt h₁
  have hstart := A.fields.2.2.2.1
  have hraw := hq
  rw [rawQuery?, htarget] at hraw
  obtain ⟨k, hk, htext⟩ := Option.map_eq_some_iff.mp hraw
  have hlength := congrArg List.length htext
  have hklt := indexByte?_lt hk
  rw [huri] at hklt hlength
  simp only [List.length_drop, List.length_take] at hklt hlength
  have hoff : queryOffset p = idx0 + 1 + k + 1 := by
    rw [queryOffset, htarget]
    simp only [pathLength, hk, Option.getD_some]
  refine ⟨by rw [hstart, (hsome k hk).1, hoff], by omega, fun i hi => ?_⟩
  rw [h₀, Option.some.injEq] at hi
  omega

/-- The first line around the query. -/
theorem line_split (A : Accepted env p h) (hq : rawQuery? p = some q) :
    ∃ a b, decodeTarget (firstLine p) = a ++ q ++ b ∧ queryOffset p = a.length := by
  obtain ⟨hstart, hle, -⟩ := A.queryOffset_eq hq
  have hstop := (A.placed hq).stop
  obtain ⟨-, -, -, -, htext⟩ := A.query.1 q hq
  have hpre : ((process env {} p).buf.take h.qStart).length = h.qStart := (A.placed hq).start.symm
  have hend : h.qEnd = queryOffset p + q.length := by rw [← hstart, ← hpre]; exact hstop
  have hbuf : (process env {} p).buf.take h.qEnd = (decodeTarget (firstLine p)).take
      (queryOffset p + q.length) := by
    rw [A.buf, hend]
    simp only [List.append_assoc]
    exact List.take_append_of_le_length hle
  rw [hbuf, hstart] at htext
  refine ⟨(decodeTarget (firstLine p)).take (queryOffset p),
    (decodeTarget (firstLine p)).drop (queryOffset p + q.length),
    ?_, by rw [List.length_take]; omega⟩
  have hcut := List.take_append_drop (queryOffset p)
    ((decodeTarget (firstLine p)).take (queryOffset p + q.length))
  rw [List.take_take, Nat.min_eq_left (by omega), htext] at hcut
  rw [hcut, List.take_append_drop]

/-- **The memory behind a pass.** -/
theorem passed_mem (A : Accepted env p h) (hq : rawQuery? p = some q) :
    ((process env {} p).buf.take h.qStart ++ passed q ++ (process env {} p).buf.drop h.qEnd).take
    h.data.length = passedData p := by
  have P := A.placed hq
  obtain ⟨hstart, hle, -⟩ := A.queryOffset_eq hq
  have hne := A.firstLine_ne_nil
  have hbuf : (process env {} p).buf = decodeTarget (firstLine p)
      ++ (crlf ++ joinLines ((rawLines p).map lowerName) ++ crlf ++ p.drop (blockLength p)) := by
    rw [A.buf_eq, rewritten, if_neg hne]
    simp only [List.append_assoc]
  have hmem : (process env {} p).buf = (process env {} p).buf.take h.qStart
      ++ q ++ (process env {} p).buf.drop h.qEnd := by
    obtain ⟨rest, hrest⟩ := A.data_prefix
    have hP := P.mem
    rw [Request.mem] at hP
    simp only at hP
    rwa [← hrest, List.drop_left, hrest] at hP
  have hsplice := @splice_middle ((process env {} p).buf.take h.qStart) q (passed q)
    ((process env {} p).buf.drop h.qEnd) (passed_length q)
  rw [← hmem, ← show h.qStart = _ from P.start] at hsplice
  have hlength : h.data.length = requestLength p := by
    rw [A.memory.1, requestData, List.length_take, Nat.min_eq_left A.memory.2]
  rw [← hsplice, hbuf, hstart, splice_append (by rw [passed_length]; exact hle),
    hlength, passedData, if_neg hne, passedLine, hq]
  simp only [List.append_assoc]

end Accepted

end Passed

/-! ### Which queries can be read again -/

/-- `Body`, where it does not panic, is the end of the memory. -/
theorem body_eq (h : HTTP) :
    h.body = if h.bodyLen ≤ h.data.length then some (h.data.drop (h.data.length - h.bodyLen))
    else none := by
  unfold HTTP.body
  split
  · rename_i hle
    rw [show (h.data.length : ℤ) - h.bodyLen = (h.data.length - h.bodyLen : ℕ) by omega,
      slice?_eq_some _ (Nat.sub_le _ _) le_rfl, List.take_length]
  · exact if_neg (by omega)

section Reports

variable {env : Env} {p q behind : Bytes} {h : HTTP} {r : Request}

/-- **What the other accessors report behind a pass** is the same exactly if the scan for headers
    and the body are. -/
theorem Accepted.sameReports_iff (A : Accepted env p h) (hq : rawQuery? p = some q)
    (hbehind : behind = (process env {} p).buf.drop h.data.length)
    (hr : r.http = { h with data := passedData p }) :
    SameReports { http := h, behind := behind } r ↔
      scan (passedData p) = scan (requestData p) ∧ (announcedLength p ≤ requestLength p →
        (passedData p).drop (bodyStart p) = (requestData p).drop (bodyStart p)) := by
  subst hbehind
  have P := A.placed hq
  have hpassed := A.passed_mem hq
  have hdata := A.memory.1
  have hlen : h.data.length = requestLength p := by
    rw [hdata, requestData, List.length_take, Nat.min_eq_left A.memory.2]
  have hlen' : (passedData p).length = requestLength p := by
    rw [← hpassed, P.passed_data.length_eq]
    exact hlen
  have hbody : h.bodyLen = announcedLength p := by rw [A.fields.2.1, A.bodyLen_eq]
  -- what a callback sees is determined by the scan of the memory
  have hscan : ∀ (τ : Type) (f : τ → Bytes → Bytes → τ × Bool) (a : τ),
      r.http.foreachHeader f a = replay f (scan (passedData p)).1 (scan (passedData p)).2 a ∧
        h.foreachHeader f a = replay f (scan (requestData p)).1 (scan (requestData p)).2 a := by
    intro τ f a
    rw [foreachHeader_eq, foreachHeader_eq, hr, hdata]
    exact ⟨rfl, rfl⟩
  constructor
  · intro S
    constructor
    · -- and the other way round: the callbacks together tell scans apart
      apply scan_eq_of_replay
      intro τ f a
      rw [← (hscan τ f a).1, ← (hscan τ f a).2]
      exact S.foreachHeader τ f a
    · intro hle
      have hsame := S.body
      rw [body_eq, body_eq, hr] at hsame
      simp only [hlen, hlen', hbody, if_pos hle, Option.some.injEq] at hsame
      rwa [hdata] at hsame
  · rintro ⟨hheaders, hrest⟩
    have hforeach : ∀ (τ : Type) (f : τ → Bytes → Bytes → τ × Bool) (a : τ),
        r.http.foreachHeader f a = h.foreachHeader f a := by
      intro τ f a
      rw [(hscan τ f a).1, (hscan τ f a).2, hheaders]
    refine ⟨by rw [hr], by rw [hr], hforeach, fun key => hforeach _ _ _, ?_, ?_⟩
    · refine P.method_eq ?_
      rw [hr]
      exact hpassed.symm
    · rw [body_eq, body_eq, hr]
      simp only [hlen, hlen', hbody]
      split
      · rename_i hle
        rw [hdata]
        exact congrArg some (hrest hle)
      · rfl

end Reports

section Runs

variable {M : Type} {ops : MapOps M} {env : Env} {p q : Bytes} {h : HTTP}

/-- Without a query the calls do nothing. -/
theorem access_of_qStart_zero (laws : ops.Lawful) {r : Request} (h0 : r.http.qStart = 0) :
    (∀ a, Mapped.access ops ⟨r, none⟩ a = some ⟨r, none⟩) ∧ Sees ops ⟨r, none⟩ [] := by
  have hpass : r.foreachQuery = some (r, []) := by rw [Request.foreachQuery, if_pos h0]
  have hquery : Mapped.query ops ⟨r, none⟩ = some (⟨r, none⟩, none) := by
    simp only [Mapped.query, h0]
    rfl
  refine ⟨fun a => ?_, ?_, ⟨_, _, hquery, by simp [h0], fun k => laws.nil _ k⟩, fun k => ?_, ?_⟩
  · cases a with
    | foreachQuery => simp only [Mapped.access, hpass]; rfl
    | query => simp only [Mapped.access, hquery]; rfl
    | getQuery k => simp only [Mapped.access, Mapped.getQuery, hquery]; rfl
    | url => simp only [Mapped.access, Request.url, hpass]; rfl
  · simp only [hpass]
    rfl
  · simp only [Mapped.getQuery, hquery, Option.map_some, laws.nil]
    rfl
  · simp only [Request.url, hpass]
    rfl

/-- If no call changes the request, no sequence of calls does. -/
theorem run_of_access_self {r : Mapped M} (h : ∀ a, r.access ops a = some r) (as : List Access) :
    run (Mapped.access ops) r as = some r := by
  induction as with
  | nil => rfl
  | cons a as ih => rw [run, h a]; exact ih

/-- **Every run keeps the reports** on a request with a query that meets the condition. -/
theorem Accepted.repeats (A : Accepted env p h) (laws : ops.Lawful) (hq : rawQuery? p = some q)
    (hrep : Repeatable p) (as : List Access) :
    ∃ r, run (Mapped.access ops)
    ⟨{ http := h, behind := (process env {} p).buf.drop h.data.length }, none⟩ as
        = some r ∧ Sees ops r (decodedPairs q) ∧
      SameReports { http := h, behind := (process env {} p).buf.drop h.data.length } r.request := by
  have P := A.placed hq
  have hstable := hrep.stable
  rw [hq, Option.getD_some] at hstable
  obtain ⟨r, hrun, K⟩ := P.kept.run P hstable as
  refine ⟨r, hrun, K.sees laws P hstable, ?_⟩
  have hlength := K.length
  have htake := mem_take r.request
  rcases K.mem with ⟨hmem, -⟩ | hmem
  · refine .of_http (K.http.trans ?_)
    rw [htake, hmem, ← P.mem, hlength, ← mem_take]
  · refine (A.sameReports_iff hq rfl ?_).mpr ⟨hrep.headers, hrep.body⟩
    rw [K.http, htake, hmem, hlength, A.passed_mem hq]

/-- **Conversely** a first pass that is reported alike shows the condition. -/
theorem Accepted.repeatable (A : Accepted env p h) (hq : rawQuery? p = some q) {r : Mapped M}
    (hrun : run (Mapped.access ops)
      ⟨{ http := h, behind := (process env {} p).buf.drop h.data.length }, none⟩
      [.foreachQuery] = some r) (hsees : Sees ops r (decodedPairs q))
    (hsame : SameReports { http := h, behind := (process env {} p).buf.drop h.data.length }
      r.request) : Repeatable p := by
  obtain ⟨l, hpass, hagain⟩ := (A.placed hq).foreachQuery_twice
  simp only [run, Mapped.access, hpass, Option.map_some, Option.some.injEq] at hrun
  subst hrun
  have hsecond := hsees.foreachQuery
  rw [hagain, Option.some.injEq, stableQuery_iff] at hsecond
  obtain ⟨hheaders, hbody⟩ := (A.sameReports_iff hq rfl (by
    show { h with data := _ } = _
    rw [← A.passed_mem hq])).mp hsame
  exact ⟨by rwa [hq], hheaders, hbody⟩

end Runs

/-! ### Requests that are not cut -/

/-- Decoding the pluses changes no line end. -/
theorem getElem?_plusSpace (pre q post : Bytes) {c : UInt8} (hp : c ≠ ch '+')
    (hs : c ≠ ch ' ') (j : ℕ) :
    (pre ++ q.map plusSpace ++ post)[j]? = some c ↔ (pre ++ q ++ post)[j]? = some c := by
  have hquery : ∀ i : ℕ, (q.map plusSpace)[i]? = some c ↔ q[i]? = some c := by
    intro i
    rw [List.getElem?_map, Option.map_eq_some_iff]
    constructor
    · rintro ⟨d, hd, hdc⟩
      rw [hd, (plusSpace_eq_iff hp hs).mp hdc]
    · intro hc
      exact ⟨c, hc, (plusSpace_eq_iff hp hs).mpr rfl⟩
  simp only [List.append_assoc, List.getElem?_append, List.length_map]
  split
  · rfl
  split
  · exact hquery _
  · rfl

section Whole

variable {env : Env} {p q : Bytes} {h : HTTP}

/-- Without a query there is nothing to decode. -/
theorem repeatable_of_no_query (hq : rawQuery? p = none) : Repeatable p := by
  have hpassed : passedData p = requestData p := by
    rw [passedData, requestData, rewritten, passedLine, hq]
    split
    · rfl
    · rfl
  exact ⟨by rw [hq]; exact fun kv hkv => absurd hkv List.not_mem_nil,
    by rw [hpassed], fun _ => by rw [hpassed]⟩

/-- **Requests that are not cut**: the body stands behind the query, and the scan is the one behind
    the first line. -/
theorem Accepted.repeatable_whole (A : Accepted env p h) (hw : Whole p)
    (hq : rawQuery? p = some q) : Repeatable p ↔ StableQuery q ∧
      reported (passedLine p) (rawHeaders p) = reported (decodeTarget (firstLine p))
      (rawHeaders p) := by
  obtain ⟨-, hle, hspace⟩ := A.queryOffset_eq hq
  have hne := A.firstLine_ne_nil
  have hlen := A.length_eq
  rw [A.lines_eq, A.idx_eq] at hlen
  have hline : EqOff (fun i => queryOffset p ≤ i ∧ i < queryOffset p
      + (passed q).length) (passedLine p) (decodeTarget (firstLine p)) := by
    rw [passedLine, hq]
    exact EqOff.splice (by rw [passed_length]; exact hle)
  have hlen' : (passedLine p ++ crlf ++ joinLines ((rawLines p).map lowerName) ++ crlf).length
      = blockLength p := by
    rw [← hlen]
    simp only [List.length_append, hline.length_eq]
  have hpassed : passedData p = passedLine p ++ crlf ++ joinLines
      ((rawLines p).map lowerName) ++ crlf
      ++ (p.drop (blockLength p)).take (announcedLength p) := by
    rw [passedData, if_neg hne, hw.length_eq hne, ← hlen', List.take_length_add_append]
  have hdata := requestData_whole hw hne hlen
  -- both lines begin as the received one does
  obtain ⟨i, hi, hkeep⟩ := A.take_decodeTarget
  have hkeep' : (passedLine p).take (i + 1) = (firstLine p).take (i + 1) := by
    have hfront : ((passedLine p).take (i + 1)).drop 0
        = ((decodeTarget (firstLine p)).take (i + 1)).drop 0 :=
      hline.slice_eq fun j _ hj hin => by
        have := hspace i hi
        omega
    exact hfront.trans hkeep
  obtain ⟨hheads, hall⟩ := A.lines_spec
  have hscan : ∀ u, u.take (i + 1) = (firstLine p).take (i + 1) → ∀ body,
      scan (u ++ crlf ++ joinLines ((rawLines p).map lowerName) ++ crlf ++ body)
        = (reported u (rawHeaders p), true) := by
    intro u hu body
    obtain ⟨hnil, hstart⟩ := Server.not_crlf_start A.first hi hu
    obtain ⟨x, hx, hsplit⟩ := splitCrlf_first hnil hstart
    rw [scan_block hall hx hsplit, hheads]
  constructor
  · intro R
    have hheaders := R.headers
    rw [hpassed, hdata, hscan _ hkeep', hscan _ hkeep, Prod.mk.injEq] at hheaders
    have hstable := R.stable
    rw [hq] at hstable
    exact ⟨hstable, hheaders.1⟩
  · rintro ⟨hstable, hheaders⟩
    refine ⟨by rwa [hq], by rw [hpassed, hdata, hscan _ hkeep', hscan _ hkeep, hheaders],
      fun _ => ?_⟩
    have hstart : bodyStart p = blockLength p := by
      rw [bodyStart, hw.length_eq hne, Nat.add_sub_cancel]
    rw [hstart, hpassed, hdata, List.drop_left' hlen', List.drop_left' hlen]

/-- **Queries without escapes** behind a path without a decoded line end. -/
theorem Accepted.repeatable_plain (A : Accepted env p h) (hw : Whole p) (hq : rawQuery? p = some q)
    (hplain : PlainQuery q) (hno : NoCrlf (decodeTarget (firstLine p))) : Repeatable p := by
  obtain ⟨hstable, htext⟩ := hplain.spec
  refine (A.repeatable_whole hw hq).mpr ⟨hstable, ?_⟩
  have hno' : NoCrlf (passedLine p) := by
    obtain ⟨a, b, hline, ha⟩ := A.line_split hq
    rw [hline] at hno
    rw [passedLine, hq]
    simp only
    rw [hline, ha, splice_middle (passed_length q), htext]
    exact hno.of_getElem? fun j c hc hget =>
      (getElem?_plusSpace a q b (by rcases hc with rfl | rfl <;> decide)
      (by rcases hc with rfl | rfl <;> decide) j).mp hget
  rw [reported, reported, splitCrlf_of_noCrlf hno, splitCrlf_of_noCrlf hno']
  rfl

end Whole

/-! ### Every cut of the stream -/

/-- What the condition reads of a request is known when it is accepted. -/
theorem memory_append {env : Env} {p : Bytes} {h : HTTP}
    (hacc : callOnce env p = .http h) (t : Bytes) :
    rawQuery? (p ++ t) = rawQuery? p ∧ announcedLength (p ++ t) = announcedLength p ∧
      requestLength (p ++ t) = requestLength p ∧ requestData (p ++ t) = requestData p ∧
      passedData (p ++ t) = passedData p := by
  obtain ⟨idx, -, hfound, -⟩ := process_eq_http hacc
  obtain ⟨hfirst, hlines⟩ := lines_append hfound t
  obtain ⟨hdata, -, hfull⟩ := accepted_data hacc
  have hquery : rawQuery? (p ++ t) = rawQuery? p := by rw [rawQuery?, rawQuery?, hfirst]
  have hheaders : rawHeaders (p ++ t) = rawHeaders p := by rw [rawHeaders, rawHeaders, hlines]
  have hblock : blockLength (p ++ t) = blockLength p := by
    rw [blockLength, blockLength, hfirst, hlines]
  have hannounced : announcedLength (p ++ t) = announcedLength p := by
    rw [announcedLength, announcedLength, hheaders]
  have hlength : requestLength (p ++ t) = requestLength p := by
    rw [requestLength, requestLength, hfirst, hannounced, hblock]
  -- the parser accepts the longer input with the same result
  have hmemory : requestData (p ++ t) = requestData p := by
    have hlater : callOnce env (p ++ t) = .http h := by
      rw [callOnce_append env (by rw [hacc]; simp) t, hacc]
    rw [← hdata, (accepted_data hlater).1]
  refine ⟨hquery, hannounced, hlength, hmemory, ?_⟩
  by_cases hnil : firstLine p = []
  · rw [passedData, passedData, hfirst, if_pos hnil, if_pos hnil, hmemory]
  obtain ⟨A⟩ := accepted_of_http hacc hnil
  have hoffset : queryOffset (p ++ t) = queryOffset p := by rw [queryOffset, queryOffset, hfirst]
  have hline : passedLine (p ++ t) = passedLine p := by
    rw [passedLine, passedLine, hquery, hfirst, hoffset]
  -- the rest is that none of the lengths changes
  have hlen : (passedLine p).length = (decodeTarget (firstLine p)).length := by
    rw [passedLine]
    split
    · rename_i q hq
      exact splice_length (by rw [passed_length]; exact (A.queryOffset_eq hq).2.1)
    · rfl
  have hle : blockLength p ≤ p.length := by
    have := congrArg List.length A.inp_eq
    have := A.idx_eq
    simp only [blockLength, List.length_append] at *
    omega
  rw [passedData, passedData, hfirst, if_neg hnil, if_neg hnil, hline, hlines, hblock, hlength,
    List.drop_append_of_le_length hle, ← List.append_assoc, List.take_append_of_le_length]
  rw [rewritten, if_neg hnil] at hfull
  simp only [List.length_append, hlen] at hfull ⊢
  exact hfull

/-- Whether a request is repeatable only depends on its own bytes, not on what follows in the
    buffer. -/
theorem repeatable_append {env : Env} {p : Bytes} {h : HTTP}
    (hacc : callOnce env p = .http h) (t : Bytes) : Repeatable (p ++ t) ↔ Repeatable p := by
  obtain ⟨hquery, hannounced, hlength, hdata, hpassed⟩ := memory_append hacc t
  have hstart : bodyStart (p ++ t) = bodyStart p := by
    rw [bodyStart, bodyStart, hlength, hannounced]
  constructor
  · rintro ⟨hstable, hheaders, hbody⟩
    rw [hquery] at hstable
    rw [hpassed, hdata] at hheaders
    rw [hannounced, hlength, hpassed, hdata, hstart] at hbody
    exact ⟨hstable, hheaders, hbody⟩
  · rintro ⟨hstable, hheaders, hbody⟩
    refine ⟨?_, ?_, ?_⟩
    · rwa [hquery]
    · rwa [hpassed, hdata]
    · rwa [hannounced, hlength, hpassed, hdata, hstart]

/-- **Queries can be read again**, exactly if they meet the condition.  For every accepted request,
    and whatever map `Query` uses: after any calls of the accessors of the query each of them sees
    the pairs of the received query, decoded once, and the other accessors report what they did at
    first, iff the condition holds.  For a request that is not cut, as within the limits, it is one
    on the query and on the lines that decoding adds behind the request line; a query without
    escapes behind a path without a decoded line end meets it. -/
theorem query_repeatable_iff {M : Type} {ops : MapOps M} (laws : ops.Lawful)
    (env : Env) (reads : List Bytes) (h : HTTP) (hacc : callReads env reads = .http h) :
    ((∀ as, ∃ r, run (Mapped.access ops) ⟨requestAfter env reads h, none⟩ as = some r ∧
        Sees ops r (decodedPairs ((rawQuery? reads.flatten).getD [])) ∧
        SameReports (requestAfter env reads h) r.request) ↔ Repeatable reads.flatten) ∧
    (Whole reads.flatten →
      (Repeatable reads.flatten ↔ StableQuery ((rawQuery? reads.flatten).getD []) ∧
        reported (passedLine reads.flatten) (rawHeaders reads.flatten)
          = reported (decodeTarget (firstLine reads.flatten)) (rawHeaders reads.flatten)) ∧
      (PlainQuery ((rawQuery? reads.flatten).getD []) →
        NoCrlf (decodeTarget (firstLine reads.flatten)) → Repeatable reads.flatten)) ∧
    (env.requestMaxBytes < 2 ^ 31 → (reads.flatten.length : ℤ) ≤ env.requestMaxBytes →
      Whole reads.flatten) := by
  have hflat : callOnce env reads.flatten = .http h := by rw [← callReads_eq_flatten, hacc]
  refine ⟨?_, fun hw => ?_, fun hmax hlen => whole_of_http hmax (by omega) hflat⟩
  · -- the calls see the request and what has been read behind it; only the request matters
    obtain ⟨p, t, hsplit, hcall, hbuf⟩ := callReads_eq_callOnce env reads
    rw [hcall] at hacc
    rw [hsplit, repeatable_append hacc, (memory_append hacc t).1]
    unfold requestAfter
    rw [hbuf]
    -- without a query no call writes anything
    rcases query_placed hacc with ⟨h0, hnone⟩ | ⟨q, hq, -⟩
    · obtain ⟨hself, hsees⟩ := access_of_qStart_zero laws
        (r := { http := h, behind := (process env {} p).buf.drop h.data.length }) h0
      rw [hnone]
      refine ⟨fun _ => repeatable_of_no_query hnone, fun _ as => ?_⟩
      exact ⟨_, run_of_access_self hself as, hsees, .of_http rfl⟩
    · have hfirst : firstLine p ≠ [] := by
        intro hnil
        rw [rawQuery?, hnil] at hq
        cases hq
      obtain ⟨A⟩ := accepted_of_http hacc hfirst
      rw [hq, Option.getD_some]
      constructor
      · intro hall
        -- one pass is enough to tell
        obtain ⟨r, hrun, hsees, hsame⟩ := hall [.foreachQuery]
        exact A.repeatable hq hrun hsees hsame
      · intro hrep as
        exact A.repeats laws hq hrep as
  · cases hq : rawQuery? reads.flatten with
    | none =>
      have hstable : StableQuery [] := fun kv hkv => absurd hkv List.not_mem_nil
      have hrep := repeatable_of_no_query hq
      rw [passedLine, hq]
      exact ⟨⟨fun _ => ⟨hstable, rfl⟩, fun _ => hrep⟩, fun _ _ => hrep⟩
    | some q =>
      have hfirst : firstLine reads.flatten ≠ [] := by
        intro hnil
        rw [rawQuery?, hnil] at hq
        cases hq
      obtain ⟨A⟩ := accepted_of_http hflat hfirst
      exact ⟨A.repeatable_whole hw hq, A.repeatable_plain hw hq⟩

/-- A map as a list, the last entry first. -/
def listMap : MapOps (List Param) where
  empty := []
  set m p := p :: m
  get m mem k :=
    (((m.getD []).find? fun e => (mem.drop e.keyOff).take e.key.length = k).map fun e =>
    (mem.drop e.valueOff).take e.value.length).getD []

/-- The list is a map in the sense of `MapOps.Lawful`: so there is one, and the results about every
    lawful map are about something. -/
theorem listMap_lawful : listMap.Lawful := by
  refine ⟨fun mem k => rfl, fun l mem k hstands => ?_⟩
  have hfold : ∀ m : List Param, l.foldl listMap.set m = l.reverse ++ m := by
    induction l with
    | nil => intro m; rfl
    | cons p l ih =>
      intro m
      rw [List.foldl_cons, ih fun q hq => hstands q (List.mem_cons_of_mem _ hq), List.reverse_cons,
        List.append_assoc]
      rfl
  have hrev : ∀ p ∈ l.reverse, p.StandsIn mem := fun p hp => hstands p (List.mem_reverse.mp hp)
  show (((l.foldl listMap.set []).find? _).map _).getD [] = _
  rw [hfold, List.append_nil, lastValue, ← List.map_reverse]
  generalize l.reverse = m at hrev
  induction m with
  | nil => rfl
  | cons e m ih =>
    obtain ⟨⟨hkey, hvalue⟩, hrest⟩ := List.forall_mem_cons.mp hrev
    rw [List.map_cons, List.find?_cons, List.find?_cons]
    simp only [hkey]
    by_cases hk : e.key = k
    · simp [Param.pair, hk, hvalue]
    · simpa [Param.pair, hk] using ih hrest

/-- A plus, a truncated escape and an escaped percent sign. -/
def plusReads : List Bytes := [ascii "GET /?a+b=1%4&c=%2525 HT", ascii "TP/1.1\r\nHost: x\r\n\r\n"]

/-- The request reads the same after three calls, the truncated escape and the decoded percent sign
    included. -/
theorem query_repeatable_iff_plus :
    ∃ h, callReads .plain plusReads = .http h ∧
      ∃ r, run (Mapped.access listMap) ⟨requestAfter .plain plusReads h, none⟩
      [.foreachQuery, .query, .url] = some r ∧
        r.request.foreachQuery.map (fun s => s.2.map Param.pair)
          = some [(ascii "a b", ascii "1%4"), (ascii "c", ascii "%25")] ∧
        (r.getQuery listMap (ascii "c")).map (·.2) = some (ascii "%25") ∧
        r.request.http.headers = some [(ascii "host", ascii "x")] := by
  have hacc : callReads .plain plusReads = .http
      { host := ascii "x", path := ascii "/", qStart := 6, qEnd := 21, hdrLen := 43,
        data := ascii "GET /?a+b=1%4&c=%2525 HTTP/1.1\r\nhost: x\r\n\r\n" } := by decide +kernel
  have hpairs : decodedPairs ((rawQuery? plusReads.flatten).getD [])
      = [(ascii "a b", ascii "1%4"), (ascii "c", ascii "%25")] := by decide +kernel
  obtain ⟨r, hrun, hsees, hsame⟩ :=
    (query_repeatable_iff listMap_lawful .plain plusReads _ hacc).1.mpr
    (by decide +kernel) [.foreachQuery, .query, .url]
  rw [hpairs] at hsees
  refine ⟨_, hacc, r, hrun, hsees.foreachQuery, hsees.getQuery _, ?_⟩
  show r.request.http.foreachHeader _ [] = _
  rw [hsame.foreachHeader]
  decide +kernel

/-- With an escape the second pass sees the old bytes behind the decoded one, and an escaped CR LF
    in the query gives the request a header that was not sent. -/
theorem query_decoded_twice :
    (∃ h r, callOnce .plain (ascii "GET /?a=%41 HTTP/1.1\r\n\r\n") = .http h ∧
      (requestAfter .plain [ascii "GET /?a=%41 HTTP/1.1\r\n\r\n"] h).foreachQuery
        = some (r, [⟨ascii "a", ascii "A", 6, 8⟩]) ∧
      r.foreachQuery.map (fun s => s.2.map Param.pair) = some [(ascii "a", ascii "A41")]) ∧
    ∃ h r ps, callOnce .plain (ascii "GET /?%0d%0aX:1 HTTP/1.1\r\n\r\n") = .http h ∧
      (requestAfter .plain [ascii "GET /?%0d%0aX:1 HTTP/1.1\r\n\r\n"] h).foreachQuery
        = some (r, ps) ∧
      h.headers = some [] ∧ r.http.headers = some [(ascii "X", ascii "1aX:1 HTTP/1.1")] := by
  constructor
  · refine ⟨
      { path := ascii "/", qStart := 6, qEnd := 11, hdrLen := 24,
        data := ascii "GET /?a=%41 HTTP/1.1\r\n\r\n" },
      { http :=
          { path := ascii "/", qStart := 6, qEnd := 11, hdrLen := 24,
            data := ascii "GET /?a=A41 HTTP/1.1\r\n\r\n" } }, ?_, ?_, ?_⟩
    all_goals decide +kernel
  · refine ⟨
      { path := ascii "/", qStart := 6, qEnd := 15, hdrLen := 28,
        data := ascii "GET /?%0d%0aX:1 HTTP/1.1\r\n\r\n" },
      { http :=
          { path := ascii "/", qStart := 6, qEnd := 15, hdrLen := 28,
            data := ascii "GET /?\r\nX:1aX:1 HTTP/1.1\r\n\r\n" } },
      [⟨ascii "\r\nX:1", [], 6, 16⟩], ?_, ?_, ?_, ?_⟩
    all_goals decide +kernel

end Resh.Server
