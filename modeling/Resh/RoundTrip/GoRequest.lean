import Resh.RoundTrip.Target
import Resh.Server.GoHandler

namespace Resh.RoundTrip

open Resh.Go Resh.Server

/-!
# Requests from a client to a handler of `net/http`

`RunGoHandler` takes the path, the query and the header of a request out of the input buffer, where
the query is decoded, and the method put into upper case, on the way.  The query is escaped again
for the URL, and the headers go into a map under their canonical names.

* `decodedPairs_renderQuery` — escaping the parameters again loses nothing;
* `foreachQuery_line` — decoding leaves no line end in the request line, if there is none in the
  parameters;
* `visit_putHeader` — the header map: the last value of each name;
* `go_request_shown` — what the handler gets of a request.
-/

/-! ### The query of the URL -/

/-- A byte that `url.QueryEscape` keeps is not special in a query. -/
theorem unreserved_not_special (c : UInt8) : unreserved c = true → c ∉ querySpecial := by
  revert c
  exact forall_byte (by decide +kernel)

/-- The two digits that it writes for a byte are those of the byte. -/
theorem hexDecode_digits (c : UInt8) :
    hexDecode ((ascii "0123456789ABCDEF").getD (c.toNat / 16) 0)
      ((ascii "0123456789ABCDEF").getD (c.toNat % 16) 0) = some c := by
  revert c
  exact forall_byte (by decide +kernel)

/-- `url.QueryEscape` is one of the escapings of a text. -/
theorem escaped_queryEscape (s : Bytes) : Escaped querySpecial true s (queryEscape s) := by
  unfold queryEscape
  induction s with
  | nil => exact .nil
  | cons c s ih =>
    rw [List.flatMap_cons]
    split
    · rename_i hspace
      rw [hspace]
      exact .space rfl ih
    · split
      · rename_i hkeep
        exact .plain (unreserved_not_special c hkeep) ih
      · exact .percent (hexDecode_digits c) ih

/-- **The query of the URL** has the parameters that it was made of. -/
theorem decodedPairs_renderQuery (ps : List (Bytes × Bytes)) :
    decodedPairs (renderQuery ps) = ps := by
  induction ps with
  | nil => rfl
  | cons kv ps ih =>
    obtain ⟨k, v⟩ := kv
    have hk := escaped_queryEscape k
    have hv := escaped_queryEscape v
    have hpart : renderQuery ((k, v) :: ps)
        = (queryEscape k ++ ch '=' :: queryEscape v) ++ ch '&' :: renderQuery ps := by
      simp [renderQuery, ascii]
    have hamp : ch '&' ∉ queryEscape k ++ ch '=' :: queryEscape v := by
      rw [List.mem_append, List.mem_cons, not_or, not_or]
      exact ⟨hk.not_mem (by decide) (by decide) (by decide) (by decide), by decide,
        hv.not_mem (by decide) (by decide) (by decide) (by decide)⟩
    have hcut : cutPart (queryEscape k ++ ch '=' :: queryEscape v)
        = (queryEscape k, queryEscape v) :=
      cutPart_append (hk.not_mem (by decide) (by decide) (by decide) (by decide)) _
    unfold decodedPairs rawPairs at ih ⊢
    rw [hpart, queryParts_append hamp, List.map_cons, hcut, List.map_cons, hk.unescape_query,
      hv.unescape_query, ih]

/-! ### The request line -/

/-- The request line with its path decoded: the method, a space, and no line feed behind it. -/
theorem decodeTarget_requestLine {m p t : Bytes} {ps : List (Bytes × Bytes)} (hm : ch ' ' ∉ m)
    (ht : TargetText p ps t) (hp : (10 : UInt8) ∉ p) :
    ∃ x, decodeTarget (requestLine m t) = m ++ ch ' ' :: x ∧ (10 : UInt8) ∉ x := by
  have hi : indexByte? (ch ' ') (requestLine m t) = some m.length := indexByte?_append hm _
  obtain ⟨j, hj⟩ : ∃ j, lastIndexByte? (ch ' ') (requestLine m t) = some j := by
    have hsplit : requestLine m t = (m ++ ch ' ' :: t) ++ ch ' ' :: ascii "HTTP/1.1" := by
      rw [requestLine, List.append_assoc, List.cons_append]
    rw [hsplit]
    exact ⟨_, lastIndexByte?_append _ (by decide)⟩
  have htarget := target?_requestLine hm (t := t)
  rw [target?, hi, hj, Option.some.injEq, Prod.mk.injEq] at htarget
  have huri := htarget.2
  have hpath := ht.split.1
  rw [pathLength] at hpath
  rw [decodeTarget, hi, hj]
  simp only [huri, hpath]
  have hcut : requestLine m t = (m ++ [ch ' ']) ++ (t ++ ch ' ' :: ascii "HTTP/1.1") := by
    rw [requestLine, List.append_assoc, List.singleton_append]
  have hprefix : (m ++ [ch ' ']).length = m.length + 1 := by simp
  refine ⟨p ++ (t ++ ch ' ' :: ascii "HTTP/1.1").drop p.length, ?_, ?_⟩
  · rw [splice, hcut, ← hprefix, List.take_left, ← List.drop_drop, List.drop_left]
    simp only [List.append_assoc, List.cons_append, List.nil_append]
  · rw [List.mem_append, not_or]
    refine ⟨hp, fun hmem => ?_⟩
    replace hmem := List.mem_of_mem_drop hmem
    rw [List.mem_append, List.mem_cons] at hmem
    rcases hmem with hmem | hmem | hmem
    · exact ht.not_mem (.inr rfl) hmem
    · exact absurd hmem (by decide)
    · exact absurd hmem (by decide)

/-- What `parse` makes of the target. -/
theorem accepted_target {env : Env} {inp m p t : Bytes} {h : HTTP} {ps : List (Bytes × Bytes)}
    (A : Accepted env inp h) (hfirst : firstLine inp = requestLine m t) (hm : ch ' ' ∉ m)
    (hp : p.head? = some (ch '/')) (ht : TargetText p ps t) :
    h.path = p ∧ ((h.qStart = 0 ∧ ps = []) ∨
      ∃ q, rawQuery? inp = some q ∧ decodedPairs q = ps ∧ (10 : UInt8) ∉ q ∧
      m.length < h.qStart) := by
  have htarget := target?_requestLine hm (t := t)
  obtain ⟨hdecoded, hquery⟩ := ht.split
  obtain ⟨idx0, idx1, uri, hidx, -, -, -, huri, -, hsome, -, hpath⟩ :=
    parseFirstLine_fields A.request
  rw [hfirst] at huri hidx
  rw [htarget, Option.some.injEq, Prod.mk.injEq] at huri
  obtain ⟨hlen, rfl⟩ := huri
  rw [hdecoded] at hpath
  refine ⟨A.fields.2.2.1.trans (hpath hp), ?_⟩
  have hraw : rawQuery? inp = (indexByte? (ch '?') t).map fun q => t.drop (q + 1) := by
    rw [rawQuery?, hfirst, htarget, Option.bind_some]
  rcases hquery with ⟨hnone, rfl⟩ | ⟨i, hi, hpairs⟩
  · rw [hnone] at hraw
    exact .inl ⟨A.query.2 hraw, rfl⟩
  · rw [hi] at hraw
    refine .inr ⟨_, hraw, hpairs, fun hmem => ht.not_mem (.inr rfl) (List.mem_of_mem_drop hmem), ?_⟩
    rw [A.fields.2.2.2.1, (hsome i hi).1]
    omega

/-- An element at a place in the middle of a list. -/
theorem mem_of_getElem?_middle {α : Type*} {pre mid post : List α}
    {i : ℕ} {c : α} (hpre : pre.length ≤ i)
    (hmid : i < pre.length + mid.length) (h : (pre ++ mid ++ post)[i]? = some c) : c ∈ mid := by
  rw [List.append_assoc, List.getElem?_append_right hpre, List.getElem?_append_left (by omega)] at h
  exact List.mem_of_getElem? h

/-- **The request line after `URL`**: the parameters are handed out, and what was in front of the
    query and behind the line is where it was. -/
theorem foreachQuery_line {env : Env} {inp m p t x tail : Bytes}
    {h : HTTP} {ps : List (Bytes × Bytes)}
    (A : Accepted env inp h) (hfirst : firstLine inp = requestLine m t) (hm : ch ' ' ∉ m)
    (hp : p.head? = some (ch '/')) (ht : TargetText p ps t)
    (hps : ∀ kv ∈ ps, (10 : UInt8) ∉ kv.1 ∧ (10 : UInt8) ∉ kv.2)
    (hdata : h.data = m ++ ch ' ' :: x ++ tail)
    (hlen : (m ++ ch ' ' :: x).length = (firstLine inp).length) (hx : (10 : UInt8) ∉ x) :
    ∃ r l x', Request.foreachQuery
    { http := h, behind := (process env {} inp).buf.drop h.data.length }
        = some (r, l) ∧
      l.map Param.pair = ps ∧ r.http = { h with data := m ++ ch ' ' :: x' ++ tail } ∧
      (10 : UInt8) ∉ x' := by
  obtain ⟨-, hquery⟩ := accepted_target A hfirst hm hp ht
  rcases hquery with ⟨h0, rfl⟩ | ⟨q, hraw, hpairs, hlf, hstart⟩
  · refine ⟨_, [], x, if_pos h0, rfl, ?_, hx⟩
    rw [← hdata]
  have P := A.placed hraw
  have hend := (A.query.1 q hraw).2.2.1
  obtain ⟨r, l, hpass, hl, hnew⟩ : ∃ r l, Request.foreachQuery
      { http := h, behind := (process env {} inp).buf.drop h.data.length } = some (r, l) ∧
        l.map Param.pair = decodedPairs q ∧ r.http.data
          = ((process env {} inp).buf.take h.qStart ++ passed q
          ++ (process env {} inp).buf.drop h.qEnd).take h.data.length := by
    obtain ⟨l, hpass, hl, -⟩ := foreachQuery_eq (List.length_pos_of_mem P.space)
      P.mem P.start P.stop
    exact ⟨_, l, hpass, hl, rfl⟩
  have hclean := not_mem_passed hlf (by rw [hpairs]; exact hps)
  have hqlen := passed_length q
  obtain ⟨hhttp, hoff⟩ := foreachQuery_eqOff hpass
  have hstart' : h.qStart = ((process env {} inp).buf.take h.qStart).length := P.start
  have hend' : h.qEnd = ((process env {} inp).buf.take h.qStart).length + q.length := P.stop
  have hcut : h.data = (m ++ [ch ' ']) ++ x ++ tail := by
    rw [hdata]
    simp only [List.append_assoc, List.cons_append, List.nil_append]
  -- the three pieces of the new memory
  have htail : r.http.data.drop (m ++ ch ' ' :: x).length = tail := by
    have hsame : r.http.data.drop (m ++ ch ' ' :: x).length
        = h.data.drop (m ++ ch ' ' :: x).length := by
      apply hoff.drop_eq
      intro i hi hin
      have hlt : i < h.qEnd := hin.2.2
      omega
    rw [hsame, hdata, List.drop_left]
  have hhead : r.http.data.take (m.length + 1) = m ++ [ch ' '] := by
    have hslice : (r.http.data.take (m.length + 1)).drop 0
        = (h.data.take (m.length + 1)).drop 0 := by
      apply hoff.slice_eq
      intro i _ hi hin
      have hge : h.qStart ≤ i := hin.2.1
      omega
    rw [List.drop_zero, List.drop_zero] at hslice
    rw [hslice, hcut, List.append_assoc, List.take_left' (by simp)]
  have hmiddle : (10 : UInt8) ∉ (r.http.data.take (m ++ ch ' ' :: x).length).drop
      (m.length + 1) := by
    intro hmem
    obtain ⟨i, hi⟩ := List.mem_iff_getElem?.mp hmem
    rw [List.getElem?_drop, List.getElem?_take] at hi
    split at hi
    · rename_i hlt
      by_cases hin : h.qStart ≤ m.length + 1 + i ∧ m.length + 1 + i < h.qEnd
      · -- inside the query
        rw [hnew, List.getElem?_take] at hi
        split at hi
        · exact hclean (mem_of_getElem?_middle (by omega) (by omega) hi)
        · cases hi
      · rw [hoff.get_eq _ fun hrange => hin hrange.2] at hi
        change h.data[m.length + 1 + i]? = some 10 at hi
        rw [hcut] at hi
        simp only [List.length_append, List.length_cons] at hlt
        exact hx (mem_of_getElem?_middle (by simp)
          (by simpa [Nat.add_assoc, Nat.add_comm 1] using hlt) hi)
    · cases hi
  refine ⟨r, l, _, hpass, hl.trans hpairs, ?_, hmiddle⟩
  rw [hhttp]
  have hsplit : r.http.data
      = m ++ ch ' ' :: (r.http.data.take (m ++ ch ' ' :: x).length).drop
      (m.length + 1) ++ tail := by
    have hfirst' : (r.http.data.take (m ++ ch ' ' :: x).length).take (m.length + 1)
        = m ++ [ch ' '] := by
      rw [List.take_take, Nat.min_eq_left (by simp), hhead]
    calc r.http.data
        = r.http.data.take (m ++ ch ' ' :: x).length
          ++ r.http.data.drop (m ++ ch ' ' :: x).length :=
          (List.take_append_drop _ _).symm
      _ = (m ++ [ch ' ']) ++ (r.http.data.take (m ++ ch ' ' :: x).length).drop (m.length + 1)
        ++ tail := by
          rw [htail, ← hfirst', List.take_append_drop]
      _ = _ := by simp only [List.append_assoc, List.cons_append, List.nil_append]
  rw [← hsplit]

/-! ### The header map -/

/-- The canonical form of a name is the name, but for the cases of its letters. -/
theorem canonicalKey_token (upper : Bool) (s : Bytes) :
    (canonicalKey upper s).map lower = s.map lower ∧ (canonicalKey upper s).all isToken
      = s.all isToken := by
  induction s generalizing upper with
  | nil => exact ⟨rfl, rfl⟩
  | cons c s ih =>
    obtain ⟨-, hlower, htoken, -⟩ := canonicalByte_cases c upper
    obtain ⟨ihlower, ihtoken⟩ := ih (canonicalByte upper c == ch '-')
    rw [canonicalKey, List.map_cons, List.map_cons, List.all_cons, List.all_cons]
    exact ⟨by rw [hlower, ihlower], by rw [htoken, ihtoken]⟩

/-- **Names as keys.**  A name in lower case has the key of a token iff it is the token in lower
    case. -/
theorem canonicalHeaderKey_eq_iff {k key : Bytes} (hk : k.map lower = k)
    (hkey : key.all isToken = true) :
    canonicalHeaderKey k = canonicalHeaderKey key ↔ k = key.map lower := by
  unfold canonicalHeaderKey
  rw [if_pos hkey]
  constructor
  · intro heq
    have hlower := congrArg (List.map lower) heq
    rw [(canonicalKey_token true key).1] at hlower
    rw [← hlower]
    split
    · rw [(canonicalKey_token true k).1, hk]
    · exact hk.symm
  · rintro rfl
    have htoken : (key.map lower).all isToken = true := by
      rw [List.all_map, ← hkey]
      exact congrArg key.all (funext fun c => (canonicalByte_cases c true).2.2.2)
    rw [if_pos htoken, canonicalKey_map_lower]

theorem lookup_set (h : Header) (k v key : Bytes) :
    (h.set k v).lookup key = if canonicalHeaderKey k = key then some [v] else h.lookup key := by
  unfold Header.set
  split
  · rename_i heq
    rw [heq, AList.lookup_insert]
  · rename_i hne
    rw [AList.lookup_insert_ne (Ne.symm hne)]

/-- **The callback over all headers**: the transfer codings are collected, and the last value of
    each other name is kept. -/
theorem visit_putHeader (hs : List (Bytes × Bytes)) (a : Header × List Bytes) :
    (visit putHeader hs a).2 = a.2 ++ (hs.filter (·.1 = ascii "transfer-encoding")).map Prod.snd ∧
      ∀ key, (visit putHeader hs a).1.lookup key
        = (((hs.filter fun kv => kv.1 ≠ ascii "transfer-encoding" ∧
            canonicalHeaderKey kv.1 = key).getLast?).map fun kv => [kv.2]).or (a.1.lookup key) := by
  induction hs generalizing a with
  | nil => simp [visit]
  | cons kv hs ih =>
    obtain ⟨k, v⟩ := kv
    by_cases hte : k = ascii "transfer-encoding"
    · have hvisit : visit putHeader ((k, v) :: hs) a = visit putHeader hs (a.1, a.2 ++ [v]) := by
        rw [visit, putHeader, if_pos hte]
      obtain ⟨hcodings, hlookup⟩ := ih (a.1, a.2 ++ [v])
      rw [hvisit]
      refine ⟨?_, fun key => ?_⟩
      · rw [hcodings, List.filter_cons, if_pos (decide_eq_true hte),
          List.map_cons, List.append_assoc]
        rfl
      · rw [hlookup, List.filter_cons, if_neg (by simp [hte])]
    · have hvisit : visit putHeader ((k, v) :: hs) a = visit putHeader hs (a.1.set k v, a.2) := by
        rw [visit, putHeader, if_neg hte]
      obtain ⟨hcodings, hlookup⟩ := ih (a.1.set k v, a.2)
      rw [hvisit]
      refine ⟨?_, fun key => ?_⟩
      · rw [hcodings, List.filter_cons, if_neg (by simp [hte])]
      · rw [hlookup, lookup_set, List.filter_cons]
        by_cases hkey : canonicalHeaderKey k = key
        · -- the value is kept, unless there is a later one
          rw [if_pos hkey, if_pos (by simp [hte, hkey]), List.getLast?_cons]
          cases (hs.filter fun kv => kv.1 ≠ ascii "transfer-encoding" ∧
              canonicalHeaderKey kv.1 = key).getLast? with
          | none => rfl
          | some kv => rfl
        · rw [if_neg hkey, if_neg (by simp [hkey])]

/-- A header as the handler asks for it. -/
theorem get_putHeader {hs : List (Bytes × Bytes)}
    (hs_lower : ∀ kv ∈ hs, kv.1.map lower = kv.1) {key : Bytes}
    (hkey : key.all isToken = true) (hte : key.map lower ≠ ascii "transfer-encoding") :
    (visit putHeader hs (∅, [])).1.get key
      = (((hs.filter (·.1 = key.map lower)).getLast?).map Prod.snd).getD [] := by
  have hfilter : (hs.filter fun kv => kv.1 ≠ ascii "transfer-encoding" ∧
      canonicalHeaderKey kv.1 = canonicalHeaderKey key) = hs.filter (·.1 = key.map lower) := by
    apply List.filter_congr
    intro kv hkv
    rw [decide_eq_decide, canonicalHeaderKey_eq_iff (hs_lower kv hkv) hkey]
    constructor
    · exact And.right
    · intro heq
      exact ⟨heq ▸ hte, heq⟩
  rw [Header.get, (visit_putHeader hs (∅, [])).2, hfilter]
  cases (hs.filter (·.1 = key.map lower)).getLast? with
  | none => rfl
  | some kv => rfl

theorem noCrlf_of_not_mem_lf {s : Bytes} (h : (10 : UInt8) ∉ s) : NoCrlf s :=
  NoCrlf.append (u := []) (by decide) h

/-- Upper case brings no line feed in. -/
theorem upper_eq_lf (c : UInt8) : upper c = 10 → c = 10 := by
  revert c
  exact forall_byte (by decide +kernel)

theorem lower_lower (c : UInt8) : lower (lower c) = lower c := by
  revert c
  exact forall_byte (by decide +kernel)

/-- The received names are in lower case. -/
theorem rawHeaders_lower (inp : Bytes) : ∀ kv ∈ rawHeaders inp, kv.1.map lower = kv.1 := by
  intro kv hkv
  obtain ⟨line, -, rfl⟩ := List.mem_map.mp hkv
  show List.map lower (List.map lower _) = List.map lower _
  rw [List.map_map]
  exact List.map_congr_left fun c _ => lower_lower c

/-! ### What the handler gets -/

/-- `Method` finds the first space. -/
theorem method_line {h : HTTP} {m x tail : Bytes} (hm : ch ' ' ∉ m)
    (hdata : h.data = m ++ ch ' ' :: x ++ tail) :
    h.method = some ({ h with data := m.map upper ++ ch ' ' :: x ++ tail }, m.map upper) := by
  have hidx : indexByte? (ch ' ') (m ++ ch ' ' :: x ++ tail) = some m.length := by
    rw [List.append_assoc, List.cons_append]
    exact indexByte?_append hm _
  unfold HTTP.method
  rw [hdata]
  simp only [hidx]
  rw [List.append_assoc m, List.take_left, List.drop_left, List.append_assoc (m.map upper)]

/-- `ForeachHeader` behind a first line without a line end. -/
theorem foreachHeader_line {τ : Type} (f : τ → Bytes → Bytes → τ × Bool)
    (a : τ) {h : HTTP} {u body : Bytes}
    {ls : List Bytes} (hno : NoCrlf u) (hne : u ≠ []) (hls : ∀ l ∈ ls, NoCrlf l ∧ l ≠ [])
    (hdata : h.data = u ++ (crlf ++ joinLines ls ++ crlf ++ body)) :
    h.foreachHeader f a = some (visit f (ls.filterMap headerOf) a) := by
  have hpieces : splitCrlf h.data = u :: (ls ++ [] :: splitCrlf body) := by
    have hblock := splitCrlf_block u (fun l hl => (hls l hl).1) body
    rw [splitCrlf_of_noCrlf hno] at hblock
    rw [hdata]
    simp only [List.append_assoc] at hblock ⊢
    exact hblock
  have hlines : (ls ++ [] :: splitCrlf body).takeWhile (· ≠ []) = ls := by
    rw [List.takeWhile_append_of_pos fun l hl => by simpa using (hls l hl).2]
    simp
  rw [foreachHeader_visit _ _ hpieces hne (by simp), hlines]

/-- **Requests for handlers of `net/http`.**  For every method, path, list of parameters, escaping
    of them and header, in whatever reads: once the request is accepted, and if neither the path nor
    a parameter has a line feed, `RunGoHandler` gives its handler a request with that method in
    upper case and that path, a URL whose query has just these parameters in order, every transfer
    coding, and a header map in which each other name, in whatever case it is asked for, has the
    last value that was sent for it. -/
theorem go_request_shown (env : Env) (reads : List Bytes) (h : HTTP) (m p t rest : Bytes)
    (ps : List (Bytes × Bytes)) (hmax : env.requestMaxBytes < 2 ^ 31)
    (hlen : (reads.flatten.length : ℤ) ≤ env.requestMaxBytes) (hm : ch ' ' ∉ m)
    (hmlf : (10 : UInt8) ∉ m) (hp : p.head? = some (ch '/')) (hplf : (10 : UInt8) ∉ p)
    (hps : ∀ kv ∈ ps, (10 : UInt8) ∉ kv.1 ∧ (10 : UInt8) ∉ kv.2) (ht : TargetText p ps t)
    (hinp : reads.flatten = requestLine m t ++ crlf ++ rest)
    (hacc : callReads env reads = .http h) :
    ∃ r g, (requestAfter env reads h).goRequest = some (r, g) ∧ g.method = m.map upper ∧
      g.url.path = p ∧ decodedPairs g.url.rawQuery = ps ∧ g.host = h.host ∧
      g.transferEncoding
        = ((rawHeaders reads.flatten).filter (·.1 = ascii "transfer-encoding")).map Prod.snd ∧
      ∀ key, key.all isToken = true → key.map lower ≠ ascii "transfer-encoding" →
        g.header.get key
          = ((((rawHeaders reads.flatten).filter
              (·.1 = key.map lower)).getLast?).map Prod.snd).getD [] := by
  obtain ⟨read, later, hsplit, hcall, hbuf⟩ := callReads_eq_callOnce env reads
  rw [hcall] at hacc
  have hline : (10 : UInt8) ∉ requestLine m t := by
    simp only [requestLine, List.mem_append, List.mem_cons, not_or]
    exact ⟨hmlf, by decide, ht.not_mem (.inr rfl), by decide, by decide⟩
  -- the first line and the headers are in the reads up to the one that completed the request
  have hfirst : firstLine read = requestLine m t := by
    rw [← firstLine_append hacc later, ← hsplit, hinp, firstLine, splitCrlf_append_crlf,
      splitCrlf_of_noCrlf (noCrlf_of_not_mem_lf hline)]
    rfl
  have hheaders : rawHeaders reads.flatten = rawHeaders read := by
    obtain ⟨idx, -, hfound, -⟩ := process_eq_http hacc
    rw [hsplit, rawHeaders, rawHeaders, (lines_append hfound later).2]
  have hshort : read.length < 2 ^ 31 := by
    rw [hsplit, List.length_append] at hlen
    omega
  have hne : firstLine read ≠ [] := by rw [hfirst, requestLine]; simp
  obtain ⟨A⟩ := accepted_of_http hacc hne
  obtain ⟨ls, body, hdata, hls, hall⟩ : ∃ ls body,
      h.data = decodeTarget (firstLine read) ++ crlf ++ joinLines ls ++ crlf ++ body ∧
        ls.filterMap headerOf = rawHeaders read ∧ ∀ m ∈ ls, NoCrlf m ∧ m ≠ [] := by
    have hlen := A.length_eq
    rw [A.lines_eq, A.idx_eq] at hlen
    exact ⟨_, _, A.memory.1.trans (requestData_whole (A.whole hmax hshort) hne hlen), A.lines_spec⟩
  obtain ⟨x, hx, hxlf⟩ := decodeTarget_requestLine hm ht hplf
  have hlength : (m ++ ch ' ' :: x).length = (firstLine read).length := by
    rw [← hx, ← hfirst]
    exact parseFirstLine_length A.request
  have hmem : h.data = m ++ ch ' ' :: x ++ (crlf ++ joinLines ls ++ crlf ++ body) := by
    rw [hdata, hfirst, hx]
    simp only [List.append_assoc]
  obtain ⟨r, l, x', hpass, hl, hhttp, hx'⟩ :=
    foreachQuery_line A hfirst hm hp ht hps hmem hlength hxlf
  have hmethod : r.http.method = some ({ h with
      data := m.map upper ++ ch ' ' :: x' ++ (crlf ++ joinLines ls ++ crlf ++ body) },
        m.map upper) := by
    rw [hhttp]
    exact method_line hm rfl
  -- the headers follow a line without a line feed, since neither decoding nor `Method` makes one
  have hno : NoCrlf (m.map upper ++ ch ' ' :: x') := by
    apply noCrlf_of_not_mem_lf
    rw [List.mem_append, List.mem_cons, not_or, not_or]
    refine ⟨fun hmem => ?_, by decide, hx'⟩
    obtain ⟨c, hc, hup⟩ := List.mem_map.mp hmem
    exact hmlf (upper_eq_lf c hup ▸ hc)
  have hscan : HTTP.foreachHeader putHeader { h with
      data := m.map upper ++ ch ' ' :: x' ++ (crlf ++ joinLines ls ++ crlf ++ body) } (∅, [])
      = some (visit putHeader (rawHeaders read) (∅, [])) := by
    rw [← hls]
    exact foreachHeader_line _ _ hno (by simp) hall rfl
  obtain rfl := (accepted_target A hfirst hm hp ht).1
  have hgo : (requestAfter env reads h).goRequest = some ({ r with http := { h with
        data := m.map upper ++ ch ' ' :: x' ++ (crlf ++ joinLines ls ++ crlf ++ body) } },
      ⟨⟨ascii "http:", h.host, h.path, renderQuery ps⟩,
        URL.string ⟨ascii "http:", h.host, h.path, renderQuery ps⟩,
        m.map upper, 1, 1, h.host, (visit putHeader (rawHeaders read) (∅, [])).1,
        (visit putHeader (rawHeaders read) (∅, [])).2⟩) := by
    unfold requestAfter Request.goRequest Request.url
    rw [hbuf, hpass]
    simp only [Option.map_some, hmethod, hscan, hl]
  refine ⟨_, _, hgo, rfl, rfl, decodedPairs_renderQuery ps, rfl, ?_, fun key hkey hte => ?_⟩
  · rw [hheaders]
    exact (visit_putHeader (rawHeaders read) (∅, [])).1
  · rw [hheaders]
    exact get_putHeader (rawHeaders_lower read) hkey hte

/-- A header in three spellings, and a parameter that is escaped, in two reads. -/
theorem go_request_shown_twice :
    ∃ h r g, callReads .plain
        [ascii "get /a?x=%26+ HTT", ascii "P/1.1\r\nX-Id: 1\r\nhost: b\r\nx-id: 2\r\n\r\n"]
          = .http h ∧
      (requestAfter .plain
        [ascii "get /a?x=%26+ HTT",
          ascii "P/1.1\r\nX-Id: 1\r\nhost: b\r\nx-id: 2\r\n\r\n"] h).goRequest = some (r, g) ∧
      g.method = ascii "GET" ∧ decodedPairs g.url.rawQuery = [(ascii "x", ascii "& ")] ∧
      g.header.get (ascii "X-ID") = ascii "2" := by
  obtain ⟨h, hacc⟩ : ∃ h, callReads .plain
      [ascii "get /a?x=%26+ HTT", ascii "P/1.1\r\nX-Id: 1\r\nhost: b\r\nx-id: 2\r\n\r\n"]
        = .http h :=
    ⟨{ host := ascii "b", path := ascii "/a", qStart := 7, qEnd := 13, hdrLen := 53,
       data := ascii "get /a?x=%26+ HTTP/1.1\r\nx-id: 1\r\nhost: b\r\nx-id: 2\r\n\r\n" },
       by decide +kernel⟩
  have hpath : Escaped pathSpecial false (ascii "/a") (ascii "/a") :=
    .plain (by decide) (.plain (by decide) .nil)
  have hquery : QueryText [(ascii "x", ascii "& ")] (ascii "x=%26+") :=
    .last (.plain (by decide) .nil) (.percent (by decide) (.space rfl .nil))
  obtain ⟨r, g, hgo, hmethod, -, hpairs, -, -, hheader⟩ := go_request_shown .plain _ h (ascii "get")
    (ascii "/a") (ascii "/a?x=%26+") (ascii "X-Id: 1\r\nhost: b\r\nx-id: 2\r\n\r\n")
    _ (by decide) (by decide +kernel)
    (by decide) (by decide) (by decide) (by decide) (by decide)
    (.query hpath hquery) (by decide +kernel) hacc
  refine ⟨h, r, g, hacc, hgo, hmethod.trans (by decide), hpairs, ?_⟩
  rw [hheader (ascii "X-ID") (by decide) (by decide)]
  decide +kernel

end Resh.RoundTrip
