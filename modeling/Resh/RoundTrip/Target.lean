import Resh.Server.Accessors

namespace Resh.RoundTrip

open Resh.Go Resh.Server

/-!
# Request targets from a client to the handlers

A client escapes a path and a list of parameters into a request target.  The server finds the path
and the query in it by the first and the last space and the first `?`, and decodes both in the
buffer.

* `Escaped` — the escaped forms of a text: which bytes are escaped beyond the necessary ones, and
  with which digits, is up to the client;
* `TargetText` — the targets of a path and a list of parameters;
* `target_round_trip` — `Path` is the path again, and the first pass of `ForeachQuery` gives the
  list.
-/

/-! ### Escaping -/

/-- **The escaped forms of a text.**  A byte stands for itself, unless it is in `special`, or is
    given by two hexadecimal digits.  Where `plus` says so, a space may be a `+`. -/
inductive Escaped (special : Bytes) (plus : Bool) : Bytes → Bytes → Prop where
  | nil : Escaped special plus [] []
  | plain {c : UInt8} {s e : Bytes} (hc : c ∉ special) (h : Escaped special plus s e) :
      Escaped special plus (c :: s) (c :: e)
  | percent {p q c : UInt8} {s e : Bytes} (hc : hexDecode p q = some c)
      (h : Escaped special plus s e) : Escaped special plus (c :: s) (ch '%' :: p :: q :: e)
  | space {s e : Bytes} (hplus : plus = true) (h : Escaped special plus s e) :
      Escaped special plus (ch ' ' :: s) (ch '+' :: e)

/-- What is never left as it is in a path. -/
def pathSpecial : Bytes := ascii "%? \r\n"

/-- What is never left as it is in a key or a value. -/
def querySpecial : Bytes := ascii "%&=+ \r\n"

/-- The texts of a list of parameters: `key=value`, joined by `&`. -/
inductive QueryText : List (Bytes × Bytes) → Bytes → Prop where
  | last {k v ek ev : Bytes} (hk : Escaped querySpecial true k ek)
      (hv : Escaped querySpecial true v ev) : QueryText [(k, v)] (ek ++ ch '=' :: ev)
  | cons {k v ek ev : Bytes} {ps : List (Bytes × Bytes)} {q : Bytes}
      (hk : Escaped querySpecial true k ek)
      (hv : Escaped querySpecial true v ev) (h : QueryText ps q) :
      QueryText ((k, v) :: ps) (ek ++ ch '=' :: ev ++ ch '&' :: q)

/-- The targets of a path and a list of parameters. -/
inductive TargetText (p : Bytes) : List (Bytes × Bytes) → Bytes → Prop where
  | path {e : Bytes} (h : Escaped pathSpecial false p e) : TargetText p [] e
  | query {e q : Bytes} {ps : List (Bytes × Bytes)} (h : Escaped pathSpecial false p e)
      (hq : QueryText ps q) : TargetText p ps (e ++ ch '?' :: q)

/-! ### Decoding -/

namespace Escaped

variable {special : Bytes} {plus : Bool} {s e : Bytes}

/-- **Decoding gives the text back**, in whatever memory: no old byte shows. -/
theorem unescapeFrom (hpercent : ch '%' ∈ special) (hplus : plus = true → ch '+' ∈ special)
    (h : Escaped special plus s e) (mem : Bytes) (x : ℕ) :
    Server.unescapeFrom mem plus e x = s := by
  induction h generalizing x with
  | nil => rfl
  | @plain c s e hc _ ih =>
    have hne : c ≠ ch '%' := fun heq => hc (heq ▸ hpercent)
    rw [unescapeFrom_plain hne, ih, if_neg]
    rintro ⟨rfl, hp⟩
    exact hc (hplus hp)
  | percent hc _ ih => rw [unescapeFrom_percent, ih, hc, Option.getD_some]
  | space hp _ ih => rw [unescapeFrom_plain (by decide), ih, if_pos ⟨rfl, hp⟩]

/-- A special byte that is no part of an escape does not occur. -/
theorem not_mem (h : Escaped special plus s e) {d : UInt8} (hd : d ∈ special)
    (hpercent : d ≠ ch '%') (hplus : d ≠ ch '+') (hhex : hexVal d = none) : d ∉ e := by
  induction h with
  | nil => exact List.not_mem_nil
  | plain hc _ ih =>
    rw [List.mem_cons, not_or]
    exact ⟨fun heq => hc (heq ▸ hd), ih⟩
  | @percent p q c s e hc _ ih =>
    have hdigit : d ≠ p ∧ d ≠ q := by
      unfold hexDecode at hc
      constructor
      · rintro rfl
        rw [hhex] at hc
        cases hc
      · rintro rfl
        rw [hhex] at hc
        cases hp : hexVal p <;> rw [hp] at hc <;> cases hc
    simp only [List.mem_cons, not_or]
    exact ⟨hpercent, hdigit.1, hdigit.2, ih⟩
  | space _ _ ih =>
    rw [List.mem_cons, not_or]
    exact ⟨hplus, ih⟩

/-- Every escaping of a path is decoded to the path; a plus is a plus there. -/
theorem unescape_path (h : Escaped pathSpecial false s e) : unescape e false = s :=
  h.unescapeFrom (by decide) (fun h => by cases h) e 0

/-- Every escaping of a key or a value is decoded to it, the plus as a space. -/
theorem unescape_query (h : Escaped querySpecial true s e) : unescape e true = s :=
  h.unescapeFrom (by decide) (fun _ => by decide) e 0

end Escaped

/-- A part `k=v` is cut at its first `=`. -/
theorem cutPart_append {k : Bytes} (hk : ch '=' ∉ k) (v : Bytes) :
    cutPart (k ++ ch '=' :: v) = (k, v) := by
  have hcut := cutPart_eq (v := v) hk (.inl rfl)
  rwa [List.append_assoc] at hcut

namespace QueryText

variable {ps : List (Bytes × Bytes)} {q : Bytes}

/-- **The parameters of the text** are those that it was made of. -/
theorem decodedPairs_eq (h : QueryText ps q) : decodedPairs q = ps := by
  have hpart : ∀ {k v ek ev : Bytes}, Escaped querySpecial true k ek →
      Escaped querySpecial true v ev →
      ch '&' ∉ ek ++ ch '=' :: ev ∧ cutPart (ek ++ ch '=' :: ev) = (ek, ev) := by
    intro k v ek ev hk hv
    have hamp : ∀ {s e : Bytes}, Escaped querySpecial true s e → ch '&' ∉ e :=
      fun h => h.not_mem (by decide) (by decide) (by decide) (by decide)
    refine ⟨?_, cutPart_append (hk.not_mem (by decide) (by decide) (by decide) (by decide)) ev⟩
    rw [List.mem_append, List.mem_cons, not_or, not_or]
    exact ⟨hamp hk, by decide, hamp hv⟩
  unfold decodedPairs rawPairs
  induction h with
  | last hk hv =>
    obtain ⟨hamp, hcut⟩ := hpart hk hv
    rw [queryParts_of_not_mem hamp (by simp), List.map_singleton, hcut, List.map_singleton,
      hk.unescape_query, hv.unescape_query]
  | cons hk hv _ ih =>
    obtain ⟨hamp, hcut⟩ := hpart hk hv
    rw [queryParts_append hamp, List.map_cons, hcut, List.map_cons, ih, hk.unescape_query,
      hv.unescape_query]

/-- A query text has neither a space nor a line end, so it neither ends the target nor the line. -/
theorem not_mem (h : QueryText ps q) {d : UInt8} (hd : d = ch ' ' ∨ d = 10) : d ∉ q := by
  have hpart : ∀ {s e : Bytes}, Escaped querySpecial true s e → d ∉ e := by
    intro s e he
    rcases hd with rfl | rfl
    · exact he.not_mem (by decide) (by decide) (by decide) (by decide)
    · exact he.not_mem (by decide) (by decide) (by decide) (by decide)
  have hsep : d ≠ ch '=' ∧ d ≠ ch '&' := by rcases hd with rfl | rfl <;> decide
  induction h with
  | last hk hv =>
    simp only [List.mem_append, List.mem_cons, not_or]
    exact ⟨hpart hk, hsep.1, hpart hv⟩
  | cons hk hv _ ih =>
    simp only [List.mem_append, List.mem_cons, not_or]
    exact ⟨⟨hpart hk, hsep.1, hpart hv⟩, hsep.2, ih⟩

end QueryText

namespace TargetText

variable {p t : Bytes} {ps : List (Bytes × Bytes)}

/-- A whole target has neither a space nor a line end, so the request line ends behind it. -/
theorem not_mem (h : TargetText p ps t) {d : UInt8} (hd : d = ch ' ' ∨ d = 10) : d ∉ t := by
  have hpath : ∀ {e : Bytes}, Escaped pathSpecial false p e → d ∉ e := by
    intro e he
    rcases hd with rfl | rfl
    · exact he.not_mem (by decide) (by decide) (by decide) (by decide)
    · exact he.not_mem (by decide) (by decide) (by decide) (by decide)
  cases h with
  | path he => exact hpath he
  | query he hq =>
    rw [List.mem_append, List.mem_cons, not_or, not_or]
    exact ⟨hpath he, by rcases hd with rfl | rfl <;> decide, hq.not_mem hd⟩

/-- The path ends at the first `?`, and the query begins behind it. -/
theorem split (h : TargetText p ps t) :
    unescape (t.take (pathLength t)) false = p ∧
      ((indexByte? (ch '?') t = none ∧ ps = []) ∨
        ∃ i, indexByte? (ch '?') t = some i ∧ decodedPairs (t.drop (i + 1)) = ps) := by
  have hmark : ∀ {e : Bytes}, Escaped pathSpecial false p e → ch '?' ∉ e :=
    fun h => h.not_mem (by decide) (by decide) (by decide) (by decide)
  unfold pathLength
  cases h with
  | path he =>
    have hnone := indexByte?_eq_none.mpr (hmark he)
    rw [hnone, Option.getD_none, List.take_length]
    exact ⟨he.unescape_path, .inl ⟨rfl, rfl⟩⟩
  | @query e q ps he hq =>
    have hsome := indexByte?_append (hmark he) q
    rw [hsome, Option.getD_some, List.take_left]
    refine ⟨he.unescape_path, .inr ⟨e.length, rfl, ?_⟩⟩
    rw [← List.drop_drop, List.drop_left]
    exact hq.decodedPairs_eq

end TargetText

/-! ### The round trip -/

/-- The request line. -/
def requestLine (method target : Bytes) :
    Bytes := method ++ ch ' ' :: (target ++ ch ' ' :: ascii "HTTP/1.1")

/-- The target of a request line is found between its first and its last space. -/
theorem target?_requestLine {m t : Bytes} (hm : ch ' ' ∉ m) :
    target? (requestLine m t) = some (m.length + 1, t) := by
  have hfirst : indexByte? (ch ' ') (requestLine m t) = some m.length := indexByte?_append hm _
  have hsplit : requestLine m t = (m ++ ch ' ' :: t) ++ ch ' ' :: ascii "HTTP/1.1" := by
    rw [requestLine, List.append_assoc, List.cons_append]
  have hlast : lastIndexByte? (ch ' ') (requestLine m t) = some (m ++ ch ' ' :: t).length := by
    rw [hsplit]
    exact lastIndexByte?_append _ (by decide)
  have huri : ((requestLine m t).take (m ++ ch ' ' :: t).length).drop (m.length + 1) = t := by
    rw [hsplit, List.take_left, ← List.drop_drop, List.drop_left]
    rfl
  rw [target?, hfirst, hlast]
  simp only [huri]

/-- **Request targets.**  For every path, every list of parameters and every escaping of them: once
    a request with that line is accepted, in whatever reads, with whatever headers and body, `Path`
    is the path and the first pass of `ForeachQuery` gives the parameters in order. -/
theorem target_round_trip (env : Env) (reads : List Bytes) (h : HTTP) (m p t rest : Bytes)
    (ps : List (Bytes × Bytes)) (hm : ch ' ' ∉ m) (hcrlf : NoCrlf m) (hp : p.head? = some (ch '/'))
    (ht : TargetText p ps t) (hinp : reads.flatten = requestLine m t ++ crlf ++ rest)
    (hacc : callReads env reads = .http h) :
    h.path = p ∧
      ∃ r l, (requestAfter env reads h).foreachQuery = some (r, l) ∧ l.map Param.pair = ps := by
  obtain ⟨read, later, hsplit, hcall, hbuf⟩ := callReads_eq_callOnce env reads
  rw [hcall] at hacc
  have hline : NoCrlf (requestLine m t) := by
    refine hcrlf.append ?_
    simp only [List.mem_append, List.mem_cons, not_or]
    exact ⟨by decide, ht.not_mem (.inr rfl), by decide, by decide⟩
  have hfirst : firstLine read = requestLine m t := by
    rw [← firstLine_append hacc later, ← hsplit, hinp, firstLine, splitCrlf_append_crlf,
      splitCrlf_of_noCrlf hline]
    rfl
  obtain ⟨A⟩ := accepted_of_http hacc (by rw [hfirst, requestLine]; simp)
  have htarget := target?_requestLine hm (t := t)
  obtain ⟨hdecoded, hquery⟩ := ht.split
  constructor
  · obtain ⟨idx0, idx1, uri, -, -, -, -, huri, -, -, -, hpath⟩ := parseFirstLine_fields A.request
    rw [hfirst, htarget, Option.some.injEq, Prod.mk.injEq] at huri
    rw [← huri.2, hdecoded] at hpath
    rw [A.fields.2.2.1]
    exact hpath hp
  · unfold requestAfter
    rw [hbuf]
    have hraw : rawQuery? read = (indexByte? (ch '?') t).map fun q => t.drop (q + 1) := by
      rw [rawQuery?, hfirst, htarget, Option.bind_some]
    rcases hquery with ⟨hnone, rfl⟩ | ⟨i, hsome, hpairs⟩
    · rw [hnone] at hraw
      have h0 : h.qStart = 0 := A.query.2 hraw
      exact ⟨_, [], if_pos h0, rfl⟩
    · rw [hsome] at hraw
      have P := A.placed hraw
      obtain ⟨l, hpass, hl, -⟩ := foreachQuery_eq (List.length_pos_of_mem P.space)
        P.mem P.start P.stop
      exact ⟨_, l, hpass, hl.trans hpairs⟩

/-- A path with a space and a `?`, and parameters with `&`, `=`, `+` and a space, in two reads. -/
theorem target_round_trip_delimiters :
    ∃ h, callReads .plain [ascii "GET /a%20b%3f?x=%26+%3D&%2b= HTT",
      ascii "P/1.1\r\nHost: x\r\n\r\n"] = .http h ∧ h.path = ascii "/a b?" ∧
      ∃ r l, (requestAfter .plain
          [ascii "GET /a%20b%3f?x=%26+%3D&%2b= HTT", ascii "P/1.1\r\nHost: x\r\n\r\n"]
          h).foreachQuery = some (r, l) ∧
        l.map Param.pair = [(ascii "x", ascii "& ="), (ascii "+", [])] := by
  have hacc : callReads .plain [ascii "GET /a%20b%3f?x=%26+%3D&%2b= HTT",
      ascii "P/1.1\r\nHost: x\r\n\r\n"]
      = .http { host := ascii "x", path := ascii "/a b?", qStart := 14, qEnd := 28, hdrLen := 50,
                data := ascii "GET /a b?b%3f?x=%26+%3D&%2b= HTTP/1.1\r\nhost: x\r\n\r\n" } := by
    decide +kernel
  have hpath : Escaped pathSpecial false (ascii "/a b?") (ascii "/a%20b%3f") :=
    .plain (by decide) (.plain (by decide) (.percent (by decide) (.plain (by decide)
      (.percent (by decide) .nil))))
  have hx : Escaped querySpecial true (ascii "x") (ascii "x") := .plain (by decide) .nil
  have hvalue : Escaped querySpecial true (ascii "& =") (ascii "%26+%3D") :=
    .percent (by decide) (.space rfl (.percent (by decide) .nil))
  have hplus : Escaped querySpecial true (ascii "+") (ascii "%2b") := .percent (by decide) .nil
  have hquery : QueryText [(ascii "x", ascii "& ="), (ascii "+", [])] (ascii "x=%26+%3D&%2b=") :=
    .cons hx hvalue (.last hplus .nil)
  obtain ⟨hp, hq⟩ := target_round_trip .plain _ _ (ascii "GET") (ascii "/a b?")
    (ascii "/a%20b%3f?x=%26+%3D&%2b=") (ascii "Host: x\r\n\r\n")
    _ (by decide) (by decide) (by decide) (.query hpath hquery) (by decide +kernel) hacc
  exact ⟨_, hacc, hp, hq⟩

end Resh.RoundTrip
