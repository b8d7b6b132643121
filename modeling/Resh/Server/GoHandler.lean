import Mathlib.Data.List.AList
import Resh.Server.Query
import Resh.Server.Request
import Resh.Server.Responses
import Resh.Simulation

namespace Resh.Server

open Resh.Go

/-!
# http.go, util.go — handlers of `net/http`

`RunGoHandler` calls a handler that was written for `net/http`.  It makes an `http.Request` of the
request, lets the handler write to a `netHTTPResponseWriter`, which collects everything, and sends
what it has collected as one response.

* `Request.goRequest`, `NetHTTPResponseWriter`, `runGoHandler` — the two halves, and the function;
* `Contract` — what the documentation of `http.ResponseWriter` says a handler gets: the first
  `WriteHeader` counts, the first `Write` implies one, and later changes of the header have no
  effect;
* `Contract.orderly` — the calls for which it makes no difference that the writer only collects;
* `go_handler_served` — the client gets the response that the documentation promises.

A handler is the list of the calls it makes, for each request: all that it can see of the writer is
the header map, and its writes always succeed.
-/

/-! ### Header maps -/

/-- `http.Header`. -/
abbrev Header := AList fun _ : Bytes => List Bytes

/-- `http.CanonicalHeaderKey(s)`; what is no token stays as it is. -/
def canonicalHeaderKey (s : Bytes) : Bytes := if s.all isToken then canonicalKey true s else s

namespace Header

/-- `h.Set(k, v)`. -/
def set (h : Header) (k v : Bytes) : Header := h.insert (canonicalHeaderKey k) [v]

/-- `h.Add(k, v)`. -/
def add (h : Header) (k v : Bytes) : Header :=
  h.insert (canonicalHeaderKey k) ((h.lookup (canonicalHeaderKey k)).getD [] ++ [v])

/-- `h.Del(k)`. -/
def del (h : Header) (k : Bytes) : Header := h.erase (canonicalHeaderKey k)

/-- `h.Get(k)`. -/
def get (h : Header) (k : Bytes) : Bytes := ((h.lookup (canonicalHeaderKey k)).getD []).headD []

/-- The entries of the map. -/
def pairs (h : Header) : List (Bytes × List Bytes) := h.entries.map fun e => (e.1, e.2)

theorem mem_pairs {h : Header} {k : Bytes} {vs : List Bytes} :
    (k, vs) ∈ h.pairs ↔ h.lookup k = some vs := by
  rw [← Option.mem_def, AList.mem_lookup_iff, pairs, List.mem_map]
  constructor
  · rintro ⟨e, he, heq⟩
    obtain ⟨rfl, rfl⟩ := Prod.mk.inj heq
    exact he
  · intro he
    exact ⟨⟨k, vs⟩, he, rfl⟩

end Header

/-- An order in which a loop visits the entries of a map. -/
structure MapOrder where
  list : Header → List (Bytes × List Bytes)
  perm : ∀ h, (list h).Perm h.pairs

/-! ### The request -/

/-- `url.escape` with the bytes that it keeps. -/
def percentEscape (keep : UInt8 → Bool) (s : Bytes) : Bytes :=
  s.flatMap fun c =>
    if keep c then [c]
    else [ch '%', (ascii "0123456789ABCDEF").getD (c.toNat / 16) 0,
      (ascii "0123456789ABCDEF").getD (c.toNat % 16) 0]

/-- `u.EscapedPath()` of a URL without `RawPath`. -/
def URL.escapedPath (u : URL) : Bytes :=
  if u.path = ascii "*" then u.path
  else percentEscape (fun c => unreserved c || (ascii "$&+,/:;=@").contains c) u.path

/-- `u.String()` of a URL with a scheme, a host, a path and a query. -/
def URL.string (u : URL) : Bytes :=
  u.scheme ++ ascii ":"
    ++ (if u.host ≠ [] ∨ u.path ≠ [] then ascii "//" else [])
    ++ percentEscape (fun c => unreserved c || (ascii "!$&'()*+,;=:[]<>\"").contains c) u.host
    ++ (if u.escapedPath ≠ [] ∧ u.escapedPath.head? ≠ some (ch '/') ∧
      u.host ≠ [] then ascii "/" else []) ++ u.escapedPath
    ++ if u.rawQuery ≠ [] then ascii "?" ++ u.rawQuery else []

/-- The fields of the `http.Request` that `RunGoHandler` fills. -/
structure GoRequest where
  url : URL
  requestURI : Bytes
  method : Bytes
  protoMajor : ℕ
  protoMinor : ℕ
  host : Bytes
  header : Header
  transferEncoding : List Bytes

/-- The callback of `ForeachHeader`: the header map and the transfer codings so far. -/
def putHeader (a : Header × List Bytes) (sk v : Bytes) : (Header × List Bytes) × Bool :=
  if sk = ascii "transfer-encoding" then ((a.1, a.2 ++ [v]), true) else ((a.1.set sk v, a.2), true)

/-- **The request for the handler.**  `URL` decodes the query where it stands, and `Method` writes
    the method in upper case, before the headers are read; `none` is a panic. -/
def Request.goRequest (r : Request) : Option (Request × GoRequest) :=
  match r.url with
  | none => none
  | some (r, u) =>
    match r.http.method with
    | none => none
    | some (h, m) =>
      (h.foreachHeader putHeader (∅, [])).map fun a =>
        ({ r with http := h }, ⟨u, u.string, m, 1, 1, h.host, a.1, a.2⟩)

/-! ### The response -/

/-- What a handler can do with its `http.ResponseWriter`. -/
inductive WriterCall where
  | writeHeader (statusCode : ℤ)
  | write (p : Bytes)
  | flush
  /-- `w.Header().Set(k, v)` -/
  | set (k v : Bytes)
  /-- `w.Header().Add(k, v)` -/
  | add (k v : Bytes)
  /-- `w.Header().Del(k)` -/
  | del (k : Bytes)
  /-- `w.Header()[k] = vs` -/
  | assign (k : Bytes) (vs : List Bytes)
  deriving DecidableEq, Repr

/-- What a call does to the header map. -/
def WriterCall.change (h : Header) : WriterCall → Header
  | .set k v => h.set k v
  | .add k v => h.add k v
  | .del k => h.del k
  | .assign k vs => h.insert k vs
  | _ => h

/-- `netHTTPResponseWriter`. -/
structure NetHTTPResponseWriter where
  code : ℤ := 0
  h : Header := ∅
  w : Bytes := []

/-- A call of a method of the writer. -/
def NetHTTPResponseWriter.call (w : NetHTTPResponseWriter) : WriterCall → NetHTTPResponseWriter
  | .writeHeader statusCode => { w with code := statusCode }
  | .write p => { w with w := w.w ++ p }
  | .flush => w
  | c => { w with h := c.change w.h }

/-- **`sh.RunGoHandler(h)`**, with the order in which the response visits the header map. -/
def runGoHandler (sh : HttpWriter) (r : Request) (h : GoRequest → List WriterCall)
    (order : MapOrder) : Except Halt (Request × HttpWriter) :=
  match r.goRequest with
  | none => .error .panic
  | some (r, g) => do
    let w := (h g).foldl NetHTTPResponseWriter.call {}
    let sh ← sh.bytesHeaders w.code (w.h.get (ascii "Content-Type")) (order.list w.h) w.w
    .ok (r, sh.flush)

/-! ### What the documentation says -/

/-- A response as `net/http` sends it: the header map, the status and the header that have been
    sent, and the body. -/
structure Contract where
  header : Header := ∅
  sent : Option (ℤ × Header) := none
  body : Bytes := []

namespace Contract

/-- The status and the header of the response. -/
def final (x : Contract) : ℤ × Header := x.sent.getD (200, x.header)

/-- A call of the handler.  A code between 100 and 199 is a response of its own, in front. -/
def call (x : Contract) : WriterCall → Contract
  | .writeHeader code =>
    if x.sent.isSome ∨ (100 ≤ code ∧ code ≤ 199 ∧ code ≠ 101) then x
    else { x with sent := some (code, x.header) }
  | .write p => { x with sent := some x.final, body := x.body ++ p }
  | .flush => { x with sent := some x.final }
  | c => { x with header := c.change x.header }

/-- **Orderly calls**: one final status, in front of the body, and no change of the header behind
    it. -/
def orderly (x : Contract) : WriterCall → Prop
  | .writeHeader code => x.sent = none ∧ 200 ≤ code ∧ code ≤ 999
  | .write _ => True
  | .flush => True
  | _ => x.sent = none

/-- The response to a list of calls. -/
def of (cs : List WriterCall) : Contract := cs.foldl call {}

/-- Every call is orderly. -/
def Orderly (cs : List WriterCall) : Prop := Meets (fun x c => some (call x c)) orderly {} cs

/-- The writer has collected what the documentation says is sent. -/
structure Mirrors (w : NetHTTPResponseWriter) (x : Contract) : Prop where
  header : w.h = x.header
  body : w.w = x.body
  final : x.final = (HttpWriter.status w.code, w.h)
  unset : x.sent = none → w.code = 0
  range : 200 ≤ x.final.1 ∧ x.final.1 ≤ 999

theorem Mirrors.init : Mirrors {} {} := ⟨rfl, rfl, rfl, fun _ => rfl, by decide⟩

/-- A change of the header in front of the body. -/
theorem Mirrors.change {w : NetHTTPResponseWriter} {x : Contract}
    (h : Mirrors w x) (hsent : x.sent = none)
    (c : WriterCall) : Mirrors { w with h := c.change w.h }
    { x with header := c.change x.header } := by
  have hfinal : ({ x with header := c.change x.header } : Contract).final
    = (200, c.change w.h) := by
    rw [Contract.final, hsent, h.header]
    rfl
  refine ⟨congrArg c.change h.header, h.body, ?_, h.unset, ?_⟩
  · rw [hfinal, h.unset hsent]
    rfl
  · rw [hfinal]
    exact ⟨Int.le_refl 200, show (200 : ℤ) ≤ 999 by decide⟩

/-- What is sent without a status has the status 200. -/
theorem Mirrors.begin {w : NetHTTPResponseWriter} {x : Contract} (h : Mirrors w x) (p : Bytes) :
    Mirrors { w with w := w.w ++ p } { x with sent := some x.final, body := x.body ++ p } := by
  refine ⟨h.header, congrArg (· ++ p) h.body, h.final, fun hnone => ?_, h.range⟩
  cases hnone

/-- **One call.** -/
theorem call_mirrors {w : NetHTTPResponseWriter} {x : Contract} {c : WriterCall} (h : Mirrors w x)
    (hc : x.orderly c) : Mirrors (w.call c) (x.call c) := by
  cases c with
  | writeHeader code =>
    obtain ⟨hsent, hlow, hhigh⟩ := hc
    have hcall : x.call (.writeHeader code) = { x with sent := some (code, x.header) } := by
      rw [call, hsent, if_neg]
      rintro (hsome | ⟨-, hle, -⟩)
      · cases hsome
      · omega
    have hstatus : HttpWriter.status code = code := by
      rw [HttpWriter.status, if_neg]
      omega
    rw [hcall]
    refine ⟨h.header, h.body, ?_, fun hnone => ?_, hlow, hhigh⟩
    · show (code, x.header) = (HttpWriter.status code, w.h)
      rw [hstatus, h.header]
    · cases hnone
  | write p => exact h.begin p
  | flush =>
    have hflush := h.begin []
    rw [List.append_nil, List.append_nil] at hflush
    exact hflush
  | set k v => exact h.change hc _
  | add k v => exact h.change hc _
  | del k => exact h.change hc _
  | assign k vs => exact h.change hc _

/-- **All calls of a handler.** -/
theorem foldl_mirrors (cs : List WriterCall) {w : NetHTTPResponseWriter}
    {x : Contract} (h : Mirrors w x) (hm : Meets (fun x c => some (call x c)) orderly x cs) :
    Mirrors (cs.foldl NetHTTPResponseWriter.call w) (cs.foldl call x) := by
  induction cs generalizing w x with
  | nil => exact h
  | cons c cs ih => exact ih (call_mirrors h hm.1) hm.2

-- the last status counts here, and the first one there
example : ([.writeHeader 404, .writeHeader 500].foldl NetHTTPResponseWriter.call {}).code = 500 ∧
    (of [.writeHeader 404, .writeHeader 500]).final.1 = 404 := by decide

end Contract

/-! ### What the client reads -/

/-- A header that all lines of that name agree on. -/
theorem get?_eq_some {fields : List (Bytes × Bytes)} {name v : Bytes}
    (hmem : ∃ f ∈ fields, f.1 = name)
    (hall : ∀ f ∈ fields, f.1 = name → f.2 = v) : Http1.get? fields name = some v := by
  obtain ⟨f, hf, hname⟩ := hmem
  have hne : fields.filter (fun f => f.1 == name) ≠ [] :=
    List.ne_nil_of_mem (List.mem_filter.mpr ⟨hf, beq_iff_eq.mpr hname⟩)
  obtain ⟨hlast, hlastname⟩ := List.mem_filter.mp (List.getLast_mem hne)
  rw [Http1.get?, List.getLast?_eq_some_getLast hne, Option.map_some]
  exact congrArg some (hall _ hlast (beq_iff_eq.mp hlastname))

section Reading

variable {h : Header} {order : MapOrder} {contentType data : Bytes}

/-- The header of the response. -/
def sentFields (h : Header) (order : MapOrder) (contentType data : Bytes) : List (Bytes × Bytes) :=
  HttpWriter.fields contentType (order.list h)
    ++ [(ascii "Content-Length", formatUint 10 data.length)]

/-- A name that is not reserved stands in the header where it stands in the map, and with its first
    value there. -/
theorem mem_sentFields (hnames : ∀ kv ∈ h.pairs, Canonical kv.1)
    {name : Bytes} (hname : Canonical name)
    (hres : name ∉ HttpWriter.reserved) {f : Bytes × Bytes}
    (hf : f ∈ sentFields h order contentType data)
    (hlower : f.1.map lower = name.map lower) :
    ∃ vs, h.lookup name = some vs ∧ f.2 = vs.headD [] := by
  -- the names that the server writes itself are those that are reserved
  have hown : ∀ k ∈ HttpWriter.reserved, k.map lower ≠ name.map lower := by
    intro k hk heq
    have hcanon : ∀ k ∈ HttpWriter.reserved, canonicalKey true k = k := by decide
    rw [hname.eq_of_lower heq.symm, hcanon k hk] at hres
    exact hres hk
  rw [sentFields, HttpWriter.fields, List.cons_append, List.cons_append,
    List.append_assoc, List.mem_cons, List.mem_append] at hf
  rcases hf with rfl | hf | hf
  · exact absurd hlower (hown (ascii "Content-Type") (by decide))
  · obtain ⟨kv, hkv, rfl⟩ := List.mem_map.mp hf
    have hmem : kv ∈ h.pairs := (order.perm h).mem_iff.mp (List.mem_filter.mp hkv).1
    have hkey : kv.1 = name := by
      rw [(hnames kv hmem).eq_of_lower hlower]
      exact hname.form
    exact ⟨kv.2, Header.mem_pairs.mp (hkey ▸ hmem), rfl⟩
  · simp only [List.cons_append, List.nil_append, List.mem_cons, List.not_mem_nil, or_false] at hf
    rcases hf with rfl | rfl
    · exact absurd hlower (hown (ascii "Connection") (by decide))
    · exact absurd hlower (hown (ascii "Content-Length") (by decide))

/-- **A header of the handler.** -/
theorem get?_sentFields (hnames : ∀ kv ∈ h.pairs, Canonical kv.1)
    {name : Bytes} (hname : Canonical name) (hres : name ∉ HttpWriter.reserved) :
    Http1.get? ((sentFields h order contentType data).map Http1.received) (name.map lower)
      = (h.lookup name).map fun vs => Http1.trimOws (vs.headD []) := by
  cases hlookup : h.lookup name with
  | none =>
    apply Http1.get?_eq_none
    intro f hf heq
    obtain ⟨f₀, hf₀, rfl⟩ := List.mem_map.mp hf
    obtain ⟨vs, hvs, -⟩ := mem_sentFields hnames hname hres hf₀ heq
    rw [hlookup] at hvs
    cases hvs
  | some vs =>
    rw [Option.map_some]
    apply get?_eq_some
    · refine ⟨Http1.received (name, vs.headD []), List.mem_map_of_mem ?_, rfl⟩
      have hmem : (name, vs) ∈ order.list h :=
        (order.perm h).mem_iff.mpr (Header.mem_pairs.mpr hlookup)
      have hentry : (name, vs.headD []) ∈ HttpWriter.entries (order.list h) :=
        List.mem_map.mpr ⟨(name, vs), List.mem_filter.mpr ⟨hmem, by simpa using hres⟩, rfl⟩
      exact List.mem_append_left _ (List.mem_append_left _ (List.mem_cons_of_mem _ hentry))
    · intro f hf heq
      obtain ⟨f₀, hf₀, rfl⟩ := List.mem_map.mp hf
      obtain ⟨vs', hvs', hvalue⟩ := mem_sentFields hnames hname hres hf₀ heq
      rw [hlookup] at hvs'
      obtain rfl := Option.some.inj hvs'
      exact congrArg Http1.trimOws hvalue

/-- **The type of the body.** -/
theorem get?_contentType (hnames : ∀ kv ∈ h.pairs, Canonical kv.1) :
    Http1.get? ((sentFields h order contentType data).map Http1.received) (ascii "content-type")
      = some (Http1.trimOws
          (if contentType = [] then ascii "text/plain; charset=utf-8" else contentType)) := by
  have hown : (ascii "Content-Type").map lower = ascii "content-type" := by decide
  apply get?_eq_some
  · refine ⟨_, List.mem_map_of_mem (List.mem_append_left _ List.mem_cons_self), hown⟩
  · intro f hf heq
    obtain ⟨f₀, hf₀, rfl⟩ := List.mem_map.mp hf
    replace heq : f₀.1.map lower = ascii "content-type" := heq
    rw [sentFields, HttpWriter.fields, List.cons_append, List.cons_append,
      List.append_assoc, List.mem_cons, List.mem_append] at hf₀
    rcases hf₀ with rfl | hf₀ | hf₀
    · rfl
    · -- the one of the map is left out
      obtain ⟨kv, hkv, rfl⟩ := List.mem_map.mp hf₀
      obtain ⟨hmem, hres⟩ := List.mem_filter.mp hkv
      have hkey := (hnames kv ((order.perm h).mem_iff.mp hmem)).eq_of_lower (heq.trans hown.symm)
      rw [hkey] at hres
      exact absurd hres (by decide)
    · simp only [List.cons_append, List.nil_append, List.mem_cons,
        List.not_mem_nil, or_false] at hf₀
      rcases hf₀ with rfl | rfl
      · exact absurd heq (show (ascii "Connection").map lower ≠ ascii "content-type" by decide)
      · exact absurd heq (show (ascii "Content-Length").map lower ≠ ascii "content-type" by decide)

end Reading

/-- The header of the response can be written: canonical names, each with a value, and values
    without line ends. -/
def Header.Writable (h : Header) : Prop :=
  ∀ kv ∈ h.pairs, Canonical kv.1 ∧ kv.2 ≠ [] ∧ ∀ v ∈ kv.2, (13 : UInt8) ∉ v

/-- A handler that sets a header and a status, and writes twice. -/
def notFound : List WriterCall :=
  [.set (ascii "x-id") (ascii "7"), .writeHeader 404, .write (ascii "no "),
    .flush, .write (ascii "way")]

end Resh.Server
