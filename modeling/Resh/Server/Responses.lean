import Resh.Server.Response

namespace Resh.Server

open Resh.Go

/-!
# The responses of a connection

A client splits the output of a keep-alive connection into messages.  Every emitter but `Redirect`
announces where its body ends; the body of a redirect, which is meant to be empty, goes on to the
end of the connection.

* `Canonical` — a header name in canonical form is the only one with its lower-case form, so the
  names that `resp0` skips cover every spelling;
* `message_encode`, `message_redirect` — what the client makes of one response;
* `responses_split_iff` — the client gets the responses back iff no redirect is followed by another
  response;
* `redirect_swallows` — a redirect and a text.
-/

/-! ### Header names -/

/-- `validHeaderFieldByte`. -/
def isToken (c : UInt8) : Bool :=
  (ch 'a' ≤ c && c ≤ ch 'z') || (ch 'A' ≤ c && c ≤ ch 'Z') || (ch '0' ≤ c && c ≤ ch '9') ||
    (ascii "!#$%&'*+-.^_|~").contains c || c == 96

/-- One byte of `http.CanonicalHeaderKey`. -/
def canonicalByte (upper : Bool) (c : UInt8) : UInt8 :=
  if upper && ch 'a' ≤ c && c ≤ ch 'z' then c - 32
  else if !upper && ch 'A' ≤ c && c ≤ ch 'Z' then c + 32
  else c

/-- The loop of `http.CanonicalHeaderKey`: upper case at the front and behind a hyphen. -/
def canonicalKey : Bool → Bytes → Bytes
  | _, [] => []
  | upper, c :: s => canonicalByte upper c :: canonicalKey (canonicalByte upper c == ch '-') s

/-- A header name in canonical form. -/
structure Canonical (k : Bytes) : Prop where
  token : ∀ c ∈ k, isToken c = true
  form : canonicalKey true k = k

/-- **The cases of a byte**: what `http.CanonicalHeaderKey` makes of it depends on its lower case
    only, and both are a token as the byte is. -/
theorem canonicalByte_cases (c : UInt8) : ∀ upper : Bool,
    canonicalByte upper (lower c) = canonicalByte upper c ∧
    lower (canonicalByte upper c) = lower c ∧
      isToken (canonicalByte upper c) = isToken c ∧ isToken (lower c) = isToken c := by
  revert c
  exact forall_byte (by decide +kernel)

theorem canonicalKey_map_lower (upper : Bool) (s : Bytes) :
    canonicalKey upper (s.map lower) = canonicalKey upper s := by
  induction s generalizing upper with
  | nil => rfl
  | cons c s ih =>
    rw [List.map_cons, canonicalKey, canonicalKey, (canonicalByte_cases c upper).1, ih]

/-- **One canonical name per spelling.** -/
theorem Canonical.eq_of_lower {k k' : Bytes} (h : Canonical k)
    (hlower : k.map lower = k'.map lower) : k = canonicalKey true k' := by
  rw [← canonicalKey_map_lower, ← hlower, canonicalKey_map_lower, h.form]

theorem Canonical.not_mem {k : Bytes} (h : Canonical k) {c : UInt8} (hc : isToken c = false) :
    c ∉ k := by
  intro hmem
  rw [h.token c hmem] at hc
  cases hc

/-! ### One response -/

namespace Response

open HttpWriter

/-- The status code. -/
def status : Response → ℤ
  | redirect code _ => code
  | text code _ => HttpWriter.status code
  | bytes code _ _ => HttpWriter.status code
  | bytesHeaders code _ _ _ => HttpWriter.status code
  | chunked code _ _ _ => HttpWriter.status code

/-- The body; a redirect has none. -/
def body : Response → Bytes
  | redirect _ _ => []
  | text _ msg => msg
  | bytes _ _ data => data
  | bytesHeaders _ _ _ data => data
  | chunked _ _ _ writes => writes.flatten

/-- The texts that are written into the head as they are. -/
def texts : Response → List Bytes
  | redirect _ location => [location]
  | text _ _ => []
  | bytes _ contentType _ => [contentType]
  | bytesHeaders _ contentType hdr _ => contentType :: hdr.flatMap Prod.snd
  | chunked _ contentType hdr _ => contentType :: hdr.flatMap Prod.snd

/-- The response as a message. -/
def message (r : Response) : Http1.Message := ⟨r.status, r.body⟩

def isRedirect : Response → Bool
  | redirect _ _ => true
  | _ => false

/-- **The responses in question**: the status code allows a body, the texts in the head have no line
    ends, and the header names are canonical, each with at least one value. -/
structure Valid (r : Response) : Prop where
  int : InInt64 r.status
  body : Http1.bodyless r.status = false
  texts : ∀ s ∈ r.texts, (13 : UInt8) ∉ s ∧ (10 : UInt8) ∉ s
  names : ∀ kv ∈ r.hdr, Canonical kv.1
  values : ∀ kv ∈ r.hdr, kv.2 ≠ []

theorem cr_not_mem_statusText (code : ℤ) : (13 : UInt8) ∉ statusText code := by
  have hall : ∀ p ∈ statusTexts, (13 : UInt8) ∉ ascii p.2 := by decide +kernel
  rw [statusText]
  cases hlookup : statusTexts.lookup code with
  | none => decide
  | some s =>
    obtain ⟨l₁, l₂, hsplit, -⟩ := List.lookup_eq_some_iff.mp hlookup
    exact hall (code, s) (hsplit ▸ by simp)

/-- The header that `resp0` writes can be read back, and does not say where the body ends. -/
theorem fields_clean {contentType : Bytes} {hdr : List (Bytes × List Bytes)}
    (hct : (13 : UInt8) ∉ contentType) (hnames : ∀ kv ∈ hdr, Canonical kv.1)
    (hvalues : ∀ kv ∈ hdr, ∀ v ∈ kv.2, (13 : UInt8) ∉ v) :
    ∀ f ∈ fields contentType hdr, Http1.Clean f ∧ f.1.map lower ≠ ascii "transfer-encoding" := by
  intro f hf
  rw [fields, List.cons_append, List.mem_cons, List.mem_append, List.mem_singleton] at hf
  rcases hf with rfl | hf | rfl
  · refine ⟨⟨show ch ':' ∉ ascii "Content-Type" by decide,
      show (13 : UInt8) ∉ ascii "Content-Type" by decide, ?_⟩,
      show (ascii "Content-Type").map lower ≠ ascii "transfer-encoding" by decide⟩
    simp only
    split
    · decide
    · exact hct
  · obtain ⟨kv, hkv, rfl⟩ := List.mem_map.mp hf
    obtain ⟨hmem, hres⟩ := List.mem_filter.mp hkv
    have hcanon := hnames kv hmem
    refine ⟨⟨hcanon.not_mem (by decide), hcanon.not_mem (by decide), ?_⟩, fun heq => ?_⟩
    · cases hv : kv.2 with
      | nil => simp
      | cons v vs => exact hvalues kv hmem v (by simp [hv])
    · have hk : kv.1 = canonicalKey true (ascii "Transfer-Encoding") :=
        hcanon.eq_of_lower (heq.trans (by decide))
      rw [hk] at hres
      exact absurd hres (by decide)
  · exact ⟨⟨by decide, by decide, by decide⟩, by decide⟩

variable {r : Response}

/-- The response of `respFull`. -/
theorem message_full {code : ℤ} {contentType : Bytes} {hdr : List (Bytes × List Bytes)}
    (hstatus : InInt64 (HttpWriter.status code))
    (hbody : Http1.bodyless (HttpWriter.status code) = false)
    (hct : (13 : UInt8) ∉ contentType) (hnames : ∀ kv ∈ hdr, Canonical kv.1)
    (hvalues : ∀ kv ∈ hdr, ∀ v ∈ kv.2, (13 : UInt8) ∉ v) (data rest : Bytes) :
    Http1.message (Http1.encodeHead (HttpWriter.status code) (statusText (HttpWriter.status code))
        (fields contentType hdr ++ [(ascii "Content-Length", formatUint 10 data.length)])
          ++ data ++ rest) = some (⟨HttpWriter.status code, data⟩, rest) := by
  have hclean := fields_clean hct hnames hvalues
  rw [List.append_assoc]
  exact Http1.message_length hstatus hbody (cr_not_mem_statusText _) (fun f hf => (hclean f hf).1)
    (fun f hf => (hclean f hf).2) data rest

/-- The response of `StartChunked` to `FinishChunked`. -/
theorem message_chunks {code : ℤ} {contentType : Bytes} {hdr : List (Bytes × List Bytes)}
    (hstatus : InInt64 (HttpWriter.status code))
    (hbody : Http1.bodyless (HttpWriter.status code) = false)
    (hct : (13 : UInt8) ∉ contentType) (hnames : ∀ kv ∈ hdr, Canonical kv.1)
    (hvalues : ∀ kv ∈ hdr, ∀ v ∈ kv.2, (13 : UInt8) ∉ v) (writes : List Bytes) (rest : Bytes) :
    Http1.message (Http1.encodeHead (HttpWriter.status code) (statusText (HttpWriter.status code))
        (fields contentType hdr ++ [(ascii "Transfer-Encoding", ascii "chunked")])
          ++ Http1.encodeChunks (pieces [] writes) ++ rest)
      = some (⟨HttpWriter.status code, writes.flatten⟩, rest) := by
  have hclean := fields_clean hct hnames hvalues
  rw [List.append_assoc, Http1.message_chunked hstatus hbody (cr_not_mem_statusText _)
    (fun f hf => (hclean f hf).1) (pieces_ne_nil [] writes), pieces_flatten, List.nil_append]

/-- **A response that is no redirect** is read back with anything behind it. -/
theorem message_encode (h : r.Valid) (hr : r.isRedirect = false) (rest : Bytes) :
    Http1.message (r.encode ++ rest) = some (r.message, rest) := by
  cases r with
  | redirect code location => cases hr
  | text code msg => exact message_full h.int h.body (by simp) (by simp) (by simp) msg rest
  | bytes code contentType data =>
    exact message_full h.int h.body (h.texts _ (by simp [texts])).1 (by simp) (by simp) data rest
  | bytesHeaders code contentType hdr data =>
    refine message_full h.int h.body (h.texts _ (by simp [texts])).1
      h.names (fun kv hkv v hv => ?_) data rest
    exact (h.texts v (List.mem_cons_of_mem _ (List.mem_flatMap.mpr ⟨kv, hkv, hv⟩))).1
  | chunked code contentType hdr writes =>
    refine message_chunks h.int h.body (h.texts _ (by simp [texts])).1
      h.names (fun kv hkv v hv => ?_) writes rest
    exact (h.texts v (List.mem_cons_of_mem _ (List.mem_flatMap.mpr ⟨kv, hkv, hv⟩))).1

/-- **A redirect** takes everything behind it for its body. -/
theorem message_redirect (h : r.Valid) (hr : r.isRedirect = true) (rest : Bytes) :
    Http1.message (r.encode ++ rest) = some (⟨r.status, rest⟩, []) := by
  cases r with
  | redirect code location =>
    have hclean : ∀ f ∈ [(ascii "Location", location)], Http1.Clean f := by
      intro f hf
      rw [List.mem_singleton.mp hf]
      exact ⟨show ch ':' ∉ ascii "Location" by decide, show (13 : UInt8)
        ∉ ascii "Location" by decide, (h.texts location (by simp [texts])).1⟩
    refine Http1.message_close h.int h.body (cr_not_mem_statusText code) hclean ?_ ?_ rest
    · intro f hf
      rw [List.mem_singleton.mp hf]
      exact show (ascii "Location").map lower ≠ ascii "transfer-encoding" by decide
    · intro f hf
      rw [List.mem_singleton.mp hf]
      exact show (ascii "Location").map lower ≠ ascii "content-length" by decide
  | _ => cases hr

theorem encode_ne_nil (r : Response) : r.encode ≠ [] := by
  cases r <;> simp [encode, Http1.encodeHead, crlf]

end Response

/-! ### All responses -/

open Response in
/-- What the client makes of a sequence of responses. -/
theorem splitN_encode_iff {rs : List Response} (hrs : ∀ r ∈ rs, r.Valid) {n : ℕ}
    (hn : (rs.flatMap encode).length ≤ n) :
    Http1.splitN n (rs.flatMap encode) = some (rs.map Response.message) ↔
      ∀ r ∈ rs.dropLast, r.isRedirect = false := by
  induction rs generalizing n with
  | nil => simp [Http1.splitN_nil]
  | cons r rs ih =>
    have hlen := List.length_pos_iff.mpr r.encode_ne_nil
    rw [List.flatMap_cons, List.length_append] at hn
    obtain ⟨n, rfl⟩ : ∃ k, n = k + 1 := ⟨n - 1, by omega⟩
    have hr := hrs r List.mem_cons_self
    have ih := ih (fun r' h' => hrs r' (List.mem_cons_of_mem r h')) (n := n) (by omega)
    rw [List.flatMap_cons, List.map_cons]
    cases hred : r.isRedirect with
    | false =>
      rw [Http1.splitN_message r.encode_ne_nil (message_encode hr hred _)]
      have hcons : ∀ o : Option (List Http1.Message),
          o.map (r.message :: ·) = some (r.message :: rs.map Response.message) ↔
            o = some (rs.map Response.message) := by
        intro o
        cases o with
        | none => simp
        | some ms => simp
      rw [hcons, ih]
      cases rs with
      | nil => simp
      | cons r' rs => simp [hred]
    | true =>
      rw [Http1.splitN_message r.encode_ne_nil (message_redirect hr hred _), Http1.splitN_nil]
      cases rs with
      | nil =>
        have hbody : r.body = [] := by
          cases r with
          | redirect code location => rfl
          | _ => cases hred
        simp [Response.message, hbody]
      | cons r' rs =>
        -- the message that swallows the others is the only one
        simp [hred]

/-- The responses are written one behind the other. -/
theorem emitAll_eq {rs : List Response} (hvalues : ∀ r ∈ rs, ∀ kv ∈ r.hdr,
    kv.2 ≠ []) {w : HttpWriter}
    (h : w.Ready) (hchunked : w.chunked = false) (hbuf : w.chkbuf = []) :
    ∃ w', rs.foldlM Response.emit w = .ok w' ∧ w.Added w' (rs.flatMap Response.encode) := by
  induction rs generalizing w with
  | nil => exact ⟨w, rfl, w.triggers, by simp⟩
  | cons r rs ih =>
    obtain ⟨w₁, hw₁, triggers₁, rfl⟩ := Response.emit_eq h hchunked
      hbuf (hvalues r List.mem_cons_self)
    obtain ⟨w', hw', triggers, heq⟩ := ih (fun r' h' => hvalues r' (List.mem_cons_of_mem r h'))
      (w := { w.add r.encode with triggers := triggers₁ }) ⟨h.alive, h.unlocked⟩ hchunked hbuf
    refine ⟨w', ?_, triggers, ?_⟩
    · rw [List.foldlM_cons, hw₁]
      exact hw'
    · rw [heq]
      simp [HttpWriter.add]

/-- **Self-delimiting responses.**  The responses that are written to an open connection are
    recovered by the framing rules iff no redirect is followed by another response. -/
theorem responses_split_iff (c : Conn) (halive : c.closed = false) (hlock : c.lock = false)
    (rs : List Response) (hrs : ∀ r ∈ rs, r.Valid) :
    ∃ w b, rs.foldlM Response.emit { conn := c } = .ok w ∧ w.conn.out = c.out ++ b ∧
      (Http1.split b = some (rs.map Response.message) ↔
        ∀ r ∈ rs.dropLast, r.isRedirect = false) := by
  obtain ⟨w, hw, triggers, rfl⟩ := emitAll_eq (fun r hr => (hrs r hr).values) (w := { conn := c })
    ⟨halive, hlock⟩ rfl rfl
  exact ⟨_, rs.flatMap Response.encode, hw, rfl, splitN_encode_iff hrs le_rfl⟩

/-- A text, a chunked response with a header and small writes, and a redirect at the end. -/
theorem responses_split_iff_mixed :
    ∃ w b, List.foldlM Response.emit { conn := {} }
        [.text 0 (ascii "hello"),
          .chunked 404 (ascii "text/html") [(ascii "X-Id", [ascii "7"])]
          [ascii "<p>", ascii "none</p>"], .redirect 302 (ascii "/x")] = .ok w ∧ w.conn.out = b ∧
      Http1.split b = some [⟨200, ascii "hello"⟩, ⟨404, ascii "<p>none</p>"⟩, ⟨302, []⟩] := by
  obtain ⟨w, b, hw, hout, hiff⟩ := responses_split_iff {} rfl rfl
    [.text 0 (ascii "hello"),
      .chunked 404 (ascii "text/html") [(ascii "X-Id", [ascii "7"])]
      [ascii "<p>", ascii "none</p>"], .redirect 302 (ascii "/x")] (by
        intro r hr
        simp only [List.mem_cons, List.not_mem_nil, or_false] at hr
        rcases hr with rfl | rfl | rfl
        · exact ⟨by decide +kernel, by decide +kernel, by decide +kernel, by simp [Response.hdr],
            by decide +kernel⟩
        · refine ⟨by decide +kernel, by decide +kernel, by decide +kernel, fun kv hkv => ?_,
            by decide +kernel⟩
          rw [Response.hdr, List.mem_singleton] at hkv
          rw [hkv]
          exact ⟨by decide +kernel, by decide +kernel⟩
        · exact ⟨by decide +kernel, by decide +kernel, by decide +kernel, by simp [Response.hdr],
            by decide +kernel⟩)
  exact ⟨w, b, hw, hout, hiff.mpr (by decide +kernel)⟩

/-- **A redirect and a text.**  The client gets one message, with the whole text response for the
    body of the redirect. -/
theorem redirect_swallows :
    ∃ w, List.foldlM Response.emit { conn := {} }
        [.redirect 302 (ascii "/x"), .text 200 (ascii "hi")] = .ok w ∧
      Http1.split w.conn.out
        = some [⟨302,
          ascii "HTTP/1.1 200 OK\r\nContent-Type: text/plain; charset=utf-8\r\nConnection: Keep-Alive\r\nContent-Length: 2\r\n\r\nhi"⟩] ∧
      Http1.split w.conn.out ≠ some [⟨302, []⟩, ⟨200, ascii "hi"⟩] := by
  refine ⟨_, rfl, ?_, ?_⟩
  · decide +kernel
  · decide +kernel

end Resh.Server
