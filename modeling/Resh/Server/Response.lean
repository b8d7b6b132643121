import Resh.Http1
import Resh.Server.Calls

namespace Resh.Server

open Resh.Go

/-!
# http.go — responses

The emitters of `HTTP`, each as the appends to `Conn.out` that it makes.  A header map is the list
of its entries in the order in which the loop over it happens to visit them.

* `HttpWriter` — the fields of `HTTP` that the responses use;
* `Response`, `Response.emit` — one response, and the calls that write it;
* `Response.bytes`, `emit_eq` — what it writes.
-/

/-- The texts of `http.StatusText`. -/
def statusTexts : List (ℤ × String) :=
  [(100, "Continue"), (101, "Switching Protocols"), (102, "Processing"), (103, "Early Hints"),
    (200, "OK"), (201, "Created"), (202, "Accepted"), (203, "Non-Authoritative Information"),
    (204, "No Content"), (205, "Reset Content"), (206, "Partial Content"), (207, "Multi-Status"),
    (208, "Already Reported"), (226, "IM Used"), (300, "Multiple Choices"),
    (301, "Moved Permanently"),
    (302, "Found"), (303, "See Other"), (304, "Not Modified"), (305, "Use Proxy"),
    (307, "Temporary Redirect"), (308, "Permanent Redirect"), (400, "Bad Request"),
    (401, "Unauthorized"), (402, "Payment Required"), (403, "Forbidden"), (404, "Not Found"),
    (405, "Method Not Allowed"), (406, "Not Acceptable"), (407, "Proxy Authentication Required"),
    (408, "Request Timeout"), (409, "Conflict"), (410, "Gone"), (411, "Length Required"),
    (412, "Precondition Failed"), (413, "Request Entity Too Large"), (414, "Request URI Too Long"),
    (415, "Unsupported Media Type"), (416, "Requested Range Not Satisfiable"),
    (417, "Expectation Failed"), (418, "I'm a teapot"), (421, "Misdirected Request"),
    (422, "Unprocessable Entity"), (423, "Locked"), (424, "Failed Dependency"), (425, "Too Early"),
    (426, "Upgrade Required"), (428, "Precondition Required"), (429, "Too Many Requests"),
    (431, "Request Header Fields Too Large"), (451, "Unavailable For Legal Reasons"),
    (500, "Internal Server Error"), (501, "Not Implemented"), (502, "Bad Gateway"),
    (503, "Service Unavailable"), (504, "Gateway Timeout"), (505, "HTTP Version Not Supported"),
    (506, "Variant Also Negotiates"), (507, "Insufficient Storage"), (508, "Loop Detected"),
    (510, "Not Extended"), (511, "Network Authentication Required")]

/-- `http.StatusText(code)`. -/
def statusText (code : ℤ) : Bytes := ascii ((statusTexts.lookup code).getD "")

/-- The part of `HTTP` that writes; `triggers` counts the calls of `Trigger`. -/
structure HttpWriter where
  conn : Conn
  chunked : Bool := false
  chkbuf : Bytes := []
  triggers : ℕ := 0

namespace HttpWriter

/-- `r.Conn._writeString(v)`. -/
def writeString (w : HttpWriter) (v : Bytes) : Except Halt HttpWriter := do
  let c ← w.conn.writeString v
  .ok { w with conn := c }

/-- `r.Conn._writeInt(v, b)`. -/
def writeInt (w : HttpWriter) (v : ℤ) (b : ℕ) : Except Halt HttpWriter := do
  let c ← w.conn.writeInt v b
  .ok { w with conn := c }

/-- `r.Flush()`. -/
def flush (w : HttpWriter) : HttpWriter :=
  if w.conn.closed then w else { w with triggers := w.triggers + 1 }

/-- `r.Redirect(code, location)`. -/
def redirect (w : HttpWriter) (code : ℤ) (location : Bytes) : Except Halt HttpWriter := do
  let w ← w.writeString (ascii "HTTP/1.1 ")
  let w ← w.writeInt code 10
  let w ← w.writeString (ascii " ")
  let w ← w.writeString (statusText code)
  let w ← w.writeString (ascii "\r\nLocation: ")
  let w ← w.writeString location
  w.writeString (ascii "\r\n\r\n")

/-- The headers that `resp0` leaves to its callers. -/
def reserved : List Bytes :=
  [ascii "Content-Type", ascii "Connection", ascii "Content-Length", ascii "Transfer-Encoding"]

/-- The body of the loop over the header map. -/
def writeHeader (w : HttpWriter) (kv : Bytes × List Bytes) : Except Halt HttpWriter :=
  if reserved.contains kv.1 then .ok w
  else match kv.2 with
    | [] => .error .panic
    | v :: _ => do
      let w ← w.writeString (ascii "\r\n")
      let w ← w.writeString kv.1
      let w ← w.writeString (ascii ": ")
      w.writeString v

/-- `r.resp0(code, contentType, hdr)`. -/
def resp0 (w : HttpWriter) (code : ℤ) (contentType : Bytes) (hdr : List (Bytes × List Bytes)) :
    Except Halt HttpWriter := do
  let code := if code = 0 then 200 else code
  let w ← w.writeString (ascii "HTTP/1.1 ")
  let w ← w.writeInt code 10
  let w ← w.writeString (ascii " ")
  let w ← w.writeString (statusText code)
  let contentType := if contentType = [] then ascii "text/plain; charset=utf-8" else contentType
  let w ← w.writeString (ascii "\r\nContent-Type: ")
  let w ← w.writeString contentType
  hdr.foldlM writeHeader w

/-- `r.respFull(code, contentType, hdr, data)`. -/
def respFull (w : HttpWriter) (code : ℤ) (contentType : Bytes) (hdr : List (Bytes × List Bytes))
    (data : Bytes) : Except Halt HttpWriter := do
  let w ← w.resp0 code contentType hdr
  let w ← w.writeString (ascii "\r\nConnection: Keep-Alive\r\nContent-Length: ")
  let w ← w.writeInt data.length 10
  let w ← w.writeString (ascii "\r\n\r\n")
  w.writeString data

/-- `r.Text(code, msg)`. -/
def text (w : HttpWriter) (code : ℤ) (msg : Bytes) : Except Halt HttpWriter :=
  w.respFull code [] [] msg

/-- `r.Bytes(code, contentType, data)`. -/
def bytes (w : HttpWriter) (code : ℤ) (contentType data : Bytes) : Except Halt HttpWriter :=
  w.respFull code contentType [] data

/-- `r.BytesHeaders(code, contentType, hdr, data)`. -/
def bytesHeaders (w : HttpWriter) (code : ℤ) (contentType : Bytes) (hdr : List (Bytes × List Bytes))
    (data : Bytes) : Except Halt HttpWriter :=
  w.respFull code contentType hdr data

/-- `r.StartChunked(code, contentType, hdr)`. -/
def startChunked (w : HttpWriter) (code : ℤ) (contentType : Bytes)
    (hdr : List (Bytes × List Bytes)) : Except Halt HttpWriter := do
  let w ← w.resp0 code contentType hdr
  let w ← w.writeString (ascii "\r\nConnection: Keep-Alive\r\nTransfer-Encoding: chunked\r\n\r\n")
  .ok { w with chunked := true }

/-- `w.writeChunked(p)`. -/
def writeChunked (w : HttpWriter) (p : Bytes) : Except Halt HttpWriter := do
  let w ← w.writeInt p.length 16
  let w ← w.writeString (ascii "\r\n")
  let c ← w.conn.write p
  let w ← ({ w with conn := c } : HttpWriter).writeString (ascii "\r\n")
  .ok (if 16 * 1024 ≤ w.conn.out.length then w.flush else w)

/-- `w.Write(p)`. -/
def write (w : HttpWriter) (p : Bytes) : Except Halt HttpWriter :=
  if ¬ w.chunked then .error .panic
  else if p.length = 0 then .ok w
  else if p.length ≤ 4 ∨ w.chkbuf.length > 0 then
    let w := { w with chkbuf := w.chkbuf ++ p }
    if 64 ≤ w.chkbuf.length then do
      let w ← w.writeChunked w.chkbuf
      .ok { w with chkbuf := [] }
    else .ok w
  else w.writeChunked p

/-- `w.FinishChunked()`. -/
def finishChunked (w : HttpWriter) : Except Halt HttpWriter :=
  if ¬ w.chunked then .error .panic
  else do
    let w ← if w.chkbuf.length > 0 then do
        let w ← w.writeChunked w.chkbuf
        .ok { w with chkbuf := [] }
      else .ok w
    let w ← w.writeString (ascii "0\r\n\r\n")
    .ok ({ w with chunked := false } : HttpWriter).flush

end HttpWriter

/-! ### Responses -/

/-- A response, with the arguments of the calls that write it. -/
inductive Response where
  | redirect (code : ℤ) (location : Bytes)
  | text (code : ℤ) (msg : Bytes)
  | bytes (code : ℤ) (contentType data : Bytes)
  | bytesHeaders (code : ℤ) (contentType : Bytes) (hdr : List (Bytes × List Bytes)) (data : Bytes)
  /-- `StartChunked`, `Write` for each of `writes`, `FinishChunked` -/
  | chunked (code : ℤ) (contentType : Bytes) (hdr : List (Bytes × List Bytes)) (writes : List Bytes)
  deriving DecidableEq, Repr

/-- The calls that write the response. -/
def Response.emit (w : HttpWriter) : Response → Except Halt HttpWriter
  | redirect code location => w.redirect code location
  | text code msg => w.text code msg
  | bytes code contentType data => w.bytes code contentType data
  | bytesHeaders code contentType hdr data => w.bytesHeaders code contentType hdr data
  | chunked code contentType hdr writes => do
    let w ← w.startChunked code contentType hdr
    let w ← writes.foldlM HttpWriter.write w
    w.finishChunked

/-! ### What they write -/

namespace HttpWriter

/-- `p` goes behind the output. -/
def add (w : HttpWriter) (p : Bytes) : HttpWriter :=
  { w with conn := { w.conn with out := w.conn.out ++ p } }

/-- The connection is open and nobody holds its lock. -/
structure Ready (w : HttpWriter) : Prop where
  alive : w.conn.closed = false
  unlocked : w.conn.lock = false

variable {w : HttpWriter}

/-- Output leaves the connection open and the lock free, so the next writer finds the same. -/
theorem Ready.add (h : w.Ready) (p : Bytes) : (w.add p).Ready := ⟨h.alive, h.unlocked⟩

/-- Two writers one after the other append what one of them would have appended: the simp normal
    form of a sequence of writes. -/
@[simp] theorem add_add (w : HttpWriter) (p q : Bytes) : (w.add p).add q = w.add (p ++ q) := by
  simp [HttpWriter.add]

/-- Nothing is appended to the output. -/
@[simp] theorem add_nil (w : HttpWriter) : w.add [] = w := by
  simp [HttpWriter.add]

/-- On a connection whose lock is free `writeString` appends the text and returns; a held lock would
    block it. -/
theorem writeString_eq (h : w.Ready) (v : Bytes) : w.writeString v = .ok (w.add v) := by
  rw [writeString, Conn.writeString, Redis.appendOut_eq h.unlocked]
  rfl

/-- On a connection whose lock is free `writeInt` appends the numeral in base `b`. -/
theorem writeInt_eq (h : w.Ready) (v : ℤ) (b : ℕ) :
    w.writeInt v b = .ok (w.add (formatIntBase b v)) := by
  rw [writeInt, Conn.writeInt, Redis.appendOut_eq h.unlocked]
  rfl

/-- In base ten the numeral is `strconv.Itoa`'s: the writers of the status line and of `Redirect`
    call the general one. -/
theorem formatIntBase_ten (v : ℤ) : formatIntBase 10 v = formatInt v := rfl

/-- A length has no sign, so `strconv.AppendInt` and `strconv.AppendUint` give the same numeral. -/
theorem formatIntBase_length (b : ℕ) (p : Bytes) :
    formatIntBase b (p.length : ℤ) = formatUint b p.length := by
  rw [formatIntBase, if_neg (by omega), Int.natAbs_natCast]

/-- On an open connection `Flush` does no more than trigger the event loop once. -/
theorem flush_eq (halive : w.conn.closed = false) :
    w.flush = { w with triggers := w.triggers + 1 } := by
  rw [flush, if_neg (by simp [halive])]

/-- The whole output of `Redirect`: a status line and one header, without a `Content-Length` and
    without a `Content-Type`. -/
theorem redirect_eq (h : w.Ready) (code : ℤ) (location : Bytes) :
    w.redirect code location = .ok (w.add (ascii "HTTP/1.1 " ++ formatInt code ++ ascii " "
      ++ statusText code ++ ascii "\r\nLocation: " ++ location ++ ascii "\r\n\r\n")) := by
  simp only [redirect, bind, Except.bind, writeString_eq h, writeInt_eq (h.add _),
    writeString_eq (h.add _), add_add, formatIntBase_ten]

/-- The entries that the loop over the header map writes. -/
def entries (hdr : List (Bytes × List Bytes)) : List (Bytes × Bytes) :=
  (hdr.filter fun kv => !reserved.contains kv.1).map fun kv => (kv.1, kv.2.headD [])

/-- The loop over the header map appends one line for each value that is sent.  A name without a
    value would panic at `v[0]`, hence `hvalues`. -/
theorem foldlM_writeHeader (h : w.Ready) {hdr : List (Bytes × List Bytes)}
    (hvalues : ∀ kv ∈ hdr, kv.2 ≠ []) :
    hdr.foldlM writeHeader w
      = .ok (w.add ((entries hdr).flatMap fun f => crlf ++ Http1.headerLine f)) := by
  induction hdr generalizing w with
  | nil => simp [entries, pure, Except.pure]
  | cons kv hdr ih =>
    have hrest := fun kv' hkv' => hvalues kv' (List.mem_cons_of_mem kv hkv')
    rw [List.foldlM_cons, writeHeader]
    by_cases hres : reserved.contains kv.1 = true
    · have hentries : entries (kv :: hdr) = entries hdr := by
        simp only [entries, List.filter_cons, hres, Bool.not_true, Bool.false_eq_true, if_false]
      rw [if_pos hres, hentries]
      exact ih h hrest
    · obtain ⟨k, vs⟩ := kv
      cases vs with
      | nil => exact absurd rfl (hvalues _ List.mem_cons_self)
      | cons v vs =>
        have hentries : entries ((k, v :: vs) :: hdr) = (k, v) :: entries hdr := by
          have hk : reserved.contains k = false := Bool.eq_false_iff.2 hres
          simp only [entries, List.filter_cons, hk, Bool.not_false,
            if_true, List.map_cons, List.headD_cons]
        rw [if_neg hres, hentries]
        simp only [bind, Except.bind, writeString_eq h, writeString_eq (h.add _), add_add]
        rw [ih (h.add _) hrest, add_add]
        simp [Http1.headerLine, crlf, ascii, ch]

/-- The status of a response; only `resp0` has a default. -/
def status (code : ℤ) : ℤ := if code = 0 then 200 else code

/-- The header that `resp0` and its callers write in front of the one for the length. -/
def fields (contentType : Bytes) (hdr : List (Bytes × List Bytes)) : List (Bytes × Bytes) :=
  (ascii "Content-Type", if contentType = [] then ascii "text/plain; charset=utf-8"
    else contentType) :: entries hdr ++ [(ascii "Connection", ascii "Keep-Alive")]

/-- Lines that are terminated are lines that are separated, and a last line end. -/
theorem joinLines_headerLines (l : Bytes) (fs : List (Bytes × Bytes)) :
    joinLines (l :: fs.map Http1.headerLine)
      = l ++ (fs.flatMap fun f => crlf ++ Http1.headerLine f) ++ crlf := by
  induction fs generalizing l with
  | nil => simp
  | cons f fs ih =>
    rw [List.map_cons, joinLines_cons, ih, List.flatMap_cons]
    simp only [List.append_assoc]

/-- The part of the head that all responses share: status line, `Content-Type` (with its default)
    and the entries of the header map. -/
theorem resp0_eq (h : w.Ready) (code : ℤ) (contentType : Bytes) {hdr : List (Bytes × List Bytes)}
    (hvalues : ∀ kv ∈ hdr, kv.2 ≠ []) :
    w.resp0 code contentType hdr
      = .ok (w.add (Http1.statusLine (status code) (statusText (status code))
        ++ ((ascii "Content-Type",
            if contentType = [] then ascii "text/plain; charset=utf-8" else contentType)
          :: entries hdr).flatMap fun f => crlf ++ Http1.headerLine f)) := by
  simp only [resp0, bind, Except.bind, writeString_eq h, writeInt_eq (h.add _),
    writeString_eq (h.add _), add_add, formatIntBase_ten]
  rw [foldlM_writeHeader (h.add _) hvalues, add_add, List.flatMap_cons]
  have hct : crlf ++ (ascii "Content-Type" ++ ascii ": ") = ascii "\r\nContent-Type: " := by decide
  simp only [Http1.statusLine, Http1.version, Http1.headerLine, status, List.append_assoc]
  rw [← hct]
  simp only [List.append_assoc]
  rfl

/-- A response with a body is a head in the sense of `Http1`, which announces the length of the
    body, and the body. -/
theorem respFull_eq (h : w.Ready) (code : ℤ) (contentType : Bytes) {hdr : List (Bytes × List Bytes)}
    (hvalues : ∀ kv ∈ hdr, kv.2 ≠ []) (data : Bytes) :
    w.respFull code contentType hdr data
      = .ok (w.add (Http1.encodeHead (status code) (statusText (status code))
        (fields contentType hdr ++ [(ascii "Content-Length", formatUint 10 data.length)])
          ++ data)) := by
  simp only [respFull, bind, Except.bind, resp0_eq h code contentType hvalues,
    writeString_eq (h.add _), writeInt_eq (h.add _), add_add, formatIntBase_length]
  rw [Http1.encodeHead, joinLines_headerLines, fields]
  have hlen : ascii "\r\nConnection: Keep-Alive\r\nContent-Length: "
      = crlf ++ Http1.headerLine (ascii "Connection", ascii "Keep-Alive")
        ++ (crlf ++ (ascii "Content-Length" ++ ascii ": ")) := by decide
  have hend : ascii "\r\n\r\n" = crlf ++ crlf := by decide
  rw [hlen, hend]
  simp only [Http1.headerLine, List.flatMap_append, List.flatMap_cons,
    List.flatMap_nil, List.append_nil, List.nil_append, List.append_assoc, List.cons_append]

/-- `startChunked` writes a head that announces the chunked coding, and remembers in `chunked` that
    chunks have to follow. -/
theorem startChunked_eq (h : w.Ready) (code : ℤ) (contentType : Bytes)
    {hdr : List (Bytes × List Bytes)} (hvalues : ∀ kv ∈ hdr, kv.2 ≠ []) :
    w.startChunked code contentType hdr
      = .ok { w.add (Http1.encodeHead (status code) (statusText (status code))
          (fields contentType hdr ++ [(ascii "Transfer-Encoding", ascii "chunked")])) with
        chunked := true } := by
  simp only [startChunked, bind, Except.bind, resp0_eq h code contentType hvalues,
    writeString_eq (h.add _), add_add]
  rw [Http1.encodeHead, joinLines_headerLines, fields]
  have hend : ascii "\r\nConnection: Keep-Alive\r\nTransfer-Encoding: chunked\r\n\r\n"
      = crlf ++ Http1.headerLine (ascii "Connection", ascii "Keep-Alive")
        ++ (crlf ++ Http1.headerLine (ascii "Transfer-Encoding", ascii "chunked"))
          ++ crlf ++ crlf := by
    decide
  rw [hend]
  simp only [List.flatMap_append, List.flatMap_cons, List.flatMap_nil, List.append_nil,
    List.nil_append, List.append_assoc, List.cons_append]

/-! ### Chunks -/

/-- The writer after output: only the connection's output and the number of triggers have
    changed. -/
def Added (w w' : HttpWriter) (p : Bytes) : Prop :=
  ∃ triggers, w' = { w.add p with triggers := triggers }

/-- One chunk of the output, with its size in hexadecimal; whether the event loop is triggered
    depends on how much output stands there. -/
theorem writeChunked_eq (h : w.Ready) (p : Bytes) :
    ∃ w', w.writeChunked p = .ok w' ∧ w.Added w' (Http1.encodeChunk p) := by
  have hwrite : ∀ q, (w.add q).conn.write p
      = .ok { (w.add q).conn with out := (w.add q).conn.out ++ p } := fun q =>
    Conn.write_eq (h.add q).alive (h.add q).unlocked p
  have hadd : ∀ q, ({ w.add q with
      conn := { (w.add q).conn with out := (w.add q).conn.out ++ p } } : HttpWriter)
        = w.add (q ++ p) :=
    fun q => add_add w q p
  simp only [writeChunked, bind, Except.bind, writeInt_eq h,
    writeString_eq (h.add _), add_add, hwrite, hadd, formatIntBase_length]
  have hchunk : formatUint 16 p.length ++ ascii "\r\n" ++ p ++ ascii "\r\n"
      = Http1.encodeChunk p := by
    rw [Http1.encodeChunk, show ascii "\r\n" = crlf by decide]
  rw [hchunk]
  split
  · refine ⟨_, rfl, w.triggers + 1, ?_⟩
    rw [flush_eq (h.add _).alive]
    rfl
  · exact ⟨_, rfl, w.triggers, rfl⟩

/-- The chunks that a sequence of `Write`s makes, with `buf` in `chkbuf`. -/
def pieces : Bytes → List Bytes → List Bytes
  | buf, [] => if buf = [] then [] else [buf]
  | buf, p :: ps =>
    if p = [] then pieces buf ps
    else if p.length ≤ 4 ∨ buf ≠ [] then
      if 64 ≤ (buf ++ p).length then (buf ++ p) :: pieces [] ps else pieces (buf ++ p) ps
    else p :: pieces [] ps

/-- The chunks hold the bytes of the buffer and of the `Write`s, in this order: coalescing loses
    nothing and swaps nothing. -/
theorem pieces_flatten (buf : Bytes) (ps : List Bytes) :
    (pieces buf ps).flatten = buf ++ ps.flatten := by
  induction ps generalizing buf with
  | nil =>
    rw [pieces]
    split
    · rename_i h
      simp [h]
    · simp
  | cons p ps ih =>
    rw [pieces]
    split
    · rename_i hp
      rw [ih, hp, List.flatten_cons, List.nil_append]
    · split
      · split
        · simp [ih]
        · simp [ih]
      · rename_i hbuf
        have hnil : buf = [] := not_not.mp fun h => hbuf (.inr h)
        simp [ih, hnil]

/-- No chunk is empty, so none of them is taken for the last chunk of the body. -/
theorem pieces_ne_nil (buf : Bytes) (ps : List Bytes) : ∀ p ∈ pieces buf ps, p ≠ [] := by
  induction ps generalizing buf with
  | nil =>
    rw [pieces]
    split
    · simp
    · rename_i h
      simpa using h
  | cons p ps ih =>
    rw [pieces]
    split
    · exact ih buf
    · rename_i hp
      split
      · split
        · simpa [hp] using ih []
        · exact ih (buf ++ p)
      · simpa [hp] using ih []

/-- `Write` makes the chunks in front of those that the later `Write`s make. -/
theorem write_eq (h : w.Ready) (hchunked : w.chunked = true) (p : Bytes) :
    ∃ w' qs, w.write p = .ok w' ∧
      ({ w with chkbuf := w'.chkbuf } : HttpWriter).Added w' (qs.flatMap Http1.encodeChunk) ∧
      ∀ ps, pieces w.chkbuf (p :: ps) = qs ++ pieces w'.chkbuf ps := by
  rw [write, if_neg (not_not.mpr hchunked)]
  by_cases hp : p = []
  · rw [if_pos (by rw [hp]; rfl)]
    exact ⟨w, [], rfl, ⟨w.triggers, by simp⟩, fun ps => by rw [pieces, if_pos hp, List.nil_append]⟩
  · rw [if_neg (by simpa using hp)]
    have hbuf : w.chkbuf.length > 0 ↔ w.chkbuf ≠ [] := List.length_pos_iff
    simp only [hbuf]
    split
    · rename_i hsmall
      split
      · rename_i hfull
        have hready : ({ w with chkbuf := w.chkbuf ++ p } : HttpWriter).Ready :=
          ⟨h.alive, h.unlocked⟩
        obtain ⟨w', hw', triggers, rfl⟩ := writeChunked_eq hready (w.chkbuf ++ p)
        refine ⟨_, [w.chkbuf ++ p], by rw [hw']; rfl,
          ⟨triggers, by simp [HttpWriter.add]⟩, fun ps => ?_⟩
        rw [pieces, if_neg hp, if_pos hsmall, if_pos hfull]
        rfl
      · rename_i hfull
        refine ⟨_, [], rfl, ⟨w.triggers, by simp⟩, fun ps => ?_⟩
        rw [pieces, if_neg hp, if_pos hsmall, if_neg hfull]
        rfl
    · rename_i hlarge
      obtain ⟨w', hw', triggers, rfl⟩ := writeChunked_eq h p
      have hnil : w.chkbuf = [] := not_not.mp fun hne => hlarge (.inr hne)
      refine ⟨_, [p], hw', ⟨triggers, by simp [HttpWriter.add]⟩, fun ps => ?_⟩
      rw [pieces, if_neg hp, if_neg hlarge]
      show p :: pieces [] ps = [p] ++ pieces w.chkbuf ps
      rw [hnil]
      rfl

/-- `finishChunked` sends what is still in `chkbuf` as a last chunk, then the terminator, and leaves
    the writer as it was before `startChunked`. -/
theorem finishChunked_eq (h : w.Ready) (hchunked : w.chunked = true) :
    ∃ w', w.finishChunked = .ok w' ∧
      ({ w with chunked := false, chkbuf := [] } : HttpWriter).Added w'
        (Http1.encodeChunks (pieces w.chkbuf [])) := by
  rw [finishChunked, if_neg (not_not.mpr hchunked), pieces]
  by_cases hbuf : w.chkbuf = []
  · rw [if_neg (by simp [hbuf]), if_pos hbuf]
    simp only [bind, Except.bind, writeString_eq h]
    refine ⟨_, rfl, w.triggers + 1, ?_⟩
    rw [flush_eq]
    · simp [HttpWriter.add, hbuf, Http1.encodeChunks]
    · exact h.alive
  · rw [if_pos (List.length_pos_iff.mpr hbuf), if_neg hbuf]
    obtain ⟨w', hw', triggers, rfl⟩ := writeChunked_eq h w.chkbuf
    simp only [bind, Except.bind, hw']
    have hready : ({ w.add (Http1.encodeChunk w.chkbuf) with triggers := triggers, chkbuf := [] } :
        HttpWriter).Ready := ⟨h.alive, h.unlocked⟩
    rw [writeString_eq hready]
    refine ⟨_, rfl, triggers + 1, ?_⟩
    simp only
    rw [flush_eq]
    · simp [HttpWriter.add, Http1.encodeChunks]
    · exact h.alive

/-- `Write`s and `FinishChunked` write the chunked coding of what is in the buffer and what they are
    given, and leave the writer as it was before `StartChunked`. -/
theorem chunked_eq (writes : List Bytes) {w : HttpWriter} (h : w.Ready)
    (hchunked : w.chunked = true) : ∃ w', (writes.foldlM write w >>= finishChunked) = .ok w' ∧
      ({ w with chunked := false, chkbuf := [] } : HttpWriter).Added w'
        (Http1.encodeChunks (pieces w.chkbuf writes)) := by
  induction writes generalizing w with
  | nil => exact finishChunked_eq h hchunked
  | cons p writes ih =>
    obtain ⟨w₁, qs, hw₁, ⟨triggers, heq⟩, hpieces⟩ := write_eq h hchunked p
    have hready : w₁.Ready := by
      rw [heq]
      exact ⟨h.alive, h.unlocked⟩
    have hchunked₁ : w₁.chunked = true := by
      rw [heq]
      exact hchunked
    have hconn : w₁.conn = (w.add (qs.flatMap Http1.encodeChunk)).conn := by
      rw [heq]
      rfl
    obtain ⟨w', hw', triggers', heq'⟩ := ih hready hchunked₁
    refine ⟨w', ?_, triggers', ?_⟩
    · rw [List.foldlM_cons, hw₁]
      exact hw'
    · rw [heq', hpieces]
      simp [HttpWriter.add, hconn, Http1.encodeChunks]

end HttpWriter

/-! ### Responses as messages -/

namespace Response

open HttpWriter

/-- The header of a response. -/
def hdr : Response → List (Bytes × List Bytes)
  | bytesHeaders _ _ hdr _ => hdr
  | chunked _ _ hdr _ => hdr
  | _ => []

/-- The bytes of a response. -/
def encode : Response → Bytes
  | redirect code location =>
    Http1.encodeHead code (statusText code) [(ascii "Location", location)]
  | text code msg =>
    Http1.encodeHead (status code) (statusText (status code))
      (fields [] [] ++ [(ascii "Content-Length", formatUint 10 msg.length)]) ++ msg
  | bytes code contentType data =>
    Http1.encodeHead (status code) (statusText (status code))
      (fields contentType [] ++ [(ascii "Content-Length", formatUint 10 data.length)]) ++ data
  | bytesHeaders code contentType hdr data =>
    Http1.encodeHead (status code) (statusText (status code))
      (fields contentType hdr ++ [(ascii "Content-Length", formatUint 10 data.length)]) ++ data
  | chunked code contentType hdr writes =>
    Http1.encodeHead (status code) (statusText (status code))
      (fields contentType hdr ++ [(ascii "Transfer-Encoding", ascii "chunked")])
      ++ Http1.encodeChunks (pieces [] writes)

/-- **What a response writes.** -/
theorem emit_eq {w : HttpWriter} (h : w.Ready) (hchunked : w.chunked = false) (hbuf : w.chkbuf = [])
    {r : Response} (hvalues : ∀ kv ∈ r.hdr, kv.2 ≠ []) :
    ∃ w', r.emit w = .ok w' ∧ w.Added w' r.encode := by
  cases r with
  | redirect code location =>
    refine ⟨_, redirect_eq h code location, w.triggers, ?_⟩
    have hlocation : ascii "\r\nLocation: " = crlf ++ (ascii "Location" ++ ascii ": ") := by decide
    have hend : ascii "\r\n\r\n" = crlf ++ crlf := by decide
    rw [hlocation, hend]
    simp [HttpWriter.add, encode, Http1.encodeHead, Http1.statusLine,
      Http1.version, Http1.headerLine, show ascii " " = [32] by decide]
  | text code msg => exact ⟨_, respFull_eq h code [] (by simp) msg, w.triggers, rfl⟩
  | bytes code contentType data =>
    exact ⟨_, respFull_eq h code contentType (by simp) data, w.triggers, rfl⟩
  | bytesHeaders code contentType hdr data =>
    exact ⟨_, respFull_eq h code contentType hvalues data, w.triggers, rfl⟩
  | chunked code contentType hdr writes =>
    have hstart : w.startChunked code contentType hdr = _ :=
      startChunked_eq h code contentType hvalues
    obtain ⟨w', hw', triggers, heq⟩ :=
      chunked_eq writes (w := { w.add (Http1.encodeHead (status code) (statusText (status code))
        (fields contentType hdr ++ [(ascii "Transfer-Encoding", ascii "chunked")])) with
      chunked := true }) ⟨h.alive, h.unlocked⟩ rfl
    refine ⟨w', ?_, triggers, ?_⟩
    · rw [emit, hstart]
      exact hw'
    · rw [heq]
      simp [HttpWriter.add, encode, hbuf, hchunked]

end Response

end Resh.Server
