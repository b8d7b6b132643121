import Resh.Server.Response

namespace Resh.Server

open Resh.Go

/-!
# http.go — the chunked writer

`HTTP.Write` keeps small pieces in `chkbuf` and writes a chunk when there are 64 bytes or more; a
piece of more than four bytes that finds the buffer empty is a chunk of its own.  Between the calls,
the event loop may send any part of the output.

* `ChunkOp` — what happens between `StartChunked` and `FinishChunked`;
* `Chunking` — the chunks that are written and the buffer hold what was given to the writer, in
  order;
* `perform_chunking` — every step keeps it;
* `chunked_round_trip` — the body is chunked data, and decodes to all that was written.
-/

namespace HttpWriter

/-- `w.WriteString(s)`. -/
def writeStr (w : HttpWriter) (s : Bytes) : Except Halt HttpWriter :=
  if s.length = 0 then .ok w else w.write s

/-- All that was appended to the output, whether or not it is sent. -/
def stream (w : HttpWriter) : Bytes := w.conn.sent ++ w.conn.out

end HttpWriter

/-- A call of the writer, or `n` bytes of the output go to the socket. -/
inductive ChunkOp where
  | write (p : Bytes)
  | writeString (s : Bytes)
  | send (n : ℕ)
  deriving DecidableEq, Repr

/-- What is given to the writer. -/
def ChunkOp.data : ChunkOp → Bytes
  | write p => p
  | writeString s => s
  | send _ => []

namespace HttpWriter

def perform (w : HttpWriter) : ChunkOp → Except Halt HttpWriter
  | .write p => w.write p
  | .writeString s => w.writeStr s
  | .send n => .ok { w with conn := w.conn.send n }

variable {w w' w₁ : HttpWriter}

/-! ### The head -/

theorem foldlM_writeHeader_ok (h : w.Ready) {hdr : List (Bytes × List Bytes)}
    (hr : hdr.foldlM writeHeader w = .ok w') : ∃ p, w' = w.add p := by
  induction hdr generalizing w with
  | nil =>
    cases hr
    exact ⟨[], (add_nil _).symm⟩
  | cons kv hdr ih =>
    rw [List.foldlM_cons, writeHeader] at hr
    split at hr
    · exact ih h hr
    · split at hr
      · cases hr
      · simp only [bind, Except.bind, writeString_eq h, writeString_eq (h.add _), add_add] at hr
        obtain ⟨p, rfl⟩ := ih (h.add _) hr
        exact ⟨_, add_add w _ p⟩

/-- `StartChunked` appends a head and opens the chunked mode. -/
theorem startChunked_ok (h : w.Ready) {code : ℤ} {contentType : Bytes}
    {hdr : List (Bytes × List Bytes)} (hr : w.startChunked code contentType hdr = .ok w₁) :
    ∃ head, w₁ = { w.add head with chunked := true } := by
  simp only [startChunked, resp0, bind, Except.bind, writeString_eq h, writeInt_eq (h.add _),
    writeString_eq (h.add _), add_add] at hr
  split at hr
  · cases hr
  · rename_i w' hfold
    obtain ⟨p, rfl⟩ := foldlM_writeHeader_ok (h.add _) hfold
    rw [add_add, writeString_eq (h.add _), add_add] at hr
    cases hr
    exact ⟨_, rfl⟩

/-! ### The chunks -/

/-- The writer `w` in chunked mode: since `w₁` it has written non-empty chunks, which with the
    buffer make up `data`. -/
structure Chunking (w₁ w : HttpWriter) (data : Bytes) : Prop where
  ready : w.Ready
  chunked : w.chunked = true
  written : ∃ ps : List Bytes, (∀ p ∈ ps, p ≠ []) ∧ w.stream = w₁.stream
    ++ ps.flatMap Http1.encodeChunk ∧ ps.flatten ++ w.chkbuf = data

theorem stream_added {p : Bytes} (h : w.Added w' p) : w'.stream = w.stream ++ p := by
  obtain ⟨triggers, rfl⟩ := h
  simp [stream, add]

/-- `Write` puts the piece behind the others. -/
theorem write_chunking {data : Bytes} (h : Chunking w₁ w data) (p : Bytes) :
    ∃ w', w.write p = .ok w' ∧ Chunking w₁ w' (data ++ p) := by
  obtain ⟨ps, hps, hstream, hdata⟩ := h.written
  obtain ⟨w', qs, hw', hadded, hpieces⟩ := write_eq h.ready h.chunked p
  refine ⟨w', hw', ?_⟩
  have hsame : w'.Ready ∧ w'.chunked = true := by
    obtain ⟨triggers, heq⟩ := hadded
    rw [heq]
    exact ⟨⟨h.ready.alive, h.ready.unlocked⟩, h.chunked⟩
  have hlast := hpieces []
  have hflat : qs.flatten ++ w'.chkbuf = w.chkbuf ++ p := by
    have hboth := congrArg List.flatten hlast
    rw [List.flatten_append, pieces_flatten, pieces_flatten] at hboth
    simpa using hboth.symm
  have hne : ∀ q ∈ qs, q ≠ [] := by
    intro q hq
    apply pieces_ne_nil w.chkbuf [p]
    rw [hlast]
    exact List.mem_append_left _ hq
  refine ⟨hsame.1, hsame.2, ps ++ qs, ?_, ?_, ?_⟩
  · intro q hq
    exact (List.mem_append.mp hq).elim (hps q) (hne q)
  · have hnew : w'.stream = w.stream ++ qs.flatMap Http1.encodeChunk := (stream_added hadded :)
    rw [hnew, hstream, List.flatMap_append, List.append_assoc]
  · rw [List.flatten_append, List.append_assoc, hflat, ← List.append_assoc, hdata]

/-- **One step.** -/
theorem perform_chunking {data : Bytes} (h : Chunking w₁ w data) (op : ChunkOp) :
    ∃ w', w.perform op = .ok w' ∧ Chunking w₁ w' (data ++ op.data) := by
  cases op with
  | write p => exact write_chunking h p
  | writeString s =>
    show ∃ w', w.writeStr s = .ok w' ∧ Chunking w₁ w' (data ++ s)
    unfold writeStr
    split
    · rename_i hs
      rw [List.length_eq_zero_iff] at hs
      refine ⟨w, rfl, ?_⟩
      rwa [hs, List.append_nil]
    · exact write_chunking h s
  | send n =>
    obtain ⟨ps, hps, hstream, hdata⟩ := h.written
    refine ⟨_, rfl, ⟨h.ready.alive, h.ready.unlocked⟩, h.chunked, ps, hps, ?_, ?_⟩
    · -- what is sent goes from the begin of the output to the end of what was sent before
      rw [← hstream]
      show w.conn.sent ++ w.conn.out.take n ++ w.conn.out.drop n = w.conn.sent ++ w.conn.out
      rw [List.append_assoc, List.take_append_drop]
    · show ps.flatten ++ w.chkbuf = data ++ []
      rw [List.append_nil]
      exact hdata

/-- A whole run. -/
theorem foldlM_chunking {data : Bytes} (h : Chunking w₁ w data) (ops : List ChunkOp) :
    ∃ w', ops.foldlM perform w = .ok w' ∧ Chunking w₁ w' (data ++ ops.flatMap ChunkOp.data) := by
  induction ops generalizing w data with
  | nil => exact ⟨w, rfl, by simpa using h⟩
  | cons op ops ih =>
    obtain ⟨w', hw', hnext⟩ := perform_chunking h op
    obtain ⟨w'', hw'', hlast⟩ := ih hnext
    refine ⟨w'', ?_, ?_⟩
    · rw [List.foldlM_cons, hw']
      exact hw''
    · rw [List.flatMap_cons, ← List.append_assoc]
      exact hlast

/-- **Chunked responses.**  On an open connection, after `StartChunked`, for any `Write`s and
    `WriteString`s and whatever the event loop sends in between: what is appended up to the return
    of `FinishChunked` is a chunked body, and it decodes to the pieces in order.  The writer is then
    as it was before. -/
theorem chunked_round_trip (w w₁ : HttpWriter) (h : w.Ready) (hbuf : w.chkbuf = []) (code : ℤ)
    (contentType : Bytes) (hdr : List (Bytes × List Bytes))
    (hstart : w.startChunked code contentType hdr = .ok w₁) (ops : List ChunkOp) :
    ∃ w₂ body, (ops.foldlM perform w₁ >>= finishChunked) = .ok w₂ ∧ w₂.stream = w₁.stream ++ body ∧
      Http1.ChunkedBody body (ops.flatMap ChunkOp.data) ∧
      (∀ rest, Http1.chunks ((body ++ rest).length + 1) (body ++ rest)
        = some (ops.flatMap ChunkOp.data, rest)) ∧
      w₂.chkbuf = [] ∧ w₂.chunked = false := by
  obtain ⟨head, rfl⟩ := startChunked_ok h hstart
  have hinit : Chunking { w.add head with chunked := true }
    { w.add head with chunked := true } [] :=
    ⟨⟨h.alive, h.unlocked⟩, rfl, [], by simp, by simp, hbuf⟩
  obtain ⟨w', hrun, hlast⟩ := foldlM_chunking hinit ops
  obtain ⟨ps, hps, hstream, hdata⟩ := hlast.written
  obtain ⟨w₂, hw₂, hadded⟩ := finishChunked_eq hlast.ready hlast.chunked
  -- the chunks of the run, and perhaps one more for the rest of the buffer
  have hall : ∀ p ∈ ps ++ pieces w'.chkbuf [], p ≠ [] := by
    intro p hp
    exact (List.mem_append.mp hp).elim (hps p) (pieces_ne_nil _ _ p)
  have hflat : (ps ++ pieces w'.chkbuf []).flatten = ops.flatMap ChunkOp.data := by
    rw [List.flatten_append, pieces_flatten, List.flatten_nil,
      List.append_nil, hdata, List.nil_append]
  refine ⟨w₂, Http1.encodeChunks (ps ++ pieces w'.chkbuf []), ?_, ?_, ?_, ?_, ?_, ?_⟩
  · rw [hrun]
    exact hw₂
  · have hnew : w₂.stream = w'.stream ++ Http1.encodeChunks (pieces w'.chkbuf []) :=
      (stream_added hadded :)
    rw [hnew, hstream]
    simp only [Http1.encodeChunks, List.flatMap_append, List.append_assoc]
  · rw [← hflat]
    exact Http1.chunkedBody_encodeChunks hall
  · intro rest
    rw [← hflat]
    apply Http1.chunks_encodeChunks hall
    have hle := Http1.length_le_encodeChunks (ps ++ pieces w'.chkbuf [])
    simp only [List.length_append] at hle ⊢
    omega
  · obtain ⟨triggers, rfl⟩ := hadded
    rfl
  · obtain ⟨triggers, rfl⟩ := hadded
    rfl

/-- Two small pieces share a chunk, and the event loop sends a part of the head. -/
theorem chunked_round_trip_small :
    ∃ w₁ w₂ body, startChunked { conn := {} } 200 [] [] = .ok w₁ ∧
      (List.foldlM perform w₁ [.write (ascii "ab"), .send 7, .writeString [],
        .writeString (ascii "hello")] >>= finishChunked) = .ok w₂ ∧ w₂.stream = w₁.stream ++ body ∧
      Http1.ChunkedBody body (ascii "abhello") := by
  have hready : ({ conn := {} } : HttpWriter).Ready := ⟨rfl, rfl⟩
  have hhead := startChunked_eq hready 200 [] (List.forall_mem_nil _)
  obtain ⟨w₂, body, hrun, hstream, hbody, -⟩ :=
    chunked_round_trip { conn := {} } _ hready rfl 200 [] []
    hhead [.write (ascii "ab"), .send 7, .writeString [], .writeString (ascii "hello")]
  exact ⟨_, w₂, body, hhead, hrun, hstream, hbody⟩

end HttpWriter

end Resh.Server
