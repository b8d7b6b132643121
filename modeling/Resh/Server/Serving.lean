import Resh.Server.Delivery
import Resh.Server.Output
import Resh.Server.Request
import Resh.Server.Requests

namespace Resh.Server

open Resh.Go Resh.Incremental

/-!
# A connection that serves requests

What a connection is for, without buffers, locks and stages of a parser: bytes come in, and one
request after the other is cut off their front and handed to the application (`Inbox`).  The parser
of `Inbox` starts from nothing at every read; the connection of the event loop keeps a half-filled
request and a buffer whose header lines it has rewritten.

* `request_taken` — what a request takes from the input, and that the rest of it is as received;
* `Shows` — a connection has done what an inbox has done, and can go on like it;
* `turn_shows`, `turns_show` — a turn of the event loop, and a run, is what the inbox does;
* `serving_refines` — for every application and every run, with any results of the system calls.
-/

/-! ### What a request takes from the stream -/

/-- The request of an outcome, as the event of its handling. -/
def Outcome.event? : Outcome → Option Event
  | .redis r => some (.redis r)
  | .http h => some (.http h)
  | _ => none

/-- How much `readConn` cuts off the input for a request. -/
def Event.taken : Event → ℕ
  | .redis r => r.read
  | .http h => h.bodyLen + h.hdrLen
  | _ => 0

def Event.isRequest : Event → Bool
  | .redis _ => true
  | .http _ => true
  | _ => false

section Taken

variable {env : Env} {p : Bytes}

/-- `parse` rewrites the header block without changing its length. -/
theorem parse_length {idx : ℕ} {h' : HTTP} (hi : index? (crlf ++ crlf) p = some idx)
    (hp : HTTP.parse env { data := p.take (idx + 4) } = .ok h') :
    h'.data.length = (p.take (idx + 4)).length := by
  obtain ⟨l, ls, hblock, hl, hls⟩ := exists_lines_of_index? hi
  rw [parse_eq env _ hl hls hblock] at hp
  split at hp
  · cases hp
    rfl
  · rw [Ret.bind_eq_ok] at hp
    obtain ⟨⟨h₁, l'⟩, he₁, hp⟩ := hp
    rw [Ret.bind_eq_ok] at hp
    obtain ⟨⟨h₂, ls'⟩, he₂, hp⟩ := hp
    cases hp
    rw [hblock]
    simp only [List.length_append, parseFirstLine_length he₁, parseHeaders_length he₂]

/-- The stage of the body does not change the buffer. -/
theorem bodyStage_buf (st : ServerReadState) (h : HTTP) (inp : Bytes) :
    (bodyStage st h inp).buf = inp := by
  unfold bodyStage
  simp only
  split <;> rfl

/-- The stage of the arguments does not change the buffer: only HTTP headers are rewritten. -/
theorem redisStage_buf (st : ServerReadState) (r : Redis) (inp : Bytes) :
    (redisStage st r inp).buf = inp := by
  unfold redisStage
  split
  · split <;> rfl
  · rfl

/-- **Only an HTTP request rewrites the buffer.** -/
theorem process_buf_eq (st : ServerReadState) (inp : Bytes)
    (h : (process env st inp).state.http = none) : (process env st inp).buf = inp := by
  -- the header block is rewritten where it stands when it is parsed, and the request is known then
  have hheader : ∀ st g, (headerStage env st g inp).state.http = none →
      (headerStage env st g inp).buf = inp := by
    intro st g hnone
    unfold headerStage at hnone ⊢
    split
    · rfl
    · rename_i idx hi
      simp only [hi] at hnone
      split
      · rename_i g' hp
        simp only [hp, bodyStage] at hnone
        split at hnone
        · cases hnone
        · split at hnone <;> cases hnone
      · rfl
      · rfl
      · rfl
  unfold process at h ⊢
  split at h
  · split at h
    · split at h
      · rename_i hw
        rw [if_pos hw]
        exact hheader _ _ h
      · rename_i hw
        rw [if_neg hw]
        split
        · rfl
        · exact redisStage_buf ..
    · rfl
    · rfl
    · rfl
  · split at h
    · exact redisStage_buf ..
    · rfl
  · split at h
    · exact hheader _ _ h
    · rfl
  · split at h
    · exact bodyStage_buf ..
    · rfl
  · rfl
  · rfl

/-- **The buffer keeps its length**, whatever the parser comes to. -/
theorem process_buf_length (env : Env) (p : Bytes) : (process env {} p).buf.length = p.length := by
  unfold process
  simp only
  split
  · split
    · unfold headerStage
      split
      · rfl
      · rename_i idx hi
        split
        · rename_i h' hp
          have hlen := parse_length hi hp
          simp only
          split
          · rw [List.length_append, hlen, ← List.length_append, List.take_append_drop]
          · rw [bodyStage_buf, List.length_append, hlen, ← List.length_append,
              List.take_append_drop]
        · rfl
        · rfl
        · rfl
    · split
      · rfl
      · rw [redisStage_buf]
  · rfl
  · rfl
  · rfl

/-- A Redis request leaves the buffer as it was received. -/
theorem buf_of_redis {r : Redis} (hacc : callOnce env p = .redis r) : (process env {} p).buf = p :=
  process_buf_eq {} p (ret_of_redis hacc).2.1

/-- A request of RESP takes at least one byte, and no more than there are, as long as the buffer is
    shorter than `uint32` can count. -/
theorem redis_taken {r : Redis} (hlen : p.length < 2 ^ 32) (hacc : callOnce env p = .redis r) :
    0 < r.read ∧ r.read ≤ p.length := by
  obtain ⟨num, w, gs, q, hwalk, -, rfl⟩ := (callOnce_eq_redis_iff env hlen).mp hacc
  refine ⟨?_, hwalk.end_le⟩
  show 0 < q
  have hw := hwalk.count.le
  -- the walk begins behind the count and every string ends behind a line end
  have hpos : ∀ {a b : ℕ} {gs : List (ℕ × ℤ)}, Chain p a gs b → 0 < a → 0 < b := by
    intro a b gs h
    induction h with
    | nil => exact id
    | cons _ _ hnonneg _ _ _ _ ih => exact fun _ => ih (by omega)
  exact hpos hwalk.chain (by obtain ⟨text, -, -, -, -, rfl⟩ := hwalk.count; omega)

/-- An HTTP request rewrites its own head only. -/
theorem http_taken {h : HTTP} (hmax : env.requestMaxBytes < 2 ^ 31) (hlen : p.length < 2 ^ 31)
    (hacc : callOnce env p = .http h) :
    0 < h.bodyLen + h.hdrLen ∧ h.bodyLen + h.hdrLen ≤ p.length ∧
      (process env {} p).buf.drop (h.bodyLen + h.hdrLen) = p.drop (h.bodyLen + h.hdrLen) := by
  by_cases hfirst : firstLine p = []
  · -- an empty line: `parse` ends at once
    obtain ⟨rfl, hbuf, hle⟩ := accepted_empty hacc hfirst
    have hpos : 0 < blockLength p := by
      rw [blockLength]
      simp only [List.length_append, crlf_length]
      omega
    have hhead : blockLength p % 2 ^ 32 = blockLength p := Nat.mod_eq_of_lt (by omega)
    rw [hbuf]
    simp only [hhead]
    exact ⟨by omega, by omega, trivial⟩
  · obtain ⟨A⟩ := accepted_of_http hacc hfirst
    obtain ⟨hhdr, hle, -, -⟩ := A.data_eq hmax hlen
    have hsame : ∀ i, h.bodyLen + h.hdrLen ≤ i → ¬ Rewritable p i := by
      intro i hi hrw
      have := A.rewritable_lt hrw
      omega
    exact ⟨by omega, by omega, A.eqOff.drop_eq fun i hi => hsame i hi⟩

/-- **A request takes a part of the input**, and leaves what is behind it. -/
theorem request_taken {e : Event} (hmax : env.requestMaxBytes < 2 ^ 31) (hlen : p.length < 2 ^ 31)
    (he : (callOnce env p).event? = some e) :
    0 < e.taken ∧ e.taken ≤ p.length ∧ (process env {} p).buf.drop e.taken = p.drop e.taken := by
  cases hacc : callOnce env p with
  | redis r =>
    rw [hacc] at he
    obtain rfl : Event.redis r = e := Option.some.inj he
    obtain ⟨hpos, hle⟩ := redis_taken (by omega) hacc
    rw [buf_of_redis hacc]
    exact ⟨hpos, hle, rfl⟩
  | http h =>
    rw [hacc] at he
    obtain rfl : Event.http h = e := Option.some.inj he
    exact http_taken hmax hlen hacc
  | more => rw [hacc] at he; cases he
  | fail err => rw [hacc] at he; cases he
  | panic => rw [hacc] at he; cases he

/-- A part of a whole request is no request. -/
theorem callOnce_part {raw q : Bytes} {e : Event} (hmax : env.requestMaxBytes < 2 ^ 31)
    (hlen : raw.length < 2 ^ 31) (he : (callOnce env raw).event? = some e)
    (hwhole : e.taken = raw.length)
    (hraw : p ++ q = raw) (hq : q ≠ []) : callOnce env p = .more := by
  by_contra hne
  have hlt : p.length < raw.length := by
    rw [← hraw, List.length_append]
    exact Nat.lt_add_of_pos_right (List.length_pos_iff.mpr hq)
  have hp : (callOnce env p).event? = some e := by
    rw [← callOnce_append env hne q, hraw]
    exact he
  have htaken := (request_taken hmax (by omega) hp).2.1
  omega

end Taken

/-! ### The application and the inbox -/

/-- The application: what a handler writes and whether it returns true, from everything that was
    handled on the connection, the request at hand last. -/
abbrev Service := List Event → Bytes × Bool

/-- The handlers answer by `serve`, whatever methods of the connection they write with. -/
structure Handlers.Follow (H : Handlers) (serve : Service) : Prop where
  onHTTP : ∀ g (c : Conn), c.closed = false → c.lock = false → c.log.getLast? = some (.http g) →
    H.onHTTP g c = ({ c with out := c.out ++ (serve c.log).1 }, (serve c.log).2)
  onRedis : ∀ r (c : Conn), c.closed = false → c.lock = false → c.log.getLast? = some (.redis r) →
    H.onRedis r c = ({ c with out := c.out ++ (serve c.log).1 }, (serve c.log).2)

/-- Handlers that write each answer at once. -/
def Service.handlers (serve : Service) : Handlers where
  onWSData c _ := c
  onHTTP _ c := ({ c with out := c.out ++ (serve c.log).1 }, (serve c.log).2)
  onRedis _ c := ({ c with out := c.out ++ (serve c.log).1 }, (serve c.log).2)

/-- Every service has handlers that follow it, so the results about services are about something. -/
theorem Service.handlers_follow (serve : Service) : serve.handlers.Follow serve :=
  ⟨fun _ _ _ _ _ => rfl, fun _ _ _ _ _ => rfl⟩

/-- A connection as its client knows it: the bytes behind the last request, the requests that were
    handled and what was written for them. -/
structure Inbox where
  pending : Bytes := []
  log : List Event := []
  written : Bytes := []
  /-- the answer of a handler that wants the connection closed -/
  dropped : Bytes := []
  closed : Bool := false
  deriving DecidableEq, Repr

namespace Inbox

def close (b : Inbox) : Inbox := { b with closed := true }

/-- A request at the begin of `q` is handled; if the handler says so, the connection is closed at
    once and the client gets no answer. -/
def handle (serve : Service) (b : Inbox) (e : Event) (q : Bytes) : Inbox :=
  if (serve (b.log ++ [e])).2 then
    { b with
      pending := q.drop e.taken
      log := b.log ++ [e]
      written := b.written ++ (serve (b.log ++ [e])).1 }
  else
    { b with
      pending := q.drop e.taken
      log := b.log ++ [e]
      dropped := (serve (b.log ++ [e])).1
      closed := true }

/-- A read of `d`: at most one request is handled.  `none` is a panic. -/
def read (env : Env) (serve : Service) (b : Inbox) (d : Bytes) : Option Inbox :=
  let q := b.pending ++ d
  if env.requestMaxBytes < q.length then some { b with pending := q, closed := true }
  else match callOnce env q with
    | .more => some { b with pending := q }
    | .fail _ => some { b with pending := q, closed := true }
    | .panic => none
    | .redis r => some (b.handle serve (.redis r) q)
    | .http h => some (b.handle serve (.http h) q)

/-- **A turn.**  A system call that fails closes the connection, if there is still something to do
    for it. -/
inductive Step (env : Env) (serve : Service) (t : Turn) : Inbox → Inbox → Prop
  | gone {b : Inbox} (closed : b.closed = true) : Step env serve t b b
  | quiet {b : Inbox} (opened : b.closed = false) (input : t.input = []) : Step env serve t b b
  | lost {b : Inbox} (opened : b.closed = false) (input : t.input = []) (failed : ¬ t.Sound) :
      Step env serve t b b.close
  | read {b b' : Inbox} (opened : b.closed = false) (input : t.input ≠ [])
      (res : b.read env serve t.input = some b') : Step env serve t b b'
  | readLost {b b' : Inbox} (opened : b.closed = false) (input : t.input ≠ []) (failed : ¬ t.Sound)
      (res : b.read env serve t.input = some b') : Step env serve t b b'.close

/-- A run. -/
inductive Steps (env : Env) (serve : Service) : List Turn → Inbox → Inbox → Prop
  | nil (b : Inbox) : Steps env serve [] b b
  | cons {t : Turn} {ts : List Turn} {b b' b'' : Inbox} (head : Step env serve t b b')
      (tail : Steps env serve ts b' b'') : Steps env serve (t :: ts) b b''

end Inbox

/-! ### The connection behind an inbox -/

/-- An open connection that can go on with what is pending: its parser will come to what a parser
    from nothing makes of the received bytes. -/
structure Ready (env : Env) (b : Inbox) (c : Conn) : Prop where
  unlocked : c.lock = false
  ws : c.ws = none
  log : c.log = b.log
  dropped : b.dropped = []
  length : c.inp.length = b.pending.length
  resume : ∀ d, process env c.srs (c.inp ++ d) = process env {} (b.pending ++ d)

/-- A complete command that waits lies in the buffer as it was received: the parser takes it for the
    request, so what is there was not taken for an HTTP request, and nothing else rewrites the
    buffer. -/
theorem Ready.inp_eq {env : Env} {b : Inbox} {c : Conn} {r : Redis} (h : Ready env b c)
    (hcall : callOnce env b.pending = .redis r) : c.inp = b.pending := by
  have hresume := h.resume []
  rw [List.append_nil, List.append_nil] at hresume
  have hnone := (ret_of_redis hcall).2.1
  calc c.inp = (process env c.srs c.inp).buf :=
    (process_buf_eq _ _ (by rw [hresume]; exact hnone)).symm
    _ = (process env {} b.pending).buf := by rw [hresume]
    _ = b.pending := buf_of_redis hcall

/-- **The connection shows the inbox**; `old` was sent before. -/
structure Shows (env : Env) (old : Bytes) (b : Inbox) (c : Conn) : Prop where
  closed : c.closed = b.closed
  requests : c.log.filter Event.isRequest = b.log
  output : c.sent ++ c.out = b.written ++ b.dropped
  sent : c.sent <+: b.written
  grown : old <+: c.sent
  ready : b.closed = false → Ready env b c

section Turn

variable {env : Env} {serve : Service} {H : Handlers} {old : Bytes}
  {b : Inbox} {c : Conn} {wr : WriteResult}

/-- A connection that is closed shows what it has done. -/
theorem shows_close (halive : c.closed = false) (hws : c.ws = none) (hb : b.closed = true)
    (hlog : c.log.filter Event.isRequest = b.log) (hout : c.sent ++ c.out = b.written ++ b.dropped)
    (hsent : c.sent <+: b.written) (hgrown : old <+: c.sent) (errType : Bytes)
    (err : Option Cause) : Shows env old b (c.closeConnWithError errType err) := by
  unfold Conn.closeConnWithError
  rw [if_neg (by simp [halive]), hws]
  refine ⟨hb.symm, ?_, hout, hsent, hgrown, fun hopen => absurd hb (by simp [hopen])⟩
  cases err with
  | none => simp [Event.isRequest, hlog]
  | some cause => simp [Event.isRequest, hlog]

/-- A write moves bytes from the output to the socket, or fails. -/
theorem writeConn_shows (h : Shows env old b c) (hopen : b.closed = false) (wr : WriteResult) :
    ∃ c', c.writeConn wr = .ok c' ∧
    (Shows env old b c' ∨ ¬ wr.Sound ∧ Shows env old b.close c') := by
  obtain ⟨hlock, hws, hlog, hdropped, hlen, hresume⟩ := h.ready hopen
  have hopened : c.ws.any (·.closed) = false := by rw [hws]; rfl
  obtain ⟨c', hc', hw⟩ := Conn.writeConn_written hlock wr
  refine ⟨c', hc', ?_⟩
  by_cases hsound : wr.Sound
  · obtain rfl := hw.eq_send hsound hopened
    refine .inl ⟨h.closed, h.requests, (c.send_bytes _).trans h.output, ?_,
      h.grown.trans (List.prefix_append _ _), fun _ => ⟨hlock, hws, hlog, hdropped, hlen, hresume⟩⟩
    exact ⟨(c.send _).out, by rw [c.send_bytes, h.output, hdropped, List.append_nil]⟩
  · cases hw with
    | empty => exact .inl h
    | failed =>
      refine .inr ⟨hsound, ?_⟩
      exact shows_close (b := b.close) (h.closed.trans hopen) hws
        rfl h.requests h.output h.sent h.grown _ _
    | blocked => exact absurd trivial hsound
    | short => exact absurd trivial hsound
    | whole => exact absurd trivial hsound
    | closing => exact absurd trivial hsound

/-- The handler has been called: it writes, and the connection goes on or is closed. -/
def Conn.answered (serve : Service) (wr : WriteResult) (c : Conn) : Except Halt Conn :=
  if (serve c.log).2 then Conn.finishRead wr { c with out := c.out ++ (serve c.log).1 }
  else .ok (({ c with out := c.out ++ (serve c.log).1 } : Conn).closeConnWithError [] none)

/-- An HTTP request that is complete is cut off the input and recorded, and the handler's answer
    goes out. -/
theorem onRequest_http (hH : H.Follow serve) {g : HTTP} {rest : Bytes} (hhttp : c.srs.http = some g)
    (halive : c.closed = false) (hlock : c.lock = false)
    (hcut : slice? c.inp ((g.bodyLen + g.hdrLen : ℕ) : ℤ) c.inp.length = some rest)
    (wr : WriteResult) : c.onRequest H wr
      = ({ c with inp := rest, lock := false, log := c.log ++ [.http g] } : Conn).answered
      serve wr := by
  rw [Nat.cast_add] at hcut
  have hcall := hH.onHTTP g { c with inp := rest, lock := false, log :=
    c.log ++ [.http g] } halive rfl
    List.getLast?_concat
  unfold Conn.onRequest
  simp only [hhttp, Conn.truncateInputBuffer_eq hlock hcut, bind, Except.bind, hcall]
  rfl

/-- A request of RESP that is complete is cut off the input and recorded, and the handler's answer
    goes out. -/
theorem onRequest_redis (hH : H.Follow serve) {r : Redis} {rest : Bytes} (hhttp : c.srs.http = none)
    (hredis : c.srs.redis = some r) (halive : c.closed = false) (hlock : c.lock = false)
    (hcut : slice? c.inp (r.read : ℤ) c.inp.length = some rest) (wr : WriteResult) :
    c.onRequest H wr
      = ({ c with inp := rest, lock := false, log := c.log ++ [.redis r] } : Conn).answered
      serve wr := by
  have hcall := hH.onRedis r { c with inp := rest, lock := false, log :=
    c.log ++ [.redis r] } halive rfl
    List.getLast?_concat
  unfold Conn.onRequest
  simp only [hhttp, hredis, Conn.truncateInputBuffer_eq hlock hcut, bind, Except.bind, hcall]
  rfl

/-- The answer of the handler and the write behind it. -/
theorem answered_shows {q : Bytes} {e : Event} (halive : c.closed = false)
    (hopen : b.closed = false)
    (hws : c.ws = none) (hlock : c.lock = false) (hinp : c.inp = q.drop e.taken)
    (hlog : c.log = b.log ++ [e]) (hreq : c.log.filter Event.isRequest = c.log)
    (hdropped : b.dropped = [])
    (hout : c.sent ++ c.out = b.written) (hgrown : old <+: c.sent) (wr : WriteResult) :
    ∃ c', c.answered serve wr = .ok c' ∧
      (Shows env old (b.handle serve e q) c' ∨ ¬ wr.Sound ∧
        Shows env old (b.handle serve e q).close c') := by
  have hwritten : c.sent ++ (c.out ++ (serve c.log).1) = b.written ++ (serve c.log).1 := by
    rw [← List.append_assoc, hout]
  have hsent : c.sent <+: b.written := ⟨c.out, hout⟩
  unfold Conn.answered Inbox.handle
  rw [← hlog]
  split
  · have hs : Shows env old { b with
          pending := q.drop e.taken
          log := c.log
          written := b.written ++ (serve c.log).1 }
        { c with srs := {}, out := c.out ++ (serve c.log).1 } := by
      refine ⟨halive.trans hopen.symm, hreq, ?_,
        hsent.trans (List.prefix_append _ _), hgrown, fun _ =>
        ⟨hlock, hws, rfl, hdropped, congrArg List.length hinp, fun d => by rw [hinp]⟩⟩
      rw [hdropped, List.append_nil]
      exact hwritten
    unfold Conn.finishRead
    simp only
    split
    · exact writeConn_shows hs hopen wr
    · exact ⟨_, rfl, .inl hs⟩
  · refine ⟨_, rfl, .inl ?_⟩
    exact shows_close (b := { b with
        pending := q.drop e.taken
        log := c.log
        dropped := (serve c.log).1
        closed := true })
      (c := { c with out := c.out ++ (serve c.log).1 }) halive hws rfl hreq hwritten hsent hgrown
      _ _

/-- **A read that comes to a request.** -/
theorem request_shows (hH : H.Follow serve) {q : Bytes} {e : Event}
    (h : Shows env old b c) (hopen : b.closed = false)
    (hmax : env.requestMaxBytes < 2 ^ 31) (hlen : q.length < 2 ^ 31)
    (he : (callOnce env q).event? = some e) (wr : WriteResult) :
    ∃ c', ({ c with srs := (process env {} q).state, inp :=
    (process env {} q).buf, lock := false } : Conn).onRequest H wr = .ok c' ∧
      (Shows env old (b.handle serve e q) c' ∨ ¬ wr.Sound ∧
        Shows env old (b.handle serve e q).close c') := by
  obtain ⟨-, hws, hlog, hdropped, -, -⟩ := h.ready hopen
  obtain ⟨-, hle, hdrop⟩ := request_taken hmax hlen he
  -- the parser leaves the bytes behind the request alone, so the cut is that of the stream
  have hcut : slice? (process env {} q).buf (e.taken : ℤ) (process env {} q).buf.length
      = some (q.drop e.taken) := slice?_tail_eq_some.mpr
      ⟨by rw [process_buf_length]; exact hle, hdrop.symm⟩
  have hend : ∀ hreq : e.isRequest = true, ∃ c', ({ c with
        srs := (process env {} q).state, inp := q.drop e.taken, lock :=
          false, log := c.log ++ [e] } :
        Conn).answered serve wr = .ok c' ∧
      (Shows env old (b.handle serve e q) c' ∨ ¬ wr.Sound ∧
        Shows env old (b.handle serve e q).close c') := by
    intro hreq
    refine answered_shows (c := { c with
        srs := (process env {} q).state, inp := q.drop e.taken, lock :=
          false, log := c.log ++ [e] })
      (h.closed.trans hopen) hopen hws rfl rfl (by rw [hlog]) ?_ hdropped
      (by rw [h.output, hdropped, List.append_nil]) h.grown wr
    show (c.log ++ [e]).filter Event.isRequest = c.log ++ [e]
    rw [List.filter_append, h.requests, hlog]
    simp [hreq]
  have halive : ({ c with
      srs := (process env {} q).state, inp := (process env {} q).buf, lock := false } : Conn).closed
      = false := h.closed.trans hopen
  -- the two kinds of requests differ in the field of the state they are in
  cases hcall : callOnce env q with
  | http g =>
    rw [hcall] at he
    cases he
    rw [onRequest_http hH (ret_of_http hcall).2 halive rfl hcut wr]
    exact hend rfl
  | redis r =>
    rw [hcall] at he
    cases he
    obtain ⟨-, hhttp, hredis⟩ := ret_of_redis hcall
    rw [onRequest_redis hH hhttp hredis halive rfl hcut wr]
    exact hend rfl
  | more => rw [hcall] at he; cases he
  | fail err => rw [hcall] at he; cases he
  | panic => rw [hcall] at he; cases he

/-- A read of some bytes. -/
theorem read_shows (hH : H.Follow serve) (hmax : env.requestMaxBytes < 2 ^ 31)
    (h : Shows env old b c) (hopen : b.closed = false)
    {d : Bytes} (hd : d ≠ []) (wr : WriteResult) :
    (∃ b' c', c.turn env H (.read (.data d) wr) = .ok c' ∧
        b.read env serve d = some b' ∧
        (Shows env old b' c' ∨ ¬ wr.Sound ∧ Shows env old b'.close c')) ∨
      (c.turn env H (.read (.data d) wr) = .error .panic ∧ b.read env serve d = none) := by
  obtain ⟨hlock, hws, hlog, hdropped, hlen, hresume⟩ := h.ready hopen
  have halive := h.closed.trans hopen
  have hsize : (c.inp ++ d).length = (b.pending ++ d).length := by
    rw [List.length_append, List.length_append, hlen]
  -- the parser goes on as if it saw everything that is pending for the first time
  rw [turn_data _ halive hlock hws hd, hresume d, hsize]
  unfold Inbox.read
  simp only
  split
  · refine .inl ⟨_, _, rfl, rfl, .inl ?_⟩
    exact shows_close (b := { b with pending := b.pending ++ d, closed := true })
      (c := { c with lock := true, inp := c.inp ++ d }) halive hws rfl h.requests h.output h.sent
      h.grown _ _
  · rename_i hfit
    have hshort : (b.pending ++ d).length < 2 ^ 31 := by omega
    -- one case for each result of the parser
    cases hret : (process env {} (b.pending ++ d)).ret with
    | more =>
      have hcall : callOnce env (b.pending ++ d) = .more := by simp [callOnce, outcome, hret]
      rw [hcall]
      refine .inl ⟨_, _, rfl, rfl, .inl ⟨h.closed, h.requests, h.output, h.sent, h.grown, fun _ =>
        ⟨rfl, hws, hlog, hdropped, process_buf_length env _, fun t => ?_⟩⟩⟩
      refine (process_resumable env).resume _ t _ _ ?_
      rw [← hret]
    | fail e =>
      have hcall : callOnce env (b.pending ++ d) = .fail e := by simp [callOnce, outcome, hret]
      rw [hcall]
      refine .inl ⟨_, _, rfl, rfl, .inl ?_⟩
      exact shows_close (b := { b with pending := b.pending ++ d, closed := true }) (c := { c with
        srs := (process env {} (b.pending ++ d)).state, inp :=
          (process env {} (b.pending ++ d)).buf,
        lock := false }) halive hws rfl h.requests h.output h.sent h.grown _ _
    | panic =>
      have hcall : callOnce env (b.pending ++ d) = .panic := by simp [callOnce, outcome, hret]
      rw [hcall]
      exact .inr ⟨rfl, rfl⟩
    | ok u =>
      simp only
      cases hhttp : (process env {} (b.pending ++ d)).state.http with
      | some g =>
        have hcall : callOnce env (b.pending ++ d) = .http g := by
          simp [callOnce, outcome, hret, hhttp]
        obtain ⟨c', hc', hs⟩ := request_shows hH (e := .http g) h hopen hmax hshort
          (by rw [hcall]; rfl) wr
        rw [hcall]
        exact .inl ⟨_, c', hc', rfl, hs⟩
      | none =>
        cases hredis : (process env {} (b.pending ++ d)).state.redis with
        | some r =>
          have hcall : callOnce env (b.pending ++ d) = .redis r := by
            simp [callOnce, outcome, hret, hhttp, hredis]
          obtain ⟨c', hc', hs⟩ := request_shows hH (e := .redis r) h hopen hmax hshort
            (by rw [hcall]; rfl) wr
          rw [hcall]
          exact .inl ⟨_, c', hc', rfl, hs⟩
        | none =>
          have hcall : callOnce env (b.pending ++ d) = .panic := by
            simp [callOnce, outcome, hret, hhttp, hredis]
          rw [hcall]
          refine .inr ⟨?_, rfl⟩
          simp only [Conn.onRequest, hhttp, hredis]

/-- **One turn**: the inbox can follow, unless its parser panics on what is there. -/
theorem turn_shows (hH : H.Follow serve) (hmax : env.requestMaxBytes < 2 ^ 31)
    (h : Shows env old b c) (t : Turn) :
    (∃ b' c', c.turn env H t = .ok c' ∧ Inbox.Step env serve t b b' ∧ Shows env old b' c') ∨
      (b.closed = false ∧ c.turn env H t = .error .panic ∧ t.input ≠ [] ∧
        b.read env serve t.input = none) := by
  cases hb : b.closed with
  | true =>
    refine .inl ⟨b, c, ?_, .gone hb, h⟩
    rw [Conn.turn.eq_def, if_pos (h.closed.trans hb)]
  | false =>
    have halive := h.closed.trans hb
    obtain ⟨hlock, hws, hlog, hdropped, hlen, hresume⟩ := h.ready hb
    -- a turn that reads nothing and closes
    have hlost : ∀ errType err, ¬ t.Sound → t.input = [] →
        c.turn env H t = .ok (c.closeConnWithError errType err) →
        ∃ b' c', c.turn env H t = .ok c' ∧ Inbox.Step env serve t b b' ∧ Shows env old b' c' :=
      fun errType err hfail hinput hturn =>
        ⟨b.close, _, hturn, .lost hb hinput hfail,
          shows_close (b := b.close) halive hws rfl h.requests h.output h.sent
            h.grown errType err⟩
    cases t with
    | write wr =>
      left
      obtain ⟨c', hc', hs | ⟨hfail, hs⟩⟩ := writeConn_shows h hb wr
      · exact ⟨b, c', by rw [Conn.turn, if_neg (by simp [halive])]; exact hc', .quiet hb rfl, hs⟩
      · exact ⟨b.close, c', by rw [Conn.turn, if_neg (by simp [halive])]; exact hc',
          .lost hb rfl hfail, hs⟩
    | read rd wr =>
      cases rd with
      | again =>
        exact .inl ⟨b, c, by rw [Conn.turn, if_neg (by simp [halive])]; rfl, .quiet hb rfl, h⟩
      | error text =>
        refine .inl (hlost (ascii "read") (some (.io text)) id rfl ?_)
        rw [Conn.turn, if_neg (by simp [halive])]
        rfl
      | data d =>
        by_cases hd : d = []
        · subst hd
          refine .inl (hlost [] none (fun hs => hs.1 rfl) rfl ?_)
          rw [Conn.turn, if_neg (by simp [halive])]
          rfl
        · rcases read_shows hH hmax h hb hd wr with
            ⟨b', c', hc', hread, hs | ⟨hfail, hs⟩⟩ | ⟨hpanic, hread⟩
          · exact .inl ⟨b', c', hc', .read hb hd hread, hs⟩
          · exact .inl ⟨b'.close, c', hc', .readLost hb hd (fun hsound => hfail hsound.2) hread, hs⟩
          · exact .inr ⟨rfl, hpanic, hd, hread⟩

/-- **A run.**  The inbox follows to the end, or to the read on whose bytes the parser panics. -/
theorem turns_show (hH : H.Follow serve) (hmax : env.requestMaxBytes < 2 ^ 31) (ts : List Turn)
    (h : Shows env old b c) :
    (∃ b' c', c.turns env H ts = .ok c' ∧ Inbox.Steps env serve ts b b' ∧ Shows env old b' c') ∨
      (c.turns env H ts = .error .panic ∧ ∃ done t rest b', ts = done ++ t :: rest ∧
        Inbox.Steps env serve done b b' ∧ b'.closed = false ∧ t.input ≠ [] ∧
        b'.read env serve t.input = none) := by
  induction ts generalizing b c with
  | nil => exact .inl ⟨b, c, rfl, .nil b, h⟩
  | cons t ts ih =>
    have hsplit : c.turns env H (t :: ts) = (c.turn env H t >>= fun c' => c'.turns env H ts) := by
      rw [Conn.turns, List.foldlM_cons]
      rfl
    rcases turn_shows hH hmax h t with ⟨b₁, c₁, hturn, hstep, hs⟩ | ⟨hopen, hpanic, hinput, hread⟩
    · rw [hsplit, hturn]
      rcases ih hs with ⟨b', c', hrun, hsteps, hs'⟩ | ⟨hrun, done, u, rest, b', rfl, hsteps, hend⟩
      · exact .inl ⟨b', c', hrun, .cons hstep hsteps, hs'⟩
      · exact .inr ⟨hrun, t :: done, u, rest, b', rfl, .cons hstep hsteps, hend⟩
    · rw [hsplit, hpanic]
      exact .inr ⟨rfl, [], t, ts, b, rfl, .nil b, hopen, hinput, hread⟩

/-- A run that can be evaluated. -/
theorem exists_ok_of_eval {α : Type} {x : Except Halt Conn} {f : Conn → α} {a : α}
    (h : x.toOption.map f = some a) : ∃ c, x = .ok c ∧ f c = a := by
  cases x with
  | ok c => exact ⟨c, rfl, Option.some.inj h⟩
  | error e => cases h

/-- A fresh connection and an empty inbox. -/
theorem shows_start (env : Env) : Shows env [] {} {} :=
  ⟨rfl, rfl, rfl, List.prefix_rfl, List.prefix_rfl, fun _ =>
    ⟨rfl, rfl, rfl, rfl, rfl, fun _ => rfl⟩⟩

end Turn

/-- **The incremental parser serves like one that starts from nothing.**  For every application and
    every run over a new connection, with any results of the system calls: what is handled, what is
    written, what of it can reach the client and whether the connection is closed is as in a run of
    the inbox; the run halts only where the inbox panics on the bytes that are there. -/
theorem serving_refines (env : Env) (hmax : env.requestMaxBytes < 2 ^ 31)
    (serve : Service) (H : Handlers) (hH : H.Follow serve) (ts : List Turn) :
    (∃ c b, ({} : Conn).turns env H ts = .ok c ∧ Inbox.Steps env serve ts {} b ∧
      c.closed = b.closed ∧
        c.log.filter Event.isRequest = b.log ∧ c.sent ++ c.out = b.written ++ b.dropped ∧
        c.sent <+: b.written) ∨
      (({} : Conn).turns env H ts = .error .panic ∧ ∃ done t rest b, ts = done ++ t :: rest ∧
        Inbox.Steps env serve done {} b ∧ b.closed = false ∧ t.input ≠ [] ∧
        b.read env serve t.input = none) := by
  rcases turns_show hH hmax ts (shows_start env) with ⟨b, c, hrun, hsteps, hs⟩ | hpanic
  · exact .inl ⟨c, b, hrun, hsteps, hs.closed, hs.requests, hs.output, hs.sent⟩
  · exact .inr hpanic

/-- An application that says OK to everything. -/
def okService : Service := fun _ => (ascii "+OK\r\n", true)

/-- A POST request cut in its name and in its body, a short write and the begin of a command. -/
def cutTurns : List Turn :=
  [.read (.data (ascii "POST /%61 HTTP/1.1\r\nContent-Le")) (.ok 9), .read .again (.ok 9),
    .read (.data (ascii "ngth: 3\r\n\r\nab")) (.ok 9),
    .read (.data (ascii "c*1\r\n$4\r\nPI")) (.ok 2),
    .write (.again 1), .read (.data (ascii "NG\r\n")) (.error (ascii "broken pipe"))]

/-- In that run the connection and the inbox agree on the requests and on the output. -/
theorem serving_refines_cut :
    ∃ c b, ({} : Conn).turns .plain okService.handlers cutTurns = .ok c ∧
      Inbox.Steps .plain okService cutTurns {} b ∧ c.closed = b.closed ∧
      c.log.filter Event.isRequest = b.log ∧ c.sent ++ c.out = b.written ++ b.dropped ∧
      c.sent <+: b.written := by
  rcases serving_refines .plain (by decide) okService okService.handlers okService.handlers_follow
    cutTurns with hok | ⟨hpanic, -⟩
  · exact hok
  · obtain ⟨c, hrun, -⟩ := exists_ok_of_eval (f := Conn.closed) (a := true)
      (show (({} : Conn).turns .plain okService.handlers cutTurns).toOption.map
        Conn.closed = some true by
        decide +kernel)
    rw [hrun] at hpanic
    cases hpanic

end Resh.Server
