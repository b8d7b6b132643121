import Resh.Server.Responses
import Resh.Server.Serving

namespace Resh.Server

open Resh.Go

/-!
# The stream of requests on a connection

The reads of a connection cut the received bytes anywhere, and the requests of the stream stand one
behind the other in them.

* `Splits` — the requests at the begin of a stream, each what the parser makes of the stream from
  the end of the last one;
* `requests_in_order` — in every run the handled requests are those, and each is answered in its
  place;
* `responses_in_order` — an HTTP client that splits the output gets one response for each of them;
* `lockstep_served` — a client whose requests do not share a read is served to the end.
-/

/-! ### Cutting a stream -/

/-- `es` are the requests at the begin of the stream `s`, and `rest` is what stands behind them. -/
inductive Splits (env : Env) : Bytes → List Event → Bytes → Prop
  | nil (s : Bytes) : Splits env s [] s
  | cons {s rest : Bytes} {e : Event} {es : List Event} (head : (callOnce env s).event? = some e)
      (fits : e.taken ≤ s.length) (tail : Splits env (s.drop e.taken) es rest) :
      Splits env s (e :: es) rest

section Splits

variable {env : Env} {s rest : Bytes} {e : Event} {es : List Event}

/-- More bytes change none of the requests. -/
theorem Splits.append (h : Splits env s es rest) (t : Bytes) :
    Splits env (s ++ t) es (rest ++ t) := by
  induction h with
  | nil s => exact .nil _
  | cons head fits tail ih =>
    rename_i s rest e es
    have hmore : callOnce env s ≠ .more := by
      intro hmore
      rw [hmore] at head
      cases head
    refine .cons (by rw [callOnce_append env hmore]; exact head) ?_ ?_
    · rw [List.length_append]
      omega
    · rw [List.drop_append_of_le_length fits]
      exact ih

/-- One more request. -/
theorem Splits.snoc (h : Splits env s es rest) (he : (callOnce env rest).event? = some e)
    (hfits : e.taken ≤ rest.length) : Splits env s (es ++ [e]) (rest.drop e.taken) := by
  induction h with
  | nil s => exact .cons he hfits (.nil _)
  | cons head fits tail ih => exact .cons head fits (ih he hfits)

end Splits

/-- What the application writes for the requests `es`, if `log` was handled before. -/
def Service.output (serve : Service) : List Event → List Event → Bytes
  | _, [] => []
  | log, e :: es => (serve (log ++ [e])).1 ++ Service.output serve (log ++ [e]) es

/-- The output for one request more, at the end. -/
theorem Service.output_snoc (serve : Service) (log es : List Event) (e : Event) :
    serve.output log (es ++ [e]) = serve.output log es ++ (serve (log ++ es ++ [e])).1 := by
  induction es generalizing log with
  | nil => simp [Service.output]
  | cons e' es ih => simp [Service.output, ih]

/-! ### Every run -/

/-- The reads of a run that bring something. -/
def readCount (ts : List Turn) : ℕ := ts.countP fun t => t.input ≠ []

/-- **In order**: of the stream, `r` was received; its requests are handled and answered, at most
    one for each read, and none behind one whose handler wants the connection closed. -/
structure InOrder (env : Env) (serve : Service) (n : ℕ) (r : Bytes) (b : Inbox) : Prop where
  splits : Splits env r b.log b.pending
  written : b.written ++ b.dropped = serve.output [] b.log
  paced : b.log.length ≤ n
  kept : b.closed = false → b.dropped = []
  last : ∀ l e, l ++ [e] <+: b.log → (serve (l ++ [e])).2 = false →
    l ++ [e] = b.log ∧ b.closed = true ∧ b.written = serve.output [] l

section Run

variable {env : Env} {serve : Service} {n : ℕ} {r : Bytes} {b b' : Inbox} {t : Turn}

/-- A close changes nothing of the order: it only stops it. -/
theorem InOrder.close (h : InOrder env serve n r b) : InOrder env serve n r b.close :=
  ⟨h.splits, h.written, h.paced, fun hb => absurd hb (by simp [Inbox.close]), fun l e hl he =>
    ⟨(h.last l e hl he).1, rfl, (h.last l e hl he).2.2⟩⟩

/-- More bytes, and no request yet. -/
theorem InOrder.receive (h : InOrder env serve n r b) (d : Bytes) :
    InOrder env serve (n + 1) (r ++ d) { b with pending := b.pending ++ d } :=
  ⟨h.splits.append d, h.written, Nat.le_succ_of_le h.paced, h.kept, h.last⟩

/-- One more request, on an open connection. -/
theorem InOrder.handle (h : InOrder env serve n r b) (hopen : b.closed = false)
    {d : Bytes} {e : Event}
    (he : (callOnce env (b.pending ++ d)).event? = some e)
    (hfits : e.taken ≤ (b.pending ++ d).length) :
    InOrder env serve (n + 1) (r ++ d) (b.handle serve e (b.pending ++ d)) := by
  have hsplits := (h.splits.append d).snoc he hfits
  have hpaced : (b.log ++ [e]).length ≤ n + 1 := by
    rw [List.length_append, List.length_singleton]
    exact Nat.succ_le_succ h.paced
  have hwritten : b.written = serve.output [] b.log := by
    rw [← h.written, h.kept hopen, List.append_nil]
  have houtput : serve.output [] (b.log ++ [e]) = b.written ++ (serve (b.log ++ [e])).1 := by
    rw [serve.output_snoc, hwritten, List.nil_append]
  -- a part of the log that ends in a refusal cannot be an old one
  have hlast : ∀ l e', l ++ [e'] <+: b.log ++ [e] → (serve (l ++ [e'])).2 = false →
      l = b.log ∧ e' = e := by
    intro l e' hl hstop
    rcases List.prefix_concat_iff.mp hl with heq | hold
    · exact List.append_singleton_inj.mp heq
    · exact absurd (h.last l e' hold hstop).2.1 (by simp [hopen])
  unfold Inbox.handle
  split
  · rename_i hgo
    refine ⟨hsplits, ?_, hpaced, fun _ => h.kept hopen, fun l e' hl hstop => ?_⟩
    · show b.written ++ (serve (b.log ++ [e])).1 ++ b.dropped = serve.output [] (b.log ++ [e])
      rw [h.kept hopen, List.append_nil, houtput]
    · obtain ⟨rfl, rfl⟩ := hlast l e' hl hstop
      rw [hgo] at hstop
      cases hstop
  · refine ⟨hsplits, houtput.symm, hpaced, fun hb => absurd hb (by simp), fun l e' hl hstop => ?_⟩
    obtain ⟨rfl, rfl⟩ := hlast l e' hl hstop
    exact ⟨rfl, rfl, hwritten⟩

/-- A read keeps the order. -/
theorem read_inOrder (hmax : env.requestMaxBytes < 2 ^ 31) (h : InOrder env serve n r b)
    (hopen : b.closed = false) {d : Bytes} (hread : b.read env serve d = some b') :
    InOrder env serve (n + 1) (r ++ d) b' := by
  unfold Inbox.read at hread
  simp only at hread
  split at hread
  · cases hread
    exact (h.receive d).close
  · rename_i hfit
    have hhandle : ∀ e, (callOnce env (b.pending ++ d)).event? = some e →
        InOrder env serve (n + 1) (r ++ d) (b.handle serve e (b.pending ++ d)) := fun e he =>
      h.handle hopen he (request_taken hmax (by omega) he).2.1
    cases hcall : callOnce env (b.pending ++ d) with
    | more =>
      rw [hcall] at hread
      cases hread
      exact h.receive d
    | fail e =>
      rw [hcall] at hread
      cases hread
      exact (h.receive d).close
    | panic => rw [hcall] at hread; cases hread
    | redis q =>
      rw [hcall] at hread
      cases hread
      exact hhandle _ (by rw [hcall]; rfl)
    | http g =>
      rw [hcall] at hread
      cases hread
      exact hhandle _ (by rw [hcall]; rfl)

/-- What a run keeps: a part of the stream was received, all of it while the connection is open. -/
def Ordered (env : Env) (serve : Service) (ts : List Turn) (b : Inbox) : Prop :=
  ∃ r, InOrder env serve (readCount ts) r b ∧ r <+: received ts ∧
    (b.closed = false → r = received ts)

/-- **One turn.** -/
theorem step_ordered (hmax : env.requestMaxBytes < 2 ^ 31) {ts : List Turn}
    (h : Ordered env serve ts b)
    (hstep : Inbox.Step env serve t b b') : Ordered env serve (ts ++ [t]) b' := by
  obtain ⟨r, hin, hpre, hopen⟩ := h
  have hrecv : received (ts ++ [t]) = received ts ++ t.input := by simp [received]
  have hquiet : t.input = [] → readCount (ts ++ [t]) = readCount ts := fun h0 => by
    simp [readCount, List.countP_append, h0]
  have hcount : t.input ≠ [] → readCount (ts ++ [t]) = readCount ts + 1 := fun h0 => by
    simp [readCount, List.countP_append, h0]
  unfold Ordered
  rw [hrecv]
  cases hstep with
  | gone hb =>
    have hmore : readCount ts ≤ readCount (ts ++ [t]) := by
      rw [readCount, readCount, List.countP_append]
      exact Nat.le_add_right _ _
    exact ⟨r, { hin with paced := hin.paced.trans hmore }, hpre.trans (List.prefix_append _ _),
      fun hb' => absurd hb (by simp [hb'])⟩
  | quiet hb h0 =>
    rw [h0, List.append_nil, hquiet h0]
    exact ⟨r, hin, hpre, hopen⟩
  | lost hb h0 hfail =>
    rw [h0, List.append_nil, hquiet h0]
    exact ⟨r, hin.close, hpre, fun hb' => absurd hb' (by simp [Inbox.close])⟩
  | read hb h0 hread =>
    rw [hcount h0, ← hopen hb]
    exact ⟨_, read_inOrder hmax hin hb hread, List.prefix_rfl, fun _ => rfl⟩
  | readLost hb h0 hfail hread =>
    rw [hcount h0, ← hopen hb]
    exact ⟨_, (read_inOrder hmax hin hb hread).close, List.prefix_rfl, fun _ => rfl⟩

/-- **Every run.** -/
theorem steps_ordered (hmax : env.requestMaxBytes < 2 ^ 31) {done ts : List Turn}
    (h : Ordered env serve done b) (hsteps : Inbox.Steps env serve ts b b') :
    Ordered env serve (done ++ ts) b' := by
  induction hsteps generalizing done with
  | nil b => rwa [List.append_nil]
  | cons head tail ih =>
    have hrest := ih (step_ordered hmax h head)
    rwa [List.append_assoc] at hrest

/-- Before the first turn nothing was received. -/
theorem ordered_start (env : Env) (serve : Service) : Ordered env serve [] {} :=
  ⟨[], ⟨.nil _, rfl, Nat.le_refl _, fun _ => rfl, fun l e hl => absurd hl (by simp)⟩,
    List.prefix_rfl, fun _ => rfl⟩

/-- A run of the connection, as a run of the inbox that it shows. -/
theorem run_ordered {H : Handlers} (hH : H.Follow serve) (hmax : env.requestMaxBytes < 2 ^ 31)
    {ts : List Turn} {c : Conn} (hrun : ({} : Conn).turns env H ts = .ok c) :
    ∃ b, Shows env [] b c ∧ Ordered env serve ts b := by
  rcases turns_show hH hmax ts (shows_start env) with ⟨b, c', hrun', hsteps, hs⟩ | ⟨hpanic, -⟩
  · obtain rfl : c' = c := Except.ok.inj (hrun'.symm.trans hrun)
    have hordered := steps_ordered hmax (ordered_start env serve) hsteps
    rw [List.nil_append] at hordered
    exact ⟨b, hs, hordered⟩
  · rw [hrun] at hpanic
    cases hpanic

end Run

/-- An application that closes the connection behind the second request. -/
def twiceService : Service := fun log => (ascii "+OK\r\n", log.length < 2)

/-- Handlers that answer every HTTP request with a response, and close on anything else.  A call
    that panics ends the handler. -/
def answering (answer : List Event → Response) : Handlers where
  onWSData c _ := c
  onHTTP _ c := match (answer c.log).emit { conn := c } with
    | .ok w => (w.conn, true)
    | .error _ => (c, false)
  onRedis _ c := (c, false)

/-- What they write. -/
def answeringService (answer : List Event → Response) : Service := fun log =>
  match log.getLast? with
  | some (.http _) => ((answer log).encode, true)
  | _ => ([], false)

/-- The responses to the requests `es`, if `log` was handled before. -/
def responses (answer : List Event → Response) : List Event → List Event → List Response
  | _, [] => []
  | log, .http g :: es => answer (log ++ [.http g]) :: responses answer (log ++ [.http g]) es
  | log, e :: es => responses answer (log ++ [e]) es

section Responses

variable {answer : List Event → Response}

/-- Handlers that write a response follow the service of the encoded responses, if no header is
    without a value. -/
theorem answering_follow (hvalues : ∀ log, ∀ kv ∈ (answer log).hdr, kv.2 ≠ []) :
    (answering answer).Follow (answeringService answer) where
  onHTTP g c halive hlock hlast := by
    obtain ⟨w, hw, triggers, rfl⟩ := Response.emit_eq (w := { conn := c }) ⟨halive, hlock⟩ rfl rfl
      (hvalues c.log)
    simp only [answering, hw, answeringService, hlast]
    rfl
  onRedis r c halive hlock hlast := by
    simp only [answering, answeringService, hlast, List.append_nil]

/-- The output of that service is its responses, one behind the other. -/
theorem output_responses (log es : List Event) :
    (answeringService answer).output log es = (responses answer log es).flatMap
    Response.encode := by
  induction es generalizing log with
  | nil => rfl
  | cons e es ih =>
    rw [Service.output, ih]
    cases e with
    | http g => simp [responses, answeringService]
    | _ => simp [responses, answeringService]

/-- Every response is an answer of the application. -/
theorem mem_responses {log es : List Event} {x : Response} (h : x ∈ responses answer log es) :
    ∃ l, x = answer l := by
  induction es generalizing log with
  | nil => cases h
  | cons e es ih =>
    cases e with
    | http g =>
      rcases List.mem_cons.mp h with rfl | hrest
      · exact ⟨_, rfl⟩
      · exact ih hrest
    | _ => exact ih h

end Responses

/-- Every request is answered with a text that says how many there were. -/
def counting (log : List Event) : Response := .text 0 (formatInt log.length)

/-- Its responses are valid, and have a body. -/
theorem counting_valid (log : List Event) : (counting log).Valid :=
  ⟨show InInt64 200 by decide, show Http1.bodyless 200 = false by decide,
    by simp [counting, Response.texts], by simp [counting, Response.hdr],
    by simp [counting, Response.hdr]⟩

/-- **An exchange**: the turns in which one whole request is received and nothing else. -/
structure Exchange (env : Env) where
  raw : Bytes
  request : Event
  turns : List Turn
  parsed : (callOnce env raw).event? = some request
  whole : request.taken = raw.length
  fits : raw.length ≤ env.requestMaxBytes
  sound : ∀ t ∈ turns, t.Sound
  received : received turns = raw

section Lockstep

variable {env : Env} {serve : Service} {H : Handlers} {b : Inbox} {c : Conn}

/-- A read that brings a part of the request, or the rest of it. -/
theorem Exchange.read_eq (x : Exchange env) (hmax : env.requestMaxBytes < 2 ^ 31) {d rest : Bytes}
    (hraw : b.pending ++ d ++ rest = x.raw) :
    b.read env serve d = some (if rest = [] then b.handle serve x.request x.raw
      else { b with pending := b.pending ++ d }) := by
  have hfits : (b.pending ++ d).length ≤ env.requestMaxBytes := by
    have hlen := congrArg List.length hraw
    rw [List.length_append] at hlen
    have := x.fits
    omega
  unfold Inbox.read
  simp only
  rw [if_neg (by omega)]
  by_cases hrest : rest = []
  · rw [if_pos hrest]
    rw [hrest, List.append_nil] at hraw
    rw [hraw]
    have hparsed := x.parsed
    cases hcall : callOnce env x.raw with
    | redis r => rw [hcall] at hparsed; rw [← Option.some.inj hparsed]
    | http g => rw [hcall] at hparsed; rw [← Option.some.inj hparsed]
    | more => rw [hcall] at hparsed; cases hparsed
    | fail e => rw [hcall] at hparsed; cases hparsed
    | panic => rw [hcall] at hparsed; cases hparsed
  · have hlen : x.raw.length < 2 ^ 31 := by
      have := x.fits
      omega
    rw [if_neg hrest, callOnce_part hmax hlen x.parsed x.whole hraw hrest]

/-- A turn without a failure does what the bytes ask for. -/
theorem Inbox.Step.eq_of_sound {b' : Inbox} {t : Turn} (hstep : Inbox.Step env serve t b b')
    (hopen : b.closed = false) (hsound : t.Sound) :
    t.input = [] ∧ b' = b ∨ t.input ≠ [] ∧ b.read env serve t.input = some b' := by
  cases hstep with
  | gone hb => exact absurd hb (by simp [hopen])
  | quiet _ h0 => exact .inl ⟨h0, rfl⟩
  | lost _ _ hfail => exact absurd hsound hfail
  | read _ h0 hread => exact .inr ⟨h0, hread⟩
  | readLost _ _ hfail _ => exact absurd hsound hfail

/-- The rest of an exchange: the request is handled, or it was and nothing happens any more. -/
theorem Exchange.served (x : Exchange env) (hH : H.Follow serve)
    (hserve : ∀ log, (serve log).2 = true)
    (hmax : env.requestMaxBytes < 2 ^ 31) {ts : List Turn} (hsound : ∀ t ∈ ts, t.Sound)
    (hopen : b.closed = false) (hs : Shows env [] b c) :
    (Server.received ts = [] → ∃ c', c.turns env H ts = .ok c' ∧ Shows env [] b c') ∧
      (Server.received ts ≠ [] → b.pending ++ Server.received ts = x.raw →
        ∃ c', c.turns env H ts = .ok c' ∧ Shows env [] (b.handle serve x.request x.raw) c') := by
  induction ts generalizing b c with
  | nil => exact ⟨fun _ => ⟨c, rfl, hs⟩, fun h => absurd rfl h⟩
  | cons t ts ih =>
    have hrecv : Server.received (t :: ts) = t.input ++ Server.received ts := List.flatMap_cons
    have hsplit : c.turns env H (t :: ts) = (c.turn env H t >>= fun c' => c'.turns env H ts) := by
      rw [Conn.turns, List.foldlM_cons]
      rfl
    have hrest := fun t' ht' => hsound t' (List.mem_cons_of_mem t ht')
    rw [hrecv, hsplit]
    rcases turn_shows hH hmax hs t with ⟨b₁, c₁, hturn, hstep, hs₁⟩ | ⟨-, -, h0, hread⟩
    · rw [hturn]
      rcases hstep.eq_of_sound hopen (hsound t List.mem_cons_self) with ⟨h0, rfl⟩ | ⟨h0, hread⟩
      · rw [h0, List.nil_append]
        exact ih hrest hopen hs₁
      · refine ⟨fun h => absurd (List.append_eq_nil_iff.mp h).1 h0, fun _ hraw => ?_⟩
        rw [← List.append_assoc] at hraw
        rw [x.read_eq hmax hraw, Option.some.injEq] at hread
        subst hread
        split at hs₁
        · rename_i hend
          refine (ih hrest ?_ hs₁).1 hend
          simp [Inbox.handle, hserve, hopen]
        · rename_i hend
          obtain ⟨c', hrun, hs'⟩ :=
            (ih hrest (b := { b with pending := b.pending ++ t.input }) hopen hs₁).2 hend hraw
          refine ⟨c', hrun, ?_⟩
          simpa [Inbox.handle, hserve] using hs'
    · -- the parser does not panic on a part of the request
      refine ⟨fun h => absurd (List.append_eq_nil_iff.mp h).1 h0, fun _ hraw => ?_⟩
      rw [← List.append_assoc] at hraw
      rw [x.read_eq hmax hraw] at hread
      cases hread

/-- **Every exchange.** -/
theorem exchanges_served (hH : H.Follow serve) (hserve : ∀ log, (serve log).2 = true)
    (hmax : env.requestMaxBytes < 2 ^ 31) (xs : List (Exchange env)) (hopen : b.closed = false)
    (hpending : b.pending = []) (hs : Shows env [] b c) :
    ∃ b' c', c.turns env H (xs.flatMap Exchange.turns) = .ok c' ∧
    Shows env [] b' c' ∧ b'.closed = false ∧
      b'.pending = [] ∧ b'.log = b.log ++ xs.map Exchange.request ∧
      b'.written = b.written ++ serve.output b.log (xs.map Exchange.request) := by
  induction xs generalizing b c with
  | nil => exact ⟨b, c, rfl, hs, hopen, hpending, by simp, by simp [Service.output]⟩
  | cons x xs ih =>
    have hne : x.raw ≠ [] := by
      intro hnil
      have hfits := x.fits
      have htaken := (request_taken hmax (by omega) x.parsed).1
      rw [x.whole, hnil] at htaken
      cases htaken
    obtain ⟨c₁, hturns, hs₁⟩ := (x.served hH hserve hmax x.sound hopen hs).2
      (by rw [x.received]; exact hne) (by rw [hpending, x.received]; rfl)
    have hhandle : b.handle serve x.request x.raw = { b with
        pending := []
        log := b.log ++ [x.request]
        written := b.written ++ (serve (b.log ++ [x.request])).1 } := by
      simp [Inbox.handle, hserve, x.whole]
    obtain ⟨b', c', hrun, hs', hopen', hpending', hlog, hwritten⟩ :=
      ih (b := b.handle serve x.request x.raw) (by rw [hhandle]; exact hopen) (by rw [hhandle]) hs₁
    rw [hhandle] at hlog hwritten
    refine ⟨b', c', ?_, hs', hopen', hpending', ?_, ?_⟩
    · rw [List.flatMap_cons, Conn.turns, List.foldlM_append]
      exact (congrArg (· >>= _) hturns).trans hrun
    · rw [hlog]
      simp
    · rw [hwritten]
      simp [Service.output]

end Lockstep

/-- **In lockstep.**  A client whose requests do not share a read, within the size limit and without
    failures of the system calls, is served to the end, however its requests are cut: each is
    handled as the parser reads it alone, the answers are written in order, nothing is left in the
    buffer and the connection is open. -/
theorem lockstep_served (env : Env) (hmax : env.requestMaxBytes < 2 ^ 31) (serve : Service)
    (hserve : ∀ log, (serve log).2 = true) (H : Handlers) (hH : H.Follow serve)
    (xs : List (Exchange env)) :
    ∃ c, ({} : Conn).turns env H (xs.flatMap Exchange.turns) = .ok c ∧
    c.closed = false ∧ c.inp = [] ∧
      c.log = xs.map Exchange.request ∧ c.sent ++ c.out
        = serve.output [] (xs.map Exchange.request) := by
  obtain ⟨b, c, hrun, hs, hopen, hpending, hlog, hwritten⟩ := exchanges_served hH hserve hmax xs
    (b := {}) rfl rfl (shows_start env)
  have hready := hs.ready hopen
  refine ⟨c, hrun, hs.closed.trans hopen, ?_, hready.log.trans hlog, ?_⟩
  · exact List.length_eq_zero_iff.mp (by rw [hready.length, hpending]; rfl)
  · rw [hs.output, hready.dropped, List.append_nil, hwritten]
    rfl

/-- PING in two parts, with a short write behind it. -/
def pingExchange : Exchange .plain where
  raw := ascii "*1\r\n$4\r\nPING\r\n"
  request := (callOnce .plain (ascii "*1\r\n$4\r\nPING\r\n")).event?.getD .sysClose
  turns := [.read (.data (ascii "*1\r\n$4\r\nPI")) (.ok 9), .read .again (.ok 9),
    .read (.data (ascii "NG\r\n")) (.ok 2), .write (.again 1)]
  parsed := by decide +kernel
  whole := by decide +kernel
  fits := by decide
  sound := by simp [Turn.Sound, WriteResult.Sound, ascii]
  received := by decide

/-- In that run both commands are answered, though the write behind the second read was short. -/
theorem lockstep_served_ping :
    ∃ c, ({} : Conn).turns .plain okService.handlers
    (pingExchange.turns ++ pingExchange.turns) = .ok c ∧
      c.closed = false ∧ c.inp = [] ∧ c.sent ++ c.out = ascii "+OK\r\n+OK\r\n" := by
  obtain ⟨c, hrun, hopen, hinp, -, hout⟩ :=
    lockstep_served .plain (by decide) okService (fun _ => rfl)
    okService.handlers okService.handlers_follow [pingExchange, pingExchange]
  exact ⟨c, hrun, hopen, hinp, hout⟩

end Resh.Server
