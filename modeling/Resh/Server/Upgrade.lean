import Resh.Go.Digest
import Resh.Server.Headers
import Resh.Server.Response
import Resh.Server.Serving

namespace Resh.Server

open Resh.Go Resh.Incremental

/-!
# http.go — the upgrade to a websocket

`UpgradeWebsocket` answers a request with the head of a 101 response and turns the connection into a
websocket.  A client sends its request and then frames; it need not wait for the answer.

* `upgradeWebsocket_eq` — what is written;
* `Phase` — how far a connection has come with such a client;
* `turn_phase` — a turn of the event loop;
* `upgrade_session` — every run, however the bytes are cut into reads.
-/

/-! ### `UpgradeWebsocket` -/

/-- The GUID of the handshake. -/
def websocketGuid : Bytes := ascii "258EAFA5-E914-47DA-95CA-C5AB0DC85B11"

/-- The value of `Sec-WebSocket-Accept` for a key. -/
def acceptKey (key : Bytes) : Bytes := base64 (Sha1.sum (key ++ websocketGuid))

example : acceptKey (ascii "dGhlIHNhbXBsZSBub25jZQ==") = ascii "s3pPLMBiTxaQ9kYGzzhZRbK+xOo=" := by
  decide +kernel

namespace HttpWriter

/-- The headers that `UpgradeWebsocket` writes itself. -/
def upgradeReserved : List Bytes :=
  [ascii "Upgrade", ascii "Connection", ascii "Sec-WebSocket-Accept"]

/-- The body of the loop over the header map. -/
def writeUpgradeHeader (w : HttpWriter) (kv : Bytes × List Bytes) : Except Halt HttpWriter :=
  if upgradeReserved.contains kv.1 then .ok w
  else do
    let w ← w.writeString kv.1
    let w ← w.writeString (ascii ": ")
    match kv.2 with
    | [] => .error .panic
    | v :: _ => do
      let w ← w.writeString v
      w.writeString (ascii "\r\n")

/-- The begin of the response, up to the accept value. -/
def upgradeHead : Bytes :=
  ascii "HTTP/1.1 101 Switching Protocols\r\nUpgrade: websocket\r\nConnection: Upgrade\r\nSec-WebSocket-Accept: "

/-- `w.UpgradeWebsocket(hdr)` for the request `req`, and whether it returns a websocket. -/
def upgradeWebsocket (req : HTTP) (w : HttpWriter) (hdr : List (Bytes × List Bytes)) :
    Except Halt (HttpWriter × Bool) :=
  if ¬ req.wsUpgrade then .ok (w, false)
  else
    let w := { w with conn := { w.conn with ws := some {} } }
    match req.getHeader (ascii "sec-websocket-key") with
    | none => .error .panic
    | some key => do
      let w ← w.writeString upgradeHead
      let w ← w.writeString (acceptKey key)
      let w ← w.writeString (ascii "\r\n")
      let w ← hdr.foldlM writeUpgradeHeader w
      let w ← w.writeString (ascii "\r\n")
      .ok (w.flush, true)

/-- The entries that the loop over the header map writes. -/
def upgradeEntries (hdr : List (Bytes × List Bytes)) : List (Bytes × Bytes) :=
  (hdr.filter fun kv => !upgradeReserved.contains kv.1).map fun kv => (kv.1, kv.2.headD [])

/-- The header of the response. -/
def upgradeFields (key : Bytes) (hdr : List (Bytes × List Bytes)) : List (Bytes × Bytes) :=
  [(ascii "Upgrade", ascii "websocket"), (ascii "Connection", ascii "Upgrade"),
    (ascii "Sec-WebSocket-Accept", acceptKey key)] ++ upgradeEntries hdr

/-- The response. -/
def switching (key : Bytes) (hdr : List (Bytes × List Bytes)) : Bytes :=
  Http1.encodeHead 101 (statusText 101) (upgradeFields key hdr)

variable {w : HttpWriter} {key : Bytes} {hdr : List (Bytes × List Bytes)}

theorem foldlM_writeUpgradeHeader (h : w.Ready) (hvalues : ∀ kv ∈ hdr, kv.2 ≠ []) :
    hdr.foldlM writeUpgradeHeader w
      = .ok (w.add (joinLines ((upgradeEntries hdr).map Http1.headerLine))) := by
  induction hdr generalizing w with
  | nil => simp [upgradeEntries, pure, Except.pure]
  | cons kv hdr ih =>
    have hrest := fun kv' hkv' => hvalues kv' (List.mem_cons_of_mem kv hkv')
    rw [List.foldlM_cons, writeUpgradeHeader]
    by_cases hres : upgradeReserved.contains kv.1 = true
    · have hentries : upgradeEntries (kv :: hdr) = upgradeEntries hdr := by
        simp only [upgradeEntries, List.filter_cons, hres, Bool.not_true,
          Bool.false_eq_true, if_false]
      rw [if_pos hres, hentries]
      exact ih h hrest
    · obtain ⟨k, vs⟩ := kv
      cases vs with
      | nil => exact absurd rfl (hvalues _ List.mem_cons_self)
      | cons v vs =>
        have hentries : upgradeEntries ((k, v :: vs) :: hdr) = (k, v) :: upgradeEntries hdr := by
          have hk : upgradeReserved.contains k = false := Bool.eq_false_iff.2 hres
          simp only [upgradeEntries, List.filter_cons, hk, Bool.not_false, if_true, List.map_cons,
            List.headD_cons]
        rw [if_neg hres, hentries, List.map_cons, joinLines_cons]
        simp only [bind, Except.bind, writeString_eq h, writeString_eq (h.add _), add_add]
        rw [ih (h.add _) hrest, add_add]
        simp [Http1.headerLine, crlf, ascii, ch]

/-- **What `UpgradeWebsocket` does** to an open connection. -/
theorem upgradeWebsocket_eq {req : HTTP} (h : w.Ready) (hup : req.wsUpgrade = true)
    (hkey : req.getHeader (ascii "sec-websocket-key") = some key)
    (hvalues : ∀ kv ∈ hdr, kv.2 ≠ []) : upgradeWebsocket req w hdr = .ok ({ w with
      conn := { w.conn with ws := some {}, out := w.conn.out ++ switching key hdr }
      triggers := w.triggers + 1 }, true) := by
  have h' : ({ w with conn := { w.conn with ws := some {} } } : HttpWriter).Ready :=
    ⟨h.alive, h.unlocked⟩
  have hhead : upgradeHead = Http1.statusLine 101 (statusText 101) ++ crlf
        ++ (Http1.headerLine (ascii "Upgrade", ascii "websocket") ++ crlf)
        ++ (Http1.headerLine (ascii "Connection", ascii "Upgrade") ++ crlf)
        ++ (ascii "Sec-WebSocket-Accept" ++ ascii ": ") := by decide +kernel
  have hend : ascii "\r\n" = crlf := by decide
  have hsame : upgradeHead ++ acceptKey key ++ ascii "\r\n"
      ++ joinLines ((upgradeEntries hdr).map Http1.headerLine)
      ++ ascii "\r\n" = switching key hdr := by
    rw [hhead, hend, switching, Http1.encodeHead, upgradeFields]
    simp only [List.cons_append, List.nil_append, List.map_cons, joinLines_cons, Http1.headerLine,
      List.append_assoc]
  unfold upgradeWebsocket
  simp only [hup, not_true_eq_false, if_false, hkey, bind, Except.bind, writeString_eq h',
    writeString_eq (h'.add _), add_add, foldlM_writeUpgradeHeader (h'.add _) hvalues]
  rw [hsame, flush_eq (h'.add _).alive]
  rfl

/-- The headers of the application can be written in lines of their own. -/
def CleanHeader (hdr : List (Bytes × List Bytes)) : Prop :=
  ∀ kv ∈ hdr, kv.2 ≠ [] ∧ Http1.Clean (kv.1, kv.2.headD [])

/-- **The client reads the response**, and what follows it. -/
theorem head_switching (hclean : CleanHeader hdr) (key rest : Bytes) :
    Http1.head (switching key hdr ++ rest)
      = some (101, (upgradeFields key hdr).map Http1.received, rest) := by
  refine Http1.head_encodeHead (by decide) (by decide +kernel) (fun f hf => ?_) rest
  have hno : (13 : UInt8) ∉ base64Alphabet ++ [ch '='] := by decide +kernel
  rw [upgradeFields, List.mem_append] at hf
  rcases hf with hf | hf
  · simp only [List.mem_cons, List.not_mem_nil, or_false] at hf
    rcases hf with rfl | rfl | rfl
    · exact ⟨by decide, by decide, by decide⟩
    · exact ⟨by decide, by decide, by decide⟩
    · have hname : ch ':' ∉ ascii "Sec-WebSocket-Accept" ∧ 13 ∉ ascii "Sec-WebSocket-Accept" := by
        decide
      exact ⟨hname.1, hname.2, fun hmem => hno (mem_base64 hmem)⟩
  · obtain ⟨kv, hkv, rfl⟩ := List.mem_map.mp hf
    exact (hclean kv (List.mem_filter.mp hkv).1).2

end HttpWriter

/-! ### A client that upgrades -/

/-- **A handshake**: one whole request that asks for a websocket and has a key in its header. -/
structure Handshake (env : Env) where
  raw : Bytes
  request : HTTP
  key : Bytes
  parsed : callOnce env raw = .http request
  whole : request.bodyLen + request.hdrLen = raw.length
  upgrade : request.wsUpgrade = true
  line : firstLine raw ≠ []
  intact : HeadersIntact raw
  header : ((rawHeaders raw).find? (·.1 = ascii "sec-websocket-key")).map (·.2) = some key

/-- `GetHeader` finds the key. -/
theorem Handshake.getHeader_key {env : Env} (x : Handshake env)
    (hmax : env.requestMaxBytes < 2 ^ 31) (hlen : x.raw.length < 2 ^ 31) :
    x.request.getHeader (ascii "sec-websocket-key") = some x.key := by
  rw [HTTP.getHeader, foreachHeader_eq,
    scan_accepted (whole_of_http hmax hlen x.parsed) x.parsed x.line,
    (headersIntact_iff x.raw).mp x.intact, replay_true, visit_lookup, x.header]
  rfl

/-- The handler upgrades the connection for the request and returns true. -/
def Handlers.Upgrades (H : Handlers) (req : HTTP) (hdr : List (Bytes × List Bytes)) : Prop :=
  ∀ c : Conn, c.closed = false → c.lock = false →
    ∃ w, HttpWriter.upgradeWebsocket req { conn := c } hdr = .ok (w, true) ∧
    H.onHTTP req c = (w.conn, true)

/-- A connection on which the request was handled and nothing else. -/
def Handshake.answered {env : Env} (x : Handshake env) (hdr : List (Bytes × List Bytes)) : Conn :=
  { log := [.http x.request], out := HttpWriter.switching x.key hdr }

/-- **How far the connection has come** after the turns `ts`. -/
inductive Phase (H : Handlers) {env : Env} (x : Handshake env) (hdr : List (Bytes × List Bytes))
    (frames : List ClientFrame) (ts : List Turn) (c : Conn) : Prop
  /-- the request is not there in full -/
  | waiting (part : (received ts).length < x.raw.length) (opened : c.closed = false)
      (ready : Ready env { pending := received ts } c) (silent : c.sent ++ c.out = [])
  /-- the request has been answered; what came with its end waits for the next read -/
  | holding {first behind : List Turn} {t : Turn} {held : Bytes} (split : ts = first ++ t :: behind)
      (part : (received first).length < x.raw.length) (quiet : received behind = [])
      (stream : received ts = x.raw ++ held) (did : Did H (x.answered hdr) [] c)
      (upgraded : Upgraded none c) (inp : c.inp = held)
  /-- the frames are handled as they come -/
  | streaming {s : Bytes} (stream : received ts = x.raw ++ s)
      (inStep : InStep H frames (x.answered hdr) s c)

theorem received_append (ts us : List Turn) : received (ts ++ us) = received ts ++ received us :=
  List.flatMap_append

theorem received_singleton (t : Turn) : received [t] = t.input := by simp [received]

section Turn

variable {env : Env} {x : Handshake env} {hdr : List (Bytes × List Bytes)} {H : Handlers}
  {frames : List ClientFrame} {ts : List Turn} {c : Conn}

/-- A turn that reads nothing, while the request is not there in full. -/
theorem waiting_quiet {t : Turn} (ht : t.Sound) (hnil : t.input = []) (hopen : c.closed = false)
    (hready : Ready env { pending := received ts } c) (hsilent : c.sent ++ c.out = []) :
    ∃ c', c.turn env H t = .ok c' ∧ c'.closed = false ∧ Ready env { pending := received ts } c' ∧
      c'.sent ++ c'.out = [] := by
  obtain ⟨-, hout⟩ := List.append_eq_nil_iff.mp hsilent
  rw [Conn.turn.eq_def, if_neg (by simp [hopen])]
  cases t with
  | write wr =>
    obtain ⟨c', hc', hw⟩ := Conn.writeConn_written hready.unlocked wr
    obtain rfl := hw.eq_send ht (by rw [hready.ws]; rfl)
    rw [Conn.send_of_out_eq_nil hout] at hc'
    exact ⟨c, hc', hopen, hready, hsilent⟩
  | read rd wr =>
    cases rd with
    | again => exact ⟨c, rfl, hopen, hready, hsilent⟩
    | error text => exact absurd ht id
    | data d => exact absurd hnil ht.1

/-- A read that leaves the request incomplete. -/
theorem waiting_part {d : Bytes} {wr : WriteResult}
    (hmore : callOnce env (received ts ++ d) = .more)
    (hfit : ((received ts ++ d).length : ℤ) ≤ env.requestMaxBytes)
    (hd : d ≠ []) (hopen : c.closed = false)
    (hready : Ready env { pending := received ts } c) (hsilent : c.sent ++ c.out = []) :
    ∃ c', c.turn env H (.read (.data d) wr) = .ok c' ∧ c'.closed = false ∧
      Ready env { pending := received ts ++ d } c' ∧ c'.sent ++ c'.out = [] := by
  have hlen : (c.inp ++ d).length = (received ts ++ d).length := by
    rw [List.length_append, List.length_append, hready.length]
  have hret := ret_of_more hmore
  rw [turn_data H hopen hready.unlocked hready.ws hd wr, hready.resume d,
    hlen, if_neg (by omega), hret]
  refine ⟨_, rfl, hopen, ⟨rfl, hready.ws, hready.log, rfl, process_buf_length env _, fun e => ?_⟩,
    hsilent⟩
  refine (process_resumable env).resume _ e _ _ ?_
  rw [← hret]

/-- **The read that completes the request**: it is answered, and what is behind it is kept. -/
theorem waiting_complete {d held : Bytes} {wr : WriteResult} (hup : H.Upgrades x.request hdr)
    (hvalues : ∀ kv ∈ hdr, kv.2 ≠ []) (hmax : env.requestMaxBytes < 2 ^ 31)
    (hwhole : received ts ++ d = x.raw ++ held)
    (hfit : ((received ts ++ d).length : ℤ) ≤ env.requestMaxBytes) (hd : d ≠ []) (hwr : wr.Sound)
    (hopen : c.closed = false) (hready : Ready env { pending := received ts } c)
    (hsilent : c.sent ++ c.out = []) :
    ∃ c', c.turn env H (.read (.data d) wr) = .ok c' ∧ Did H (x.answered hdr) [] c' ∧
    Upgraded none c' ∧ c'.inp = held := by
  have hlen : (c.inp ++ d).length = (received ts ++ d).length := by
    rw [List.length_append, List.length_append, hready.length]
  have hcall : callOnce env (x.raw ++ held) = .http x.request := by
    rw [callOnce_append env (by rw [x.parsed]; exact fun h => nomatch h), x.parsed]
  have hshort : (x.raw ++ held).length < 2 ^ 31 := by
    rw [← hwhole]
    omega
  obtain ⟨-, hle, hdrop⟩ := request_taken (e := .http x.request) hmax hshort (by rw [hcall]; rfl)
  have htaken : Event.taken (.http x.request) = x.raw.length := x.whole
  rw [htaken, List.drop_left] at hdrop
  have hcut : slice? (process env {} (x.raw ++ held)).buf
      ((x.request.bodyLen : ℤ) + x.request.hdrLen)
      (process env {} (x.raw ++ held)).buf.length = some held := by
    rw [← Nat.cast_add, x.whole]
    refine slice?_tail_eq_some.mpr ⟨?_, hdrop.symm⟩
    rw [process_buf_length]
    exact htaken ▸ hle
  obtain ⟨hret, hhttp⟩ := ret_of_http hcall
  rw [turn_data H hopen hready.unlocked hready.ws hd wr, hready.resume d,
    hlen, if_neg (by omega), hwhole, hret]
  -- the handler
  obtain ⟨w, hw, hcallback⟩ := hup { c with
    srs := (process env {} (x.raw ++ held)).state, inp := held, lock := false
    log := c.log ++ [.http x.request] } hopen rfl
  have hraw : x.raw.length < 2 ^ 31 := by
    rw [List.length_append] at hshort
    omega
  rw [HttpWriter.upgradeWebsocket_eq ⟨hopen, rfl⟩ x.upgrade
    (x.getHeader_key hmax hraw) hvalues] at hw
  cases hw
  have hupgraded : Upgraded none { c with
      ws := some {}
      srs := (process env {} (x.raw ++ held)).state, inp := held, lock := false
      log := c.log ++ [.http x.request], out := c.out ++ HttpWriter.switching x.key hdr } :=
    ⟨hopen, rfl, {}, rfl, rfl, rfl⟩
  obtain ⟨c', hc', hdid, hup', hinp'⟩ := finishRead_spec (H := H) hupgraded hwr
  refine ⟨c', ?_, .quiet ?_ ?_, hup', hinp'⟩
  · simp only [Conn.onRequest, hhttp, bind, Except.bind]
    rw [Conn.truncateInputBuffer_eq rfl hcut]
    simp only [hcallback]
    exact hc'
  · rw [hdid.log]
    simp [Handshake.answered, hready.log]
  · obtain ⟨ws, hws, hout⟩ := hdid.output
    cases hws
    rw [hout]
    simp [Handshake.answered, ← List.append_assoc, hsilent]

/-- While the request is answered and nothing was read since, a turn that reads nothing. -/
theorem holding_quiet {t : Turn} (ht : t.Sound) (hnil : t.input = []) (hc : Upgraded none c) :
    ∃ c', c.turn env H t = .ok c' ∧ Did H c [] c' ∧ Upgraded none c' ∧ c'.inp = c.inp := by
  rw [Conn.turn.eq_def, if_neg (by simp [hc.alive])]
  cases t with
  | write wr => exact writeConn_spec hc ht
  | read rd wr =>
    cases rd with
    | again => exact ⟨c, rfl, Did.refl c, hc, rfl⟩
    | error text => exact absurd ht id
    | data d => exact absurd hnil ht.1

/-- The next read finds the frames that came with the request. -/
theorem holding_read {d : Bytes} {wr : WriteResult} {c₀ : Conn} (hH : H.OnlyWrites)
    (hmax : env.requestMaxBytes < 2 ^ 63) (hlegal : Legal none frames)
    (hsize : ((encodeAll frames).length : ℤ) ≤ env.requestMaxBytes) (hd : d ≠ []) (hwr : wr.Sound)
    (hdid : Did H c₀ [] c) (hc : Upgraded none c) (hpre : c.inp ++ d <+: encodeAll frames) :
    ∃ c', c.turn env H (.read (.data d) wr) = .ok c' ∧ InStep H frames c₀ (c.inp ++ d) c' := by
  obtain ⟨now, rest, tail, rfl, htext, hcut⟩ := exists_cut frames hpre
  have hread : c.turn env H (.read (.data d) wr)
      = Conn.parseNext env H wr (c.inp.length + d.length + 1) d c := by
    obtain ⟨b, d, rfl⟩ := List.exists_cons_of_ne_nil hd
    rw [Conn.turn, if_neg (by simp [hc.alive])]
    rfl
  have hall : encodeAll (now ++ rest) = encodeAll now ++ encodeAll rest := by simp [encodeAll]
  have hle : (encodeAll now ++ tail).length ≤ (encodeAll (now ++ rest)).length :=
    htext ▸ hpre.length_le
  have hrest : (encodeAll rest).length < 2 ^ 63 := by
    rw [hall, List.length_append] at hsize
    omega
  have hfuel : now.length < c.inp.length + d.length + 1 := by
    have hnow := length_le_encodeAll now
    have hlen := congrArg List.length htext
    rw [List.length_append, List.length_append] at hlen
    omega
  obtain ⟨c', hc', hdid', hclosed, hopen⟩ :=
    parseNext_spec hH hmax hwr (hcut.parse_more hrest) now none c d _
    hc htext (legal_left hlegal) (by simp only [Option.getD_none, List.length_nil]; omega) hfuel
  exact ⟨c', hread.trans hc', now, rest, tail, rfl, htext, hcut, hdid.trans hdid', hclosed, hopen⟩

/-- **A turn** brings the connection on. -/
theorem turn_phase (hH : H.OnlyWrites) (hup : H.Upgrades x.request hdr)
    (hvalues : ∀ kv ∈ hdr, kv.2 ≠ [])
    (hmax : env.requestMaxBytes < 2 ^ 31) (hlegal : Legal none frames)
    (hsize : ((x.raw ++ encodeAll frames).length : ℤ) ≤ env.requestMaxBytes)
    (hphase : Phase H x hdr frames ts c) (t : Turn) (ht : t.Sound)
    (hpre : received ts ++ t.input <+: x.raw ++ encodeAll frames) :
    ∃ c', c.turn env H t = .ok c' ∧ Phase H x hdr frames (ts ++ [t]) c' := by
  have hrecv : received (ts ++ [t]) = received ts ++ t.input := by
    rw [received_append, received_singleton]
  have hfit : ((received ts ++ t.input).length : ℤ) ≤ env.requestMaxBytes := by
    have := hpre.length_le
    omega
  have hsize' : ((encodeAll frames).length : ℤ) ≤ env.requestMaxBytes := by
    rw [List.length_append] at hsize
    omega
  -- only a read of some bytes moves the phase on
  have hinput : t.input = [] ∨ ∃ d wr, t = .read (.data d) wr ∧ d ≠ [] ∧ wr.Sound := by
    cases t with
    | write wr => exact .inl rfl
    | read rd wr =>
      cases rd with
      | again => exact .inl rfl
      | error text => exact .inl rfl
      | data d => exact .inr ⟨d, wr, rfl, ht⟩
  cases hphase with
  | waiting part opened ready silent =>
    rcases hinput with hnil | ⟨d, wr, rfl, hd, hwr⟩
    · obtain ⟨c', hc', hopen', hready', hsilent'⟩ :=
        waiting_quiet (H := H) ht hnil opened ready silent
      rw [hnil, List.append_nil] at hrecv
      exact ⟨c', hc', .waiting (by rwa [hrecv]) hopen' (by rwa [hrecv]) hsilent'⟩
    · -- the request is still incomplete, or the read brings its end and perhaps a begin of the
      -- frames
      by_cases hlt : (received ts ++ d).length < x.raw.length
      · obtain ⟨q, hq⟩ := List.prefix_of_prefix_length_le hpre
          (List.prefix_append _ _) (Nat.le_of_lt hlt)
        have hmore : callOnce env (received ts ++ d) = .more := by
          refine callOnce_part (e := .http x.request) hmax ?_ (by rw [x.parsed]; rfl) x.whole hq ?_
          · rw [List.length_append] at hsize
            omega
          · rintro rfl
            rw [List.append_nil] at hq
            exact absurd (congrArg List.length hq) (Nat.ne_of_lt hlt)
        obtain ⟨c', hc', hopen', hready', hsilent'⟩ :=
          waiting_part (H := H) hmore hfit hd opened ready silent
        exact ⟨c', hc', .waiting (by rwa [hrecv]) hopen' (by rwa [hrecv]) hsilent'⟩
      · obtain ⟨held, hheld⟩ := List.prefix_of_prefix_length_le (List.prefix_append _ _) hpre
          (Nat.le_of_not_lt hlt)
        obtain ⟨c', hc', hdid, hupg, hinp⟩ :=
          waiting_complete hup hvalues hmax hheld.symm hfit hd hwr opened ready silent
        have hquiet : received [] = [] := rfl
        exact ⟨c', hc', .holding rfl part hquiet (hrecv.trans hheld.symm) hdid hupg hinp⟩
  | @holding first behind u held split part quiet stream did upgraded inp =>
    rcases hinput with hnil | ⟨d, wr, rfl, hd, hwr⟩
    · obtain ⟨c', hc', hdid, hupg, hinp⟩ := holding_quiet (H := H) ht hnil upgraded
      rw [hnil, List.append_nil] at hrecv
      have hsplit : ts ++ [t] = first ++ u :: (behind ++ [t]) := by
        rw [split, List.append_assoc, List.cons_append]
      have hquiet : received (behind ++ [t]) = [] := by
        rw [received_append, received_singleton, quiet, hnil, List.append_nil]
      exact ⟨c', hc', .holding hsplit part hquiet (hrecv.trans stream)
        (did.trans hdid) hupg (hinp.trans inp)⟩
    · -- the first read behind the upgrade hands the bytes that were held to the frames
      rw [stream, List.append_assoc, List.prefix_append_right_inj, ← inp] at hpre
      obtain ⟨c', hc', hin⟩ := holding_read hH (by omega) hlegal hsize' hd hwr did upgraded hpre
      exact ⟨c', hc', .streaming (by rw [hrecv, stream, List.append_assoc, ← inp]; rfl) hin⟩
  | @streaming s stream inStep =>
    rw [stream, List.append_assoc, List.prefix_append_right_inj] at hpre
    obtain ⟨c', hc', hin⟩ := turn_inStep hH (by omega) hlegal hsize' inStep t ht hpre
    exact ⟨c', hc', .streaming (by rw [hrecv, stream, List.append_assoc]) hin⟩

/-- **A run.** -/
theorem turns_phase (hH : H.OnlyWrites) (hup : H.Upgrades x.request hdr)
    (hvalues : ∀ kv ∈ hdr, kv.2 ≠ []) (hmax : env.requestMaxBytes < 2 ^ 31)
    (hlegal : Legal none frames)
    (hsize : ((x.raw ++ encodeAll frames).length : ℤ) ≤ env.requestMaxBytes) (us : List Turn)
    (hus : ∀ t ∈ us, t.Sound) (hphase : Phase H x hdr frames ts c)
    (hpre : received (ts ++ us) <+: x.raw ++ encodeAll frames) :
    ∃ c', c.turns env H us = .ok c' ∧ Phase H x hdr frames (ts ++ us) c' := by
  induction us generalizing ts c with
  | nil => exact ⟨c, rfl, by rwa [List.append_nil]⟩
  | cons t us ih =>
    rw [List.append_cons] at hpre ⊢
    have hstep : received ts ++ t.input <+: x.raw ++ encodeAll frames := by
      rw [received_append, received_append, received_singleton] at hpre
      exact (List.prefix_append _ _).trans hpre
    obtain ⟨c₁, hc₁, hphase₁⟩ := turn_phase hH hup hvalues hmax hlegal hsize hphase t
      (hus t List.mem_cons_self) hstep
    obtain ⟨c', hrun, hphase'⟩ := ih (fun u hu => hus u (List.mem_cons_of_mem t hu)) hphase₁ hpre
    refine ⟨c', ?_, hphase'⟩
    rw [Conn.turns, List.foldlM_cons, hc₁]
    exact hrun

end Turn

/-- **A client that upgrades.**  For every whole request that asks for a websocket, every list of
    frames in a legal order behind it and every way to cut the two into reads, also in one read:
    until the request is there nothing happens; then the client reads a 101 response with the accept
    value of its key, and behind it what the frames received so far have called for, as if they had
    come alone.  Only frames that came with the end of the request wait for the next read. -/
theorem upgrade_session (env : Env) (hmax : env.requestMaxBytes < 2 ^ 31) (x : Handshake env)
    (hdr : List (Bytes × List Bytes)) (hclean : HttpWriter.CleanHeader hdr) (H : Handlers)
    (hH : H.OnlyWrites) (hup : H.Upgrades x.request hdr) (frames : List ClientFrame)
    (hlegal : Legal none frames) (hsize : ((x.raw ++ encodeAll frames).length : ℤ)
      ≤ env.requestMaxBytes)
    (ts : List Turn) (hts : ∀ t ∈ ts, t.Sound) (hpre : received ts <+: x.raw ++ encodeAll frames) :
    ∃ c, ({} : Conn).turns env H ts = .ok c ∧
      ((received ts).length < x.raw.length ∧ c.closed = false ∧ c.log = [] ∧ c.sent ++ c.out = [] ∨
        ∃ done rest tail w, frames = done ++ rest ∧ received ts
          = x.raw ++ (encodeAll done ++ tail) ∧ c.log = .http x.request :: deliver none done ∧
          Outputs H [.http x.request] (HttpWriter.switching x.key hdr) (deliver none done) w ∧
          Http1.head (c.sent ++ c.out)
            = some (101, (HttpWriter.upgradeFields x.key hdr).map Http1.received, w) ∧
          ((∃ f ∈ done, f.opcode = 8) → c.closed = true) ∧
          ((∀ f ∈ done, f.opcode ≠ 8) → c.closed = false ∧ c.inp = tail) ∧
          (Cut tail rest ∨ done = [] ∧ ∃ first t behind, ts = first ++ t :: behind ∧
            (received first).length < x.raw.length ∧ received behind = [])) := by
  have hraw : 0 < x.raw.length := by
    have hlen : x.raw.length < 2 ^ 31 := by
      rw [List.length_append] at hsize
      omega
    rw [← x.whole]
    exact (request_taken (e := .http x.request) hmax hlen (by rw [x.parsed]; rfl)).1
  have hstart : Phase H x hdr frames [] {} :=
    .waiting hraw rfl ⟨rfl, rfl, rfl, rfl, rfl, fun _ => rfl⟩ rfl
  obtain ⟨c, hrun, hphase⟩ := turns_phase hH hup (fun kv hkv => (hclean kv hkv).1)
    hmax hlegal hsize ts hts hstart hpre
  rw [List.nil_append] at hphase
  refine ⟨c, hrun, ?_⟩
  -- in both later phases the output begins with the answer to the handshake
  have hhead : ∀ w : Bytes, c.sent ++ c.out = (x.answered hdr).sent ++ (x.answered hdr).out ++ w →
      Http1.head (c.sent ++ c.out)
        = some (101, (HttpWriter.upgradeFields x.key hdr).map Http1.received, w) := by
    intro w hout
    rw [hout]
    exact HttpWriter.head_switching hclean x.key w
  cases hphase with
  | waiting part opened ready silent => exact .inl ⟨part, opened, ready.log, silent⟩
  | @holding first behind t held split part quiet stream did upgraded inp =>
    obtain ⟨w, hw, hout⟩ := did.output
    refine .inr ⟨[], frames, held, w, rfl, stream, did.log, hw, hhead w hout, by simp,
      fun _ => ⟨upgraded.alive, inp⟩, .inr ⟨rfl, first, t, behind, split, part, quiet⟩⟩
  | @streaming s stream inStep =>
    obtain ⟨done, rest, tail, hframes, rfl, hcut, hdid, hclosed, hopen⟩ := inStep
    obtain ⟨w, hw, hout⟩ := hdid.output
    exact .inr ⟨done, rest, tail, w, hframes, stream, hdid.log, hw, hhead w hout, hclosed,
      fun hno => ⟨(hopen hno).1.alive, (hopen hno).2⟩, .inl hcut⟩

/-- Handlers that upgrade every connection they can, with the header `hdr`. -/
def upgrading (hdr : List (Bytes × List Bytes)) : Handlers where
  onWSData c _ := c
  onHTTP req c :=
    match HttpWriter.upgradeWebsocket req { conn := c } hdr with
    | .ok (w, _) => (w.conn, true)
    | .error _ => (c, false)
  onRedis _ c := (c, true)

theorem upgrading_upgrades {env : Env} (x : Handshake env) (hmax : env.requestMaxBytes < 2 ^ 31)
    (hlen : x.raw.length < 2 ^ 31) {hdr : List (Bytes × List Bytes)}
    (hvalues : ∀ kv ∈ hdr, kv.2 ≠ []) : (upgrading hdr).Upgrades x.request hdr := by
  intro c halive hlock
  have hw := HttpWriter.upgradeWebsocket_eq (w := { conn := c }) ⟨halive, hlock⟩ x.upgrade
    (x.getHeader_key hmax hlen) hvalues
  refine ⟨_, hw, ?_⟩
  simp only [upgrading, hw]

/-- The request of an outcome. -/
def Outcome.http? : Outcome → Option HTTP
  | .http g => some g
  | _ => none

theorem Outcome.eq_http {o : Outcome} {g : HTTP} (h : o.http? = some g) : o = .http g := by
  cases o with
  | http g' => rw [← Option.some.inj h]
  | _ => cases h

/-- A small request. -/
def sampleRaw : Bytes :=
  ascii "GET / HTTP/1.1\r\nUpgrade: WebSocket\r\nSec-WebSocket-Key: a2V5\r\n\r\n"

/-- A message and a ping. -/
def sampleFrames : List ClientFrame :=
  [⟨true, ⟨2, by decide⟩, .short, [4, 3, 2, 1], ascii "hi", rfl, by decide⟩, pingFrame]

/-- The request is cut in its key, the first frame comes with the end of it, and the ping is cut. -/
def sampleTurns : List Turn :=
  [.read (.data (sampleRaw.take 58)) (.ok 9),
    .read (.data (sampleRaw.drop 58 ++ (encodeAll sampleFrames).take 9)) (.ok 40),
    .write (.again 7), .read (.data ((encodeAll sampleFrames).drop 9)) (.ok 500)]

theorem upgrade_session_sample :
    ∃ c, ({} : Conn).turns .plain (upgrading []) sampleTurns = .ok c ∧
      Http1.head (c.sent ++ c.out) = some (101, [(ascii "upgrade", ascii "websocket"),
        (ascii "connection", ascii "Upgrade"),
        (ascii "sec-websocket-accept", ascii "acoMowsaMs4gzl5sy2uaF1804GA=")],
        [138, 1] ++ ascii "p") := by
  have hlen : sampleRaw.length = 63 := by decide +kernel
  have hrecv : received sampleTurns = sampleRaw ++ encodeAll sampleFrames := by decide +kernel
  have hfields : (HttpWriter.upgradeFields (ascii "a2V5") []).map Http1.received
      = [(ascii "upgrade", ascii "websocket"), (ascii "connection", ascii "Upgrade"),
        (ascii "sec-websocket-accept", ascii "acoMowsaMs4gzl5sy2uaF1804GA=")] := by decide +kernel
  obtain ⟨g, hg, hup, hwhole⟩ : ∃ g ∈ (callOnce .plain sampleRaw).http?,
      g.wsUpgrade = true ∧ g.bodyLen + g.hdrLen = 63 := by decide +kernel
  let x : Handshake .plain :=
    ⟨sampleRaw, g, ascii "a2V5", Outcome.eq_http hg, hwhole.trans hlen.symm, hup,
    by decide +kernel, by decide +kernel, by decide +kernel⟩
  have hsize : ((sampleRaw ++ encodeAll sampleFrames).length : ℤ) ≤ Env.plain.requestMaxBytes := by
    decide +kernel
  obtain ⟨c, hrun, ⟨hpart, -⟩ | ⟨done, rest, tail, w, -, -, -, -, hhead, -⟩⟩ :=
    upgrade_session .plain (by decide) x [] (by simp [HttpWriter.CleanHeader]) (upgrading [])
    (fun c m => ⟨[], by simp [upgrading]⟩)
    (upgrading_upgrades x (by decide) (by rw [show x.raw.length = 63 from hlen]; decide) (by simp))
    sampleFrames (by decide +kernel) hsize sampleTurns
    (by simp [sampleTurns, Turn.Sound, WriteResult.Sound]; decide +kernel) (by rw [hrecv])
  · rw [hrecv, List.length_append] at hpart
    exact absurd hpart (Nat.not_lt.mpr (Nat.le_add_right _ _))
  · have hw : (({} : Conn).turns .plain (upgrading []) sampleTurns).map
        (fun c => (Http1.head (c.sent ++ c.out)).map (·.2.2))
          = .ok (some ([138, 1] ++ ascii "p")) := by
      decide +kernel
    rw [hrun] at hw
    simp only [Except.map, hhead, Option.map_some, Except.ok.injEq, Option.some.injEq] at hw
    exact ⟨c, hrun, by rw [hhead, ← hw]; exact congrArg (fun f => some (101, f, w)) hfields⟩

end Resh.Server
