import Resh.Client.Conn
import Resh.RoundTrip.Command
import Resh.Server.Delivery
import Resh.Server.Output
import Resh.Server.Websocket

namespace Resh.RoundTrip

open Resh.Go Resh.Client Resh.Server

/-!
# The client's password at the server

A fresh connection of a client with a password sends `AUTH` and the command in one piece.  The
server handles one Redis request per read and leaves what stands behind it in its buffer until the
next read, so whether it comes to the command depends on the cuts.

* `Stands` — a server connection that has the bytes `q` before it and waits for the next read;
* `turn_more`, `turn_redis`, `turn_fail` — what a read does, by the outcome of the parser;
* `auth_served_iff` — the server handles both requests iff `AUTH` is complete before the last read
  and the command has at most 65535 arguments;
* `auth_in_one_read` — all bytes in one read.
-/

/-- `OnRedis` writes to the connection and returns true. -/
def Answers (H : Handlers) : Prop :=
  ∀ r c, ∃ w, H.onRedis r c = ({ c with out := c.out ++ w }, true)

/-- The same reply to every command. -/
def replying (w : Bytes) : Handlers where
  onWSData c _ := c
  onHTTP _ c := (c, true)
  onRedis _ c := ({ c with out := c.out ++ w }, true)

/-- There are such handlers: those that write `w`. -/
theorem answers_replying (w : Bytes) : Answers (replying w) := fun _ _ => ⟨w, rfl⟩

/-! ### The parser on commands -/

section Parser

variable {env : Env}

/-- The input begins like a Redis request. -/
def Starred (p : Bytes) : Prop := p = [] ∨ p.head? = some (ch '*')

/-- A header that begins with its byte takes some bytes; the width zero means another first byte. -/
theorem readByteAndNumberCrLf_width {head : UInt8} {inp : Bytes} {v : ℤ} {w : ℕ}
    (hhead : inp.head? = some head) (h : readByteAndNumberCrLf head inp = .ok (v, w)) : w ≠ 0 := by
  unfold readByteAndNumberCrLf at h
  split at h
  · cases h
  · rw [if_neg (by simp [hhead])] at h
    split at h
    · cases h
    · split at h
      · cases h
        omega
      · cases h

/-- Then the parser never rewrites the buffer nor takes it for HTTP. -/
theorem process_starred (env : Env) {p : Bytes} (hp : Starred p) :
    (process env {} p).buf = p ∧ (process env {} p).state.http = none := by
  rcases hp with rfl | hhead
  · exact ⟨rfl, rfl⟩
  unfold process
  simp only
  split
  · rename_i num w hq
    rw [if_neg (readByteAndNumberCrLf_width hhead hq)]
    split
    · exact ⟨rfl, rfl⟩
    · unfold redisStage
      split
      · split
        · exact ⟨rfl, rfl⟩
        · exact ⟨rfl, rfl⟩
      · exact ⟨rfl, rfl⟩
  · exact ⟨rfl, rfl⟩
  · exact ⟨rfl, rfl⟩
  · exact ⟨rfl, rfl⟩

/-- Every part of a command, the empty one too, begins with `*` as far as it goes. -/
theorem starred_of_part {cmdArgs : List Arg} {p t : Bytes}
    (hp : p <+: appendCommand cmdArgs [] ++ t) : Starred p := by
  cases p with
  | nil => exact .inl rfl
  | cons b p =>
    refine .inr ?_
    obtain ⟨u, hu⟩ := hp
    have hhead := congrArg List.head? hu
    rw [appendCommand_eq] at hhead
    simpa [encodeRequest] using hhead

end Parser

/-! ### One read -/

/-- The connection has the bytes `q` before it, and the next read goes on as if nothing had been
    called on them. -/
structure Stands (env : Env) (q : Bytes) (c : Server.Conn) : Prop where
  alive : c.closed = false
  unlocked : c.lock = false
  ws : c.ws = none
  inp : c.inp = q
  resume : ∀ d, process env c.srs (q ++ d) = process env {} (q ++ d)

section Turn

variable {env : Env} {H : Handlers} {q d : Bytes} {c : Server.Conn} {wr : WriteResult}

/-- A read of some bytes calls the parser once on what is there. -/
theorem turn_read (h : Stands env q c) (hd : d ≠ [])
    (hfit : ((q ++ d).length : ℤ) ≤ env.requestMaxBytes) (hstar : Starred (q ++ d)) :
    c.turn env H (.read (.data d) wr)
      = match (process env {} (q ++ d)).ret with
        | .more => .ok { c with srs := (process env {} (q ++ d)).state, inp := q ++ d }
        | .fail e => .ok (({ c with srs := (process env {} (q ++ d)).state, inp := q ++ d } :
            Server.Conn).closeConnWithError (ascii "read") (some (.process e)))
        | .panic => .error .panic
        | .ok () => ({ c with srs := (process env {} (q ++ d)).state, inp := q ++ d } :
            Server.Conn).onRequest H wr := by
  obtain ⟨ws, srs, closed, lock, inp, out, sent, log⟩ := c
  obtain ⟨halive, hlock, hws, hinp, hresume⟩ := h
  simp only at halive hlock hws hinp hresume
  subst halive hlock hws hinp
  have hturn := @turn_data env { srs, inp, out, sent, log } H rfl rfl rfl d hd wr
  rw [if_neg (not_lt.mpr hfit)] at hturn
  simp only [hresume, (process_starred env hstar).1] at hturn
  exact hturn

/-- The parser waits. -/
theorem turn_more (h : Stands env q c) (hd : d ≠ [])
    (hfit : ((q ++ d).length : ℤ) ≤ env.requestMaxBytes) (hstar : Starred (q ++ d))
    (hmore : callOnce env (q ++ d) = .more) :
    ∃ c', c.turn env H (.read (.data d) wr) = .ok c' ∧ Stands env (q ++ d) c' ∧ c'.log = c.log := by
  have hret := ret_of_more hmore
  have hcall : process env {} (q ++ d) = ⟨(process env {} (q ++ d)).state, q ++ d, .more⟩ := by
    have hbuf := (process_starred env hstar).1
    cases hp : process env {} (q ++ d) with
    | mk state buf ret =>
      rw [hp] at hret hbuf
      simp only at hret hbuf ⊢
      rw [hret, hbuf]
  refine ⟨{ c with srs := (process env {} (q ++ d)).state, inp := q ++ d }, ?_,
    ⟨h.alive, h.unlocked, h.ws, rfl, fun t => ?_⟩, rfl⟩
  · rw [turn_read h hd hfit hstar, hret]
  · exact (process_resumable env).resume (q ++ d) t _ (q ++ d) hcall

/-- The parser comes to a request: it is handled, and the bytes behind it wait for the next read. -/
theorem turn_redis (hH : Answers H) (h : Stands env q c) (hd : d ≠ [])
    (hfit : ((q ++ d).length : ℤ) ≤ env.requestMaxBytes) (hstar : Starred (q ++ d)) {r : Redis}
    (hr : callOnce env (q ++ d) = .redis r) (hread : r.read ≤ (q ++ d).length) (hwr : wr.Sound) :
    ∃ c', c.turn env H (.read (.data d) wr) = .ok c' ∧ Stands env ((q ++ d).drop r.read) c' ∧
      c'.log = c.log ++ [.redis r] := by
  obtain ⟨hret, hhttp, hredis⟩ := ret_of_redis hr
  have htrunc := @Server.Conn.truncateInputBuffer_eq
    { c with srs := (process env {} (q ++ d)).state, inp := q ++ d } r.read ((q ++ d).drop r.read)
    h.unlocked (slice?_tail_eq_some.mpr ⟨hread, rfl⟩)
  obtain ⟨w, hw⟩ := hH r { c with
    srs := (process env {} (q ++ d)).state, inp := (q ++ d).drop r.read, lock := false,
    log := c.log ++ [.redis r] }
  have hturn : c.turn env H (.read (.data d) wr) = Server.Conn.finishRead wr { c with
      srs := (process env {} (q ++ d)).state, inp := (q ++ d).drop r.read, lock := false,
      log := c.log ++ [.redis r], out := c.out ++ w } := by
    rw [turn_read h hd hfit hstar, hret]
    unfold Server.Conn.onRequest
    simp only [hhttp, hredis, htrunc, bind, Except.bind, hw, if_true]
  rw [hturn]
  unfold Server.Conn.finishRead
  simp only
  split
  · obtain ⟨c', hc', hw⟩ := Server.Conn.writeConn_written (c := { c with
      srs := {}, inp := (q ++ d).drop r.read, lock := false,
      log := c.log ++ [.redis r], out := c.out ++ w }) rfl wr
    obtain rfl := hw.eq_send hwr (by rw [h.ws]; rfl)
    exact ⟨_, hc', ⟨h.alive, rfl, h.ws, rfl, fun _ => rfl⟩, rfl⟩
  · exact ⟨_, rfl, ⟨h.alive, rfl, h.ws, rfl, fun _ => rfl⟩, rfl⟩

/-- The parser rejects the input. -/
theorem turn_fail (h : Stands env q c) (hd : d ≠ [])
    (hfit : ((q ++ d).length : ℤ) ≤ env.requestMaxBytes) (hstar : Starred (q ++ d)) {e : Err}
    (he : callOnce env (q ++ d) = .fail e) :
    ∃ c', c.turn env H (.read (.data d) wr) = .ok c' ∧ c'.closed = true ∧
      c'.log = c.log ++ [.sysClose, .error (ascii "read") (.process e)] := by
  refine ⟨_, by rw [turn_read h hd hfit hstar, ret_of_fail he], ?_⟩
  unfold Server.Conn.closeConnWithError
  simp [h.alive, h.ws]

end Turn

/-! ### The two commands -/

/-- The request holds the arguments. -/
def Holds (r : Redis) (cmdArgs : List Arg) : Prop :=
  r.len = cmdArgs.length ∧
    ∀ (i : ℕ) (a : Arg) (behind : Bytes), cmdArgs[i]? = some a → r.get behind i = some a.text

/-- `OnRedis` was called twice, with `AUTH` and with the command, and no request is left. -/
def Served (env : Env) (auth : Bytes) (cmdArgs : List Arg) (c : Server.Conn) : Prop :=
  ∃ r₁ r₂, c.log = [.redis r₁, .redis r₂] ∧ Holds r₁ [.string (ascii "AUTH"), .string auth] ∧
    Holds r₂ cmdArgs ∧ callOnce env c.inp = .more

section Run

variable {env : Env} {H : Handlers} {auth : Bytes} {cmdArgs : List Arg} {p d : Bytes}
  {c : Server.Conn} {wr : WriteResult}

/-- The `AUTH` command. -/
def authArgs (auth : Bytes) : List Arg := [.string (ascii "AUTH"), .string auth]

/-- The request of a command holds its arguments. -/
theorem holds_commandRequest (hn : cmdArgs.length ≤ 65535)
    (hlen : (appendCommand cmdArgs []).length < 2 ^ 32) :
    Holds (commandRequest cmdArgs) cmdArgs := by
  refine ⟨?_, fun i a behind ha => commandRequest_get hn hlen ha behind⟩
  rw [Redis.len, commandRequest, requestOf, List.length_map, offsets_length, List.length_map]

/-- There are no more arguments than bytes. -/
theorem length_le_flatMap_groups (groups : List (Bytes × Bytes)) :
    groups.length ≤ (groups.flatMap encodeGroup).length := by
  induction groups with
  | nil => exact Nat.le_refl _
  | cons g gs ih =>
    rw [List.flatMap_cons, List.length_append, encodeGroup_length, List.length_cons]
    omega

/-- A command with too many arguments is rejected. -/
theorem callOnce_many (env : Env) (hn : 65535 < cmdArgs.length)
    (hlen : (appendCommand cmdArgs []).length < 2 ^ 32) :
    callOnce env (appendCommand cmdArgs []) = .fail .tooManyArgs := by
  have henc := appendCommand_eq cmdArgs []
  rw [List.nil_append, encodeRequest] at henc
  have hrange : InInt64 (cmdArgs.length : ℤ) := by
    have hle := length_le_flatMap_groups (cmdArgs.map groupOf)
    rw [henc, List.length_append] at hlen
    rw [List.length_map] at hle
    unfold InInt64
    omega
  have hhead := readByteAndNumberCrLf_of_numeral (show ch '*' ≠ 13 by decide)
    (numeral_formatInt cmdArgs.length) hrange ((cmdArgs.map groupOf).flatMap encodeGroup)
  rw [← henc] at hhead
  unfold callOnce process
  simp only [hhead]
  rw [if_neg (by omega), if_pos (by omega)]
  rfl

/-- What is left of the stream after a prefix that holds `AUTH`. -/
theorem split_of_le {a b q : Bytes} (hq : q <+: a ++ b) (hlen : a.length ≤ q.length) :
    q = a ++ q.drop a.length ∧ q.drop a.length <+: b := by
  obtain ⟨t, ht⟩ := hq
  have htake : q.take a.length = a := by
    have := congrArg (List.take a.length) ht
    rwa [List.take_append_of_le_length hlen, List.take_left] at this
  have hsplit : q = a ++ q.drop a.length := by
    conv_lhs => rw [← List.take_append_drop a.length q, htake]
  refine ⟨hsplit, t, ?_⟩
  rw [hsplit, List.append_assoc] at ht
  exact List.append_cancel_left ht

/-- The client has a password, and `AUTH` and the command fit the server's buffer. -/
structure Fits (env : Env) (auth : Bytes) (cmdArgs : List Arg) : Prop where
  nonempty : auth ≠ []
  max : env.requestMaxBytes < 2 ^ 32
  fits : ((appendCommand cmdArgs (appendAuth auth [])).length : ℤ) ≤ env.requestMaxBytes

/-- **Where the server is** after it has read `p`, as long as the command has not been handled. -/
inductive Phase (env : Env) (auth : Bytes) (cmdArgs : List Arg) (p : Bytes) (c : Server.Conn) : Prop
  | auth (short : p.length < (appendAuth auth []).length) (stands : Stands env p c)
      (log : c.log = [])
  | command (long : (appendAuth auth []).length ≤ p.length)
      (stands : Stands env (p.drop (appendAuth auth []).length) c)
      (log : c.log = [.redis (commandRequest (authArgs auth))])
  | refused (many : 65535 < cmdArgs.length) (closed : c.closed = true) {es : List Server.Event}
      (log : c.log = .redis (commandRequest (authArgs auth)) :: .sysClose :: es)

/-- In none of the phases the command has been handled. -/
theorem Phase.not_served (h : Phase env auth cmdArgs p c) : ¬ Served env auth cmdArgs c := by
  rintro ⟨r₁, r₂, hlog, -⟩
  cases h with
  | auth _ _ log => simp [log] at hlog
  | command _ _ log => simp [log] at hlog
  | refused _ _ log => simp [log] at hlog

section Step

variable (hH : Answers H) (hf : Fits env auth cmdArgs) (hd : d ≠ []) (hwr : wr.Sound)
  (hp : p ++ d <+: appendAuth auth [] ++ appendCommand cmdArgs [])

include hf in

/-- The sizes that follow from the limits. -/
theorem Fits.lengths :
    appendAuth auth [] = appendCommand (authArgs auth) [] ∧
      ((appendAuth auth [] ++ appendCommand cmdArgs []).length : ℤ) ≤ env.requestMaxBytes ∧
      (appendAuth auth []).length < 2 ^ 32 ∧ (appendCommand cmdArgs []).length < 2 ^ 32 := by
  have hmax := hf.max
  have hfits := hf.fits
  rw [appendCommand_append] at hfits
  have hlen := hfits
  rw [List.length_append] at hlen
  exact ⟨appendAuth_eq hf.nonempty [], hfits, by omega, by omega⟩

include hH hf hd hwr hp

/-- A read within `AUTH`, or over its end: the command is not looked at. -/
theorem phase_auth (stands : Stands env p c) (log : c.log = []) :
    ∃ c', c.turn env H (.read (.data d) wr) = .ok c' ∧ Phase env auth cmdArgs (p ++ d) c' := by
  obtain ⟨hauth, hfits, hlenA, -⟩ := hf.lengths
  have hfit : ((p ++ d).length : ℤ) ≤ env.requestMaxBytes := by
    have hle := hp.length_le
    omega
  have hstar : Starred (p ++ d) := starred_of_part (hauth ▸ hp)
  have hargs : (authArgs auth).length ≤ 65535 := by simp [authArgs]
  by_cases hlt : (p ++ d).length < (appendAuth auth []).length
  · have hcut : p ++ d <+: appendAuth auth [] :=
      List.prefix_of_prefix_length_le hp (List.prefix_append _ _) (by omega)
    have hmore : callOnce env (p ++ d) = .more := by
      refine callOnce_command_cut env hargs (hauth ▸ hlenA) (hauth ▸ hcut) fun heq => ?_
      rw [heq, ← hauth] at hlt
      omega
    obtain ⟨c', hturn, hstands, hlog⟩ := turn_more stands hd hfit hstar hmore
    exact ⟨c', hturn, .auth hlt hstands (hlog.trans log)⟩
  · obtain ⟨hsplit, -⟩ := split_of_le hp (by omega)
    have hredis : callOnce env (p ++ d) = .redis (commandRequest (authArgs auth)) := by
      have hacc := callOnce_command env hargs (hauth ▸ hlenA)
      rw [hsplit, hauth, callOnce_append env (by rw [hacc]; simp), hacc]
    have hread : (commandRequest (authArgs auth)).read = (appendAuth auth []).length := by
      rw [hauth]
      rfl
    obtain ⟨c', hturn, hstands, hlog⟩ := turn_redis hH stands hd hfit hstar hredis
      (by rw [hread]; omega) hwr
    rw [hread] at hstands
    exact ⟨c', hturn, .command (by omega) hstands (by rw [hlog, log]; rfl)⟩

section Command

variable (hlong : (appendAuth auth []).length ≤ p.length)
  (hstands : Stands env (p.drop (appendAuth auth []).length) c)
  (hlog : c.log = [.redis (commandRequest (authArgs auth))])

include hlong hstands hlog

omit hH hf hd hwr hstands hlog in
/-- The part of the command that is there after the read. -/
theorem command_part :
    (p ++ d).drop (appendAuth auth []).length = p.drop (appendAuth auth []).length ++ d ∧
      p.drop (appendAuth auth []).length ++ d <+: appendCommand cmdArgs [] := by
  have hdrop : (p ++ d).drop (appendAuth auth []).length
      = p.drop (appendAuth auth []).length ++ d :=
    List.drop_append_of_le_length hlong
  refine ⟨hdrop, ?_⟩
  rw [← hdrop]
  exact (split_of_le hp (by rw [List.length_append]; omega)).2

omit hH hwr in
/-- A read within the command, or one that shows that it has too many arguments. -/
theorem phase_command
    (hundone : 65535 < cmdArgs.length ∨ p ++ d ≠ appendAuth auth [] ++ appendCommand cmdArgs []) :
    ∃ c', c.turn env H (.read (.data d) wr) = .ok c' ∧ Phase env auth cmdArgs (p ++ d) c' := by
  obtain ⟨-, hfits, -, hlenB⟩ := hf.lengths
  obtain ⟨hdrop, hpre⟩ := command_part hp hlong
  have hfit : ((p.drop (appendAuth auth []).length ++ d).length : ℤ) ≤ env.requestMaxBytes := by
    have hle := hpre.length_le
    rw [List.length_append] at hfits
    omega
  have hstar := starred_of_part ((List.append_nil (appendCommand cmdArgs [])).symm ▸ hpre)
  have hcases : callOnce env (p.drop (appendAuth auth []).length ++ d) = .more ∨
      65535 < cmdArgs.length ∧
        callOnce env (p.drop (appendAuth auth []).length ++ d) = .fail .tooManyArgs := by
    rcases Nat.lt_or_ge 65535 cmdArgs.length with hmany | hfew
    · by_cases hmore : callOnce env (p.drop (appendAuth auth []).length ++ d) = .more
      · exact .inl hmore
      · -- a decision on a part of the command is the one on the whole
        obtain ⟨t, ht⟩ := hpre
        have happ := callOnce_append env hmore t
        rw [ht, callOnce_many env hmany hlenB] at happ
        exact .inr ⟨hmany, happ.symm⟩
    · refine .inl (callOnce_command_cut env hfew hlenB hpre fun heq => ?_)
      have hwhole := (split_of_le hp (by rw [List.length_append]; omega)).1
      rw [hdrop, heq] at hwhole
      exact hundone.elim (by omega) (absurd hwhole)
  rcases hcases with hmore | ⟨hmany, hfail⟩
  · obtain ⟨c', hturn, hstands', hlog'⟩ := turn_more hstands hd hfit hstar hmore
    rw [← hdrop] at hstands'
    exact ⟨c', hturn, .command (by rw [List.length_append]; omega) hstands' (hlog'.trans hlog)⟩
  · obtain ⟨c', hturn, hclosed, hlog'⟩ := turn_fail hstands hd hfit hstar hfail
    exact ⟨c', hturn, .refused hmany hclosed (by rw [hlog', hlog]; rfl)⟩

/-- The read that completes the command. -/
theorem command_served (hfew : cmdArgs.length ≤ 65535)
    (hwhole : p ++ d = appendAuth auth [] ++ appendCommand cmdArgs []) :
    ∃ c', c.turn env H (.read (.data d) wr) = .ok c' ∧ Served env auth cmdArgs c' := by
  obtain ⟨hauth, hfits, hlenA, hlenB⟩ := hf.lengths
  obtain ⟨hdrop, hpre⟩ := command_part hp hlong
  have heq : p.drop (appendAuth auth []).length ++ d = appendCommand cmdArgs [] := by
    rw [← hdrop, hwhole, List.drop_left]
  have hacc := callOnce_command env hfew hlenB
  rw [← heq] at hacc
  have hstar := starred_of_part ((List.append_nil (appendCommand cmdArgs [])).symm ▸ hpre)
  have hread : (commandRequest cmdArgs).read
      = (p.drop (appendAuth auth []).length ++ d).length := by
    rw [heq]
    rfl
  have hfit : ((p.drop (appendAuth auth []).length ++ d).length : ℤ) ≤ env.requestMaxBytes := by
    rw [List.length_append] at hfits
    rw [heq]
    omega
  obtain ⟨c', hturn, hstands', hlog'⟩ := turn_redis hH hstands hd hfit hstar hacc (by omega) hwr
  refine ⟨c', hturn, _, _, by rw [hlog', hlog]; rfl,
    holds_commandRequest (by simp) (hauth ▸ hlenA), holds_commandRequest hfew hlenB, ?_⟩
  rw [hstands'.inp, hread, List.drop_length]
  rfl

end Command

end Step

/-! ### All reads -/

/-- A read of each segment, with the result of the write that may follow. -/
def reads (segs : List (Bytes × WriteResult)) : List Turn :=
  segs.map fun seg => .read (.data seg.1) seg.2

/-- Reads that do not come to the end of the command. -/
theorem turns_phase (hH : Answers H) (hf : Fits env auth cmdArgs)
    {segs : List (Bytes × WriteResult)} (hsound : ∀ seg ∈ segs, seg.1 ≠ [] ∧ seg.2.Sound)
    (hp : p ++ received (reads segs) <+: appendAuth auth [] ++ appendCommand cmdArgs [])
    (hne : p ++ received (reads segs) ≠ appendAuth auth [] ++ appendCommand cmdArgs [])
    (h : Phase env auth cmdArgs p c) :
    ∃ c', c.turns env H (reads segs) = .ok c' ∧
      Phase env auth cmdArgs (p ++ received (reads segs)) c' := by
  induction segs generalizing p c with
  | nil => exact ⟨c, rfl, by simpa [received, reads] using h⟩
  | cons seg segs ih =>
    obtain ⟨hd, hwr⟩ := hsound seg List.mem_cons_self
    have hsplit : p ++ received (reads (seg :: segs)) = p ++ seg.1 ++ received (reads segs) := by
      simp [received, reads, Turn.input]
    rw [hsplit] at hp hne ⊢
    have hp₁ := (List.prefix_append (p ++ seg.1) _).trans hp
    have hne₁ : p ++ seg.1 ≠ appendAuth auth [] ++ appendCommand cmdArgs [] := by
      intro heq
      rw [heq] at hp hne
      exact hne (hp.eq_of_length_le (by simp only [List.length_append]; omega))
    have hstep : ∃ c', c.turn env H (.read (.data seg.1) seg.2) = .ok c' ∧
        Phase env auth cmdArgs (p ++ seg.1) c' := by
      cases h with
      | auth _ stands log => exact phase_auth hH hf hd hwr hp₁ stands log
      | command long stands log => exact phase_command hf hd hp₁ long stands log (.inr hne₁)
      | refused many closed log =>
        exact ⟨c, by rw [Server.Conn.turn, if_pos closed], .refused many closed log⟩
    obtain ⟨c₁, hturn, hphase⟩ := hstep
    obtain ⟨c', hturns, hend⟩ :=
      ih (fun seg' hseg' => hsound seg' (List.mem_cons_of_mem _ hseg')) hp hne hphase
    refine ⟨c', ?_, hend⟩
    rw [Server.Conn.turns, reads, List.map_cons, List.foldlM_cons, hturn]
    exact hturns

end Run

/-- **The password at the server.**  After the last read, `OnRedis` was called exactly for `AUTH`
    and for the command, with no request left in the buffer, iff `AUTH` was complete before the last
    read and the command has no more arguments than the server takes. -/
theorem auth_served_iff (env : Env) (H : Handlers) (hH : Answers H) (cfg : Client.Config) (fd k : ℕ)
    (cmdArgs : List Arg) (hauth : cfg.auth ≠ []) (hmax : env.requestMaxBytes < 2 ^ 32)
    (hfits : ((Client.Conn.fresh cfg fd k cmdArgs).out.length : ℤ) ≤ env.requestMaxBytes)
    (segs : List (Bytes × WriteResult)) (hsound : ∀ seg ∈ segs, seg.1 ≠ [] ∧ seg.2.Sound)
    (hsegs : received (reads segs) = (Client.Conn.fresh cfg fd k cmdArgs).out) :
    ∃ c, ({} : Server.Conn).turns env H (reads segs) = .ok c ∧
      (Served env cfg.auth cmdArgs c ↔ cmdArgs.length ≤ 65535 ∧
        (appendAuth cfg.auth []).length ≤ (received (reads segs.dropLast)).length) := by
  have hf : Fits env cfg.auth cmdArgs := ⟨hauth, hmax, hfits⟩
  have hout : (Client.Conn.fresh cfg fd k cmdArgs).out
      = appendAuth cfg.auth [] ++ appendCommand cmdArgs [] := appendCommand_append _ _
  rw [hout] at hsegs
  rcases List.eq_nil_or_concat segs with rfl | ⟨init, last, rfl⟩
  · exact absurd hsegs.symm (by simp [received, reads, appendAuth, hauth])
  rw [List.concat_eq_append] at hsound hsegs ⊢
  rw [List.dropLast_concat]
  obtain ⟨hd, hwr⟩ := hsound last (by simp)
  have hwhole : received (reads init) ++ last.1 = appendAuth cfg.auth []
      ++ appendCommand cmdArgs [] := by
    rw [← hsegs]
    simp [received, reads, Turn.input]
  have hp : received (reads init) ++ last.1 <+: appendAuth cfg.auth []
      ++ appendCommand cmdArgs [] := by
    rw [hwhole]
  have hpos : 0 < (appendAuth cfg.auth []).length := by simp [appendAuth, hauth]
  have hstart : Phase env cfg.auth cmdArgs [] {} :=
    .auth hpos ⟨rfl, rfl, rfl, rfl, fun _ => rfl⟩ rfl
  -- the last segment is not empty, so the others are not everything
  have hpart : [] ++ received (reads init) ≠ appendAuth cfg.auth []
      ++ appendCommand cmdArgs [] := by
    intro heq
    rw [List.nil_append] at heq
    rw [← heq] at hwhole
    exact hd (List.append_right_eq_self.mp hwhole)
  obtain ⟨c₁, hrun, hphase⟩ := turns_phase hH hf (fun seg hseg => hsound seg (by simp [hseg]))
    ((List.prefix_append (received (reads init)) last.1).trans hp) hpart hstart
  rw [List.nil_append] at hphase
  have hturns : ∀ c, c₁.turn env H (.read (.data last.1) last.2) = .ok c →
      ({} : Server.Conn).turns env H (reads (init ++ [last])) = .ok c := by
    intro c hc
    rw [Server.Conn.turns, reads, List.map_append, List.foldlM_append]
    rw [Server.Conn.turns, reads] at hrun
    simp only [hrun, List.map_cons, List.map_nil, List.foldlM_cons,
      List.foldlM_nil, bind, Except.bind, hc]
    rfl
  cases hphase with
  | auth short stands log =>
    obtain ⟨c, hc, hend⟩ := phase_auth hH hf hd hwr hp stands log
    exact ⟨c, hturns c hc, iff_of_false hend.not_served (by omega)⟩
  | command long stands log =>
    rcases Nat.lt_or_ge 65535 cmdArgs.length with hmany | hfew
    · obtain ⟨c, hc, hend⟩ := phase_command hf hd hp long stands log (.inl hmany)
      exact ⟨c, hturns c hc, iff_of_false hend.not_served (by omega)⟩
    · obtain ⟨c, hc, hserved⟩ := command_served hH hf hd hwr hp long stands log hfew hwhole
      exact ⟨c, hturns c hc, iff_of_true hserved ⟨hfew, long⟩⟩
  | refused many closed log =>
    have hend : Phase env cfg.auth cmdArgs [] c₁ := .refused many closed log
    exact ⟨c₁, hturns c₁ (by rw [Server.Conn.turn, if_pos closed]),
      iff_of_false hend.not_served (by omega)⟩

/-- `GET k` with a password, the cut between the two commands. -/
theorem auth_served_iff_cut :
    ∃ c, ({} : Server.Conn).turns .plain (replying (ascii "+OK\r\n"))
        (reads [(appendAuth (ascii "pw") [], .ok 100),
          (appendCommand [.string (ascii "GET"), .string (ascii "k")] [], .ok 100)]) = .ok c ∧
      Served .plain (ascii "pw") [.string (ascii "GET"), .string (ascii "k")] c := by
  obtain ⟨c, hrun, hiff⟩ := auth_served_iff .plain (replying (ascii "+OK\r\n")) (answers_replying _)
    { auth := ascii "pw", poolSize := 1 } 3 0 [.string (ascii "GET"), .string (ascii "k")]
    (by decide) (by decide) (by decide)
    [(appendAuth (ascii "pw") [], .ok 100),
      (appendCommand [.string (ascii "GET"), .string (ascii "k")] [], .ok 100)]
    (by decide) (by decide)
  exact ⟨c, hrun, hiff.mpr (by decide)⟩

/-- **All bytes in one read.**  `OnRedis` is called for `AUTH` only; the complete command stays in
    the buffer, and nothing looks at it before more bytes come. -/
theorem auth_in_one_read :
    ∃ c, ({} : Server.Conn).turns .plain (replying (ascii "+OK\r\n"))
        (reads [((Client.Conn.fresh { auth := ascii "pw", poolSize := 1 } 3 0
          [.string (ascii "GET"), .string (ascii "k")]).out, .ok 100)]) = .ok c ∧
      c.log.length = 1 ∧ c.inp = appendCommand [.string (ascii "GET"), .string (ascii "k")] [] ∧
      callOnce .plain c.inp ≠ .more ∧
      ¬ Served .plain (ascii "pw") [.string (ascii "GET"), .string (ascii "k")] c := by
  cases hrun : ({} : Server.Conn).turns .plain (replying (ascii "+OK\r\n"))
      (reads [((Client.Conn.fresh { auth := ascii "pw", poolSize := 1 } 3 0
        [.string (ascii "GET"), .string (ascii "k")]).out, .ok 100)]) with
  | error e =>
    have hok : (Except.error e : Except Halt Server.Conn).isOk = true := hrun ▸ (by decide +kernel)
    cases hok
  | ok c =>
    have hc : some (c.log.length, c.inp)
        = some (1, appendCommand [.string (ascii "GET"), .string (ascii "k")] []) :=
      (congrArg (fun r => r.toOption.map fun c => (c.log.length, c.inp)) hrun).symm.trans
        (by decide +kernel)
    obtain ⟨hlen, hinp⟩ := Prod.mk.inj (Option.some.inj hc)
    refine ⟨c, rfl, hlen, hinp, by rw [hinp]; decide +kernel, ?_⟩
    rintro ⟨r₁, r₂, hlog, -⟩
    rw [hlog] at hlen
    cases hlen

end Resh.RoundTrip
