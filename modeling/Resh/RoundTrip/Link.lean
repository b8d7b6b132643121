import Resh.Client.Matching
import Resh.RoundTrip.Auth
import Resh.Server.Serving

namespace Resh.RoundTrip

open Resh.Go Resh.Client Resh.Server

/-!
# The client and the server of the package

A connection of the client and one of the server, with the bytes that are on their way between them.
The server hands each command to a database and writes its reply.  Nothing is assumed about the
order of the events, about how far each read and write gets or about where the bytes are cut.

* `Database` — the replies to the commands, and the handlers that write them;
* `Link.step` — an event at either side;
* `allCommands`, `callOnce_commands` — what the client sends, and what the server makes of its
  begin;
* `exec_withServer`, `write_withServer`, `read_withServer` — the client does not depend on the other
  side.
-/

/-! ### The database -/

/-- The arguments of a request. -/
def argTexts (r : Redis) :
    List Bytes := (List.range r.len).map fun i : ℕ => (r.get [] (i : ℤ)).getD []

/-- The arguments of what was handled. -/
def argsOf : Server.Event → List Bytes
  | .redis r => argTexts r
  | _ => []

/-- A database: the reply to the last of the commands that it was given. -/
abbrev Database := List (List Bytes) → Reply

namespace Database

/-- Every reply fits into the buffer of the client, and so do two of them if it has a password. -/
structure Fits (cfg : Client.Config) (db : Database) : Prop where
  one : ∀ h, (db h).encode.length ≤ cfg.responseMaxBytes
  two : cfg.auth ≠ [] → ∀ h h', (db h).encode.length + (db h').encode.length ≤ cfg.responseMaxBytes

/-- The replies to all commands. -/
def replies (db : Database) (cmds : List (List Bytes)) : List Reply :=
  (List.range cmds.length).map fun i => db (cmds.take (i + 1))

/-- One reply for each command. -/
theorem replies_length (db : Database) (cmds : List (List Bytes)) :
    (db.replies cmds).length = cmds.length := by
  rw [replies, List.length_map, List.length_range]

/-- A further command adds its reply behind those before: the reply to a command depends on the
    commands up to it, not on later ones. -/
theorem replies_snoc (db : Database) (cmds : List (List Bytes)) (args : List Bytes) :
    db.replies (cmds ++ [args]) = db.replies cmds ++ [db (cmds ++ [args])] := by
  rw [replies, replies, List.length_append, List.length_singleton, List.range_succ, List.map_append]
  congr 1
  · refine List.map_congr_left fun i hi => ?_
    rw [List.take_append_of_le_length (List.mem_range.mp hi)]
  · rw [List.map_singleton, List.take_of_length_le (by simp)]

/-- Every reply is an answer of the database to some history of commands, so the bounds of `Fits`
    hold of it. -/
theorem mem_replies {db : Database} {cmds : List (List Bytes)}
    {r : Reply} (h : r ∈ db.replies cmds) : ∃ h, r = db h := by
  obtain ⟨i, -, rfl⟩ := List.mem_map.mp h
  exact ⟨_, rfl⟩

/-- The replies of a database that fits are replies that the client's session can take
    (`Session.Fits`), whatever the commands. -/
theorem fits_replies {cfg : Client.Config} {db : Database} (hdb : db.Fits cfg)
    (cmds : List (List Bytes)) : Session.Fits cfg (db.replies cmds) := by
  refine ⟨fun r hr => ?_, fun hauth => ?_⟩
  · obtain ⟨h, rfl⟩ := mem_replies hr
    exact hdb.one h
  · match hrs : db.replies cmds with
    | [] => simp [Reply.encodeMany]
    | [r] =>
      obtain ⟨h, rfl⟩ := mem_replies (hrs ▸ List.mem_cons_self : r ∈ db.replies cmds)
      simpa [Reply.encodeMany] using hdb.one h
    | r :: r' :: rs =>
      obtain ⟨h, rfl⟩ := mem_replies (hrs ▸ List.mem_cons_self : r ∈ db.replies cmds)
      obtain ⟨h', rfl⟩ := mem_replies
        (hrs ▸ List.mem_cons_of_mem _ List.mem_cons_self : r' ∈ db.replies cmds)
      simpa [Reply.encodeMany] using hdb.two hauth h h'

/-- The handler writes the reply; a halt of the writers would end it. -/
def answer (db : Database) (c : Server.Conn) : Server.Conn × Bool :=
  match (db (c.log.map argsOf)).emit c with
  | .ok c => (c, true)
  | .error _ => (c, false)

def handlers (db : Database) : Handlers where
  onWSData c _ := c
  onHTTP _ c := db.answer c
  onRedis _ c := db.answer c

def service (db : Database) : Service := fun log => ((db (log.map argsOf)).encode, true)

/-- On an open connection whose lock is free the handler appends exactly the encoded reply, and
    returns true. -/
theorem answer_eq (db : Database) {c : Server.Conn} (halive : c.closed = false)
    (hlock : c.lock = false) :
    db.answer c = ({ c with out := c.out ++ (db (c.log.map argsOf)).encode }, true) := by
  rw [answer, Reply.emit_eq _ hlock halive]

/-- The handlers follow the service, so the results about services apply to the database. -/
theorem handlers_follow (db : Database) : db.handlers.Follow db.service :=
  ⟨fun _ _ halive hlock _ => db.answer_eq halive hlock, fun _ _ halive hlock _ =>
    db.answer_eq halive hlock⟩

end Database

/-! ### The link -/

/-- A connection between the two; in `client`, `wire` holds the bytes for the client, and the
    replies are not recorded. -/
structure Link where
  client : Session := {}
  /-- the bytes for the server -/
  upstream : Bytes := []
  server : Server.Conn := {}
  /-- the event loop of the server panicked -/
  crashed : Bool := false

namespace Link

inductive Action where
  | exec (cmdArgs : List Arg)
  | clientWrite (wr : WriteResult)
  /-- a read of at most `n` bytes, with `len` connections in the client's pool -/
  | clientRead (n : ℕ) (len : ℤ)
  /-- a read of at most `n` bytes, with the result of the write that may follow -/
  | serverRead (n : ℕ) (wr : WriteResult)
  | serverWrite (wr : WriteResult)

/-- A turn of the server, with `up` left for it to read. -/
def serverTurn (env : Env) (H : Handlers) (l : Link) (t : Turn) (up : Bytes) : Link :=
  match l.server.turn env H t with
  | .ok c => { l with
      client := { l.client with wire := l.client.wire ++ c.sent.drop l.server.sent.length }
      upstream := up
      server := c }
  | .error _ => { l with crashed := true }

/-- An event at either side. -/
def step (env : Env) (cfg : Client.Config) (H : Handlers) (l : Link) : Action → Option Link
  | .exec cmdArgs => (Session.step cfg l.client (.exec cmdArgs)).map fun s => { l with client := s }
  | .clientWrite wr => (Session.step cfg l.client (.write wr)).map fun s => { l with
      client := s
      upstream := l.upstream ++ s.sent.drop l.client.sent.length }
  | .clientRead n len =>
    (Session.step cfg l.client (.read n len)).map fun s => { l with client := s }
  | .serverRead n wr =>
    if l.crashed then none
    else
      let d := l.upstream.take (min n 0xFFFF)
      some (l.serverTurn env H (.read (if d = [] then .again else .data d) wr)
        (l.upstream.drop d.length))
  | .serverWrite wr =>
    if l.crashed then none else some (l.serverTurn env H (.write wr) l.upstream)

/-- The assumptions on an event: no I/O error, a pool that is not too large, and commands that the
    server takes (behind the `AUTH` of a fresh connection). -/
def Good (env : Env) (cfg : Client.Config) : Action → Prop
  | .exec cmdArgs => cmdArgs.length ≤ 65535 ∧
      ((appendAuth cfg.auth [] ++ appendCommand cmdArgs []).length : ℤ) ≤ env.requestMaxBytes
  | .clientWrite wr => wr.Sound
  | .clientRead _ len => len ≤ cfg.poolSize
  | .serverRead _ wr => wr.Sound
  | .serverWrite wr => wr.Sound

instance (env : Env) (cfg : Client.Config) (a : Action) : Decidable (Good env cfg a) :=
  match a with
  | .exec cmdArgs => inferInstanceAs (Decidable (cmdArgs.length ≤ 65535 ∧
      ((appendAuth cfg.auth [] ++ appendCommand cmdArgs []).length : ℤ) ≤ env.requestMaxBytes))
  | .clientWrite wr => inferInstanceAs (Decidable wr.Sound)
  | .clientRead _ len => inferInstanceAs (Decidable (len ≤ cfg.poolSize))
  | .serverRead _ wr => inferInstanceAs (Decidable wr.Sound)
  | .serverWrite wr => inferInstanceAs (Decidable wr.Sound)

end Link

/-! ### The commands of a client -/

/-- The commands that the client sends, its `AUTH` among them. -/
def allCommands (cfg : Client.Config) (issued : List (List Arg)) : List (List Arg) :=
  (if cfg.auth = [] then [] else [authArgs cfg.auth]) ++ issued

/-- The texts of a command. -/
def textsOf (cmdArgs : List Arg) : List Bytes := cmdArgs.map Arg.text

/-- The bytes of commands. -/
def encodeCommands (cmds : List (List Arg)) : Bytes := (cmds.map (appendCommand · [])).flatten

section Commands

variable {env : Env} {cfg : Client.Config} {cmds : List (List Arg)} {cmdArgs : List Arg}

/-- The commands of the session are the encodings of `allCommands`, the AUTH command included. -/
theorem commands_eq (cfg : Client.Config) (issued : List (List Arg)) :
    Session.commands cfg issued = (allCommands cfg issued).map (appendCommand · []) := by
  rw [Session.commands, allCommands, List.map_append]
  split
  · rfl
  · rename_i hauth
    rw [appendAuth_eq hauth]
    rfl

/-- AUTH counts as a command: with a password there is one more than were issued. -/
theorem allCommands_length (cfg : Client.Config) (issued : List (List Arg)) :
    (allCommands cfg issued).length = Session.authCount cfg + issued.length := by
  rw [← Session.commands_length, commands_eq, List.length_map]

/-- No command, no bytes. -/
@[simp] theorem encodeCommands_nil : encodeCommands [] = [] := rfl

/-- Commands that follow one another stand behind one another on the wire. -/
@[simp] theorem encodeCommands_append (cmds₁ cmds₂ : List (List Arg)) :
    encodeCommands (cmds₁ ++ cmds₂) = encodeCommands cmds₁ ++ encodeCommands cmds₂ := by
  rw [encodeCommands, List.map_append, List.flatten_append]
  rfl

/-- The bytes of the first command stand in front of the others. -/
@[simp] theorem encodeCommands_cons (cmdArgs : List Arg) (cmds : List (List Arg)) :
    encodeCommands (cmdArgs :: cmds) = appendCommand cmdArgs [] ++ encodeCommands cmds := rfl

/-- Every command has bytes, the empty one too: its header is `*0` CR LF. -/
theorem appendCommand_ne_nil (cmdArgs : List Arg) : appendCommand cmdArgs [] ≠ [] := by
  rw [appendCommand_eq]
  simp [encodeRequest]

/-- The server can take the command. -/
def Taken (cmdArgs : List Arg) : Prop :=
  cmdArgs.length ≤ 65535 ∧ (appendCommand cmdArgs []).length < 2 ^ 32

/-- **The server reads the arguments that the client wrote**: the texts of the request that the
    parser makes of a command are those of the command. -/
theorem argTexts_commandRequest (h : Taken cmdArgs) :
    argTexts (commandRequest cmdArgs) = textsOf cmdArgs := by
  obtain ⟨hlen, hget⟩ := holds_commandRequest h.1 h.2
  rw [argTexts, hlen, textsOf]
  refine List.ext_getElem (by simp) fun i hi hi' => ?_
  rw [List.length_map] at hi'
  rw [List.getElem_map, List.getElem_range, List.getElem_map,
    hget i _ [] (List.getElem?_eq_getElem hi')]
  rfl

/-- Enough bytes for `n` commands hold `n` complete ones. -/
theorem le_complete {es : List Bytes} {n len : ℕ} (hn : n ≤ es.length)
    (h : (es.take n).flatten.length ≤ len) : n ≤ Session.complete es len := by
  induction es generalizing n len with
  | nil => exact hn
  | cons e es ih =>
    cases n with
    | zero => exact Nat.zero_le _
    | succ n =>
      rw [List.take_succ_cons, List.flatten_cons, List.length_append] at h
      rw [Session.complete, if_pos (by omega)]
      exact Nat.succ_le_succ (ih (Nat.le_of_succ_le_succ hn) (by omega))

/-- **A read at the server.**  `q` is the begin of what the client sends: the next command is
    complete, or the parser waits. -/
theorem callOnce_commands (env : Env) {q : Bytes} (hq : q <+: encodeCommands (cmdArgs :: cmds))
    (h : Taken cmdArgs) :
    (q.length < (appendCommand cmdArgs []).length ∧ callOnce env q = .more) ∨
      (∃ t, q = appendCommand cmdArgs [] ++ t ∧ callOnce env q
        = .redis (commandRequest cmdArgs)) := by
  rw [encodeCommands_cons] at hq
  rcases Nat.lt_or_ge q.length (appendCommand cmdArgs []).length with hlt | hge
  · have hcut : q <+: appendCommand cmdArgs [] :=
      List.prefix_of_prefix_length_le hq (List.prefix_append _ _) (by omega)
    refine .inl ⟨hlt, callOnce_command_cut env h.1 h.2 hcut fun heq => ?_⟩
    rw [heq] at hlt
    omega
  · obtain ⟨hsplit, -⟩ := split_of_le hq hge
    have hacc := callOnce_command env h.1 h.2
    refine .inr ⟨_, hsplit, ?_⟩
    rw [hsplit, callOnce_append env (by rw [hacc]; simp), hacc]

end Commands

/-! ### The client's half -/

section Client

variable {cfg : Client.Config} {s s' : Session}

/-- The session with another server. -/
def withServer (s : Session) (rs : List Reply) (w : Bytes) :
    Session := { s with replies := rs, wire := w }

/-- `Exec` neither reads nor changes what the other side holds, so it commutes with a change of the
    server. -/
theorem exec_withServer (cfg : Client.Config) (s : Session) (rs : List Reply)
    (w : Bytes) (cmdArgs : List Arg) : Session.step cfg (withServer s rs w) (.exec cmdArgs)
      = (Session.step cfg s (.exec cmdArgs)).map (withServer · rs w) := by
  unfold Session.step withServer
  split
  · rfl
  · cases s.conn with
    | none => rfl
    | some c =>
      simp only
      split
      · cases c.fill cfg s.issued.length cmdArgs with
        | none => rfl
        | some c' => rfl
      · rfl

/-- The bookkeeping after a read or write event does not look at the server's half. -/
theorem after_withServer (s : Session) (rs : List Reply) (w : Bytes) (c : Client.Conn)
    (es : List Client.Event) (next : Next) :
    (withServer s rs w).after c es next = withServer (s.after c es next) rs w := by
  cases next <;> rfl

/-- A write event commutes with a change of the server, too: the session only records what was sent.
    -/
theorem write_withServer (cfg : Client.Config) (s : Session) (rs : List Reply)
    (w : Bytes) (wr : WriteResult) : Session.step cfg (withServer s rs w) (.write wr)
      = (Session.step cfg s (.write wr)).map (withServer · rs w) := by
  unfold Session.step
  by_cases hdown : s.down = true
  · rw [if_pos hdown, if_pos (show (withServer s rs w).down = true from hdown)]
    rfl
  rw [if_neg hdown, if_neg (show ¬ (withServer s rs w).down = true from hdown)]
  have hconn : (withServer s rs w).conn = s.conn := rfl
  simp only [hconn]
  cases s.conn with
  | none => rfl
  | some c =>
    simp only
    split
    · rfl
    · cases c.touch cfg with
      | none => rfl
      | some p =>
        obtain ⟨c', ok⟩ := p
        cases ok with
        | false => rfl
        | true => exact congrArg some (after_withServer { s with sent := _ } rs w _ _ _)

/-- A read takes bytes of the wire, so here the wire may only be longer: what stands behind the
    bytes of `s` is left there. -/
theorem read_withServer (cfg : Client.Config) (s : Session) (rs : List Reply)
    (w : Bytes) (n : ℕ) (len : ℤ) :
    Session.step cfg (withServer s rs (s.wire ++ w)) (.read (min n s.wire.length) len)
      = (Session.step cfg s (.read n len)).map fun s' => withServer s' rs (s'.wire ++ w) := by
  unfold Session.step
  by_cases hdown : s.down = true
  · rw [if_pos hdown, if_pos (show (withServer s rs (s.wire ++ w)).down = true from hdown)]
    rfl
  rw [if_neg hdown, if_neg (show ¬ (withServer s rs (s.wire ++ w)).down = true from hdown)]
  have hconn : (withServer s rs (s.wire ++ w)).conn = s.conn := rfl
  simp only [hconn]
  cases s.conn with
  | none => rfl
  | some c =>
    simp only
    cases c.touch cfg with
    | none => rfl
    | some p =>
      obtain ⟨c', ok⟩ := p
      cases ok with
      | false => rfl
      | true =>
        -- the same bytes are read
        have hread : (withServer s rs (s.wire ++ w)).wire.take (min (min n s.wire.length) 0xFFFF)
            = s.wire.take (min n 0xFFFF) := by
          show (s.wire ++ w).take _ = _
          rw [List.take_append_of_le_length (by omega), List.take_eq_take_iff]
          omega
        have hdrop : (s.wire ++ w).drop (s.wire.take (min n 0xFFFF)).length
            = s.wire.drop (s.wire.take (min n 0xFFFF)).length ++ w :=
          List.drop_append_of_le_length (List.length_take_le' _ _)
        simp only [hread]
        cases hconn' : c'.readConn cfg len
            (if s.wire.take (min n 0xFFFF) = [] then .again
              else .data (s.wire.take (min n 0xFFFF))) with
        | mk c'' rest =>
          obtain ⟨es, next⟩ := rest
          show some _ = some _
          congr 1
          show Session.after { withServer s rs (s.wire ++ w) with wire := (s.wire ++ w).drop _ }
            c'' es next = _
          rw [hdrop]
          cases next <;> rfl

/-- What `Exec` leaves alone. -/
theorem exec_frame {cmdArgs : List Arg} (h : Session.step cfg s (.exec cmdArgs) = some s') :
    s'.sent = s.sent ∧ s'.wire = s.wire := by
  unfold Session.step at h
  split at h
  · cases h
  · cases hconn : s.conn with
    | none =>
      simp only [hconn, Option.some.injEq] at h
      exact h ▸ ⟨rfl, rfl⟩
    | some c =>
      simp only [hconn] at h
      split at h
      · split at h
        · exact Option.some.inj h ▸ ⟨rfl, rfl⟩
        · exact Option.some.inj h ▸ ⟨rfl, rfl⟩
      · cases h

/-- The bookkeeping after an event does not touch the bytes that were sent. -/
@[simp] theorem after_sent (s : Session) (c : Client.Conn) (es : List Client.Event) (next : Next) :
    (s.after c es next).sent = s.sent := by
  cases next <;> rfl

/-- The bookkeeping after an event does not touch the bytes on the way to the client. -/
@[simp] theorem after_wire (s : Session) (c : Client.Conn) (es : List Client.Event) (next : Next) :
    (s.after c es next).wire = s.wire := by
  cases next <;> rfl

/-- The bookkeeping after an event does not touch the commands that were issued. -/
@[simp] theorem after_issued (s : Session) (c : Client.Conn)
    (es : List Client.Event) (next : Next) : (s.after c es next).issued = s.issued := by
  cases next <;> rfl

/-- A write event sends some bytes. -/
theorem write_frame {wr : WriteResult} (h : Session.step cfg s (.write wr) = some s') :
    s.sent <+: s'.sent ∧ s'.wire = s.wire ∧ s'.issued = s.issued := by
  unfold Session.step at h
  split at h
  · cases h
  · cases hconn : s.conn with
    | none => simp only [hconn] at h; cases h
    | some c =>
      simp only [hconn] at h
      split at h
      · cases h
      · split at h
        · exact Option.some.inj h ▸ ⟨List.prefix_rfl, rfl, rfl⟩
        · exact Option.some.inj h ▸ ⟨List.prefix_rfl, rfl, rfl⟩
        · rw [← Option.some.inj h]
          simp

/-- A read event sends nothing. -/
theorem read_frame {n : ℕ} {len : ℤ} (h : Session.step cfg s (.read n len) = some s') :
    s'.sent = s.sent ∧ s'.issued = s.issued := by
  unfold Session.step at h
  split at h
  · cases h
  · cases hconn : s.conn with
    | none => simp only [hconn] at h; cases h
    | some c =>
      simp only [hconn] at h
      split at h
      · exact Option.some.inj h ▸ ⟨rfl, rfl⟩
      · exact Option.some.inj h ▸ ⟨rfl, rfl⟩
      · rw [← Option.some.inj h]
        simp

/-- A session of an orderly run. -/
def Running (cfg : Client.Config) (s : Session) :
    Prop := s = {} ∨ ∃ c cs ps, Session.Inv cfg s c cs ps

/-- An orderly step of the session keeps `Running`: from the start by the first `Exec`, later by the
    invariant of the session. -/
theorem step_running (hmax : cfg.responseMaxBytes < 2 ^ 63) {a : Session.Action}
    (hs : Running cfg s)
    (ha : Session.Orderly cfg s a) (hstep : Session.step cfg s a = some s') : Running cfg s' := by
  rcases hs with rfl | ⟨c, cs, ps, h⟩
  · exact .inr (Session.step_start hstep)
  · exact .inr (Session.step_inv hmax h ha hstep)

/-- `Exec` adds a command. -/
theorem exec_issued {cmdArgs : List Arg} (hs : Running cfg s)
    (h : Session.step cfg s (.exec cmdArgs) = some s') : s'.issued = s.issued ++ [cmdArgs] := by
  rcases hs with rfl | ⟨c, cs, ps, hinv⟩
  · exact Option.some.inj h ▸ rfl
  · unfold Session.step at h
    rw [if_neg (by simp [hinv.up])] at h
    simp only [hinv.conn] at h
    split at h
    · rename_i hpool
      obtain ⟨c', hfill, -⟩ := Session.exec_pooled hinv hpool cmdArgs
      rw [hfill] at h
      exact Option.some.inj h ▸ rfl
    · cases h

end Client

end Resh.RoundTrip
