import Resh.Client.Conn
import Resh.RoundTrip.Reply
import Resh.Run

namespace Resh.Client

open Resh.Go Resh.Server Resh.RoundTrip

/-!
# One connection and its server

A connection that is used for one command after the other, and the server at its other end.  The
server reads the commands (the `AUTH` command among them) and may answer each of them once it has
it in full, with one reply of its choice; what it sends is on the wire until the client reads it,
in pieces of any size.

* `Session` — the connection, and the commands, replies and bytes between the two ends;
* `Session.complete` — how many commands the server has in full;
* `Session.step` — `Exec`, a write event, an answer of the server, a read event.
-/

/-- A connection with its server; `conn = none` before the first `Exec`. -/
structure Session where
  conn : Option Conn := none
  /-- the connection is in `fdIdle` -/
  pooled : Bool := false
  /-- the connection was closed, or the event loop panicked -/
  down : Bool := false
  /-- the commands, in the order of the `Exec` calls -/
  issued : List (List Arg) := []
  /-- what the server has received -/
  sent : Bytes := []
  /-- what the server has answered -/
  replies : List Reply := []
  /-- what the server has sent and the client has not read -/
  wire : Bytes := []
  log : List Event := []

namespace Session

inductive Action where
  | exec (cmdArgs : List Arg)
  | write (wr : WriteResult)
  | serve (r : Reply)
  /-- a read of at most `n` bytes, with `len` connections in `fdConns` -/
  | read (n : ℕ) (len : ℤ)

/-- The commands for the server. -/
def commands (cfg : Config) (issued : List (List Arg)) : List Bytes :=
  (if cfg.auth = [] then [] else [appendAuth cfg.auth []]) ++ issued.map (appendCommand · [])

/-- How many of the commands lie within `len` bytes. -/
def complete : List Bytes → ℕ → ℕ
  | [], _ => 0
  | e :: es, len => if e.length ≤ len then complete es (len - e.length) + 1 else 0

/-- What a part of the event loop leaves. -/
def after (s : Session) (c : Conn) (es : List Event) : Next → Session
  | .push => { s with conn := some c, pooled := true,
                      log := s.log ++ es ++ [.idle c.inp c.callback c.authState] }
  | .close _ _ => { s with conn := some c, down := true, log := s.log ++ es }
  | .panic => { s with conn := some c, down := true, log := s.log ++ es }
  | _ => { s with conn := some c, log := s.log ++ es }

/-- One step.  `Exec` takes the connection when it is in the pool, and the poller reports that a
    connection can be written when there is something to write. -/
def step (cfg : Config) (s : Session) (a : Action) : Option Session :=
  if s.down then none
  else match a, s.conn with
    | .exec cmdArgs, none =>
      some { s with conn := some ((Conn.fresh cfg 0 0 cmdArgs).arm cfg), issued := [cmdArgs] }
    | .exec cmdArgs, some c =>
      if s.pooled then
        match c.fill cfg s.issued.length cmdArgs with
        | none => some { s with down := true }
        | some c => some { s with conn := some c, pooled := false, issued := s.issued ++ [cmdArgs] }
      else none
    | .write wr, some c =>
      if c.out = [] then none
      else match c.touch cfg with
        | none => some { s with down := true }
        | some (c, false) => some { s with conn := some c }
        | some (c, true) =>
          let (c', next) := c.writePart wr
          some (({ s with sent := s.sent ++ c.out.take (c.out.length - c'.out.length) }).after c' []
            next)
    | .serve r, _ =>
      if s.replies.length < complete (commands cfg s.issued) s.sent.length then
        some { s with replies := s.replies ++ [r], wire := s.wire ++ r.encode }
      else none
    | .read n len, some c =>
      match c.touch cfg with
      | none => some { s with down := true }
      | some (c, false) => some { s with conn := some c }
      | some (c, true) =>
        -- the buffer of the client has 0xFFFF bytes
        let d := s.wire.take (min n 0xFFFF)
        let (c', es, next) := c.readConn cfg len (if d = [] then .again else .data d)
        some (({ s with wire := s.wire.drop d.length }).after c' es next)
    | _, none => none

end Session

end Resh.Client
