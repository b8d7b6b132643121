import Resh.Client.Conn
import Resh.Run
import Mathlib.Logic.Function.Basic

namespace Resh.Client

open Resh.Go

/-!
# redis/client.go — the client

All connections of a client and the goroutines that work on them: the event loop, the callers of
`Exec`, the timers of the connections and a caller of `Close`.  Each action is what one of them
does between two places where another one can come in; the actions carry what the environment
decides (which event the poller reports, what a system call returns, when a timer expires), and
the poller may report any event for any fd, a late one of a closed connection too.

* a `Conn` is known by its number, in the order of creation, and so is a call of `Exec` with its
  callback;
* `closeConnWithError` is one action, and so is the part of `Exec` from the socket to
  `fdConns.Add`;
* a panic ends the event loop (it is recovered there) or, in any other goroutine, the process;
  `fdMap.Delete` panics with its mutex locked, and then nobody can delete any more.
-/

/-! ### State -/

/-- `fdMap[Conn]`; `locked` if its mutex stays locked for good. -/
structure FdMap where
  slot : ℕ → Option ℕ := fun _ => none
  count : ℤ := 0
  locked : Bool := false

/-- Where the event loop is: in the poller, in front of a write or a read of a connection, in the
    loop of `readConn`, or about to push a connection into the pool. -/
inductive Loop where
  | ready
  | writing (id : ℕ)
  | reading (id : ℕ)
  | parsing (id : ℕ)
  | pushing (id : ℕ)
  | dead
  deriving DecidableEq, Repr

/-- The connection that the event loop works on. -/
def Loop.at : Loop → Option ℕ
  | writing id => some id
  | reading id => some id
  | parsing id => some id
  | pushing id => some id
  | _ => none

/-- Where a call of `Exec` is: it found no idle connection, waits for one, makes one, has added
    one to `fdConns`, closes idle ones that are too many, or has returned. -/
inductive Pc where
  | deciding
  | waiting
  | creating
  | arming (id : ℕ)
  | trimming
  | done
  deriving DecidableEq, Repr

/-- A call of `Exec`. -/
structure Exec where
  cmdArgs : List Arg
  pc : Pc
  deriving DecidableEq, Repr

structure State where
  conns : ℕ → Option Conn := fun _ => none
  /-- how many connections were made -/
  made : ℕ := 0
  fdConns : FdMap := {}
  fdIdle : List ℕ := []
  /-- the file descriptors that are open -/
  opened : ℕ → Bool := fun _ => false
  loop : Loop := .ready
  execs : ℕ → Option Exec := fun _ => none
  /-- how often `Exec` was called -/
  called : ℕ := 0
  crashed : Bool := false
  log : List Event := []

inductive Action where
  /-- `Exec` is called and looks into the pool -/
  | exec (cmdArgs : List Arg)
  | decide (k : ℕ)
  | receive (k : ℕ)
  /-- `socket` and `connect`, which give a new fd or an error -/
  | connect (k : ℕ) (res : Except Bytes ℕ)
  | arm (k : ℕ)
  | trim (k : ℕ)
  | event (fd : ℕ) (write : Bool)
  | write (wr : WriteResult)
  | read (rd : ReadResult)
  | parse
  | push
  /-- the timer of a connection expires and starts its function -/
  | expire (id : ℕ)
  /-- the function of a timer runs -/
  | timeout (id : ℕ)
  /-- `Close` comes to the fd -/
  | shut (fd : ℕ)

namespace State

/-! ### Closing -/

inductive Who where
  | loop
  | other
  deriving DecidableEq, Repr

/-- A goroutine panics. -/
def panicked (s : State) : Who → State
  | .loop => { s with loop := .dead }
  | .other => { s with crashed := true }

/-- What `closeConnWithError` calls behind `syscall.Close`. -/
def closeEvents (c : Conn) (typ : ErrType) (err : Option Cause) : List Event :=
  (match err with
    | some cause => [.error typ cause]
    | none => []) ++
  (match typ, c.callback with
    | .free, _ => []
    | _, some k => [.call k none (some (err.getD .errClosed))]
    | _, none => [])

/-- `fdMap.Delete` finds no entry. -/
def stuck (s : State) (who : Who) : State :=
  ({ s with fdConns := { s.fdConns with locked := true }
            log := s.log ++ [Event.bug] }).panicked who

/-- `fdMap.Delete` and `syscall.Close`; the event loop is done with the connection. -/
def removed (s : State) (who : Who) (fd : ℕ) (es : List Event) : State :=
  { s with
    fdConns := { s.fdConns with slot := Function.update s.fdConns.slot fd none
                                count := s.fdConns.count - 1 }
    opened := Function.update s.opened fd false
    loop := match who with
      | .loop => .ready
      | .other => s.loop
    log := s.log ++ es }

/-- The error of `syscall.Close` for an fd that is not open. -/
def closeErrors (s : State) (fd : ℕ) : List Event :=
  if s.opened fd then [] else [.error .close (.io (ascii "bad file descriptor"))]

/-- `closeConnWithError(c, typ, err)` for the connection `c` with the number `id`; `none` if the
    mutex is locked for good. -/
def closeConnWithError (s : State) (who : Who) (id : ℕ) (c : Conn) (typ : ErrType)
    (err : Option Cause) : Option State :=
  if s.fdConns.locked then none
  else match s.fdConns.slot c.fd with
    | none => some (s.stuck who)
    | some v =>
      some (s.removed who c.fd
        (.teardown id v :: (s.closeErrors c.fd ++ closeEvents c typ err)))

/-! ### `Exec` -/

/-- A call of `Exec` goes on. -/
def setPc (s : State) (k : ℕ) (pc : Pc) : State :=
  { s with execs := Function.update s.execs k ((s.execs k).map fun e => { e with pc := pc }) }

/-- A connection changes. -/
def setConn (s : State) (id : ℕ) (c : Conn) : State :=
  { s with conns := Function.update s.conns id (some c) }

/-- `fillIdleConn` with the next connection of the pool. -/
def takeIdle (cfg : Config) (s : State) (k : ℕ) (cmdArgs : List Arg) : Option State :=
  match s.fdIdle with
  | [] => none
  | id :: rest =>
    match s.conns id with
    | none => none
    | some c =>
      match c.fill cfg k cmdArgs with
      | none => some { s with fdIdle := rest, crashed := true }
      | some c => some ((({ s with fdIdle := rest }).setConn id c).setPc k .trimming)

/-- A new call of `Exec`. -/
def enter (s : State) (cmdArgs : List Arg) : State :=
  { s with execs := Function.update s.execs s.called (some ⟨cmdArgs, .deciding⟩)
           called := s.called + 1 }

/-- `Exec(cmdArgs, cb)` up to the first `select`. -/
def exec (cfg : Config) (s : State) (cmdArgs : List Arg) : Option State :=
  if s.fdIdle = [] then some (s.enter cmdArgs)
  else takeIdle cfg (s.enter cmdArgs) s.called cmdArgs

/-- `d.fdConns.Len() >= d.poolSize`. -/
def decide (cfg : Config) (s : State) (k : ℕ) : Option State :=
  match s.execs k with
  | some ⟨_, .deciding⟩ =>
    some (s.setPc k (if s.fdConns.count ≥ cfg.poolSize then .waiting else .creating))
  | _ => none

/-- `<-d.fdIdle`. -/
def receive (cfg : Config) (s : State) (k : ℕ) : Option State :=
  match s.execs k with
  | some ⟨cmdArgs, .waiting⟩ => takeIdle cfg s k cmdArgs
  | _ => none

/-- `fdConns.Add(fd, c)` for a new connection, without the count. -/
def added (s : State) (fd : ℕ) (c : Conn) : State :=
  { s.setConn s.made c with
    made := s.made + 1
    opened := Function.update s.opened fd true
    fdConns := { s.fdConns with slot := Function.update s.fdConns.slot fd (some s.made) } }

/-- The new connection, up to `fdConns.Add`. -/
def connect (cfg : Config) (s : State) (k : ℕ) (res : Except Bytes ℕ) : Option State :=
  match s.execs k, res with
  | some ⟨_, .creating⟩, .error text =>
    some { s.setPc k .done with log := s.log ++ [.call k none (some (.io text))] }
  | some ⟨cmdArgs, .creating⟩, .ok fd =>
    if s.opened fd then none
    else
      let s' := (s.added fd (Conn.fresh cfg fd k cmdArgs)).setPc k (.arming s.made)
      if (s.fdConns.slot fd).isSome then some (s'.panicked .other)
      else some { s' with fdConns := { s'.fdConns with count := s.fdConns.count + 1 } }
  | _, _ => none

/-- `time.AfterFunc` and the end of `activateFreeConn`. -/
def arm (cfg : Config) (s : State) (k : ℕ) : Option State :=
  match s.execs k with
  | some ⟨_, .arming id⟩ =>
    match s.conns id with
    | none => none
    | some c => some ((s.setConn id (c.arm cfg)).setPc k .done)
  | _ => none

/-- The loop of `fillIdleConn` over the pool, one round or its end. -/
def trim (cfg : Config) (s : State) (k : ℕ) : Option State :=
  match s.execs k with
  | some ⟨_, .trimming⟩ =>
    if s.fdConns.count > cfg.poolSize then
      match s.fdIdle with
      | [] => some (s.setPc k .done)
      | id :: rest =>
        match s.conns id with
        | none => none
        | some c => ({ s with fdIdle := rest }).closeConnWithError .other id c .none none
    else some (s.setPc k .done)
  | _ => none

/-! ### The event loop -/

/-- How the event loop goes on after a part of it. -/
def proceed (s : State) (id : ℕ) (c : Conn) (es : List Event) (next : Next) : Option State :=
  let s := { s.setConn id c with log := s.log ++ es }
  match next with
  | .wait => some { s with loop := .ready }
  | .parse => some { s with loop := .parsing id }
  | .push => some { s with loop := .pushing id }
  | .close typ err => s.closeConnWithError .loop id c typ err
  | .panic => some { s with loop := .dead }

/-- The begin of an event. -/
def event (cfg : Config) (s : State) (fd : ℕ) (write : Bool) : Option State :=
  match s.loop, s.fdConns.slot fd with
  | .ready, none => some { s with log := s.log ++ [.error .warning (.notFound fd)] }
  | .ready, some id =>
    match s.conns id with
    | none => none
    | some c =>
      match c.touch cfg with
      | none => some { s with loop := .dead }
      | some (c, false) => some (s.setConn id c)
      | some (c, true) =>
        some { s.setConn id c with loop := if write then .writing id else .reading id }
  | _, _ => none

/-- The write of a write event. -/
def write (s : State) (wr : WriteResult) : Option State :=
  match s.loop with
  | .writing id =>
    match s.conns id with
    | none => none
    | some c => s.proceed id (c.writePart wr).1 [] (c.writePart wr).2
  | _ => none

/-- The read of a read event. -/
def read (cfg : Config) (s : State) (rd : ReadResult) : Option State :=
  match s.loop with
  | .reading id =>
    match s.conns id with
    | none => none
    | some c => s.proceed id (c.readHead cfg rd).1 (c.readHead cfg rd).2.1 (c.readHead cfg rd).2.2
  | _ => none

/-- One round of the loop of `readConn`, or its end. -/
def parse (cfg : Config) (s : State) : Option State :=
  match s.loop with
  | .parsing id =>
    match s.conns id with
    | none => none
    | some c =>
      let part := c.parseOne cfg s.fdConns.count
      s.proceed id part.1 part.2.1 part.2.2
  | _ => none

/-- `d.fdIdle <- c`, which waits for room. -/
def push (cfg : Config) (s : State) : Option State :=
  match s.loop with
  | .pushing id =>
    match s.conns id with
    | none => none
    | some c =>
      if s.fdIdle.length < cfg.poolSize then
        some { s with fdIdle := s.fdIdle ++ [id], loop := .ready,
                      log := s.log ++ [.idle c.inp c.callback c.authState] }
      else none
  | _ => none

/-! ### Timers and `Close` -/

/-- A timer that is running expires. -/
def expire (s : State) (id : ℕ) : Option State :=
  match s.conns id with
  | some c =>
    match c.death with
    | some t =>
      if t.armed then some (s.setConn id { c with death := some ⟨false, t.fired + 1⟩ }) else none
    | none => none
  | none => none

/-- The function of the timer. -/
def timeout (s : State) (id : ℕ) : Option State :=
  match s.conns id with
  | some c =>
    match c.death with
    | some t =>
      if 0 < t.fired then
        let c := { c with death := some { t with fired := t.fired - 1 } }
        (s.setConn id c).closeConnWithError .other id c .timeout (some (.timedOut c.fd))
      else none
    | none => none
  | none => none

/-- The round of `Close` for one entry of `fdConns`. -/
def shut (s : State) (fd : ℕ) : Option State :=
  match s.fdConns.slot fd with
  | some id =>
    match s.conns id with
    | some c => s.closeConnWithError .other id c .none none
    | none => none
  | none => none

end State

/-- **One step of the client.** -/
def step (cfg : Config) (s : State) (a : Action) : Option State :=
  if s.crashed then none
  else match a with
    | .exec cmdArgs => s.exec cfg cmdArgs
    | .decide k => s.decide cfg k
    | .receive k => s.receive cfg k
    | .connect k res => s.connect cfg k res
    | .arm k => s.arm cfg k
    | .trim k => s.trim cfg k
    | .event fd write => s.event cfg fd write
    | .write wr => s.write wr
    | .read rd => s.read cfg rd
    | .parse => s.parse cfg
    | .push => s.push cfg
    | .expire id => s.expire id
    | .timeout id => s.timeout id
    | .shut fd => s.shut fd

end Resh.Client
