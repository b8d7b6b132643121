import Mathlib.Logic.Function.Basic
import Resh.Go.Syscall
import Resh.Run

namespace Resh.Server

open Resh.Go

/-!
# server.go, conn.go, internal_linux.go — the listener and its event loop

`Listener.Serve` as a system of steps.  The event loop is one thread; its position is part of the
state (`Loop`), and one step is what it does up to the next system call, the next call of a handler
or the end of a section under the lock of a connection.  Handlers and other goroutines work on the
connections between any two steps (`UserOp`).  What the kernel, the parsers and the handlers
return, and the time, is chosen by the action.

A connection is known by its number, in the order of `accept`; `Ptr` is a `*Conn` of the list
between `fdhead` and `fdtail`.  `log` is not a field of the source: it records what was called on
behalf of which connection, in order.  `opened` and `poll.interest` are the kernel's: which
descriptors are open, and what each is registered for in the epoll instance.  The lock of a
connection is not modelled, since a section under it is one step.

What a connection has read and how it is parsed is in `Resh.Server.Conn`; here the outcome of
parsing is a choice of the action.  Not modelled: `Listener.Close`, `OnError` and `OnFdCount`, the
debug output, and the end of the epoll instance after the event loop has stopped.
-/

/-! ### The state -/

/-- A `*Conn` of the list. -/
inductive Ptr where
  | nil
  /-- `ln.fdhead` -/
  | head
  /-- `ln.fdtail` -/
  | tail
  | conn (id : ℕ)
  deriving DecidableEq, Repr

/-- What a descriptor is registered for. -/
inductive Interest where
  /-- `EPOLLIN` -/
  | read
  /-- `EPOLLIN | EPOLLOUT` -/
  | readWrite
  deriving DecidableEq, Repr

/-- The flags `READ`, `WRITE` and `EOF` of an event. -/
structure Flags where
  read : Bool := false
  write : Bool := false
  eof : Bool := false
  deriving DecidableEq, Repr

/-- An event that `Poll.Wait` passes to its callback. -/
structure PollEvent where
  fd : ℕ
  ev : Flags
  deriving DecidableEq, Repr

/-- A `Conn` as the event loop sees it.  `ws` is the flag `closed` of the websocket, if there
    is one. -/
structure Socket where
  fd : ℕ := 0
  ts : ℤ := 0
  ws : Option Bool := none
  closed : Bool := false
  out : Bytes := []
  deriving DecidableEq, Repr

/-- What is called on behalf of a connection.  `read` and `write` go through `c.ssl` where there is
    one, and `sysClose` is `syscall.Close(c.fd)` followed by `c.ssl.Close()`. -/
inductive LoopCall where
  | addRead (id : ℕ)
  | mod (id : ℕ)
  | read (id : ℕ)
  | write (id : ℕ)
  | sysClose (id : ℕ)
  /-- the counter goes down by one -/
  | decrement (id : ℕ)
  | onWSClose (id : ℕ)
  /-- `UpgradeWebsocket` sets `c.ws` -/
  | upgrade (id : ℕ)
  deriving DecidableEq, Repr

/-- The connection of a call. -/
def LoopCall.conn : LoopCall → ℕ
  | addRead id | mod id | read id | write id | sysClose id | decrement id | onWSClose id
  | upgrade id => id

/-- Calls that read from, write to or register the descriptor of the connection. -/
def LoopCall.io : LoopCall → Bool
  | addRead _ | mod _ | read _ | write _ => true
  | _ => false

/-- The next thing that the callback does with a connection. -/
inductive Stage where
  /-- `writeConn` up to the release of the lock -/
  | write
  /-- all output is written; `writeConn` looks at `c.ws.closed` -/
  | drained
  /-- `ModRead` or `ModReadWrite` at the end of `writeConn` or `readConn` -/
  | mod (i : Interest)
  /-- the read call of `readConn` -/
  | read
  /-- `PARSE_NEXT` -/
  | parse
  /-- a handler runs -/
  | handler
  /-- `len(c.out) != 0` at the end of `readConn` -/
  | finish
  /-- `ev&EOF > 0` -/
  | eof
  deriving DecidableEq, Repr

/-- Where the event loop is.  `todo` are the events of this round that are still to be passed to the
    callback; `between []` is the loop that is about to wait. -/
inductive Loop where
  /-- between two callbacks -/
  | between (todo : List PollEvent)
  /-- in the callback for a connection; `ev.read` and `ev.eof` are still to be looked at -/
  | serving (id : ℕ) (stage : Stage) (ev : Flags) (todo : List PollEvent)
  /-- at `ln.Timeout > 0` -/
  | tick (todo : List PollEvent)
  /-- in the loop over the list, at `conn` -/
  | sweep (conn : Ptr) (now : ℤ) (todo : List PollEvent)
  /-- the callback has panicked or the wait has failed; the deferred function runs -/
  | dead
  deriving DecidableEq, Repr

/-- `Poll`; the last descriptor that `Trigger` has added comes first. -/
structure Poll where
  interest : ℕ → Option Interest
  writesFd : List ℕ := []

/-- `Listener`, with the connections it has made.  `dirty` are the writers that have appended to
    the output of a connection and have not flushed since: a goroutine, or `none` for a handler,
    whose output the event loop writes itself. -/
structure Listener where
  conns : ℕ → Socket
  made : ℕ := 0
  next : Ptr → Ptr
  prev : Ptr → Ptr
  fdconns : ℕ → Option ℕ
  count : ℤ := 0
  opened : ℕ → Bool
  poll : Poll
  dirty : List (Option ℕ × ℕ) := []
  log : List LoopCall := []
  loop : Loop := .between []

/-- `ln.fd` and `ln.Timeout`. -/
structure Config where
  fd : ℕ
  timeout : ℤ
  deriving DecidableEq, Repr

namespace Listener

/-- The listener when `Serve` starts to wait: `fdhead` and `fdtail` point to each other, and
    `ln.fd` is registered. -/
def init (cfg : Config) : Listener where
  conns := fun _ => {}
  next := Function.update (fun _ => .nil) .head .tail
  prev := Function.update (fun _ => .nil) .tail .head
  fdconns := fun _ => none
  opened := Function.update (fun _ => false) cfg.fd true
  poll := { interest := Function.update (fun _ => none) cfg.fd (some .read) }

/-! ### The functions of the listener -/

/-- A call is recorded. -/
def record (l : Listener) (c : LoopCall) : Listener := { l with log := l.log ++ [c] }

/-- A connection gets new fields. -/
def setConn (l : Listener) (id : ℕ) (c : Socket) : Listener :=
  { l with conns := Function.update l.conns id c }

/-- `c.detach()`. -/
def detach (l : Listener) (id : ℕ) : Listener :=
  { l with
    next := Function.update l.next (l.prev (.conn id)) (l.next (.conn id))
    prev := Function.update l.prev (l.next (.conn id)) (l.prev (.conn id)) }

/-- `ln.attachConn(c)`. -/
def attachConn (l : Listener) (id : ℕ) (now : ℤ) : Listener :=
  { l with
    next := Function.update (Function.update l.next (.conn id) (l.next .head)) .head (.conn id)
    prev := Function.update (Function.update l.prev (l.next .head) (.conn id)) (.conn id) .head
    conns := Function.update l.conns id { l.conns id with ts := now } }

/-- What `closeConnWithError` calls for a connection. -/
def closing (ws : Bool) (id : ℕ) : List LoopCall :=
  (if ws then [.onWSClose id] else []) ++ [.decrement id, .sysClose id]

/-- `ln.closeConnWithError(c, errType, err)`.  The kernel drops the registration of a descriptor
    that is closed. -/
def closeConnWithError (l : Listener) (id : ℕ) : Listener :=
  let c := l.conns id
  if c.closed then l
  else { l.detach id with
    conns := Function.update l.conns id { c with closed := true }
    count := l.count - 1
    fdconns := Function.update l.fdconns c.fd none
    opened := Function.update l.opened c.fd false
    poll := { l.poll with interest := Function.update l.poll.interest c.fd none }
    log := l.log ++ closing c.ws.isSome id }

/-- A new connection: it is registered, stored in `fdconns`, put into the list and counted. -/
def newConn (l : Listener) (fd : ℕ) (now : ℤ) : Listener :=
  attachConn { l with
    conns := Function.update l.conns l.made { fd := fd }
    made := l.made + 1
    opened := Function.update l.opened fd true
    poll := { l.poll with interest := Function.update l.poll.interest fd (some .read) }
    fdconns := Function.update l.fdconns fd (some l.made)
    count := l.count + 1
    log := l.log ++ [.addRead l.made] } l.made now

/-- `ModRead` and `ModReadWrite`: `epoll_ctl` fails, and the function panics, if the descriptor is
    not registered. -/
def modPoll (l : Listener) (fd : ℕ) (i : Interest) : Option Poll :=
  match l.poll.interest fd with
  | none => none
  | some _ => some { l.poll with interest := Function.update l.poll.interest fd (some i) }

/-- A writer has no unflushed output on a connection any more. -/
def flushed (l : Listener) (w : Option ℕ) (id : ℕ) : Listener :=
  { l with dirty := l.dirty.filter (· ≠ (w, id)) }

/-- A writer appends to the output of a connection. -/
def append (l : Listener) (w : Option ℕ) (id : ℕ) (p : Bytes) : Listener :=
  { l.setConn id { l.conns id with out := (l.conns id).out ++ p } with dirty := (w, id) :: l.dirty }

/-- A descriptor is open and no connection has it. -/
def leak (l : Listener) (fd : ℕ) : Listener :=
  { l with opened := Function.update l.opened fd true }

/-- `p.Trigger(fd)`. -/
def trigger (l : Listener) (fd : ℕ) : Listener :=
  { l with poll := { l.poll with writesFd := fd :: l.poll.writesFd } }

/-- The event loop goes on. -/
def goto (l : Listener) (loop : Loop) : Listener := { l with loop := loop }

end Listener

/-! ### The actions -/

/-- What `accept` and the set-up of a connection give. -/
inductive AcceptResult where
  /-- no connection: `EAGAIN`, or an error that is reported -/
  | none
  /-- `SetNonblock` or the TLS layer fails; nothing closes the descriptor -/
  | setupError (fd : ℕ)
  /-- `AddRead` fails in the kernel, and panics -/
  | addReadError (fd : ℕ)
  | ok (fd : ℕ)
  deriving DecidableEq, Repr

/-- What `PARSE_NEXT` makes of the input. -/
inductive ParseResult where
  | oversize
  /-- `errWaitMore` -/
  | more
  /-- another error -/
  | error
  /-- a request, or a frame -/
  | complete
  deriving DecidableEq, Repr

/-- What the handler of a request or a frame leaves. -/
inductive HandlerResult where
  /-- the handler returns false, or `onWebsocket` closes -/
  | close
  /-- a frame is handled and there is input left -/
  | again
  | done
  deriving DecidableEq, Repr

/-- What handlers and goroutines do with a connection, each under its lock. -/
inductive UserOp where
  /-- `c.Write(p)` -/
  | write (w : Option ℕ) (id : ℕ) (p : Bytes)
  /-- `c._writeInt` and `c._writeString`, and the append of a `c.Write` that found `c` open -/
  | append (w : Option ℕ) (id : ℕ) (p : Bytes)
  /-- `c.Flush()` -/
  | flush (w : Option ℕ) (id : ℕ)
  /-- the `Trigger` of a `c.Flush()` that found `c` open -/
  | trigger (fd : ℕ)
  | upgrade (id : ℕ)
  /-- `ws.closed = true` in `ws.Close()` -/
  | wsClose (id : ℕ)
  deriving DecidableEq, Repr

/-- A step of the event loop, with what it gets, or of a handler or goroutine. -/
inductive Act where
  /-- `EpollWait` returns and the queue of `Trigger` is swapped out -/
  | wake (evs : List PollEvent)
  /-- `EpollWait` fails -/
  | waitError
  /-- the callback starts -/
  | callback (now : ℤ) (acc : AcceptResult)
  | write (wr : WriteResult)
  | drained
  | mod
  | read (rd : ReadResult)
  | parse (res : ParseResult)
  | handled (res : HandlerResult)
  | finish
  | eof
  | tick (now : ℤ)
  | sweep
  /-- the deferred function closes a connection -/
  | cleanup (fd : ℕ)
  | user (op : UserOp)
  deriving DecidableEq, Repr

namespace Listener

/-- The callback after `writeConn`: `readConn` if there is something to read. -/
def resume (id : ℕ) (ev : Flags) (todo : List PollEvent) : Loop :=
  if ev.read then .serving id .read { ev with read := false } todo else .serving id .eof ev todo

/-- The callback for a connection that was found. -/
def dispatch (id : ℕ) (ev : Flags) (todo : List PollEvent) : Loop :=
  if ev.write then .serving id .write ev todo else resume id ev todo

/-- The callback for `ln.fd`.  The kernel does not give out a descriptor that is open. -/
def acceptConn (l : Listener) (todo : List PollEvent) (now : ℤ) : AcceptResult → Option Listener
  | .none => some (l.goto (.between todo))
  | .setupError fd =>
    if l.opened fd then none
    else some ((l.leak fd).goto (.between todo))
  | .addReadError fd =>
    if l.opened fd then none
    else some ((l.leak fd).goto .dead)
  | .ok fd =>
    if l.opened fd then none
    else match l.poll.interest fd with
      -- `AddRead` panics for a descriptor that is registered already
      | some _ => some ((l.leak fd).goto .dead)
      | none => some ((l.newConn fd now).goto (.tick todo))

/-- The section of `writeConn` under the lock, and the close of a failed write. -/
def writeConn (l : Listener) (id : ℕ) (ev : Flags) (todo : List PollEvent) (wr : WriteResult) :
    Listener :=
  let c := l.conns id
  let l := l.flushed none id
  if c.out = [] then l.goto (.serving id (.mod .read) ev todo)
  else
    let l := l.record (.write id)
    match wr with
    | .error _ => (l.closeConnWithError id).goto (resume id ev todo)
    | .again room =>
      (l.setConn id { c with out := c.out.drop room }).goto (.serving id (.mod .readWrite) ev todo)
    | .ok room =>
      if c.out.length ≤ room then
        (l.setConn id { c with out := [] }).goto (.serving id .drained ev todo)
      else
        (l.setConn id { c with out := c.out.drop room }).goto
          (.serving id (.mod .readWrite) ev todo)

/-- The read call of `readConn` and what follows it before the parsing. -/
def readConn (l : Listener) (id : ℕ) (ev : Flags) (todo : List PollEvent) (rd : ReadResult) :
    Listener :=
  let l := l.record (.read id)
  match rd with
  | .data [] => (l.closeConnWithError id).goto (resume id ev todo)
  | .data (_ :: _) => l.goto (.serving id .parse ev todo)
  | .again => l.goto (.serving id (.mod .read) ev todo)
  | .error _ => (l.closeConnWithError id).goto (resume id ev todo)

/-- `PARSE_NEXT`.  A websocket that is closed waits for more, and one that is open does not fail. -/
def parseConn (l : Listener) (id : ℕ) (ev : Flags) (todo : List PollEvent) :
    ParseResult → Option Listener
  | .oversize => some ((l.closeConnWithError id).goto (resume id ev todo))
  | .more => some (l.goto (resume id ev todo))
  | .error =>
    if (l.conns id).ws = none then some ((l.closeConnWithError id).goto (resume id ev todo))
      else none
  | .complete =>
    if (l.conns id).ws = some true then none else some (l.goto (.serving id .handler ev todo))

/-- The callback in one of its stages. -/
def serve (l : Listener) (id : ℕ) (ev : Flags) (todo : List PollEvent) :
    Stage → Act → Option Listener
  | .write, .write wr => some (l.writeConn id ev todo wr)
  | .drained, .drained =>
    if (l.conns id).ws = some true then some ((l.closeConnWithError id).goto (resume id ev todo))
    else some (l.goto (.serving id (.mod .read) ev todo))
  | .mod i, .mod =>
    match l.modPoll (l.conns id).fd i with
    | none => some ((l.record (.mod id)).goto .dead)
    | some poll => some ({ l.record (.mod id) with poll := poll }.goto (resume id ev todo))
  | .read, .read rd => some (l.readConn id ev todo rd)
  | .parse, .parse res => l.parseConn id ev todo res
  | .handler, .handled .close => some ((l.closeConnWithError id).goto (resume id ev todo))
  | .handler, .handled .again => some (l.goto (.serving id .parse ev todo))
  | .handler, .handled .done => some (l.goto (.serving id .finish ev todo))
  | .finish, .finish =>
    if (l.conns id).out = [] then some (l.goto (resume id ev todo))
    else some (l.goto (.serving id .write ev todo))
  | .eof, .eof => some ((if ev.eof then l.closeConnWithError id else l).goto (.tick todo))
  | _, _ => none

/-- One round of the loop over the list; `fdtail` is never on its way. -/
def sweepConn (cfg : Config) (l : Listener) (now : ℤ) (todo : List PollEvent) : Ptr → Listener
  | .nil => l.goto (.between todo)
  | .head => l.goto (.between todo)
  | .tail => l.goto .dead
  | .conn id =>
    if (l.conns id).ts < now - cfg.timeout then
      let l := l.closeConnWithError id
      l.goto (.sweep (l.prev (.conn id)) now todo)
    else l.goto (.between todo)

/-- What a handler or goroutine does; only connections that exist are used. -/
def useConn (l : Listener) : UserOp → Option Listener
  | .write w id p =>
    if id < l.made then some (if (l.conns id).closed then l else l.append w id p) else none
  | .append w id p => if id < l.made then some (l.append w id p) else none
  | .flush w id =>
    if id < l.made then
      some (if (l.conns id).closed then l.flushed w id
        else (l.flushed w id).trigger (l.conns id).fd)
    else none
  | .trigger fd => some (l.trigger fd)
  | .upgrade id =>
    if id < l.made then
      some ((l.setConn id { l.conns id with ws := some false }).record (.upgrade id))
    else none
  | .wsClose id =>
    if id < l.made then
      some (l.setConn id { l.conns id with ws := (l.conns id).ws.map fun _ => true })
    else none

/-- One step; `none` where the action cannot happen. -/
def step (cfg : Config) (l : Listener) (a : Act) : Option Listener :=
  match a, l.loop with
  | .user op, _ => l.useConn op
  | .wake evs, .between [] =>
    let triggered : List PollEvent := l.poll.writesFd.map fun fd => ⟨fd, { write := true }⟩
    some (goto { l with poll := { l.poll with writesFd := [] } } (.between (triggered ++ evs)))
  | .waitError, .between [] => some (l.goto .dead)
  | .callback now acc, .between (e :: todo) =>
    if e.fd = cfg.fd then l.acceptConn todo now acc
    else match l.fdconns e.fd with
      | none => some (l.goto (.between todo))
      | some id => some (((l.detach id).attachConn id now).goto (dispatch id e.ev todo))
  | .tick now, .tick todo =>
    if 0 < cfg.timeout then some (l.goto (.sweep (l.prev .tail) now todo))
    else some (l.goto (.between todo))
  | .sweep, .sweep conn now todo => some (sweepConn cfg l now todo conn)
  | .cleanup fd, .dead => (l.fdconns fd).map fun id => l.closeConnWithError id
  | a, .serving id stage ev todo => l.serve id ev todo stage a
  | _, _ => none

end Listener

end Resh.Server
