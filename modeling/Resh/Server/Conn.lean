import Resh.Go.Syscall
import Resh.Server.Frame
import Resh.Server.State

namespace Resh.Server

open Resh.Go Resh.Incremental

/-!
# conn.go, server.go — a connection in the event loop

The functions of the event loop that work on one connection: `readConn` and `writeConn` with what
they call, `onWebsocket` of ws.go among it.  The results of the system calls and the handlers of
the application are parameters.

A function either returns the changed connection or halts (`Halt`): it spins on the lock of the
connection, or an index is out of range.  `sent` and `log` are not fields of the source; they
record what went to the socket and what was called, in order.  The bookkeeping of the listener
(`fdconns`, the list of connections, the poller) is not part of this module: once a connection is
closed it is out of `fdconns`, and the event loop does not find it any more.
-/

/-- Why a function does not return. -/
inductive Halt where
  | panic
  | spin
  deriving DecidableEq, Repr

/-- `Websocket`; `contFrame = none` is the nil slice. -/
structure Websocket where
  parsedFrame : WsFrame := {}
  contFrame : Option Bytes := none
  closed : Bool := false
  closingData : Bytes := []
  deriving DecidableEq, Repr

/-- The errors that the listener reports, each with what its text prints. -/
inductive Cause where
  /-- an error of `process` -/
  | process (e : Err)
  /-- an error of a system call -/
  | io (text : Bytes)
  /-- `request too large: %db` -/
  | tooLarge (n : ℕ)
  /-- `unexpected continuation frame` -/
  | unexpectedContinuation
  /-- `continuation frame too large` -/
  | continuationTooLarge
  deriving DecidableEq, Repr

/-- What the event loop does on behalf of a connection. -/
inductive Event where
  | wsData (data : Bytes)
  | wsClose (data : Bytes)
  | pong (data : Bytes)
  | http (req : HTTP)
  | redis (req : Redis)
  | sysClose
  | error (errType : Bytes) (cause : Cause)
  deriving DecidableEq, Repr

/-- `Conn`. -/
structure Conn where
  ws : Option Websocket := none
  srs : ServerReadState := {}
  closed : Bool := false
  lock : Bool := false
  inp : Bytes := []
  out : Bytes := []
  sent : Bytes := []
  log : List Event := []
  deriving DecidableEq, Repr

/-- The handlers of the application: what they make of the connection, and the answer of the two
    that have one. -/
structure Handlers where
  onWSData : Conn → Bytes → Conn
  onHTTP : HTTP → Conn → Conn × Bool
  onRedis : Redis → Conn → Conn × Bool

namespace Conn

/-! ### conn.go -/

/-- `c.spinLock()`. -/
def spinLock (c : Conn) : Except Halt Conn :=
  if c.lock then .error .spin else .ok { c with lock := true }

/-- `c.spinUnlock()`. -/
def spinUnlock (c : Conn) : Conn := { c with lock := false }

/-- `c.Write(p)`. -/
def write (c : Conn) (p : Bytes) : Except Halt Conn :=
  if c.closed then .ok c
  else do
    let c ← c.spinLock
    .ok ({ c with out := c.out ++ p }).spinUnlock

theorem write_eq {c : Conn} (halive : c.closed = false) (hlock : c.lock = false) (p : Bytes) :
    c.write p = .ok { c with out := c.out ++ p } := by
  obtain ⟨ws, srs, closed, lock, inp, out, sent, log⟩ := c
  simp only at halive hlock
  subst halive hlock
  rfl

/-- `c.truncateInputBuffer(sz)`. -/
def truncateInputBuffer (c : Conn) (sz : ℤ) : Except Halt (Conn × ℕ) := do
  let c ← c.spinLock
  match slice? c.inp sz c.inp.length with
  | none => .error .panic
  | some inp => .ok (({ c with inp := inp }).spinUnlock, inp.length)

/-! ### server.go -/

/-- `ln.closeConnWithError(c, errType, err)`. -/
def closeConnWithError (c : Conn) (errType : Bytes) (err : Option Cause) : Conn :=
  if c.closed then c
  else { c with
    closed := true
    log := c.log ++ (match c.ws with | some ws => [.wsClose ws.closingData] | none => [])
      ++ [.sysClose] ++ (match err with | some cause => [.error errType cause] | none => []) }

/-- `ln.writeConn(c)`.  The write call takes the first `n` bytes of the output, whatever the
    function does with `c.out` afterwards. -/
def writeConn (wr : WriteResult) (c : Conn) : Except Halt Conn := do
  let c ← c.spinLock
  if c.out.length = 0 then .ok c.spinUnlock
  else
    let n := wr.accepted c.out
    let c := { c with sent := c.sent ++ c.out.take n }
    match wr with
    | .again _ => .ok (if 0 < n then { c with out := c.out.drop n } else c).spinUnlock
    | .error text => .ok (c.spinUnlock.closeConnWithError (ascii "write") (some (.io text)))
    | .ok _ =>
      if n = c.out.length then
        let c := ({ c with out := [] }).spinUnlock
        if c.ws.any (·.closed) then .ok (c.closeConnWithError [] none) else .ok c
      else .ok ({ c with out := c.out.drop n }).spinUnlock

/-! ### ws.go -/

/-- `c.ws.write(typ, p)`. -/
def wsWrite (c : Conn) (typ : UInt8) (p : Bytes) : Except Halt Conn := c.write (serverFrame typ p)

/-- `OnWSData(c.ws, data)`. -/
def onWSData (H : Handlers) (c : Conn) (data : Bytes) : Conn :=
  H.onWSData { c with log := c.log ++ [.wsData data] } data

/-- `ln.onWebsocket(req, c)`. -/
def onWebsocket (env : Env) (H : Handlers) (req : WsFrame) (c : Conn) : Except Halt (Conn × Bool) :=
  match c.ws with
  | none => .error .panic
  | some ws =>
    if req.opcode = 0 then
      match ws.contFrame with
      | none => .ok (c.closeConnWithError (ascii "websocket") (some .unexpectedContinuation), false)
      | some contFrame =>
        let contFrame := contFrame ++ req.data
        let c := { c with ws := some { ws with contFrame := some contFrame } }
        if env.requestMaxBytes < contFrame.length then
          .ok (c.closeConnWithError (ascii "websocket") (some .continuationTooLarge), false)
        else if req.fin then
          let c := onWSData H c contFrame
          .ok ({ c with ws := c.ws.map fun ws => { ws with contFrame := none } }, true)
        else .ok (c, true)
    else if req.opcode = 8 then
      let c := { c with ws := some { ws with closingData := req.data } }
      .ok (c.closeConnWithError [] none, false)
    else if req.opcode = 9 then do
      let c ← wsWrite { c with log := c.log ++ [.pong req.data] } 10 req.data
      .ok (c, true)
    else if req.opcode = 10 then .ok (c, true)
    else if req.fin then .ok (onWSData H c req.data, true)
    else .ok ({ c with ws := some { ws with contFrame := some req.data } }, true)

/-! ### `readConn` -/

/-- The end of `readConn`. -/
def finishRead (wr : WriteResult) (c : Conn) : Except Halt Conn :=
  let c := { c with srs := {} }
  if c.out.length ≠ 0 then writeConn wr c else .ok c

/-- The handling of a request that is not a frame. -/
def onRequest (H : Handlers) (wr : WriteResult) (c : Conn) : Except Halt Conn :=
  match c.srs.http, c.srs.redis with
  | some req, _ => do
    let (c, _) ← c.truncateInputBuffer (req.bodyLen + req.hdrLen)
    let (c, ok) := H.onHTTP req { c with log := c.log ++ [.http req] }
    if ok then finishRead wr c else .ok (c.closeConnWithError [] none)
  | none, some req => do
    let (c, _) ← c.truncateInputBuffer req.read
    let (c, ok) := H.onRedis req { c with log := c.log ++ [.redis req] }
    if ok then finishRead wr c else .ok (c.closeConnWithError [] none)
  | none, none => .error .panic

/-- `PARSE_NEXT`, with `buf` the bytes of `ln.buffer[:n]`; `n` bounds the rounds.  An oversize
    input closes the connection with its lock held. -/
def parseNext (env : Env) (H : Handlers) (wr : WriteResult) : ℕ → Bytes → Conn → Except Halt Conn
  | 0, _, _ => .error .panic
  | n + 1, buf, c => do
    let c ← c.spinLock
    let c := { c with inp := c.inp ++ buf }
    if env.requestMaxBytes < c.inp.length then
      .ok (c.closeConnWithError (ascii "oversize") (some (.tooLarge c.inp.length)))
    else match c.ws with
      | some ws =>
        if ws.closed then .ok c.spinUnlock
        else match parseFrame c.inp with
          | .more => .ok c.spinUnlock
          | .ok (req, inp) => do
            let c := ({ c with inp := inp, ws := some { ws with parsedFrame := req } }).spinUnlock
            let (c, remain) ← c.truncateInputBuffer req.len
            let (c, go) ← onWebsocket env H req c
            if go then
              if remain > 0 then parseNext env H wr n [] c else finishRead wr c
            else .ok c
          | _ => .error .panic
      | none =>
        let call := process env c.srs c.inp
        let c := ({ c with srs := call.state, inp := call.buf }).spinUnlock
        match call.ret with
        | .more => .ok c
        | .fail e => .ok (c.closeConnWithError (ascii "read") (some (.process e)))
        | .panic => .error .panic
        | .ok () => onRequest H wr c

/-- `ln.readConn(c)`, with the result of the read and of the write that may follow. -/
def readConn (env : Env) (H : Handlers) (rd : ReadResult) (wr : WriteResult) (c : Conn) :
    Except Halt Conn :=
  match rd with
  | .data [] => .ok (c.closeConnWithError [] none)
  | .again => .ok c
  | .error text => .ok (c.closeConnWithError (ascii "read") (some (.io text)))
  | .data d => parseNext env H wr (c.inp.length + d.length + 1) d c

end Conn

/-! ### Runs of one connection -/

/-- A turn of the event loop at the connection. -/
inductive Turn where
  | read (rd : ReadResult) (wr : WriteResult)
  | write (wr : WriteResult)
  deriving DecidableEq, Repr

/-- The bytes that a turn reads. -/
def Turn.input : Turn → Bytes
  | read (.data d) _ => d
  | _ => []

/-- One turn; a closed connection is not found any more. -/
def Conn.turn (env : Env) (H : Handlers) (c : Conn) (t : Turn) : Except Halt Conn :=
  if c.closed then .ok c
  else match t with
    | .read rd wr => c.readConn env H rd wr
    | .write wr => c.writeConn wr

/-- A run. -/
def Conn.turns (env : Env) (H : Handlers) (c : Conn) (ts : List Turn) : Except Halt Conn :=
  ts.foldlM (Conn.turn env H) c

end Resh.Server
