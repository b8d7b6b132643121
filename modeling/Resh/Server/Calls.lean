import Resh.Server.Reply

namespace Resh.Server

open Resh.Go

/-!
# conn.go, redis.go — the methods of a connection that handlers call

A handler, or a goroutine that has kept a request, acts on a connection through these methods only
(`Call`).  Each of them holds the lock while it works on the buffers.

* `Call.run_eq` — on an unlocked connection a call returns, and all that it does is to append
  `Call.added` to the output.
-/

namespace Conn

/-- `c._writeInt(v, b)`. -/
def writeInt (c : Conn) (v : ℤ) (b : ℕ) : Except Halt Conn := Redis.appendOut c (formatIntBase b v)

/-- `c._writeString(v)`. -/
def writeString (c : Conn) (v : Bytes) : Except Halt Conn := Redis.appendOut c v

/-- `c.ReuseInputBuffer(in)`. -/
def reuseInputBuffer (c : Conn) (data : Bytes) : Except Halt Conn := do
  let c ← c.spinLock
  .ok (if c.inp.length = 0 then { c with inp := data.take 0 } else c).spinUnlock

end Conn

/-- A call of a method. -/
inductive Call where
  | write (p : Bytes)
  | writeInt (v : ℤ) (b : ℕ)
  | writeString (v : Bytes)
  | writeRawBytes (p : Bytes)
  | writeError (err : Bytes)
  | writeSimpleString (p : Bytes)
  | writeBulk (p : Bytes)
  | writeBulkString (p : Bytes)
  | writeArrayBegin (n : ℤ)
  | reuseInputBuffer (data : Bytes)
  deriving DecidableEq, Repr

namespace Call

/-- What the method does. -/
def run : Call → Conn → Except Halt Conn
  | write p, c => c.write p
  | writeInt v b, c => c.writeInt v b
  | writeString v, c => c.writeString v
  | writeRawBytes p, c => Redis.writeRawBytes c p
  | writeError err, c => Redis.writeError c err
  | writeSimpleString p, c => Redis.writeSimpleString c p
  | writeBulk p, c => Redis.writeBulk c p
  | writeBulkString p, c => Redis.writeBulkString c p
  | writeArrayBegin n, c => Redis.writeArrayBegin c n
  | reuseInputBuffer data, c => c.reuseInputBuffer data

/-- What a call adds to the output; only `Write` looks whether the connection is closed. -/
def added (c : Conn) : Call → Bytes
  | write p => if c.closed then [] else p
  | writeRawBytes p => if c.closed then [] else p
  | writeInt v b => formatIntBase b v
  | writeString v => v
  | writeError err => [ch '-'] ++ err ++ crlf
  | writeSimpleString p => [ch '+'] ++ p ++ crlf
  | writeBulk p => [ch '$'] ++ formatInt p.length ++ crlf ++ p ++ crlf
  | writeBulkString p => [ch '$'] ++ formatInt p.length ++ crlf ++ p ++ crlf
  | writeArrayBegin n => [ch '*'] ++ formatInt n ++ crlf
  | reuseInputBuffer _ => []

end Call

variable {c : Conn}

theorem Conn.reuseInputBuffer_unlocked (hlock : c.lock = false) (data : Bytes) :
    c.reuseInputBuffer data = .ok c := by
  obtain ⟨ws, srs, closed, lock, inp, out, sent, log⟩ := c
  subst hlock
  cases inp with
  | nil => rfl
  | cons x xs => rfl

/-- **The calls.**  On an unlocked connection, open or not, a call returns and appends. -/
theorem Call.run_eq (hlock : c.lock = false) (k : Call) :
    k.run c = .ok { c with out := c.out ++ k.added c } := by
  cases k with
  | write p => exact Conn.write_unlocked hlock p
  | writeRawBytes p => exact Conn.write_unlocked hlock p
  | writeInt v b => exact Redis.appendOut_eq hlock _
  | writeString v => exact Redis.appendOut_eq hlock _
  | writeError err => exact Redis.appendOut_eq hlock _
  | writeSimpleString p => exact Redis.appendOut_eq hlock _
  | writeBulk p => exact Redis.appendOut_eq hlock _
  | writeBulkString p => exact Redis.appendOut_eq hlock _
  | writeArrayBegin n => exact Redis.appendOut_eq hlock _
  | reuseInputBuffer data =>
    rw [Call.run, Conn.reuseInputBuffer_unlocked hlock, Call.added, List.append_nil]

end Resh.Server
