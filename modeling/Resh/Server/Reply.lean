import Resh.Server.Effects

namespace Resh.Server

open Resh.Go

/-!
# redis.go — replies

The writers of a `Redis` request append to the output of its connection.  A reply is a tree
(`Reply`) that a handler writes with them: an array is its begin and then its elements, one after
the other.  Integers and the null values have no writer; a handler writes their bytes with
`WriteRawBytes`.

* `emit_eq` — on an unlocked, open connection the writers append `encode r`, and nothing else
  of the connection changes.
-/

namespace Redis

/-- The common part of the writers: `p` goes behind the output, under the lock. -/
def appendOut (c : Conn) (p : Bytes) : Except Halt Conn := do
  let c ← c.spinLock
  .ok ({ c with out := c.out ++ p }).spinUnlock

/-- `r.WriteRawBytes(p)`, for the connection `c` of `r`; so are the others. -/
def writeRawBytes (c : Conn) (p : Bytes) : Except Halt Conn := c.write p

/-- `r.WriteError(err)`. -/
def writeError (c : Conn) (err : Bytes) : Except Halt Conn :=
  appendOut c ([ch '-'] ++ err ++ crlf)

/-- `r.WriteSimpleString(p)`. -/
def writeSimpleString (c : Conn) (p : Bytes) : Except Halt Conn :=
  appendOut c ([ch '+'] ++ p ++ crlf)

/-- `r.WriteBulkString(p)`. -/
def writeBulkString (c : Conn) (p : Bytes) : Except Halt Conn :=
  appendOut c ([ch '$'] ++ formatInt p.length ++ crlf ++ p ++ crlf)

/-- `r.WriteBulk(p)`. -/
def writeBulk (c : Conn) (p : Bytes) : Except Halt Conn := writeBulkString c p

/-- `r.WriteArrayBegin(n)`. -/
def writeArrayBegin (c : Conn) (n : ℤ) : Except Halt Conn :=
  appendOut c ([ch '*'] ++ formatInt n ++ crlf)

theorem appendOut_eq {c : Conn} (hlock : c.lock = false) (p : Bytes) :
    appendOut c p = .ok { c with out := c.out ++ p } := by
  obtain ⟨ws, srs, closed, lock, inp, out, sent, log⟩ := c
  subst hlock
  rfl

end Redis

/-! ### Reply values -/

/-- The text of a line. -/
structure Line where
  text : Bytes
  noCrlf : NoCrlf text

/-- A reply. -/
inductive Reply where
  | simple (s : Line)
  | error (s : Line)
  | int (v : ℤ) (h : InInt64 v)
  | bulk (s : Bytes)
  | null
  | array (rs : List Reply)
  | nullArray

namespace Reply

/-- Induction over replies: an array has the property if its elements have it. -/
@[elab_as_elim, induction_eliminator]
theorem induct {P : Reply → Prop} (simple : ∀ s, P (simple s)) (error : ∀ s, P (error s))
    (int : ∀ v h, P (int v h)) (bulk : ∀ s, P (bulk s)) (null : P null)
    (array : ∀ rs, (∀ r ∈ rs, P r) → P (array rs)) (nullArray : P nullArray) (r : Reply) : P r :=
  @Reply.rec P (fun rs => ∀ r ∈ rs, P r) simple error int bulk null array nullArray
    (fun _ h => absurd h List.not_mem_nil)
    (fun _ _ hr hrs r h => (List.mem_cons.mp h).elim (fun e => e ▸ hr) (hrs r)) r

mutual
/-- The bytes of a reply. -/
def encode : Reply → Bytes
  | simple s => [ch '+'] ++ s.text ++ crlf
  | error s => [ch '-'] ++ s.text ++ crlf
  | int v _ => [ch ':'] ++ formatInt v ++ crlf
  | bulk s => [ch '$'] ++ formatInt s.length ++ crlf ++ s ++ crlf
  | null => [ch '$'] ++ formatInt (-1) ++ crlf
  | array rs => [ch '*'] ++ formatInt rs.length ++ crlf ++ encodeMany rs
  | nullArray => [ch '*'] ++ formatInt (-1) ++ crlf

/-- The bytes of replies, one after the other. -/
def encodeMany : List Reply → Bytes
  | [] => []
  | r :: rs => encode r ++ encodeMany rs
end

mutual
/-- A handler writes the reply. -/
def emit : Reply → Conn → Except Halt Conn
  | simple s, c => Redis.writeSimpleString c s.text
  | error s, c => Redis.writeError c s.text
  | int v _, c => Redis.writeRawBytes c ([ch ':'] ++ formatInt v ++ crlf)
  | bulk s, c => Redis.writeBulk c s
  | null, c => Redis.writeRawBytes c (ascii "$-1\r\n")
  | array rs, c => do
    let c ← Redis.writeArrayBegin c rs.length
    emitMany rs c
  | nullArray, c => Redis.writeArrayBegin c (-1)

/-- A handler writes the elements of an array. -/
def emitMany : List Reply → Conn → Except Halt Conn
  | [], c => .ok c
  | r :: rs, c => do
    let c ← emit r c
    emitMany rs c
end

theorem encode_ne_nil (r : Reply) : encode r ≠ [] := by
  cases r <;> simp [encode]

/-- The output grows by the elements if it grows by each element. -/
theorem emitMany_eq {rs : List Reply} {c : Conn} (hlock : c.lock = false)
    (hclosed : c.closed = false) (h : ∀ r ∈ rs, ∀ c : Conn, c.lock = false → c.closed = false →
      emit r c = .ok { c with out := c.out ++ encode r }) :
    emitMany rs c = .ok { c with out := c.out ++ encodeMany rs } := by
  induction rs generalizing c with
  | nil => simp [emitMany, encodeMany]
  | cons r rs ih =>
    have hr := h r (by simp) c hlock hclosed
    have hrs := ih (c := { c with out := c.out ++ encode r }) hlock hclosed
      fun r' hr' => h r' (List.mem_cons_of_mem r hr')
    rw [emitMany, hr]
    simp only [bind, Except.bind, hrs, encodeMany, List.append_assoc]

/-- **The writers append the encoding.** -/
theorem emit_eq (r : Reply) {c : Conn} (hlock : c.lock = false) (hclosed : c.closed = false) :
    emit r c = .ok { c with out := c.out ++ encode r } := by
  induction r generalizing c with
  | simple s => exact Redis.appendOut_eq hlock _
  | error s => exact Redis.appendOut_eq hlock _
  | int v h => exact Conn.write_eq hclosed hlock _
  | bulk s => exact Redis.appendOut_eq hlock _
  | null => exact Conn.write_eq hclosed hlock _
  | array rs ih =>
    rw [emit, Redis.writeArrayBegin, Redis.appendOut_eq hlock]
    have hrs : emitMany rs { c with out := c.out ++ ([ch '*'] ++ formatInt rs.length ++ crlf) }
      = _ :=
      emitMany_eq hlock hclosed fun r hr c => ih r hr
    show emitMany rs _ = _
    rw [hrs]
    simp only [encode, List.append_assoc]
  | nullArray => exact Redis.appendOut_eq hlock _

end Reply

end Resh.Server
