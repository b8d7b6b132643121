import Resh.Server.Http

namespace Resh.Server

open Resh.Go Resh.Incremental

/-!
# state.go — the request parser

`serverReadState.process` is called on the whole input buffer of a connection after every read.
It keeps its place in `stage` and in the half-filled request:

* stage 0 reads `*N` or decides for HTTP, stage 1 reads `N` bulk strings (`bulkLoop`);
* stage 6 waits for the header block and parses it, stage 7 waits for the body.

The offsets of a Redis request are `uint32`, its argument counter is `uint16`, and numbers come
from `strconv.ParseInt` as `int64`: the conversions are written out as `%`.  The `int` sum `x` of
the source is a plain integer here; the length in it is below `2^32`, so it stays far inside the
`int64` range for every slice that fits into memory.
-/

/-- `Redis`: the consumed length, the announced number of arguments, and start and length of
    each argument read so far. -/
structure Redis where
  data : Bytes := []
  read : ℕ := 0
  nargs : ℕ := 0
  ai : List (ℕ × ℕ) := []
  deriving DecidableEq, Repr

/-- `Redis.Len()`. -/
def Redis.len (r : Redis) : ℕ := r.ai.length

/-- `Redis.Get(i)`; `none` is a panic.  A slice expression reaches up to the capacity of `r.data`,
    so it is given the bytes `behind` it as well. -/
def Redis.get (r : Redis) (behind : Bytes) (i : ℤ) : Option Bytes :=
  if i < r.ai.length then
    if 0 ≤ i then
      match r.ai[i.toNat]? with
      | some (lo, n) => slice? (r.data ++ behind) lo ((lo + n) % 2 ^ 32 : ℕ)
      | none => none
    else none
  else some []

/-- `Redis.Str(i)`. -/
def Redis.str (r : Redis) (behind : Bytes) (i : ℤ) : Option Bytes := r.get behind i

/-- `Redis.Int64(i)`. -/
def Redis.int64 (r : Redis) (behind : Bytes) (i : ℤ) : Option (ℤ × Option NumError) :=
  (r.str behind i).map parseInt

/-- `serverReadState`. -/
structure ServerReadState where
  stage : ℕ := 0
  redis : Option Redis := none
  http : Option HTTP := none
  deriving DecidableEq, Repr

/-! ### Bulk strings -/

/-- The rest of a round once the header `$length` of `w` bytes is read: the tail of the bulk
    string must stand at `x`. -/
def bulkBody (inp : Bytes) (r : Redis) (length : ℤ) (w : ℕ) : Ret Err Redis :=
  let x : ℤ := r.read + w + length
  if inp.length < x + 2 then .more
  else match at? inp x, at? inp (x + 1) with
    | some a, some b =>
      if a ≠ 13 ∨ b ≠ 10 then .fail (.bulkTail [a, b])
      else .ok { r with
        ai := r.ai ++ [((r.read + w) % 2 ^ 32, (length % 2 ^ 32).toNat)]
        read := ((r.read + (w + length + 2)) % 2 ^ 32).toNat }
    | _, _ => .panic

/-- One round of the loop over the bulk strings. -/
def bulkStep (inp : Bytes) (r : Redis) : Ret Err Redis :=
  match slice? inp r.read inp.length with
  | none => .panic
  | some rest =>
    match readByteAndNumberCrLf (ch '$') rest with
    | .ok (length, w) =>
      if w = 0 then
        match at? inp r.read with
        | some b => .fail (.bulkHead b)
        | none => .panic
      else if length > 2 ^ 32 - 1 then .fail (.bulkLength length)
      else bulkBody inp r length w
    | .more => .more
    | .fail e => .fail e
    | .panic => .panic

/-- `n` rounds. -/
def bulkLoop (inp : Bytes) : ℕ → Redis → Redis × Ret Err Unit
  | 0, r => (r, .ok ())
  | n + 1, r =>
    match bulkStep inp r with
    | .ok r' => bulkLoop inp n r'
    | .more => (r, .more)
    | .fail e => (r, .fail e)
    | .panic => (r, .panic)

/-! ### `process` -/

/-- Stage 1. -/
def redisStage (st : ServerReadState) (r : Redis) (inp : Bytes) :
    Call ServerReadState UInt8 Err Unit :=
  match bulkLoop inp (r.nargs - r.ai.length) r with
  | (r', .ok ()) =>
    match slice? inp 0 r'.read with
    | some data => ⟨{ st with stage := 999, redis := some { r' with data := data } }, inp, .ok ()⟩
    | none => ⟨{ st with stage := 999, redis := some r' }, inp, .panic⟩
  | (r', ret) => ⟨{ st with redis := some r' }, inp, ret⟩

/-- Stage 7. -/
def bodyStage (st : ServerReadState) (h : HTTP) (inp : Bytes) :
    Call ServerReadState UInt8 Err Unit :=
  let sz := (h.hdrLen + h.bodyLen) % 2 ^ 32
  if inp.length < sz then ⟨st, inp, .more⟩
  else ⟨{ st with stage := 999, http := some { h with data := inp.take sz } }, inp, .ok ()⟩

/-- Stage 6.  The header block is rewritten in the input buffer itself.  After an error the
    connection is closed, so what the buffer holds then is left open. -/
def headerStage (env : Env) (st : ServerReadState) (h : HTTP) (inp : Bytes) :
    Call ServerReadState UInt8 Err Unit :=
  match index? (crlf ++ crlf) inp with
  | none => ⟨st, inp, .more⟩
  | some idx =>
    match ({ h with data := inp.take (idx + 4) } : HTTP).parse env with
    | .ok h' =>
      let inp' := h'.data ++ inp.drop (idx + 4)
      if h'.bodyLen = 0 then ⟨{ st with stage := 8, http := some h' }, inp', .ok ()⟩
      else bodyStage { st with stage := 7, http := some h' } h' inp'
    | .more => ⟨st, inp, .more⟩
    | .fail e => ⟨st, inp, .fail e⟩
    | .panic => ⟨st, inp, .panic⟩

/-- The state after `*num`, a line of `w` bytes. -/
def startRedis (num : ℤ) (w : ℕ) : Redis :=
  { read := w % 2 ^ 32, nargs := (num % 2 ^ 16).toNat }

/-- `serverReadState.process(in)`; a stage without its request dereferences a nil pointer. -/
def process (env : Env) (st : ServerReadState) (inp : Bytes) :
    Call ServerReadState UInt8 Err Unit :=
  match st.stage with
  | 0 =>
    match readByteAndNumberCrLf (ch '*') inp with
    | .ok (num, w) =>
      if w = 0 then headerStage env { st with stage := 6, http := some {} } {} inp
      else if num > 65535 then ⟨st, inp, .fail .tooManyArgs⟩
      else redisStage { st with stage := 1, redis := some (startRedis num w) }
        (startRedis num w) inp
    | .more => ⟨st, inp, .more⟩
    | .fail e => ⟨st, inp, .fail e⟩
    | .panic => ⟨st, inp, .panic⟩
  | 1 =>
    match st.redis with
    | some r => redisStage st r inp
    | none => ⟨st, inp, .panic⟩
  | 6 =>
    match st.http with
    | some h => headerStage env st h inp
    | none => ⟨st, inp, .panic⟩
  | 7 =>
    match st.http with
    | some h => bodyStage st h inp
    | none => ⟨st, inp, .panic⟩
  | 999 => ⟨st, inp, .ok ()⟩
  | n => ⟨st, inp, .fail (.invalidStage n)⟩

/-! ### The outcome of a call -/

/-- What `readConn` sees: wait, an error, a panic, or a request. -/
inductive Outcome where
  | more
  | fail (e : Err)
  | panic
  | redis (r : Redis)
  | http (h : HTTP)
  deriving DecidableEq, Repr

/-- A request is an HTTP request if `srs.http` is set, else a Redis one. -/
def outcome (c : Call ServerReadState UInt8 Err Unit) : Outcome :=
  match c.ret with
  | .more => .more
  | .fail e => .fail e
  | .panic => .panic
  | .ok () =>
    match c.state.http, c.state.redis with
    | some h, _ => .http h
    | none, some r => .redis r
    | none, none => .panic

/-- The outcome of one call on a zero state. -/
def callOnce (env : Env) (inp : Bytes) : Outcome := outcome (process env {} inp)

/-- The outcome of the calls after each of a list of reads, from the zero state. -/
def callReads (env : Env) (reads : List Bytes) : Outcome := outcome (feed (process env) {} [] reads)

section Outcome

variable {env : Env}

/-- What an outcome says about the call. -/
theorem ret_of_more {p : Bytes} (h : callOnce env p = .more) : (process env {} p).ret = .more := by
  unfold callOnce outcome at h
  split at h
  · assumption
  · cases h
  · cases h
  · split at h <;> cases h

theorem ret_of_fail {p : Bytes} {e : Err} (h : callOnce env p = .fail e) :
    (process env {} p).ret = .fail e := by
  unfold callOnce outcome at h
  split at h
  · cases h
  · rename_i e' he'
    rw [he', Outcome.fail.inj h]
  · cases h
  · split at h <;> cases h

theorem ret_of_redis {p : Bytes} {r : Redis} (h : callOnce env p = .redis r) :
    (process env {} p).ret = .ok () ∧ (process env {} p).state.http = none ∧
      (process env {} p).state.redis = some r := by
  unfold callOnce outcome at h
  split at h
  · cases h
  · cases h
  · cases h
  · rename_i hret
    split at h
    · cases h
    · rename_i hhttp hredis
      cases h
      exact ⟨hret, hhttp, hredis⟩
    · cases h

theorem ret_of_http {p : Bytes} {h : HTTP} (hcall : callOnce env p = .http h) :
    (process env {} p).ret = .ok () ∧ (process env {} p).state.http = some h := by
  unfold callOnce outcome at hcall
  split at hcall
  · cases hcall
  · cases hcall
  · cases hcall
  · rename_i hret
    split at hcall
    · rename_i hhttp
      cases hcall
      exact ⟨hret, hhttp⟩
    · cases hcall
    · cases hcall

end Outcome

end Resh.Server
