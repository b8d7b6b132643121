import Resh.Client.Command
import Resh.Client.Parser
import Resh.Go.Syscall

namespace Resh.Client

open Resh.Go

/-!
# redis/client.go — one connection

What the functions of the client do to one `Conn`.  `readConn` is cut at the places where another
goroutine can come in between: the read (`readHead`), one round of the loop over the buffered
elements (`parseOne`) and the end (`finish`).  Each part says how it goes on (`Next`); who closes
a connection or puts it into the pool is in the hands of the client.

The callback of a connection is the number of the `Exec` call it was passed to.
-/

/-- What the client knows from its creation. -/
structure Config where
  auth : Bytes := []
  poolSize : ℕ
  /-- `Timeout > 0` -/
  timeout : Bool := true
  /-- `ResponseMaxBytes` -/
  responseMaxBytes : ℕ := 1024 * 1024
  deriving DecidableEq, Repr

/-! ### Timers -/

/-- A `time.Timer` with a function; `fired` counts the calls of the function that have been
    started but have done nothing yet. -/
structure Timer where
  armed : Bool
  fired : ℕ := 0
  deriving DecidableEq, Repr

/-- `t.Reset(d)`. -/
def Timer.reset (t : Timer) : Timer × Bool := ({ t with armed := true }, t.armed)

/-- `t.Stop()`. -/
def Timer.stop (t : Timer) : Timer × Bool := ({ t with armed := false }, t.armed)

/-! ### Data -/

/-- The type of an error for `OnError`, `close` for that of `syscall.Close`; `none` is `""`. -/
inductive ErrType where
  | none | warning | close | write | read | oversize | free | timeout
  deriving DecidableEq, Repr

/-- The errors, each with what its text prints. -/
inductive Cause where
  /-- an error of a system call -/
  | io (text : Bytes)
  /-- `fd %d not found` -/
  | notFound (fd : ℕ)
  /-- `write: fd %d is not active` -/
  | writeNotActive (fd : ℕ)
  /-- `read: fd %d is not active` -/
  | readNotActive (fd : ℕ)
  /-- `response too large: %db` -/
  | tooLarge (n : ℕ)
  /-- an error of `readElement` -/
  | resp (e : RespErr)
  /-- `connection timed out (fd=%d)` -/
  | timedOut (fd : ℕ)
  /-- `net.ErrClosed` -/
  | errClosed
  /-- the text of an error reply -/
  | reply (text : Bytes)
  deriving DecidableEq, Repr

/-- `Conn`. -/
structure Conn where
  fd : ℕ
  callback : Option ℕ
  inp : Bytes := []
  out : Bytes := []
  death : Option Timer := none
  authState : ℕ := 0
  deriving DecidableEq, Repr

/-- What happens around the connections, for the record. -/
inductive Event where
  /-- the callback of the `k`-th `Exec`, with the buffer of its reader and its error -/
  | call (k : ℕ) (reader : Option Bytes) (err : Option Cause)
  /-- `OnError` -/
  | error (typ : ErrType) (cause : Cause)
  /-- a connection goes into `fdIdle`, with these values of its fields -/
  | idle (inp : Bytes) (callback : Option ℕ) (authState : ℕ)
  /-- `closeConnWithError` for the connection `c` takes `v` out of `fdConns` and closes the fd -/
  | teardown (c v : ℕ)
  /-- `fdMap.Delete` panics -/
  | bug
  deriving DecidableEq, Repr

/-- How a part goes on: back to the poller, to the next round of the loop, to the pool, to
    `closeConnWithError`, or with a run-time panic. -/
inductive Next where
  | wait
  | parse
  | push
  | close (typ : ErrType) (err : Option Cause)
  | panic
  deriving DecidableEq, Repr

namespace Conn

/-! ### `Exec` -/

/-- The connection that `activateFreeConn` makes for the `k`-th `Exec`. -/
def fresh (cfg : Config) (fd k : ℕ) (cmdArgs : List Arg) : Conn :=
  { fd := fd, callback := some k, out := appendCommand cmdArgs (appendAuth cfg.auth []),
    authState := if cfg.auth = [] then 0 else 1 }

/-- `time.AfterFunc` for a fresh connection. -/
def arm (cfg : Config) (c : Conn) : Conn :=
  if cfg.timeout then { c with death := some { armed := true } } else c

/-- `fillIdleConn` up to the loop over the pool; `none` is a panic. -/
def fill (cfg : Config) (k : ℕ) (cmdArgs : List Arg) (c : Conn) : Option Conn :=
  if c.out.length > 0 then none
  else
    let c := { c with callback := some k, out := appendCommand cmdArgs [] }
    if cfg.timeout then
      match c.death with
      | none => none
      | some t => some { c with death := some t.reset.1 }
    else some c

/-! ### The event loop -/

/-- The begin of an event: the timer gets a new time, and the event is dropped if it was too late
    for that; `none` is a panic. -/
def touch (cfg : Config) (c : Conn) : Option (Conn × Bool) :=
  if c.callback.isSome ∧ cfg.timeout then
    match c.death with
    | none => none
    | some t => some ({ c with death := some t.reset.1 }, t.reset.2)
  else some (c, true)

/-- A write event: `writeConn`, unless the connection is not active. -/
def writePart (wr : WriteResult) (c : Conn) : Conn × Next :=
  if c.callback.isNone then (c, .close .write (some (.writeNotActive c.fd)))
  else if c.out.length = 0 then (c, .wait)
  else match wr with
    | .error text => (c, .close .write (some (.io text)))
    | .again room => ({ c with out := c.out.drop (min room c.out.length) }, .wait)
    | .ok room => ({ c with out := c.out.drop (min room c.out.length) }, .wait)

/-- `readConn` up to its loop. -/
def readHead (cfg : Config) (rd : ReadResult) (c : Conn) : Conn × List Event × Next :=
  match rd with
  | .data [] => (c, [], .close .none none)
  | .again => (c, [], .wait)
  | .error text => (c, [], .close .read (some (.io text)))
  | .data d =>
    if c.callback.isNone then (c, [.error .warning (.readNotActive c.fd)], .wait)
    else
      let c := { c with inp := c.inp ++ d }
      if c.inp.length > cfg.responseMaxBytes then
        (c, [], .close .oversize (some (.tooLarge c.inp.length)))
      else (c, [], .parse)

/-- `readConn` behind its loop; `len` is `fdConns.Len()`. -/
def finish (cfg : Config) (len : ℤ) (c : Conn) : Conn × Next :=
  if c.inp.length = 0 ∧ c.authState = 0 then
    if len ≤ cfg.poolSize then
      let c := { c with callback := none }
      match c.death with
      | none => (c, .push)
      | some t => ({ c with death := some t.stop.1 }, if t.stop.2 then .push else .wait)
    else (c, .close .free none)
  else (c, .wait)

/-- One round of the loop of `readConn`, or its end. -/
def parseOne (cfg : Config) (len : ℤ) (c : Conn) : Conn × List Event × Next :=
  if c.inp.length > 0 then
    match readElement c.inp with
    | .more => ((finish cfg len c).1, [], (finish cfg len c).2)
    | .fail e => (c, [], .close .read (some (.resp e)))
    | .panic => (c, [], .panic)
    | .ok n =>
      if c.authState = 1 then ({ c with authState := 2, inp := c.inp.drop n }, [], .parse)
      else match c.callback, readerErr (c.inp.take n) with
        | some k, some (err, rest) =>
          ({ c with authState := 0, inp := c.inp.drop n }, [.call k (some rest) (err.map .reply)],
            .parse)
        | _, _ => (c, [], .panic)
  else ((finish cfg len c).1, [], (finish cfg len c).2)

/-- The loop of `readConn`, if nobody comes in between; every round takes some of the input. -/
def parseLoop (cfg : Config) (len : ℤ) : ℕ → Conn → Conn × List Event × Next
  | 0, c => (c, [], .panic)
  | n + 1, c =>
    match parseOne cfg len c with
    | (c, es, .parse) =>
      let (c', es', next) := parseLoop cfg len n c
      (c', es ++ es', next)
    | res => res

/-- `readConn(c)`, if nobody comes in between. -/
def readConn (cfg : Config) (len : ℤ) (rd : ReadResult) (c : Conn) : Conn × List Event × Next :=
  match readHead cfg rd c with
  | (c, es, .parse) =>
    let (c', es', next) := parseLoop cfg len (c.inp.length + 1) c
    (c', es ++ es', next)
  | res => res

/-! ### What the parts keep -/

/-- The calls of the function of the timer that have done nothing yet. -/
def fired (c : Conn) : ℕ :=
  match c.death with
  | some t => t.fired
  | none => 0

variable {cfg : Config} {len : ℤ} {c c' : Conn}

/-- `fillIdleConn` sets the callback, the output and the timer. -/
theorem fill_spec {k : ℕ} {cmdArgs : List Arg} (h : c.fill cfg k cmdArgs = some c') :
    ∃ death, c' = { c with callback := some k, out := appendCommand cmdArgs [], death := death } ∧
      c'.fired = c.fired ∧ (c.death ≠ none → death ≠ none) := by
  unfold fill at h
  split at h
  · cases h
  · simp only at h
    split at h
    · cases hd : c.death with
      | none => simp only [hd] at h; cases h
      | some t =>
        simp only [hd, Option.some.injEq] at h
        subst h
        exact ⟨_, rfl, by simp only [fired, hd, Timer.reset], fun _ => by simp⟩
    · cases h
      exact ⟨c.death, rfl, rfl, id⟩

/-- The begin of an event only touches the timer, which an active connection has. -/
theorem touch_spec {go : Bool} (h : c.touch cfg = some (c', go)) :
    ∃ death, c' = { c with death := death } ∧ c'.fired = c.fired ∧
      (c.death ≠ none ∨ (c.callback ≠ none ∧ cfg.timeout = true) → death ≠ none) := by
  unfold touch at h
  split at h
  · cases hd : c.death with
    | none => simp only [hd] at h; cases h
    | some t =>
      simp only [hd, Option.some.injEq, Prod.mk.injEq] at h
      obtain ⟨rfl, -⟩ := h
      exact ⟨_, rfl, by simp only [fired, hd, Timer.reset], fun _ => by simp⟩
  · rename_i hidle
    simp only [Option.some.injEq, Prod.mk.injEq] at h
    obtain ⟨rfl, -⟩ := h
    refine ⟨c.death, rfl, rfl, fun h => h.resolve_right fun hactive => hidle ?_⟩
    exact ⟨Option.isSome_iff_ne_none.mpr hactive.1, hactive.2⟩

/-- A write event only takes from the output, and goes back to the poller or closes. -/
theorem writePart_spec (wr : WriteResult) (c : Conn) :
    (∃ n, (c.writePart wr).1 = { c with out := c.out.drop n }) ∧
      ((c.writePart wr).2 = .wait ∨ ∃ err, (c.writePart wr).2 = .close .write err) := by
  unfold writePart
  split
  · exact ⟨⟨0, rfl⟩, .inr ⟨_, rfl⟩⟩
  · split
    · exact ⟨⟨0, rfl⟩, .inl rfl⟩
    · cases wr with
      | error text => exact ⟨⟨0, rfl⟩, .inr ⟨_, rfl⟩⟩
      | again room => exact ⟨⟨_, rfl⟩, .inl rfl⟩
      | ok room => exact ⟨⟨_, rfl⟩, .inl rfl⟩

/-- A read only adds to the input, and only to that of an active connection; it is followed by the
    loop if the connection is active and has got something. -/
theorem readHead_spec (cfg : Config) (rd : ReadResult) (c : Conn) :
    (∃ inp, (c.readHead cfg rd).1 = { c with inp := inp }) ∧
      (c.callback = none → (c.readHead cfg rd).1 = c ∧
        (rd.live → (c.readHead cfg rd).2.2 = .wait)) ∧
      (∀ e ∈ (c.readHead cfg rd).2.1, ∃ cause, e = .error .warning cause) ∧
      ((c.readHead cfg rd).2.2 = .wait ∨
        ((c.readHead cfg rd).2.2 = .parse ∧ c.callback ≠ none ∧ (c.readHead cfg rd).1.inp ≠ []) ∨
        ∃ typ err, (c.readHead cfg rd).2.2 = .close typ err ∧ typ ≠ .free) := by
  unfold readHead
  split
  · exact ⟨⟨c.inp, rfl⟩, fun _ => ⟨rfl, fun h => absurd h (by simp [ReadResult.live])⟩, by simp,
      .inr (.inr ⟨_, _, rfl, by simp⟩)⟩
  · exact ⟨⟨c.inp, rfl⟩, fun _ => ⟨rfl, fun _ => rfl⟩, by simp, .inl rfl⟩
  · exact ⟨⟨c.inp, rfl⟩, fun _ => ⟨rfl, fun h => absurd h (by simp [ReadResult.live])⟩, by simp,
      .inr (.inr ⟨_, _, rfl, by simp⟩)⟩
  · rename_i d hd
    split
    · exact ⟨⟨c.inp, rfl⟩, fun _ => ⟨rfl, fun _ => rfl⟩, by simp, .inl rfl⟩
    · rename_i hcb
      have hactive : c.callback ≠ none := by simpa using hcb
      simp only
      split
      · exact ⟨⟨_, rfl⟩, fun h => absurd h hactive, by simp, .inr (.inr ⟨_, _, rfl, by simp⟩)⟩
      · refine ⟨⟨_, rfl⟩, fun h => absurd h hactive, by simp, .inr (.inl ⟨rfl, hactive, ?_⟩)⟩
        simpa using fun _ h => hd h

/-- What a round of the loop of `readConn` does. -/
inductive Round (cfg : Config) (len : ℤ) (c : Conn) : Conn → List Event → Next → Prop
  | auth {n : ℕ} (element : readElement c.inp = .ok n) (state : c.authState = 1) :
      Round cfg len c { c with authState := 2, inp := c.inp.drop n } [] .parse
  | reply {n k : ℕ} {rest : Bytes} {err : Option Cause} (element : readElement c.inp = .ok n)
      (state : c.authState ≠ 1) (callback : c.callback = some k) :
      Round cfg len c { c with authState := 0, inp := c.inp.drop n }
      [.call k (some rest) err] .parse
  | release {death : Option Timer} {next : Next} (inp : c.inp = []) (state : c.authState = 0)
      (room : len ≤ cfg.poolSize)
      (timer : ({ c with callback := none, death := death } : Conn).fired = c.fired)
      (kept : c.death ≠ none → death ≠ none)
      (goes : next = .push ∨ next = .wait) :
      Round cfg len c { c with callback := none, death := death } [] next
  | free (inp : c.inp = []) (state : c.authState = 0) (full : ¬ len ≤ cfg.poolSize) :
      Round cfg len c c [] (.close .free none)
  | wait (busy : ¬ (c.inp = [] ∧ c.authState = 0)) : Round cfg len c c [] .wait
  | failed {err : Option Cause} (inp : c.inp ≠ []) : Round cfg len c c [] (.close .read err)
  | panic (inp : c.inp ≠ []) : Round cfg len c c [] .panic

theorem finish_round (cfg : Config) (len : ℤ) (c : Conn) :
    Round cfg len c (c.finish cfg len).1 [] (c.finish cfg len).2 := by
  unfold finish
  split
  · rename_i hend
    rw [List.length_eq_zero_iff] at hend
    split
    · rename_i hroom
      cases hd : c.death with
      | none =>
        simp only
        exact .release hend.1 hend.2 hroom (by simp only [fired, hd])
          (fun h => absurd hd h) (.inl rfl)
      | some t =>
        simp only
        refine .release hend.1 hend.2 hroom (by simp only [fired, hd, Timer.stop]) (by simp) ?_
        split
        · exact .inl rfl
        · exact .inr rfl
    · rename_i hfull
      exact .free hend.1 hend.2 hfull
  · rename_i hbusy
    rw [List.length_eq_zero_iff] at hbusy
    exact .wait hbusy

/-- **What a round can do.** -/
theorem parseOne_round (cfg : Config) (len : ℤ) (c : Conn) :
    Round cfg len c (c.parseOne cfg len).1 (c.parseOne cfg len).2.1 (c.parseOne cfg len).2.2 := by
  unfold parseOne
  split
  · rename_i hpos
    cases hel : readElement c.inp with
    | more => exact finish_round cfg len c
    | fail e => exact .failed (List.ne_nil_of_length_pos hpos)
    | panic => exact .panic (List.ne_nil_of_length_pos hpos)
    | ok n =>
      simp only
      split
      · rename_i hauth
        exact .auth hel hauth
      · rename_i hauth
        split
        · rename_i k err rest hk hread
          exact .reply hel hauth hk
        · exact .panic (List.ne_nil_of_length_pos hpos)
  · exact finish_round cfg len c

end Conn

end Resh.Client
