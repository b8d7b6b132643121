import Resh.Server.Output
import Resh.Server.Websocket

namespace Resh.Server

open Resh.Go

/-!
# The lock of a connection

`spinLock` and `spinUnlock` are called by hand.  Every function of the event loop and every method
gives the lock back, but one branch of `readConn` does not: a connection whose input has become too
large is closed with its lock held, and whoever then calls a method of it spins forever.

* `Entry` — the functions that take the lock;
* `lock_released_iff` — a call that returns has given the lock back iff it did not read too much;
* `oversize_keeps_lock` — a read that does not.
-/

/-- The handlers give the lock back and leave the input alone, as the methods do (`Call.run_eq`). -/
structure Handlers.Confined (H : Handlers) : Prop where
  onWSData : ∀ c m, c.lock = false → (H.onWSData c m).lock = false ∧ (H.onWSData c m).inp = c.inp
  onHTTP : ∀ r c, c.lock = false → (H.onHTTP r c).1.lock = false ∧ (H.onHTTP r c).1.inp = c.inp
  onRedis : ∀ r c, c.lock = false → (H.onRedis r c).1.lock = false ∧ (H.onRedis r c).1.inp = c.inp

/-- The calls of a handler, one after the other. -/
def runCalls (c : Conn) (ks : List Call) : Conn :=
  ks.foldl (fun c k => (k.run c).toOption.getD c) c

/-- Handlers that answer a request with calls. -/
def Handlers.ofCalls (onWSData : Bytes → List Call) (onHTTP : HTTP → List Call × Bool)
    (onRedis : Redis → List Call × Bool) : Handlers where
  onWSData := fun c m => runCalls c (onWSData m)
  onHTTP := fun r c => (runCalls c (onHTTP r).1, (onHTTP r).2)
  onRedis := fun r c => (runCalls c (onRedis r).1, (onRedis r).2)

/-- The calls of a handler give the lock back, and leave the input alone. -/
theorem runCalls_keeps {c : Conn} (hlock : c.lock = false) (ks : List Call) :
    (runCalls c ks).lock = false ∧ (runCalls c ks).inp = c.inp := by
  induction ks generalizing c with
  | nil => exact ⟨hlock, rfl⟩
  | cons k ks ih =>
    rw [runCalls, List.foldl_cons, k.run_eq hlock]
    exact ih (c := { c with out := c.out ++ k.added c }) hlock

/-- Handlers that only call response methods are confined: they give the lock back and leave the
    input alone. -/
theorem Handlers.ofCalls_confined (onWSData : Bytes → List Call) (onHTTP : HTTP → List Call × Bool)
    (onRedis : Redis → List Call × Bool) : (Handlers.ofCalls onWSData onHTTP onRedis).Confined :=
  ⟨fun _ _ h => runCalls_keeps h _, fun _ _ h => runCalls_keeps h _,
    fun _ _ h => runCalls_keeps h _⟩

/-- A function that takes the lock, with the results of its system calls. -/
inductive Entry where
  | readConn (rd : ReadResult) (wr : WriteResult)
  | writeConn (wr : WriteResult)
  | truncateInputBuffer (sz : ℤ)
  | call (k : Call)

/-- What it does. -/
def Entry.run (env : Env) (H : Handlers) : Entry → Conn → Except Halt Conn
  | readConn rd wr, c => c.readConn env H rd wr
  | writeConn wr, c => c.writeConn wr
  | truncateInputBuffer sz, c => (c.truncateInputBuffer sz).map Prod.fst
  | call k, c => k.run c

/-- It reads some bytes, and with them the input is too large. -/
def Entry.Oversize (env : Env) (c : Conn) : Entry → Prop
  | readConn (.data d) _ => d ≠ [] ∧ env.requestMaxBytes < (c.inp ++ d).length
  | _ => False

section

variable {env : Env} {H : Handlers} {c c' : Conn}

/-! ### The functions -/

/-- `TruncateInputBuffer` gives the lock back whenever it returns, and says how much input is left.
    -/
theorem truncateInputBuffer_unlocked {sz : ℤ} {n : ℕ} (hlock : c.lock = false)
    (h : c.truncateInputBuffer sz = .ok (c', n)) :
    c'.lock = false ∧ c'.inp.length = n ∧ n ≤ c.inp.length := by
  unfold Conn.truncateInputBuffer at h
  simp only [Conn.spinLock_eq hlock, bind, Except.bind] at h
  split at h
  · cases h
  · rename_i inp hinp
    simp only [Except.ok.injEq, Prod.mk.injEq] at h
    obtain ⟨rfl, rfl⟩ := h
    refine ⟨rfl, rfl, ?_⟩
    unfold slice? at hinp
    split at hinp
    · obtain rfl := Option.some.inj hinp
      simp
    · cases hinp

/-- The connection is left unlocked and with the input it had. -/
def Keeps (c c' : Conn) : Prop := c'.lock = false ∧ c'.inp = c.inp

/-- Two parts of a callback that keep both keep both together. -/
theorem Keeps.trans {d : Conn} (h : Keeps c d) (h' : Keeps d c') : Keeps c c' :=
  ⟨h'.1, h'.2.trans h.2⟩

/-- A close neither takes the lock nor changes the input. -/
theorem keeps_close (hlock : c.lock = false) (errType : Bytes) (err : Option Cause) :
    Keeps c (c.closeConnWithError errType err) := by
  exact ⟨(c.closeConnWithError_lock errType err).trans hlock, c.closeConnWithError_inp errType err⟩

/-- A confined handler of messages neither leaves the lock held nor changes the input. -/
theorem onWSData_keeps (hH : H.Confined) (hlock : c.lock = false) (m : Bytes) :
    Keeps c (c.onWSData H m) := hH.onWSData { c with log := c.log ++ [.wsData m] } m hlock

/-- Handling a frame. -/
theorem onWebsocket_keeps (hH : H.Confined) {req : WsFrame} {go : Bool} (hlock : c.lock = false)
    (h : c.onWebsocket env H req = .ok (c', go)) : Keeps c c' := by
  obtain ⟨ws, -, h⟩ := Conn.handles_of_onWebsocket h
  have hcont : ∀ cont, Keeps c (c.withCont ws cont) := fun _ => ⟨hlock, rfl⟩
  cases h with
  | unexpected => exact keeps_close hlock _ _
  | tooLarge => exact (hcont _).trans (keeps_close (by exact hlock) _ _)
  | grows => exact hcont _
  | @finishes m _ _ _ _ _ hd =>
    subst hd
    have hdata := onWSData_keeps hH (c := c.withCont ws (some (m ++ req.data)))
      hlock (m ++ req.data)
    exact ⟨hdata.1, hdata.2⟩
  | close => exact keeps_close (c :=
      { c with ws := some { ws with closingData := req.data } }) hlock _ _
  | ping _ hd =>
    rw [Conn.wsWrite, Conn.write_unlocked (by exact hlock)] at hd
    cases hd
    exact ⟨hlock, rfl⟩
  | pong => exact ⟨hlock, rfl⟩
  | message => exact onWSData_keeps hH hlock _
  | opens => exact hcont _

/-- The end of a read event, with its write, gives the lock back. -/
theorem finishRead_unlocked {wr : WriteResult} (hlock : c.lock = false)
    (h : c.finishRead wr = .ok c') : c'.lock = false := by
  unfold Conn.finishRead at h
  simp only at h
  split at h
  · obtain ⟨d, hd, hunlocked, -⟩ := Conn.writeConn_unlocked (c := { c with srs := {} }) hlock wr
    rw [hd] at h
    cases h
    exact hunlocked
  · cases h
    exact hlock

/-- Handling a request. -/
theorem onRequest_unlocked (hH : H.Confined) {wr : WriteResult} (hlock : c.lock = false)
    (h : c.onRequest H wr = .ok c') : c'.lock = false := by
  -- both kinds of requests end in the same way
  have hend : ∀ {d : Conn} {ok : Bool}, d.lock = false →
      (if ok then d.finishRead wr else .ok (d.closeConnWithError [] none)) = .ok c' →
      c'.lock = false := by
    intro d ok hd hok
    split at hok
    · exact finishRead_unlocked hd hok
    · cases hok
      exact (keeps_close hd _ _).1
  unfold Conn.onRequest at h
  split at h
  · rename_i req _
    cases ht : c.truncateInputBuffer (req.bodyLen + req.hdrLen) with
    | error e => simp only [ht, bind, Except.bind] at h; cases h
    | ok r =>
      simp only [ht, bind, Except.bind] at h
      have hfree := (truncateInputBuffer_unlocked hlock ht).1
      exact hend (hH.onHTTP req { r.1 with log := r.1.log ++ [.http req] } hfree).1 h
  · rename_i req _ _
    cases ht : c.truncateInputBuffer req.read with
    | error e => simp only [ht, bind, Except.bind] at h; cases h
    | ok r =>
      simp only [ht, bind, Except.bind] at h
      have hfree := (truncateInputBuffer_unlocked hlock ht).1
      exact hend (hH.onRedis req { r.1 with log := r.1.log ++ [.redis req] } hfree).1 h
  · cases h

/-- The rounds of `readConn`: the lock is kept iff the input is too large in the first one. -/
theorem parseNext_unlocked_iff (hH : H.Confined) {wr : WriteResult} (n : ℕ) (buf : Bytes) (c : Conn)
    (hlock : c.lock = false) (h : c.parseNext env H wr n buf = .ok c') :
    c'.lock = false ↔ ¬ env.requestMaxBytes < (c.inp ++ buf).length := by
  -- by induction over the rounds: only the first one can find too much input
  induction n generalizing buf c with
  | zero => cases h
  | succ n ih =>
    unfold Conn.parseNext at h
    simp only [Conn.spinLock_eq hlock, bind, Except.bind] at h
    split at h
    · -- this return is without `Unlock`
      rename_i hover
      cases h
      rw [Conn.closeConnWithError_lock]
      simp only [Bool.true_eq_false, false_iff, not_not]
      exact hover
    rename_i hfits
    simp only [hfits, not_false_eq_true, iff_true]
    split at h
    · rename_i ws hws
      split at h
      · cases h
        rfl
      · split at h
        · cases h
          rfl
        · rename_i req inp hframe
          split at h
          · cases h
          rename_i r ht
          obtain ⟨hunlocked, hlen, hle⟩ := truncateInputBuffer_unlocked rfl ht
          split at h
          · cases h
          rename_i r' hws'
          obtain ⟨hunlocked', hinp⟩ := onWebsocket_keeps hH hunlocked hws'
          split at h
          · split at h
            · -- the next round has less input than this one, so it is not too much
              refine (ih [] r'.1 hunlocked' h).mpr ?_
              have hbuf := parseFrame_buf_length hframe
              rw [List.append_nil, hinp]
              simp only [Conn.spinUnlock] at hle
              omega
            · exact finishRead_unlocked hunlocked' h
          · cases h
            exact hunlocked'
        · cases h
    · split at h
      · cases h
        rfl
      · cases h
        exact (keeps_close rfl _ _).1
      · cases h
      · exact onRequest_unlocked hH rfl h

/-! ### The lock -/

/-- **The lock.**  A call that starts with the lock free and returns has given it back, so that
    every method of the connection can be called again, iff it is not a read of too much. -/
theorem lock_released_iff (hH : H.Confined) (hlock : c.lock = false) (e : Entry)
    (h : e.run env H c = .ok c') :
    (c'.lock = false ∧ ∀ k : Call, ∃ d, k.run c' = .ok d) ↔ ¬ e.Oversize env c := by
  have hcalls : c'.lock = false → ∀ k : Call, ∃ d, k.run c' = .ok d := fun hfree k =>
    ⟨_, k.run_eq hfree⟩
  -- with the lock free every response method returns
  suffices hsuff : c'.lock = false ↔ ¬ e.Oversize env c by
    rw [← hsuff]
    exact ⟨fun hr => hr.1, fun hfree => ⟨hfree, hcalls hfree⟩⟩
  cases e with
  | readConn rd wr =>
    rw [Entry.run] at h
    unfold Conn.readConn at h
    split at h
    · cases h
      simp [Entry.Oversize, hlock]
    · cases h
      simp [Entry.Oversize, hlock]
    · cases h
      simp [Entry.Oversize, hlock]
    · rename_i d hd
      -- a read of some bytes is the only entry that can leave the lock held
      rw [parseNext_unlocked_iff hH _ d c hlock h, Entry.Oversize]
      exact not_congr (Iff.symm (and_iff_right hd))
  | writeConn wr =>
    obtain ⟨d, hd, hunlocked, -⟩ := c.writeConn_unlocked hlock wr
    rw [Entry.run, hd] at h
    cases h
    simp [Entry.Oversize, hunlocked]
  | truncateInputBuffer sz =>
    rw [Entry.run] at h
    cases ht : c.truncateInputBuffer sz with
    | error e => rw [ht] at h; cases h
    | ok r =>
      rw [ht] at h
      cases h
      simp [Entry.Oversize, (truncateInputBuffer_unlocked hlock ht).1]
  | call k =>
    rw [Entry.run, k.run_eq hlock] at h
    cases h
    simp [Entry.Oversize, hlock]

end

/-- Every request is answered with `+OK`. -/
def answerOk : Handlers :=
  .ofCalls (fun _ => []) (fun _ => ([], true)) (fun _ => ([.writeSimpleString (ascii "OK")], true))

/-- A request whose answer cannot be written: the connection is closed and its lock is free. -/
theorem lock_released_iff_ping :
    ∃ c', (Entry.readConn (.data (ascii "*1\r\n$4\r\nPING\r\n")) (.error (ascii "broken pipe"))).run
        Env.plain answerOk {} = .ok c' ∧
      c'.closed = true ∧ c'.lock = false ∧ ∀ k : Call, ∃ d, k.run c' = .ok d := by
  have hrun : ((Entry.readConn (.data (ascii "*1\r\n$4\r\nPING\r\n"))
      (.error (ascii "broken pipe"))).run Env.plain answerOk {}).map (·.closed) = .ok true := by
    decide +kernel
  cases h : (Entry.readConn (.data (ascii "*1\r\n$4\r\nPING\r\n"))
      (.error (ascii "broken pipe"))).run Env.plain answerOk {} with
  | error e => rw [h] at hrun; cases hrun
  | ok c' =>
    rw [h, Except.map, Except.ok.injEq] at hrun
    obtain ⟨hfree, hcalls⟩ := (lock_released_iff (Handlers.ofCalls_confined ..) rfl _ h).mpr
      (by rintro ⟨-, hover⟩; exact absurd hover (by decide +kernel))
    exact ⟨c', rfl, hrun, hfree, hcalls⟩

/-- Four bytes where three are allowed: the connection is closed with its lock held, and an answer
    spins. -/
theorem oversize_keeps_lock :
    ((Entry.readConn (.data (ascii "PING")) (.ok 0)).run { Env.plain with requestMaxBytes := 3 }
        answerOk {}).map (fun c => (c.closed, c.lock, (Call.writeError (ascii "ERR")).run c))
      = .ok (true, true, .error .spin) := by
  decide +kernel

end Resh.Server
