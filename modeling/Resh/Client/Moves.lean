import Resh.Client.System

namespace Resh.Client

open Resh.Go

/-!
# What a step of the client can do

`step_move` says once what each step does, with its guards, in the terms of a few moves; the
invariants of the client are proved over the moves.

* `State.closing`, `State.deletes` — the connection that an action closes, said before it acts;
* `State.returns` — the connection that it sends to the pool;
* `step_move` — what a step can do.
-/

variable {cfg : Config} {s s' : State}

/-! ### What an action is going to do -/

namespace State

/-- How the part of the event loop ends that the action does, and on which connection. -/
def partEnd (cfg : Config) (s : State) : Action → Option (ℕ × Next)
  | .write wr =>
    match s.loop with
    | .writing id => (s.conns id).map fun c => (id, (c.writePart wr).2)
    | _ => none
  | .read rd =>
    match s.loop with
    | .reading id => (s.conns id).map fun c => (id, (c.readHead cfg rd).2.2)
    | _ => none
  | .parse =>
    match s.loop with
    | .parsing id => (s.conns id).map fun c => (id, (c.parseOne cfg s.fdConns.count).2.2)
    | _ => none
  | _ => none

/-- The fd with which the action calls `closeConnWithError`: the event loop at the end of a part,
    whoever trims the pool, the function of a timer, or `Close`. -/
def closing (cfg : Config) (s : State) (a : Action) : Option ℕ :=
  match a with
  | .trim _ =>
    if s.fdConns.count > cfg.poolSize then (s.fdIdle.head?.bind s.conns).map (·.fd) else none
  | .timeout id => (s.conns id).map (·.fd)
  | .shut fd => ((s.fdConns.slot fd).bind s.conns).map (·.fd)
  | a =>
    match s.partEnd cfg a with
    | some (id, .close _ _) => (s.conns id).map (·.fd)
    | _ => none

/-- The connection whose entry the action deletes. -/
def deletes (cfg : Config) (s : State) (a : Action) : Option ℕ :=
  (s.closing cfg a).bind s.fdConns.slot

/-- The connection that the action sends to the pool. -/
def returns (cfg : Config) (s : State) (a : Action) : Option ℕ :=
  match s.partEnd cfg a with
  | some (id, .push) => some id
  | _ => none

end State

/-- The action makes a connection. -/
def Action.makes : Action → Bool
  | .connect _ (.ok _) => true
  | _ => false

/-! ### The moves -/

/-- The callback of the call is with no connection yet. -/
def Pc.unassigned : Pc → Bool
  | deciding => true
  | waiting => true
  | creating => true
  | _ => false

/-- The state in which a call of `Exec` takes a connection out of the pool. -/
inductive Takes (s : State) : Action → State → ℕ → List Arg → Prop
  | exec (cmdArgs : List Arg) : Takes s (.exec cmdArgs) (s.enter cmdArgs) s.called cmdArgs
  | receive {k : ℕ} {cmdArgs : List Arg} (pc : s.execs k = some ⟨cmdArgs, .waiting⟩) :
      Takes s (.receive k) s k cmdArgs

/-- A part of the event loop: the connection it works on, as it was and as it is left. -/
inductive Part (cfg : Config) (s : State) :
    Action → ℕ → Conn → Conn → List Event → Next → Prop
  | write {wr : WriteResult} {id : ℕ} {c : Conn} {n : ℕ} {next : Next}
      (loop : s.loop = .writing id) (goes : next = .wait ∨ ∃ err, next = .close .write err) :
      Part cfg s (.write wr) id c { c with out := c.out.drop n } [] next
  | read {rd : ReadResult} {id : ℕ} {c : Conn} {inp : Bytes} {es : List Event} {next : Next}
      (loop : s.loop = .reading id)
      (idle : c.callback = none → inp = c.inp ∧ (rd.live → next = .wait))
      (warnings : ∀ e ∈ es, ∃ cause, e = .error .warning cause)
      (goes : next = .wait ∨ (next = .parse ∧ c.callback ≠ none ∧ inp ≠ []) ∨
        ∃ typ err, next = .close typ err ∧ typ ≠ .free) :
      Part cfg s (.read rd) id c { c with inp := inp } es next
  | parse {id : ℕ} {c c' : Conn} {es : List Event} {next : Next} (loop : s.loop = .parsing id)
      (round : c.Round cfg s.fdConns.count c' es next) : Part cfg s .parse id c c' es next

/-- What a write event does to its connection. -/
theorem Part.ofWrite {id : ℕ} (loop : s.loop = .writing id) (wr : WriteResult) (c : Conn) :
    Part cfg s (.write wr) id c (c.writePart wr).1 [] (c.writePart wr).2 := by
  obtain ⟨⟨n, hout⟩, hgoes⟩ := c.writePart_spec wr
  rw [hout]
  exact .write loop hgoes

/-- What a read event does to its connection, up to the first element. -/
theorem Part.ofRead {id : ℕ} (loop : s.loop = .reading id) (rd : ReadResult) (c : Conn) :
    Part cfg s (.read rd) id c (c.readHead cfg rd).1 (c.readHead cfg rd).2.1
    (c.readHead cfg rd).2.2 := by
  obtain ⟨⟨inp, hinp⟩, hidle, hwarn, hgoes⟩ := c.readHead_spec cfg rd
  rw [hinp] at hidle hgoes ⊢
  exact .read loop (fun h => ⟨congrArg Conn.inp (hidle h).1, (hidle h).2⟩) hwarn hgoes

/-- A goroutine other than the event loop closes a connection; `s₀` is the state in which it calls
    `closeConnWithError`. -/
inductive Closes (cfg : Config) (s : State) : Action → State → ℕ → Conn → Prop
  | trim {k id : ℕ} {rest : List ℕ} {c : Conn} (full : s.fdConns.count > cfg.poolSize)
      (idle : s.fdIdle = id :: rest) (conn : s.conns id = some c) :
      Closes cfg s (.trim k) { s with fdIdle := rest } id c
  | timeout {id : ℕ} {c : Conn} {t : Timer} (conn : s.conns id = some c) (death : c.death = some t)
      (fired : 0 < t.fired) :
      Closes cfg s (.timeout id)
        (s.setConn id { c with death := some { t with fired := t.fired - 1 } }) id
        { c with death := some { t with fired := t.fired - 1 } }
  | shut {fd id : ℕ} {c : Conn} (slot : s.fdConns.slot fd = some id) (conn : s.conns id = some c) :
      Closes cfg s (.shut fd) s id c

/-- What a step does. -/
inductive Move (cfg : Config) (s : State) : Action → State → Prop
  | enter {cmdArgs : List Arg} (idle : s.fdIdle = []) : Move cfg s (.exec cmdArgs) (s.enter cmdArgs)
  | fill {a : Action} {s₀ : State} {k id : ℕ} {cmdArgs : List Arg} {rest : List ℕ} {c c' : Conn}
      (takes : Takes s a s₀ k cmdArgs) (idle : s.fdIdle = id :: rest) (conn : s.conns id = some c)
      (filled : c.fill cfg k cmdArgs = some c') :
      Move cfg s a ((({ s₀ with fdIdle := rest }).setConn id c').setPc k .trimming)
  | fillPanic {a : Action} {s₀ : State} {k : ℕ} {cmdArgs : List Arg} {id : ℕ} {rest : List ℕ}
      (takes : Takes s a s₀ k cmdArgs) (idle : s.fdIdle = id :: rest) :
      Move cfg s a { s₀ with fdIdle := rest, crashed := true }
  | pc {a : Action} {k : ℕ} {cmdArgs : List Arg} {pc pc' : Pc}
      (exec : s.execs k = some ⟨cmdArgs, pc⟩)
      (same : pc'.unassigned = pc.unassigned) (quiet : s.closing cfg a = none) :
      Move cfg s a (s.setPc k pc')
  | refused {k : ℕ} {cmdArgs : List Arg} {text : Bytes}
      (exec : s.execs k = some ⟨cmdArgs, .creating⟩) : Move cfg s (.connect k (.error text))
        { s.setPc k .done with log := s.log ++ [.call k none (some (.io text))] }
  | connect {k fd : ℕ} {cmdArgs : List Arg} {crashed : Bool} {count : ℤ}
      (exec : s.execs k = some ⟨cmdArgs, .creating⟩) (closed : s.opened fd = false)
      (bug : crashed = true → s.fdConns.slot fd ≠ none)
      (counted : s.fdConns.slot fd = none → count = s.fdConns.count + 1) :
      Move cfg s (.connect k (.ok fd))
        (let s' := (s.added fd (Conn.fresh cfg fd k cmdArgs)).setPc k (.arming s.made)
         { s' with crashed := crashed, fdConns := { s'.fdConns with count := count } })
  | arm {k id : ℕ} {cmdArgs : List Arg} {c : Conn} (exec : s.execs k = some ⟨cmdArgs, .arming id⟩)
      (conn : s.conns id = some c) :
      Move cfg s (.arm k) ((s.setConn id (c.arm cfg)).setPc k .done)
  | lost {fd : ℕ} {write : Bool} (loop : s.loop = .ready) :
      Move cfg s (.event fd write) { s with log := s.log ++ [.error .warning (.notFound fd)] }
  | loopPanic {fd : ℕ} {write : Bool} (loop : s.loop = .ready) :
      Move cfg s (.event fd write) { s with loop := .dead }
  | dropped {fd id : ℕ} {write : Bool} {c c' : Conn} (loop : s.loop = .ready)
      (slot : s.fdConns.slot fd = some id) (conn : s.conns id = some c)
      (touch : c.touch cfg = some (c', false)) : Move cfg s (.event fd write) (s.setConn id c')
  | handle {fd id : ℕ} {write : Bool} {c c' : Conn} (loop : s.loop = .ready)
      (slot : s.fdConns.slot fd = some id) (conn : s.conns id = some c)
      (touch : c.touch cfg = some (c', true)) :
      Move cfg s (.event fd write)
        { s.setConn id c' with loop := if write then .writing id else .reading id }
  | part {a : Action} {id : ℕ} {c c' : Conn} {es : List Event} {next : Next}
      (conn : s.conns id = some c) (part : Part cfg s a id c c' es next) {s' : State}
      (proceed : s.proceed id c' es next = some s') (ends : s.partEnd cfg a = some (id, next)) :
      Move cfg s a s'
  | push {id : ℕ} {c : Conn} (loop : s.loop = .pushing id) (conn : s.conns id = some c)
      (room : s.fdIdle.length < cfg.poolSize) :
      Move cfg s .push { s with fdIdle := s.fdIdle ++ [id], loop := .ready,
                                log := s.log ++ [.idle c.inp c.callback c.authState] }
  | expire {id : ℕ} {c : Conn} {t : Timer} (conn : s.conns id = some c) (death : c.death = some t)
      (armed : t.armed = true) :
      Move cfg s (.expire id) (s.setConn id { c with death := some ⟨false, t.fired + 1⟩ })
  | close {a : Action} {s₀ : State} {id : ℕ} {c : Conn} (closes : Closes cfg s a s₀ id c)
      {typ : ErrType} {err : Option Cause} {s' : State}
      (close : s₀.closeConnWithError .other id c typ err = some s') : Move cfg s a s'

/-- Whoever closes a connection calls `closeConnWithError` with its fd. -/
theorem Closes.closing {a : Action} {s₀ : State} {id : ℕ} {c : Conn} (h : Closes cfg s a s₀ id c) :
    s.closing cfg a = some c.fd := by
  cases h with
  | trim full idle conn => simp [State.closing, full, idle, conn]
  | timeout conn => simp [State.closing, conn]
  | shut slot conn => simp [State.closing, slot, conn]

/-- The event loop calls `closeConnWithError` with the fd of the connection that it is at. -/
theorem closing_of_partEnd {a : Action} {id : ℕ} {c : Conn} {typ : ErrType} {err : Option Cause}
    (hends : s.partEnd cfg a = some (id, .close typ err)) (hc : s.conns id = some c) :
    s.closing cfg a = some c.fd := by
  cases a with
  | write wr => simp [State.closing, hends, hc]
  | read rd => simp [State.closing, hends, hc]
  | parse => simp [State.closing, hends, hc]
  | _ => cases hends

/-- An action that sends a connection to the pool closes none. -/
theorem closing_of_returns {a : Action} {id : ℕ} (h : s.returns cfg a = some id) :
    s.closing cfg a = none := by
  unfold State.returns at h
  split at h
  · rename_i hends
    cases a with
    | write wr => simp [State.closing, hends]
    | read rd => simp [State.closing, hends]
    | parse => simp [State.closing, hends]
    | _ => cases hends
  · cases h

/-- Taking a connection out of the pool. -/
theorem takeIdle_move {a : Action} {s₀ : State} {k : ℕ} {cmdArgs : List Arg}
    (takes : Takes s a s₀ k cmdArgs) (h : s₀.takeIdle cfg k cmdArgs = some s') :
    Move cfg s a s' := by
  have hidle : s₀.fdIdle = s.fdIdle := by cases takes <;> rfl
  have hconns : s₀.conns = s.conns := by cases takes <;> rfl
  unfold State.takeIdle at h
  rw [hidle] at h
  cases hi : s.fdIdle with
  | nil => simp only [hi] at h; cases h
  | cons id rest =>
    simp only [hi] at h
    cases hc : s₀.conns id with
    | none => simp only [hc] at h; cases h
    | some c =>
      cases hf : c.fill cfg k cmdArgs with
      | none =>
        simp only [hc, hf, Option.some.injEq] at h
        exact h ▸ .fillPanic takes hi
      | some c' =>
        simp only [hc, hf, Option.some.injEq] at h
        exact h ▸ .fill takes hi (hconns ▸ hc) hf

/-- `Connect` fails, or brings a new connection. -/
theorem connect_move {k : ℕ} {res : Except Bytes ℕ} (h : s.connect cfg k res = some s')
    (hup : s.crashed = false) : Move cfg s (.connect k res) s' := by
  unfold State.connect at h
  split at h
  · rename_i text hk
    exact Option.some.inj h ▸ .refused hk
  · rename_i cmdArgs fd hk
    split at h
    · cases h
    · rename_i hfd
      simp only [Bool.not_eq_true] at hfd
      split at h
      · rename_i hslot
        have hne := Option.isSome_iff_ne_none.mp hslot
        exact Option.some.inj h ▸ .connect hk hfd (fun _ => hne) fun hnone => absurd hnone hne
      · have hmove := @Move.connect cfg s k fd cmdArgs s.crashed (s.fdConns.count + 1) hk hfd
          (fun h => absurd h (by simp [hup])) fun _ => rfl
        exact Option.some.inj h ▸ hmove
  · cases h

/-- An event finds its connection, or the descriptor is gone. -/
theorem event_move {fd : ℕ} {write : Bool} (h : s.event cfg fd write = some s') :
    Move cfg s (.event fd write) s' := by
  unfold State.event at h
  split at h
  · rename_i hloop hslot
    exact Option.some.inj h ▸ .lost hloop
  · rename_i id hloop hslot
    cases hc : s.conns id with
    | none => simp only [hc] at h; cases h
    | some c =>
      simp only [hc] at h
      split at h
      · exact Option.some.inj h ▸ .loopPanic hloop
      · rename_i c' htouch
        exact Option.some.inj h ▸ .dropped hloop hslot hc htouch
      · rename_i c' htouch
        exact Option.some.inj h ▸ .handle hloop hslot hc htouch
  · cases h

/-- Trimming closes the first idle connection if there are too many, or ends the call. -/
theorem trim_move {k : ℕ} (h : s.trim cfg k = some s') : Move cfg s (.trim k) s' := by
  unfold State.trim at h
  split at h
  · rename_i cmdArgs hk
    split at h
    · rename_i hfull
      cases hi : s.fdIdle with
      | nil =>
        simp only [hi] at h
        exact Option.some.inj h ▸ .pc hk rfl (by simp [State.closing, hi])
      | cons id rest =>
        simp only [hi] at h
        cases hc : s.conns id with
        | none => simp only [hc] at h; cases h
        | some c =>
          simp only [hc] at h
          exact .close (.trim hfull hi hc) h
    · rename_i hroom
      exact Option.some.inj h ▸ .pc hk rfl (if_neg hroom)
  · cases h

/-- **What a step can do.** -/
theorem step_move {a : Action} (h : step cfg s a = some s') : Move cfg s a s' := by
  unfold step at h
  split at h
  · cases h
  rename_i hup
  simp only [Bool.not_eq_true] at hup
  cases a with
  | exec cmdArgs =>
    -- an idle connection is taken at once; without one the call has to decide
    simp only [State.exec] at h
    split at h
    · rename_i hidle
      exact Option.some.inj h ▸ .enter hidle
    · exact takeIdle_move (.exec cmdArgs) h
  | decide k =>
    simp only [State.decide] at h
    split at h
    · rename_i cmdArgs hk
      refine Option.some.inj h ▸ .pc hk ?_ rfl
      split <;> rfl
    · cases h
  | receive k =>
    simp only [State.receive] at h
    split at h
    · rename_i cmdArgs hk
      exact takeIdle_move (.receive hk) h
    · cases h
  | connect k res => exact connect_move h hup
  | arm k =>
    simp only [State.arm] at h
    split at h
    · rename_i cmdArgs id hk
      cases hc : s.conns id with
      | none => simp only [hc] at h; cases h
      | some c =>
        simp only [hc] at h
        exact Option.some.inj h ▸ .arm hk hc
    · cases h
  | trim k => exact trim_move h
  | event fd write => exact event_move h
  | write wr =>
    -- the three parts of the event loop, each on the connection that the loop is at
    simp only [State.write] at h
    split at h
    · rename_i id hloop
      cases hc : s.conns id with
      | none => simp only [hc] at h; cases h
      | some c =>
        simp only [hc] at h
        exact .part hc (.ofWrite hloop wr c) h (by simp [State.partEnd, hloop, hc])
    · cases h
  | read rd =>
    simp only [State.read] at h
    split at h
    · rename_i id hloop
      cases hc : s.conns id with
      | none => simp only [hc] at h; cases h
      | some c =>
        simp only [hc] at h
        exact .part hc (.ofRead hloop rd c) h (by simp [State.partEnd, hloop, hc])
    · cases h
  | parse =>
    simp only [State.parse] at h
    split at h
    · rename_i id hloop
      cases hc : s.conns id with
      | none => simp only [hc] at h; cases h
      | some c =>
        simp only [hc] at h
        exact .part hc (.parse hloop (c.parseOne_round cfg _))
          h (by simp [State.partEnd, hloop, hc])
    · cases h
  | push =>
    simp only [State.push] at h
    split at h
    · rename_i id hloop
      cases hc : s.conns id with
      | none => simp only [hc] at h; cases h
      | some c =>
        simp only [hc] at h
        split at h
        · rename_i hroom
          exact Option.some.inj h ▸ .push hloop hc hroom
        · cases h
    · cases h
  | expire id =>
    simp only [State.expire] at h
    split at h
    · rename_i c hc
      split at h
      · rename_i t ht
        split at h
        · rename_i harmed
          exact Option.some.inj h ▸ .expire hc ht harmed
        · cases h
      · cases h
    · cases h
  | timeout id =>
    -- the last two close a connection from outside the event loop
    simp only [State.timeout] at h
    split at h
    · rename_i c hc
      split at h
      · rename_i t ht
        split at h
        · rename_i hfired
          exact .close (.timeout hc ht hfired) h
        · cases h
      · cases h
    · cases h
  | shut fd =>
    simp only [State.shut] at h
    split at h
    · rename_i id hslot
      split at h
      · rename_i c hc
        exact .close (.shut hslot hc) h
      · cases h
    · cases h

end Resh.Client
