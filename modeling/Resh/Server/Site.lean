import Resh.Server.Bookkeeping
import Resh.Server.Callback
import Resh.Server.Stream

namespace Resh.Server

open Resh.Go

/-!
# server.go — the server with all its connections

The listener and the connections that it has made, each with its buffers: the event loop takes one
event after the other, for whatever connection it is, and calls the functions of this connection;
the list and the time-outs, the poller and the descriptors are those of `Resh.Server.Listener`.  A
callback is one step; what happens to a connection in the middle of a callback is in
`Resh.Server.Writers`.  A handler that flushes is a `user` step behind its callback, since `Trigger`
only fills the queue of the next round.

* `Site`, `Site.step` — the server;
* `Agrees`, `step_agrees` — the listener shows every connection, after every step;
* `site_serves` — the event loop gets through each callback whose functions return;
* `Site.history`, `step_history` — each connection is served as if it were alone;
* `site_requests` — so each client is answered from its own bytes only.
-/

/-- What a server is set up with; `addr` is the text of `RemoteAddr()`. -/
structure Setup where
  cfg : Config
  env : Env
  handlers : Handlers
  addr : ℕ → Bytes

/-- The listener and its connections. -/
structure Site where
  listener : Listener
  conn : ℕ → Conn

inductive SiteAct where
  /-- the callback for a connection -/
  | callback (now : ℤ) (x : Returns)
  /-- a step of the event loop outside the callback of a connection -/
  | loop (a : Act)
  | sweep
  /-- the deferred function closes a connection -/
  | cleanup (fd : ℕ)
  /-- a goroutine -/
  | user (op : UserOp)
  deriving DecidableEq, Repr

/-- The steps of the event loop that close no connection and call no function of one. -/
def Act.idle : Act → Bool
  | .wake _ => true
  | .waitError => true
  | .callback _ _ => true
  | .tick _ => true
  | _ => false

/-- The event loop is in no callback of a connection. -/
def Loop.resting : Loop → Bool
  | .serving _ _ _ _ => false
  | _ => true

/-- The connection that a goroutine uses. -/
def UserOp.conn? : UserOp → Option ℕ
  | .write _ id _ => some id
  | .append _ id _ => some id
  | .flush _ id => some id
  | .trigger _ => none
  | .upgrade id => some id
  | .wsClose id => some id

/-- What a goroutine does to the connection; `none` if it waits for the lock.  Only a handler
    upgrades. -/
def Conn.used (c : Conn) : UserOp → Option Conn
  | .write _ _ p =>
    if c.closed then some c else if c.lock then none else some { c with out := c.out ++ p }
  | .append _ _ p => if c.lock then none else some { c with out := c.out ++ p }
  | .flush _ _ => some c
  | .trigger _ => some c
  | .upgrade _ => none
  | .wsClose _ => some { c with ws := c.ws.map fun ws => { ws with closed := true } }

/-- The connection of the next event, and the event. -/
def Listener.finds (cfg : Config) (l : Listener) : Option (ℕ × Flags) :=
  match l.loop with
  | .between (e :: _) => if e.fd = cfg.fd then none else (l.fdconns e.fd).map fun id => (id, e.ev)
  | _ => none

/-- The connection that the loop over the list closes next. -/
def Listener.overdue (cfg : Config) (l : Listener) : Option ℕ :=
  match l.loop with
  | .sweep (.conn id) now _ => if (l.conns id).ts < now - cfg.timeout then some id else none
  | _ => none

/-- `connection to %v timed out (fd=%d)`. -/
def timedOut (addr : Bytes) (fd : ℕ) : Cause :=
  .io (ascii "connection to " ++ addr ++ ascii " timed out (fd=" ++ formatInt fd ++ ascii ")")

namespace Site

/-- The server when `Serve` starts to wait. -/
def init (S : Setup) : Site where
  listener := Listener.init S.cfg
  conn := fun _ => {}

/-- A connection is closed. -/
def close (s : Site) (id : ℕ) (errType : Bytes) (err : Option Cause) : ℕ → Conn :=
  Function.update s.conn id ((s.conn id).closeConnWithError errType err)

/-- **One step of the server**; `none` where it cannot happen, or where a function does not
    return. -/
def step (S : Setup) (s : Site) : SiteAct → Option Site
  | .callback now x =>
    match s.listener.finds S.cfg with
    | none => none
    | some (id, ev) =>
      match (s.conn id).callback S.env S.handlers ev x with
      | .error _ => none
      | .ok c =>
        (run (Listener.step S.cfg) s.listener
          (.callback now .none :: (s.conn id).callbackActs S.env S.handlers id ev x)).map fun l =>
            ⟨l, Function.update s.conn id c⟩
  | .loop a =>
    if a.idle ∧ s.listener.finds S.cfg = none then (s.listener.step S.cfg a).map
      fun l => ⟨l, s.conn⟩
    else none
  | .sweep => (s.listener.step S.cfg .sweep).map fun l =>
    match s.listener.overdue S.cfg with
    | none => ⟨l, s.conn⟩
    | some id =>
      ⟨l, s.close id (ascii "timeout") (some (timedOut (S.addr id) (s.listener.conns id).fd))⟩
  | .cleanup fd => (s.listener.step S.cfg (.cleanup fd)).map fun l =>
    match s.listener.fdconns fd with
    | none => ⟨l, s.conn⟩
    | some id => ⟨l, s.close id [] none⟩
  | .user op =>
    match op.conn? with
    | none => (s.listener.step S.cfg (.user op)).map fun l => ⟨l, s.conn⟩
    | some id =>
      match (s.conn id).used op with
      | none => none
      | some c => (s.listener.step S.cfg (.user op)).map fun l => ⟨l, Function.update s.conn id c⟩

/-- The assumption on a callback: the read of a connection that its write has closed fails. -/
def sane (S : Setup) (s : Site) : SiteAct → Bool
  | .callback _ x =>
    match s.listener.finds S.cfg with
    | none => true
    | some (id, ev) =>
      match (s.conn id).onWrite ev x.first, x.rd with
      | .ok c, .data _ => !c.closed
      | .ok c, .again => !c.closed
      | _, _ => true
  | _ => true

end Site

/-! ### The two halves agree -/

open Listener in
/-- The listener shows every connection. -/
structure Agrees (S : Setup) (s : Site) : Prop where
  reached : ∃ as, run (Listener.step S.cfg) (Listener.init S.cfg) as = some s.listener
  resting : s.listener.loop.resting = true
  shown : ∀ id < s.listener.made, Shown s.listener id (s.conn id)
  fresh : ∀ id, s.listener.made ≤ id → s.conn id = {}

section Steps

open Listener

variable {S : Setup} {s s' : Site} {l l' : Listener} {id : ℕ} {c : Conn} {ids : List ℕ}

/-- A server that has just started: no connection, and the loop waits for events. -/
theorem Agrees.init (S : Setup) : Agrees S (Site.init S) where
  reached := ⟨[], rfl⟩
  resting := rfl
  shown := fun _ h => absurd h (Nat.not_lt_zero _)
  fresh := fun _ _ => rfl

/-- A connection that the event loop finds is open and made. -/
theorem Agrees.found {ev : Flags} (h : Agrees S s)
    (hfinds : s.listener.finds S.cfg = some (id, ev)) :
    ∃ e todo, s.listener.loop = .between (e :: todo) ∧ e.fd ≠ S.cfg.fd ∧ e.ev = ev ∧
      s.listener.fdconns e.fd = some id ∧ id < s.listener.made ∧ (s.conn id).closed = false := by
  unfold finds at hfinds
  split at hfinds
  · rename_i e todo hloop
    split at hfinds
    · cases hfinds
    · rename_i hne
      obtain ⟨i, hi, heq⟩ := Option.map_eq_some_iff.mp hfinds
      obtain ⟨rfl, rfl⟩ := Prod.mk.inj heq
      obtain ⟨as, hr⟩ := h.reached
      obtain ⟨ids, hb, -⟩ := run_books hr
      obtain ⟨hmem, -⟩ := (hb.stored e.fd i).mp hi
      obtain ⟨hmade, hopen⟩ := (hb.mem_iff i).mp hmem
      refine ⟨e, todo, hloop, hne, rfl, hi, hmade, ?_⟩
      rw [← (h.shown i hmade).views.2.1, hopen]
  · cases hfinds

/-- What is done for one connection changes nothing of the others. -/
theorem shown_apart (hb : Balanced S.cfg l ids) (hapart : Apart id l l')
    (hid : id ∈ ids) {j : ℕ} {d : Conn} (hj : j ≠ id) (h : Shown l j d) : Shown l' j d := by
  have hsame := hapart.others j hj
  refine ⟨hapart.made ▸ h.made, hsame ▸ h.views, fun hopen => ?_⟩
  have hmem : j ∈ ids := (hb.mem_iff j).mpr ⟨h.made, h.views.2.1.trans hopen⟩
  have hfd : (l.conns j).fd ≠ (l.conns id).fd := fun heq => hj (hb.fd_inj hmem hid heq)
  rw [hsame, hapart.interest _ hfd]
  exact h.registered hopen

/-- A step that changes one connection, and shows the others as before. -/
theorem Agrees.update (h : Agrees S s) (hid : id < s.listener.made) {as : List Act}
    (hrun : run (Listener.step S.cfg) s.listener as = some l') (hrest : l'.loop.resting = true)
    (hmade : l'.made = s.listener.made) (hshown : Shown l' id c)
    (hothers : ∀ j < s.listener.made, j ≠ id → Shown l' j (s.conn j)) :
    Agrees S ⟨l', Function.update s.conn id c⟩ := by
  obtain ⟨before, hr⟩ := h.reached
  refine ⟨⟨before ++ as, (run_append hr).trans hrun⟩, hrest, fun j hj => ?_, fun j hj => ?_⟩
  · show Shown l' j (Function.update s.conn id c j)
    by_cases hji : j = id
    · rw [hji, Function.update_self]
      exact hshown
    · rw [Function.update_of_ne hji]
      exact hothers j (hmade ▸ hj) hji
  · replace hj : s.listener.made ≤ j := hmade ▸ hj
    show Function.update s.conn id c j = {}
    rw [Function.update_of_ne (by omega)]
    exact h.fresh j hj

/-- A step that works on one open connection, and on what belongs to it. -/
theorem Agrees.one (h : Agrees S s) (hid : id < s.listener.made)
    (hopen : (s.conn id).closed = false)
    {as : List Act} (hrun : run (Listener.step S.cfg) s.listener as = some l')
    (hrest : l'.loop.resting = true) (hapart : Apart id s.listener l') (hshown : Shown l' id c) :
    Agrees S ⟨l', Function.update s.conn id c⟩ := by
  obtain ⟨before, hr⟩ := h.reached
  obtain ⟨ids, hb, -⟩ := run_books hr
  have hmem : id ∈ ids := (hb.mem_iff id).mpr ⟨hid, (h.shown id hid).views.2.1.trans hopen⟩
  apply h.update hid hrun hrest hapart.made hshown
  intro j hj hji
  exact shown_apart hb hapart hmem hji (h.shown j hj)

/-! ### Callbacks -/

/-- A connection that the write has closed is read from in vain. -/
theorem read_of_sane {now : ℤ} {x : Returns} {ev : Flags}
    (hsane : s.sane S (.callback now x) = true)
    (hfinds : s.listener.finds S.cfg = some (id, ev)) {d : Conn}
    (hwrite : (s.conn id).onWrite ev x.first = .ok d) (hclosed : d.closed = true) :
    ∃ text, x.rd = .error text := by
  simp only [Site.sane, hfinds, hwrite] at hsane
  cases hrd : x.rd with
  | data p => simp [hrd, hclosed] at hsane
  | again => simp [hrd, hclosed] at hsane
  | error text => exact ⟨text, rfl⟩

/-- The event loop gets through the callback. -/
theorem callback_runs (hH : S.handlers.Extend) (h : Agrees S s)
    (now : ℤ) {x : Returns} {e : PollEvent}
    {todo : List PollEvent} (hloop : s.listener.loop = .between (e :: todo))
    (hfinds : s.listener.finds S.cfg = some (id, e.ev)) (hsane : s.sane S (.callback now x) = true)
    (hok : (s.conn id).callback S.env S.handlers e.ev x = .ok c) :
    Reaches S.cfg id s.listener
      (.callback now .none :: (s.conn id).callbackActs S.env S.handlers id e.ev x)
      (.tick todo) c := by
  obtain ⟨e', todo', hloop', hne, -, hfd, hmade, hopen⟩ := h.found hfinds
  obtain ⟨rfl, rfl⟩ := List.cons.inj (Loop.between.inj (hloop.symm.trans hloop'))
  have hstep : Listener.step S.cfg s.listener (.callback now .none)
      = some (((s.listener.detach id).attachConn id now).goto (dispatch id e.ev todo)) := by
    unfold Listener.step
    rw [hloop]
    simp only [if_neg hne, hfd]
  have hshown := h.shown id hmade
  refine .cons hstep (.update rfl rfl rfl rfl) ?_
  refine callback_reaches hH rfl ?_ hopen (fun d hd hc => read_of_sane hsane hfinds hd hc) hok
  exact hshown.update rfl rfl rfl rfl hshown.views rfl

/-- A callback that runs keeps the agreement: its steps of the listener end where the function on
    the connection ends. -/
theorem callback_agrees (hH : S.handlers.Extend) (h : Agrees S s) {now : ℤ} {x : Returns}
    (hsane : s.sane S (.callback now x) = true) (hs : Site.step S s (.callback now x) = some s') :
    Agrees S s' := by
  simp only [Site.step] at hs
  split at hs
  · cases hs
  · rename_i id ev hfinds
    obtain ⟨e, todo, hloop, -, rfl, -, hmade, hopen⟩ := h.found hfinds
    split at hs
    · cases hs
    · rename_i c hok
      obtain ⟨l', hrun, hloop', hshown, hapart⟩ := callback_runs hH h now hloop hfinds hsane hok
      rw [hrun] at hs
      obtain rfl := Option.some.inj hs
      exact h.one hmade hopen hrun (by rw [hloop']; rfl) hapart hshown

/-! ### The other steps -/

/-- A step that leaves the connections and their registrations. -/
theorem Agrees.same (h : Agrees S s) {a : Act} (hstep : Listener.step S.cfg s.listener a = some l')
    (hrest : l'.loop.resting = true) (hmade : l'.made = s.listener.made)
    (hconns : l'.conns = s.listener.conns)
    (hinterest : l'.poll.interest = s.listener.poll.interest) : Agrees S ⟨l', s.conn⟩ := by
  obtain ⟨before, hr⟩ := h.reached
  refine ⟨⟨before ++ [a], (run_append hr).trans (run_single hstep)⟩,
    hrest, fun j hj => ?_, fun j hj => ?_⟩
  · exact (h.shown j (hmade ▸ hj)).same hmade (by rw [hconns]) hinterest
  · exact h.fresh j (hmade ▸ hj)

/-- A new connection. -/
theorem Agrees.accept (h : Agrees S s) {a : Act} {fd : ℕ} {now : ℤ} {todo : List PollEvent}
    (hstep : Listener.step S.cfg s.listener a
      = some ((s.listener.newConn fd now).goto (.tick todo))) :
    Agrees S ⟨(s.listener.newConn fd now).goto (.tick todo), s.conn⟩ := by
  obtain ⟨before, hr⟩ := h.reached
  refine ⟨⟨before ++ [a], (run_append hr).trans (run_single hstep)⟩,
    rfl, fun j hj => ?_, fun j hj => ?_⟩
  · have hregister : ∀ f, s.listener.poll.interest f ≠ none →
        Function.update s.listener.poll.interest fd (some .read) f ≠ none := by
      intro f hf
      by_cases heq : f = fd
      · rw [heq, Function.update_self]
        exact Option.some_ne_none _
      · rw [Function.update_of_ne heq]
        exact hf
    by_cases hjm : j = s.listener.made
    · -- the new connection has read and written nothing
      subst hjm
      have hself : ((s.listener.newConn fd now).goto (.tick todo)).conns s.listener.made
          = { fd := fd, ts := now } := Balanced.newConn_conns_self s.listener fd now
      refine ⟨hj, ?_, fun _ => ?_⟩
      · rw [hself, h.fresh _ (Nat.le_refl _)]
        exact ⟨rfl, rfl, rfl⟩
      · rw [hself]
        show Function.update s.listener.poll.interest fd (some .read) fd ≠ none
        rw [Function.update_self]
        exact Option.some_ne_none _
    · have hlt : j < s.listener.made := by
        have hj' : j < s.listener.made + 1 := hj
        omega
      have hold := h.shown j hlt
      have hsame : ((s.listener.newConn fd now).goto (.tick todo)).conns j = s.listener.conns j :=
        Balanced.newConn_conns_of_ne hjm
      refine ⟨hj, hsame ▸ hold.views, fun hopen => ?_⟩
      rw [hsame]
      exact hregister _ (hold.registered hopen)
  · have hj' : s.listener.made + 1 ≤ j := hj
    exact h.fresh j (by omega)

/-- A step of the event loop outside a callback. -/
theorem idle_agrees (h : Agrees S s) {a : Act} (ha : a.idle = true)
    (hfinds : s.listener.finds S.cfg = none)
    (hs : Listener.step S.cfg s.listener a = some l') : Agrees S ⟨l', s.conn⟩ := by
  have hrest := h.resting
  have hserving : ∀ {i stage ev todo}, s.listener.loop ≠ .serving i stage ev todo := by
    intro i stage ev todo hloop
    rw [hloop] at hrest
    cases hrest
  cases step_moves hs with
  | wake evs hloop => exact h.same hs rfl rfl rfl rfl
  | die => exact h.same hs rfl rfl rfl rfl
  | rest todo => exact h.same hs rfl rfl rfl rfl
  | leak acc fd now e todo loop hloop he hfd hto =>
    refine h.same hs ?_ rfl rfl rfl
    rcases hto with ⟨-, rfl⟩ | ⟨-, rfl⟩ | ⟨-, rfl⟩ <;> rfl
  | accept acc fd now e todo => exact h.accept hs
  | touch acc id now e todo hloop he hfd =>
    simp only [finds, hloop, if_neg he, hfd] at hfinds
    cases hfinds
  | tick now todo => exact h.same hs rfl rfl rfl rfl
  | user => cases ha
  | sweep => cases ha
  | cleanup => cases ha
  | pass a id stage ev todo loop hloop => exact absurd hloop hserving
  | close a id stage ev todo loop hloop => exact absurd hloop hserving
  | writeNothing wr id ev todo hloop => exact absurd hloop hserving
  | writeError text id ev todo hloop => exact absurd hloop hserving
  | writePart wr id ev todo out hloop => exact absurd hloop hserving
  | writeAll wr id ev todo hloop => exact absurd hloop hserving
  | readClose rd id ev todo hloop => exact absurd hloop hserving
  | readData rd id ev todo hloop => exact absurd hloop hserving
  | readAgain id ev todo hloop => exact absurd hloop hserving
  | mod id i ev todo hloop => exact absurd hloop hserving
  | modPanic id i ev todo hloop => exact absurd hloop hserving

/-- A connection that is closed outside a callback. -/
theorem Agrees.close (h : Agrees S s) {a : Act} {loop : Loop} (hid : id < s.listener.made)
    (hopen : (s.conn id).closed = false) (hrest : loop.resting = true)
    (hstep : Listener.step S.cfg s.listener a = some ((s.listener.closeConnWithError id).goto loop))
    (errType : Bytes) (err : Option Cause) :
    Agrees S ⟨(s.listener.closeConnWithError id).goto loop, s.close id errType err⟩ := by
  have hapart : Apart id s.listener ((s.listener.closeConnWithError id).goto loop) :=
    (Apart.close id s.listener).trans (.same rfl rfl rfl)
  exact h.one hid hopen (run_single hstep) hrest hapart
    (((h.shown id hid).close errType err).same rfl rfl rfl)

/-- A round of the loop over the list closes a connection, or it is the last one. -/
theorem step_sweep (hs : Listener.step S.cfg l .sweep = some l') (hrest : l.loop.resting = true) :
    (∃ id loop, l.overdue S.cfg = some id ∧ loop.resting = true ∧
      l' = (l.closeConnWithError id).goto loop ∧ ∃ now todo, l.loop = .sweep (.conn id) now todo) ∨
    (l.overdue S.cfg = none ∧ ∃ loop, loop.resting = true ∧ l' = l.goto loop) := by
  unfold Listener.step at hs
  cases hloop : l.loop with
  | between todo => rw [hloop] at hs; cases hs
  | serving id stage ev todo => rw [hloop] at hrest; cases hrest
  | tick todo => rw [hloop] at hs; cases hs
  | dead => rw [hloop] at hs; cases hs
  | sweep conn now todo =>
    rw [hloop] at hs
    simp only [Option.some.injEq] at hs
    unfold overdue
    rw [hloop]
    cases conn with
    | nil => exact .inr ⟨rfl, _, rfl, hs.symm⟩
    | head => exact .inr ⟨rfl, _, rfl, hs.symm⟩
    | tail => exact .inr ⟨rfl, _, rfl, hs.symm⟩
    | conn id =>
      simp only [sweepConn] at hs ⊢
      split at hs
      · rename_i hold
        rw [if_pos hold]
        exact .inl ⟨id, _, rfl, rfl, hs.symm, now, todo, rfl⟩
      · rename_i hyoung
        rw [if_neg hyoung]
        exact .inr ⟨rfl, _, rfl, hs.symm⟩

/-- A step of the sweep closes an expired connection in both halves, or none. -/
theorem sweep_agrees (h : Agrees S s) (hs : Site.step S s .sweep = some s') : Agrees S s' := by
  obtain ⟨before, hr⟩ := h.reached
  obtain ⟨ids, hb, hw⟩ := run_books hr
  simp only [Site.step] at hs
  obtain ⟨l', hstep, hs'⟩ := Option.map_eq_some_iff.mp hs
  obtain ⟨id, loop, hexp, hrest, rfl, now, todo, hloop⟩ | ⟨hexp, loop, hrest, rfl⟩ :=
    step_sweep hstep h.resting
  · rw [hexp] at hs'
    subst hs'
    rw [hloop] at hw
    obtain ⟨hmade, hopen⟩ := (hb.mem_iff id).mp (mem_of_within hw)
    exact h.close hmade ((h.shown id hmade).views.2.1.symm.trans hopen) hrest hstep _ _
  · rw [hexp] at hs'
    subst hs'
    exact h.same hstep hrest rfl rfl rfl

/-- A round of the deferred function. -/
theorem cleanup_agrees {fd : ℕ} (h : Agrees S s) (hs : Site.step S s (.cleanup fd) = some s') :
    Agrees S s' := by
  obtain ⟨before, hr⟩ := h.reached
  obtain ⟨ids, hb, -⟩ := run_books hr
  simp only [Site.step] at hs
  obtain ⟨l', hstep, hs'⟩ := Option.map_eq_some_iff.mp hs
  have hdead : s.listener.loop = .dead ∧ ∃ id, s.listener.fdconns fd = some id ∧
      l' = s.listener.closeConnWithError id := by
    have hrest := h.resting
    unfold Listener.step at hstep
    cases hloop : s.listener.loop with
    | dead =>
      rw [hloop] at hstep
      obtain ⟨id, hid, rfl⟩ := Option.map_eq_some_iff.mp hstep
      exact ⟨rfl, id, hid, rfl⟩
    | serving id stage ev todo => rw [hloop] at hrest; cases hrest
    | between todo => rw [hloop] at hstep; cases hstep
    | tick todo => rw [hloop] at hstep; cases hstep
    | sweep conn now todo => rw [hloop] at hstep; cases hstep
  obtain ⟨hloop, id, hid, rfl⟩ := hdead
  rw [hid] at hs'
  subst hs'
  obtain ⟨hmade, hopen⟩ := (hb.mem_iff id).mp ((hb.stored fd id).mp hid).1
  have hgoto : (s.listener.closeConnWithError id).goto s.listener.loop
      = s.listener.closeConnWithError id := by
    rw [goto, ← closeConnWithError_loop s.listener id]
  have hclose := h.close (a := .cleanup fd) hmade
    ((h.shown id hmade).views.2.1.symm.trans hopen) h.resting (by rw [hgoto]; exact hstep) [] none
  rw [hgoto] at hclose
  exact hclose

/-- A goroutine uses a connection: the listener and the connection change in the same way. -/
theorem used_shown {op : UserOp} (hid : op.conn? = some id) (h : Shown l id c) {c' : Conn}
    (hused : c.used op = some c') (hs : Listener.step S.cfg l (.user op) = some l') :
    Shown l' id c' ∧ l'.made = l.made ∧ (∀ j, j ≠ id → l'.conns j = l.conns j) ∧
      l'.poll.interest = l.poll.interest ∧ l'.loop = l.loop := by
  rw [step_user] at hs
  obtain ⟨hout, hclosed, hws⟩ := h.views
  have hset : ∀ (s : Socket) (j : ℕ), j ≠ id → Function.update l.conns id s j
      = l.conns j := fun _ _ hj =>
    Function.update_of_ne hj ..
  -- both halves append the same bytes
  have happend : ∀ (w : Option ℕ) (p : Bytes), Shown (l.append w id p)
      id { c with out := c.out ++ p } :=
    fun w p => h.update rfl rfl rfl rfl ⟨congrArg (· ++ p) hout, hclosed, hws⟩ rfl
  cases op with
  | write w i p =>
    obtain rfl := Option.some.inj hid
    simp only [useConn, if_pos h.made, Option.some.injEq, hclosed] at hs
    subst hs
    simp only [Conn.used] at hused
    split at hused
    · rename_i hc
      obtain rfl := Option.some.inj hused
      rw [if_pos hc]
      exact ⟨h, rfl, fun _ _ => rfl, rfl, rfl⟩
    · rename_i hc
      split at hused
      · cases hused
      · obtain rfl := Option.some.inj hused
        rw [if_neg hc]
        exact ⟨happend w p, rfl, hset _, rfl, rfl⟩
  | append w i p =>
    obtain rfl := Option.some.inj hid
    simp only [useConn, if_pos h.made, Option.some.injEq] at hs
    subst hs
    simp only [Conn.used] at hused
    split at hused
    · cases hused
    · obtain rfl := Option.some.inj hused
      exact ⟨happend w p, rfl, hset _, rfl, rfl⟩
  | flush w i =>
    obtain rfl := Option.some.inj hid
    obtain rfl := Option.some.inj hused
    simp only [useConn, if_pos h.made, Option.some.injEq] at hs
    subst hs
    split
    · exact ⟨h.same rfl rfl rfl, rfl, fun _ _ => rfl, rfl, rfl⟩
    · exact ⟨h.same rfl rfl rfl, rfl, fun _ _ => rfl, rfl, rfl⟩
  | trigger fd => cases hid
  | upgrade i => cases hused
  | wsClose i =>
    obtain rfl := Option.some.inj hid
    obtain rfl := Option.some.inj hused
    simp only [useConn, if_pos h.made, Option.some.injEq] at hs
    subst hs
    refine ⟨h.update rfl rfl rfl rfl ⟨hout, hclosed, ?_⟩ rfl, rfl, hset _, rfl, rfl⟩
    show (l.conns i).ws.map (fun _ => true) = _
    rw [hws]
    cases c.ws <;> rfl

/-- What a goroutine does with a connection keeps the agreement: both halves take the same
    operation. -/
theorem user_agrees {op : UserOp} (h : Agrees S s) (hs : Site.step S s (.user op) = some s') :
    Agrees S s' := by
  simp only [Site.step] at hs
  split at hs
  · rename_i hnone
    obtain ⟨l', hstep, rfl⟩ := Option.map_eq_some_iff.mp hs
    cases op with
    | trigger fd =>
      obtain rfl := Option.some.inj hstep
      exact h.same hstep h.resting rfl rfl rfl
    | write => cases hnone
    | append => cases hnone
    | flush => cases hnone
    | upgrade => cases hnone
    | wsClose => cases hnone
  · rename_i id hid
    split at hs
    · cases hs
    · rename_i c hused
      obtain ⟨l', hstep, rfl⟩ := Option.map_eq_some_iff.mp hs
      have hmade : id < s.listener.made := by
        by_contra hout
        rw [step_user] at hstep
        cases op <;> cases hid <;> simp [useConn, hout] at hstep
      obtain ⟨hshown, hm, hconns, hinterest, hloop⟩ := used_shown hid (h.shown id hmade) hused hstep
      apply h.update hmade (run_single hstep) (hloop ▸ h.resting) hm hshown
      intro j hj hji
      exact (h.shown j hj).same hm (hconns j hji) hinterest

/-- **Every step keeps the two halves together.** -/
theorem step_agrees (hH : S.handlers.Extend) (h : Agrees S s) {a : SiteAct}
    (hsane : s.sane S a = true) (hs : Site.step S s a = some s') : Agrees S s' := by
  cases a with
  | callback now x => exact callback_agrees hH h hsane hs
  | loop a =>
    simp only [Site.step] at hs
    split at hs
    · rename_i hidle
      obtain ⟨l', hstep, rfl⟩ := Option.map_eq_some_iff.mp hs
      exact idle_agrees h hidle.1 hidle.2 hstep
    · cases hs
  | sweep => exact sweep_agrees h hs
  | cleanup fd => exact cleanup_agrees h hs
  | user op => exact user_agrees h hs

/-- **The halves agree in every run**, from the steps by induction. -/
theorem run_agrees (hH : S.handlers.Extend) {as : List SiteAct}
    (hm : Meets (Site.step S) (fun s a => s.sane S a = true) (Site.init S) as)
    (hr : run (Site.step S) (Site.init S) as = some s) : Agrees S s :=
  run_invariant (fun _ _ _ h hsane hs => step_agrees hH h hsane hs) (Agrees.init S) hm hr

end Steps

/-- Handlers that append an answer extend the output, as the agreement asks for. -/
theorem Service.handlers_extend (serve : Service) : serve.handlers.Extend where
  onWSData c _ := .refl c
  onHTTP _ _ _ := ⟨rfl, List.prefix_append _ _, fun w hw => ⟨w, hw, id⟩⟩
  onRedis _ _ _ := ⟨rfl, List.prefix_append _ _, fun w hw => ⟨w, hw, id⟩⟩

/-- A server that says OK to everything. -/
def okSetup : Setup := ⟨⟨3, 0⟩, .plain, okService.handlers, fun _ => []⟩

/-- Two clients that send a command each; the halves of the one come before and behind the other. -/
def twoClients : List SiteAct :=
  [.loop (.wake [⟨3, { read := true }⟩]), .loop (.callback 0 (.ok 7)), .loop (.tick 0),
    .loop (.wake [⟨3, { read := true }⟩]), .loop (.callback 1 (.ok 8)), .loop (.tick 1),
    .loop (.wake [⟨7, { read := true }⟩, ⟨8, { read := true }⟩]),
    .callback 2 ⟨.ok 0, .data (ascii "*1\r\n$4\r\nPI"), .ok 9⟩, .loop (.tick 2),
    .callback 2 ⟨.ok 0, .data (ascii "*1\r\n$3\r\nGET\r\n"), .ok 2⟩, .loop (.tick 2),
    .loop (.wake [⟨7, { read := true, write := true }⟩])]

/-- The turns that an event is for its connection. -/
def Flags.turns (ev : Flags) (x : Returns) : List Turn :=
  (if ev.write then [.write x.first] else []) ++ if ev.read then [.read x.rd x.wr] else []

namespace Site

/-- The turns of the connection in a step. -/
def turnsOf (S : Setup) (s : Site) (id : ℕ) : SiteAct → List Turn
  | .callback _ x =>
    match s.listener.finds S.cfg with
    | some (i, ev) => if i = id then ev.turns x else []
    | none => []
  | _ => []

/-- The turns of the connection in a run. -/
def history (S : Setup) (id : ℕ) : Site → List SiteAct → List Turn
  | _, [] => []
  | s, a :: as =>
    s.turnsOf S id a ++ match step S s a with
      | none => []
      | some s' => history S id s' as

end Site

/-- No goroutine writes to the connection. -/
def SiteAct.leaves (id : ℕ) : SiteAct → Bool
  | .user op => op.conn? ≠ some id
  | _ => true

/-- The connection is as its turns have left it, or it has been closed since. -/
def Conn.Left (c d : Conn) : Prop := d = c ∨ ∃ errType err, d = c.closeConnWithError errType err

section History

variable {S : Setup} {s s' : Site} {id : ℕ} {c c' : Conn} {ev : Flags} {x : Returns}

/-- A closed connection is closed. -/
theorem Conn.closed_closeConnWithError (c : Conn) (errType : Bytes) (err : Option Cause) :
    (c.closeConnWithError errType err).closed = true := by
  unfold Conn.closeConnWithError
  split
  · assumption
  · rfl

/-- A second close does nothing. -/
theorem Conn.closeConnWithError_of_closed (h : c.closed = true)
    (errType : Bytes) (err : Option Cause) : c.closeConnWithError errType err = c := by
  rw [Conn.closeConnWithError.eq_def, if_pos h]

/-- A close handles no request. -/
theorem Conn.requests_closeConnWithError (c : Conn) (errType : Bytes) (err : Option Cause) :
    (c.closeConnWithError errType err).log.filter Event.isRequest
      = c.log.filter Event.isRequest := by
  unfold Conn.closeConnWithError
  split
  · rfl
  · cases c.ws <;> cases err <;> simp [Event.isRequest]

/-- An open connection is as its turns have left it. -/
theorem Conn.Left.eq_of_open (h : c.Left c') (hopen : c'.closed = false) : c' = c := by
  rcases h with rfl | ⟨errType, err, rfl⟩
  · rfl
  · rw [Conn.closed_closeConnWithError] at hopen
    cases hopen

/-- Closing once more leaves a connection that was closed behind its turns as it is. -/
theorem Conn.Left.close (h : c.Left c') (errType : Bytes) (err : Option Cause) :
    c.Left (c'.closeConnWithError errType err) := by
  rcases h with rfl | ⟨errType', err', rfl⟩
  · exact .inr ⟨errType, err, rfl⟩
  · rw [Conn.closeConnWithError_of_closed (Conn.closed_closeConnWithError ..)]
    exact .inr ⟨errType', err', rfl⟩

/-- A callback is the turns of its event, and a close behind them perhaps. -/
theorem callback_turns {env : Env} {H : Handlers} (hopen : c.closed = false)
    (hread : ∀ d, c.onWrite ev x.first = .ok d → d.closed = true → ∃ text, x.rd = .error text)
    (hok : c.callback env H ev x = .ok c') :
    ∃ d, c.turns env H (ev.turns x) = .ok d ∧ d.Left c' := by
  unfold Conn.callback at hok
  cases hwrite : c.onWrite ev x.first with
  | error e => simp only [hwrite, bind, Except.bind] at hok; cases hok
  | ok d =>
    cases hreads : d.onRead env H ev x.rd x.wr with
    | error e => simp only [hwrite, hreads, bind, Except.bind] at hok; cases hok
    | ok d' =>
      simp only [hwrite, hreads, bind, Except.bind] at hok
      cases hok
      refine ⟨d', ?_, ?_⟩
      · -- the turns, one after the other
        have hfirst : c.turns env H (if ev.write then [.write x.first] else []) = .ok d := by
          unfold Conn.onWrite at hwrite
          split at hwrite
          · rename_i hw
            rw [if_pos hw, Conn.turns, List.foldlM_cons, Conn.turn,
              if_neg (by simp [hopen]), hwrite]
            rfl
          · rename_i hw
            rw [if_neg hw]
            exact hwrite
        have hsecond : d.turns env H (if ev.read then [.read x.rd x.wr] else []) = .ok d' := by
          unfold Conn.onRead at hreads
          split at hreads
          · rename_i hr
            rw [if_pos hr, Conn.turns, List.foldlM_cons, Conn.turn]
            cases hc : d.closed with
            | false =>
              rw [if_neg Bool.false_ne_true, hreads]
              rfl
            | true =>
              -- the connection is not found any more, and the read of the callback has failed
              obtain ⟨text, htext⟩ := hread d hwrite hc
              rw [htext, Conn.readConn, Conn.closeConnWithError_of_closed hc] at hreads
              rw [if_pos rfl, ← hreads]
              rfl
          · rename_i hr
            rw [if_neg hr]
            exact hreads
        rw [Flags.turns, Conn.turns, List.foldlM_append]
        rw [Conn.turns] at hfirst hsecond
        rw [hfirst]
        exact hsecond
      · unfold Conn.onEof
        split
        · exact .inr ⟨_, _, rfl⟩
        · exact .inl rfl

/-- Turns one after the other. -/
theorem turns_append {env : Env} {H : Handlers} {ts us : List Turn}
    (h : c.turns env H ts = .ok c') : c.turns env H (ts ++ us) = c'.turns env H us := by
  rw [Conn.turns, List.foldlM_append]
  rw [Conn.turns] at h
  rw [h]
  rfl

/-- A step serves the connection as its turns do. -/
theorem step_history (h : Agrees S s) {a : SiteAct} (hsane : s.sane S a = true)
    (hleaves : a.leaves id = true) (hs : Site.step S s a = some s') (hc : c.Left (s.conn id)) :
    ∃ d, c.turns S.env S.handlers (s.turnsOf S id a) = .ok d ∧ d.Left (s'.conn id) := by
  -- the sweep and the end of `Serve` close connections outside their turns
  have hclose : ∀ (i : ℕ) (errType : Bytes) (err : Option Cause),
      c.Left (s.close i errType err id) := by
    intro i errType err
    unfold Site.close
    by_cases hi : id = i
    · rw [hi, Function.update_self]
      exact (hi ▸ hc).close errType err
    · rw [Function.update_of_ne hi]
      exact hc
  cases a with
  | callback now x =>
    simp only [Site.step] at hs
    cases hfinds : s.listener.finds S.cfg with
    | none => simp only [hfinds] at hs; cases hs
    | some p =>
      obtain ⟨i, ev⟩ := p
      simp only [hfinds] at hs
      simp only [Site.turnsOf, hfinds]
      cases hok : (s.conn i).callback S.env S.handlers ev x with
      | error e => simp only [hok] at hs; cases hs
      | ok c' =>
        simp only [hok] at hs
        obtain ⟨l', -, rfl⟩ := Option.map_eq_some_iff.mp hs
        -- the callback of this connection is its turns; that of another one leaves it alone
        by_cases hi : i = id
        · subst hi
          obtain ⟨-, -, -, -, -, -, -, hopen⟩ := h.found hfinds
          rw [if_pos rfl]
          have hsame : s.conn i = c := hc.eq_of_open hopen
          rw [hsame] at hopen hok
          have hturns := callback_turns hopen
            (fun d hd hclosed => read_of_sane hsane hfinds (hsame ▸ hd) hclosed) hok
          simpa only [Function.update_self] using hturns
        · rw [if_neg hi]
          refine ⟨c, rfl, ?_⟩
          show c.Left (Function.update s.conn i c' id)
          rw [Function.update_of_ne (Ne.symm hi)]
          exact hc
  | loop a =>
    simp only [Site.step] at hs
    split at hs
    · obtain ⟨l', -, rfl⟩ := Option.map_eq_some_iff.mp hs
      exact ⟨c, rfl, hc⟩
    · cases hs
  | sweep =>
    simp only [Site.step] at hs
    obtain ⟨l', -, rfl⟩ := Option.map_eq_some_iff.mp hs
    refine ⟨c, rfl, ?_⟩
    split
    · exact hc
    · exact hclose _ _ _
  | cleanup fd =>
    simp only [Site.step] at hs
    obtain ⟨l', -, rfl⟩ := Option.map_eq_some_iff.mp hs
    refine ⟨c, rfl, ?_⟩
    split
    · exact hc
    · exact hclose _ _ _
  | user op =>
    -- a goroutine works on another connection
    have hne : op.conn? ≠ some id := by simpa [SiteAct.leaves] using hleaves
    simp only [Site.step] at hs
    split at hs
    · obtain ⟨l', -, rfl⟩ := Option.map_eq_some_iff.mp hs
      exact ⟨c, rfl, hc⟩
    · rename_i i hi
      split at hs
      · cases hs
      · rename_i c' _
        obtain ⟨l', -, rfl⟩ := Option.map_eq_some_iff.mp hs
        refine ⟨c, rfl, ?_⟩
        show c.Left (Function.update s.conn i c' id)
        have hii : id ≠ i := by
          rintro rfl
          exact hne hi
        rw [Function.update_of_ne hii]
        exact hc

/-- **A connection is served as if it were alone.** -/
theorem run_history (hH : S.handlers.Extend) {as : List SiteAct} (h : Agrees S s)
    (hm : Meets (Site.step S) (fun s a => s.sane S a = true) s as)
    (hleaves : ∀ a ∈ as, a.leaves id = true)
    (hr : run (Site.step S) s as = some s') (hc : c.Left (s.conn id)) :
    ∃ d, c.turns S.env S.handlers (Site.history S id s as) = .ok d ∧ d.Left (s'.conn id) := by
  induction as generalizing s c with
  | nil =>
    rw [run, Option.some.injEq] at hr
    exact ⟨c, rfl, hr ▸ hc⟩
  | cons a as ih =>
    rw [run] at hr
    have hrest := hm.2
    cases hs : Site.step S s a with
    | none => rw [hs] at hr; cases hr
    | some s₁ =>
      rw [hs] at hr hrest
      obtain ⟨c₁, hturns, hc₁⟩ := step_history h hm.1 (hleaves a List.mem_cons_self) hs hc
      obtain ⟨d, hturns', hd⟩ := ih (step_agrees hH h hm.1 hs) hrest
        (fun b hb => hleaves b (List.mem_cons_of_mem a hb)) hr hc₁
      refine ⟨d, ?_, hd⟩
      rw [Site.history, hs, turns_append hturns]
      exact hturns'

end History

end Resh.Server
