import Resh.Client.Registry

namespace Resh.Client

open Resh.Go

/-!
# Closing connections

`closeConnWithError` has no guard: it deletes and closes whatever stands under the fd of its
connection, each time it is called.  A connection is closed at most once as long as nobody calls
it for a closed one, and the calls that do come from a timer that was not stopped and from the
pool, which still holds the connection.

* `Timely` — no timer expires for a closed connection, nobody closes one whose timer function has
  been started, and the pool is not trimmed of a closed one;
* `closed_once` — in a run of such steps every connection is closed at most once, each close
  removes its own connection, and `fdMap.Delete` does not panic;
* `timer_closes_newer` — a run in which the timer of a closed connection closes another one.
-/

variable {cfg : Config} {s s' : State} {id : ℕ} {c c' : Conn}

/-- `closeConnWithError` for the connection. -/
def Event.isTeardown (id : ℕ) : Event → Bool
  | .teardown i _ => i == id
  | _ => false

/-- A record of `closeConnWithError`. -/
def Event.closing : Event → Bool
  | .teardown _ _ => true
  | .bug => true
  | _ => false

namespace State

/-- How often the connection was closed. -/
def torn (s : State) (id : ℕ) : ℕ := s.log.countP (Event.isTeardown id)

/-- The calls of the timer function of a connection that have done nothing yet. -/
def fired (s : State) (id : ℕ) : ℕ :=
  match s.conns id with
  | some c => c.fired
  | none => 0

theorem fired_eq (hc : s.conns id = some c) : s.fired id = c.fired := by simp only [fired, hc]

theorem fired_setConn (c' : Conn) (i : ℕ) :
    (s.setConn id c').fired i = if i = id then c'.fired else s.fired i := by
  by_cases hi : i = id
  · subst hi
    simp only [fired, setConn, Function.update_self, if_true]
  · simp only [fired, setConn, Function.update_of_ne hi, if_neg hi]

end State

/-- The connection is about to return to the pool. -/
def State.settling (cfg : Config) (s : State) (id : ℕ) : Bool :=
  match s.conns id with
  | some c => c.inp = [] ∧ c.authState = 0 ∧ s.fdConns.count ≤ cfg.poolSize
  | none => false

/-- The assumptions on a step: a timer expires only while its connection is registered and no
    earlier call of its function is pending; outside the event loop a connection is closed only
    while the event loop does not work on it; and while a call of the timer function is pending
    nobody else closes the connection. -/
def Timely (cfg : Config) (s : State) : Action → Prop
  | .expire id => s.entry id = some id ∧ s.fired id = 0
  | .timeout id => s.loop.at ≠ some id
  | .trim k => ∀ id ∈ outside cfg s (.trim k),
      s.loop.at ≠ some id ∧ s.entry id = some id ∧ s.fired id = 0
  | .shut fd => ∀ id ∈ s.fdConns.slot fd, s.loop.at ≠ some id ∧ s.fired id = 0
  | .write _ => ∀ id ∈ s.loop.at, s.fired id = 0
  | .read _ => ∀ id ∈ s.loop.at, s.fired id = 0
  | .parse => ∀ id ∈ s.loop.at, s.fired id = 0 ∨ s.settling cfg id = true
  | _ => True

instance (cfg : Config) (s : State) (a : Action) : Decidable (Timely cfg s a) :=
  match a with
  | .expire id => inferInstanceAs (Decidable (s.entry id = some id ∧ s.fired id = 0))
  | .timeout id => inferInstanceAs (Decidable (s.loop.at ≠ some id))
  | .trim k => inferInstanceAs (Decidable (∀ id ∈ outside cfg s (.trim k),
      s.loop.at ≠ some id ∧ s.entry id = some id ∧ s.fired id = 0))
  | .shut fd => inferInstanceAs (Decidable (∀ id ∈ s.fdConns.slot fd,
      s.loop.at ≠ some id ∧ s.fired id = 0))
  | .write _ => inferInstanceAs (Decidable (∀ id ∈ s.loop.at, s.fired id = 0))
  | .read _ => inferInstanceAs (Decidable (∀ id ∈ s.loop.at, s.fired id = 0))
  | .parse => inferInstanceAs (Decidable (∀ id ∈ s.loop.at,
      s.fired id = 0 ∨ s.settling cfg id = true))
  | .exec _ => isTrue trivial
  | .decide _ => isTrue trivial
  | .receive _ => isTrue trivial
  | .connect _ _ => isTrue trivial
  | .arm _ => isTrue trivial
  | .event _ _ => isTrue trivial
  | .push => isTrue trivial

/-! ### The invariant -/

/-- Closes so far. -/
structure TornOnce (s : State) : Prop where
  pending : ∀ id, 0 < s.fired id → s.entry id = some id ∧ s.fired id = 1
  live : ∀ id, s.entry id = some id → s.torn id = 0
  once : ∀ id, s.torn id ≤ 1
  fresh : ∀ id, s.made ≤ id → s.torn id = 0
  own : ∀ id v, Event.teardown id v ∈ s.log → v = id
  noBug : Event.bug ∉ s.log

/-- What `closeConnWithError` logs behind `fdMap.Delete` is no record of a close. -/
theorem closeLog_quiet (s : State) (fd : ℕ) (c : Conn) (typ : ErrType) (err : Option Cause) :
    ∀ e ∈ s.closeErrors fd ++ State.closeEvents c typ err, e.closing = false := by
  intro e he
  unfold State.closeErrors State.closeEvents at he
  simp only [List.mem_append] at he
  rcases he with he | he | he
  · split at he
    · cases he
    · rw [List.mem_singleton.mp he]
      rfl
  · split at he
    · rw [List.mem_singleton.mp he]
      rfl
    · cases he
  · split at he
    · cases he
    · rw [List.mem_singleton.mp he]
      rfl
    · cases he

namespace TornOnce

theorem init : TornOnce {} :=
  ⟨fun _ h => absurd h (by simp [State.fired]), fun _ _ => rfl,
    fun _ => Nat.zero_le _, fun _ _ => rfl, fun _ _ h => absurd h (by simp), by simp⟩

theorem torn_quiet {es : List Event} (hlog : s'.log = s.log ++ es)
    (hes : ∀ e ∈ es, e.closing = false) (i : ℕ) : s'.torn i = s.torn i := by
  have hzero : es.countP (Event.isTeardown i) = 0 := by
    rw [List.countP_eq_zero]
    intro e he
    have := hes e he
    cases e <;> simp_all [Event.closing, Event.isTeardown]
  rw [State.torn, State.torn, hlog, List.countP_append, hzero, Nat.add_zero]

/-- A step that closes nothing and starts no timer function. -/
theorem same (h : TornOnce s) (hreg : ∀ i, s'.entry i = some i ↔ s.entry i = some i)
    (hmade : s'.made = s.made) (hfired : ∀ i, s'.fired i = s.fired i ∨ s'.fired i = 0)
    {es : List Event} (hlog : s'.log = s.log ++ es) (hes : ∀ e ∈ es, e.closing = false) :
    TornOnce s' := by
  have htorn := torn_quiet hlog hes
  refine ⟨fun i hi => ?_, fun i hi => ?_, fun i => ?_, fun i hi => ?_,
    fun i v hv => ?_, fun hb => ?_⟩
  · rcases hfired i with heq | hzero
    · rw [heq, hreg]
      exact h.pending i (heq ▸ hi)
    · omega
  · rw [htorn]
    exact h.live i ((hreg i).mp hi)
  · rw [htorn]
    exact h.once i
  · rw [htorn]
    exact h.fresh i (hmade ▸ hi)
  · rw [hlog, List.mem_append] at hv
    rcases hv with hv | hv
    · exact h.own i v hv
    · exact absurd (hes _ hv) (by simp [Event.closing])
  · rw [hlog, List.mem_append] at hb
    rcases hb with hb | hb
    · exact h.noBug hb
    · exact absurd (hes _ hb) (by simp [Event.closing])

/-- A step that leaves the registry and the connections and logs no close. -/
theorem quiet (h : TornOnce s) (hmap : s'.fdConns.slot = s.fdConns.slot)
    (hconns : s'.conns = s.conns) (hmade : s'.made = s.made) {es : List Event}
    (hlog : s'.log = s.log ++ es) (hes : ∀ e ∈ es, e.closing = false) : TornOnce s' := by
  refine h.same (fun i => ?_) hmade (fun i => .inl ?_) hlog hes
  · rw [State.entry, State.entry, State.fd?, State.fd?, hmap, hconns]
  · rw [State.fired, State.fired, hconns]

/-- A step that leaves the log too. -/
theorem silent (h : TornOnce s) (hmap : s'.fdConns.slot = s.fdConns.slot)
    (hconns : s'.conns = s.conns) (hmade : s'.made = s.made) (hlog : s'.log = s.log) :
    TornOnce s' :=
  h.quiet hmap hconns hmade (hlog.trans (List.append_nil _).symm) (by simp)

/-- A connection changes, but neither its fd nor what its timer has started. -/
theorem setConn (h : TornOnce s) (hc : s.conns id = some c) (hfd : c'.fd = c.fd)
    (hfired : c'.fired = c.fired ∨ c'.fired = 0) : TornOnce (s.setConn id c') := by
  refine h.same (fun i => by rw [State.entry_setConn hc hfd]) rfl (fun i => ?_)
    (List.append_nil _).symm (by simp)
  rw [State.fired_setConn]
  split
  · rename_i hi
    rw [hi, State.fired_eq hc]
    exact hfired
  · exact .inl rfl

/-- A registered connection is closed. -/
theorem close (h : TornOnce s) (hc : s.conns id = some c) (hmade : id < s.made)
    (hent : s.entry id = some id) (hfired : s.fired id = 0) {who : State.Who} {typ : ErrType}
    {err : Option Cause} (hclose : s.closeConnWithError who id c typ err = some s') :
    TornOnce s' := by
  have hslot : s.fdConns.slot c.fd = some id := State.entry_eq hc ▸ hent
  obtain ⟨hnone, -⟩ | ⟨v, hv, hs'⟩ := State.close_cases hclose
  · rw [hslot] at hnone
    cases hnone
  obtain rfl : v = id := Option.some.inj (hv.symm.trans hslot)
  have hquiet := closeLog_quiet s c.fd c typ err
  have hlog : s'.log = (s.log ++ [.teardown v v]) ++
      (s.closeErrors c.fd ++ State.closeEvents c typ err) := by
    simp [hs', State.removed]
  -- the close adds one teardown, of this connection
  have htorn : ∀ i, s'.torn i = s.torn i + if v = i then 1 else 0 := fun i => by
    rw [torn_quiet (s := { s with log := s.log ++ [.teardown v v] }) hlog hquiet]
    simp [State.torn, Event.isTeardown]
  -- and takes it out of the registry, so that no later one can be its own
  have hreg : ∀ i, s'.entry i = some i ↔ s.entry i = some i ∧ i ≠ v := fun i => by
    rw [hs', entry_removed hc hslot]
  have hfired' : s'.fired = s.fired := by
    rw [hs']
    rfl
  refine ⟨fun i hi => ?_, fun i hi => ?_, fun i => ?_, fun i hi => ?_,
    fun i w hw => ?_, fun hb => ?_⟩
  · rw [hfired'] at hi ⊢
    have hne : i ≠ v := by
      rintro rfl
      omega
    exact ⟨(hreg i).mpr ⟨(h.pending i hi).1, hne⟩, (h.pending i hi).2⟩
  · obtain ⟨hlive, hne⟩ := (hreg i).mp hi
    rw [htorn, if_neg (Ne.symm hne), h.live i hlive]
  · rw [htorn]
    split
    · rename_i hi
      rw [← hi, h.live v hent]
    · exact h.once i
  · have hmade' : s'.made = s.made := by rw [hs']; rfl
    rw [hmade'] at hi
    rw [htorn, h.fresh i hi, if_neg (by omega)]
  · rw [hlog, List.mem_append, List.mem_append, List.mem_singleton] at hw
    rcases hw with (hw | hw) | hw
    · exact h.own i w hw
    · cases hw
      rfl
    · exact absurd (hquiet _ hw) (by simp [Event.closing])
  · rw [hlog, List.mem_append, List.mem_append, List.mem_singleton] at hb
    rcases hb with (hb | hb) | hb
    · exact h.noBug hb
    · cases hb
    · exact absurd (hquiet _ hb) (by simp [Event.closing])

/-- A new connection has not been closed. -/
theorem added (h : TornOnce s) (hw : Wired s) (hfd : s.opened c.fd = false) (hfired : c.fired = 0) :
    TornOnce (s.added c.fd c) := by
  have hfired' : ∀ i, (s.added c.fd c).fired i = if i = s.made then c.fired
      else s.fired i := fun i =>
    State.fired_setConn (s := s) c i
  refine ⟨fun i hi => ?_, fun i hi => ?_, h.once, fun i hi => h.fresh i ?_, h.own, h.noBug⟩
  · rw [hfired'] at hi ⊢
    split at hi
    · omega
    · rename_i hne
      rw [if_neg hne]
      exact ⟨(entry_added (hw.free hfd) i).mpr (.inl (h.pending i hi).1), (h.pending i hi).2⟩
  · rcases (entry_added (hw.free hfd) i).mp hi with hlive | rfl
    · exact h.live i hlive
    · exact h.fresh _ le_rfl
  · simp only [State.added] at hi
    omega

/-- The timer of a registered connection expires. -/
theorem expire (h : TornOnce s) (hc : s.conns id = some c) (hfd : c'.fd = c.fd)
    (hent : s.entry id = some id) (hone : c'.fired = 1) : TornOnce (s.setConn id c') := by
  refine ⟨fun i hi => ?_, fun i hi => ?_, h.once, h.fresh, h.own, h.noBug⟩
  · rw [State.entry_setConn hc hfd]
    rw [State.fired_setConn] at hi ⊢
    split at hi
    · rename_i heq
      rw [if_pos heq, heq]
      exact ⟨hent, hone⟩
    · rename_i hne
      rw [if_neg hne]
      exact h.pending i hi
  · rw [State.entry_setConn hc hfd] at hi
    exact h.live i hi

end TornOnce

/-! ### Steps and runs -/

/-- No part of the event loop logs a close itself. -/
theorem Part.quiet {a : Action} {es : List Event} {next : Next} (h : Part cfg s a id c c' es next) :
    ∀ e ∈ es, e.closing = false := by
  intro e he
  cases h with
  | write => cases he
  | read _ _ warnings =>
    obtain ⟨cause, rfl⟩ := warnings e he
    rfl
  | parse _ round =>
    cases round with
    | reply => rw [List.mem_singleton.mp he]; rfl
    | auth => cases he
    | release => cases he
    | free => cases he
    | wait => cases he
    | failed => cases he
    | panic => cases he

/-- While a call of the timer function is pending, no part closes the connection. -/
theorem Part.timely {a : Action} {es : List Event} {typ : ErrType} {err : Option Cause}
    (h : Part cfg s a id c c' es (.close typ err)) (ht : Timely cfg s a)
    (hc : s.conns id = some c) : s.fired id = 0 := by
  obtain ⟨hloop, -⟩ := h.spec
  cases h with
  | write => exact ht id hloop
  | read => exact ht id hloop
  | parse _ round =>
    refine (ht id hloop).resolve_right fun hsettle => ?_
    simp only [State.settling, hc, decide_eq_true_eq] at hsettle
    cases round with
    | release _ _ _ _ _ goes => rcases goes with goes | goes <;> cases goes
    | free _ _ full => exact full hsettle.2.2
    | failed inp => exact inp hsettle.1

/-- Whoever else closes a connection closes a registered one that the event loop does not work
    on. -/
theorem Closes.timely {a : Action} {s₀ : State} (h : Closes cfg s a s₀ id c) (hw : Wired s)
    (ht : TornOnce s) (ha : Timely cfg s a) :
    (s.loop.at ≠ some id ∧ s.entry id = some id) ∧ TornOnce s₀ ∧ s₀.fired id = 0 := by
  cases h with
  | trim full idle conn =>
    obtain ⟨hloop, hent, hfired⟩ := ha id (by rw [outside, if_pos full, idle]; rfl)
    exact ⟨⟨hloop, hent⟩, ht.silent rfl rfl rfl rfl, hfired⟩
  | @timeout _ c t conn death fired =>
    have hcount : s.fired id = t.fired := by simp only [State.fired_eq conn, Conn.fired, death]
    obtain ⟨hent, hone⟩ := ht.pending id (by omega)
    have hzero : t.fired - 1 = 0 := by omega
    refine ⟨⟨ha, hent⟩, ht.setConn conn rfl (.inr hzero), ?_⟩
    rw [State.fired_setConn, if_pos rfl]
    exact hzero
  | shut slot conn =>
    obtain ⟨hloop, hfired⟩ := ha id slot
    have hent : s.entry id = some id := by
      rw [State.entry, (hw.slot _ _ slot).2]
      exact slot
    exact ⟨⟨hloop, hent⟩, ht, hfired⟩

/-- A part of the event loop. -/
theorem TornOnce.proceed (h : TornOnce s) (hw : Wired s) {a : Action}
    {es : List Event} {next : Next}
    (hc : s.conns id = some c) (hpart : Part cfg s a id c c' es next) (ha : Timely cfg s a)
    (hproceed : s.proceed id c' es next = some s') : TornOnce s' := by
  obtain ⟨hloop, hfd, hfired⟩ := hpart.spec
  have hset := h.setConn hc hfd (.inl hfired)
  have hlog : TornOnce { s.setConn id c' with log := s.log ++ es } :=
    hset.same (fun _ => Iff.rfl) rfl (fun _ => .inl rfl) rfl hpart.quiet
  obtain ⟨loop, rfl, -⟩ | ⟨typ, err, rfl, hclose⟩ := State.proceed_cases hproceed
  · exact hlog.same (fun _ => Iff.rfl) rfl (fun _ => .inl rfl) (List.append_nil _).symm (by simp)
  · have hent : (s.setConn id c').entry id = some id := by
      rw [State.entry_setConn hc hfd]
      exact hw.loop id hloop
    have hzero : (s.setConn id c').fired id = 0 := by
      rw [State.fired_setConn, if_pos rfl, hfired, ← State.fired_eq hc]
      exact hpart.timely ha hc
    exact hlog.close (Function.update_self ..) (hw.lt_made (State.fd?_eq hc)) hent hzero hclose

/-- A timely step keeps the invariant. -/
theorem step_tornOnce {a : Action} (h : TornOnce s) (hw : Wired s) (ha : Timely cfg s a)
    (hstep : step cfg s a = some s') : TornOnce s' := by
  cases step_move hstep with
  | enter => exact h.silent rfl rfl rfl rfl
  | @fill _ _ _ _ _ _ c c' takes idle conn filled =>
    obtain ⟨death, hfill, hfired, -⟩ := Conn.fill_spec filled
    have hset := h.setConn conn (show c'.fd = c.fd by rw [hfill]) (.inl hfired)
    cases takes with
    | exec => exact hset.silent rfl rfl rfl rfl
    | receive => exact hset.silent rfl rfl rfl rfl
  | fillPanic takes =>
    cases takes with
    | exec => exact h.silent rfl rfl rfl rfl
    | receive => exact h.silent rfl rfl rfl rfl
  | pc => exact h.silent rfl rfl rfl rfl
  | refused => exact h.quiet rfl rfl rfl rfl (by simp [Event.closing])
  | @connect k fd cmdArgs _ _ exec closed =>
    have hadd : TornOnce (s.added fd (Conn.fresh cfg fd k cmdArgs)) := h.added hw closed rfl
    exact hadd.silent rfl rfl rfl rfl
  | @arm k id cmdArgs c exec conn =>
    have harm : (c.arm cfg).fd = c.fd ∧ ((c.arm cfg).fired = c.fired ∨ (c.arm cfg).fired = 0) := by
      rw [Conn.arm]
      split
      · exact ⟨rfl, .inr rfl⟩
      · exact ⟨rfl, .inl rfl⟩
    exact (h.setConn conn harm.1 harm.2).silent rfl rfl rfl rfl
  | lost => exact h.quiet rfl rfl rfl rfl (by simp [Event.closing])
  | loopPanic => exact h.silent rfl rfl rfl rfl
  | dropped loop slot conn touch =>
    obtain ⟨death, hc', hfired, -⟩ := Conn.touch_spec touch
    exact h.setConn conn (by rw [hc']) (.inl hfired)
  | handle loop slot conn touch =>
    obtain ⟨death, hc', hfired, -⟩ := Conn.touch_spec touch
    exact (h.setConn conn (by rw [hc']) (.inl hfired)).silent rfl rfl rfl rfl
  | part conn part proceed => exact h.proceed hw conn part ha proceed
  | push => exact h.quiet rfl rfl rfl rfl (by simp [Event.closing])
  | expire conn death =>
    -- the condition: a timer expires only while its connection is registered and none is pending
    obtain ⟨hent, hzero⟩ := ha
    simp only [State.fired_eq conn, Conn.fired, death] at hzero
    exact h.expire conn rfl hent (congrArg (· + 1) hzero)
  | close closes close =>
    obtain ⟨-, hconn, hfd, hmap, -, hmade, -⟩ := closes.start
    -- so whoever closes finds the entry there, and no timer function behind it
    obtain ⟨⟨-, hent⟩, hstart, hzero⟩ := closes.timely hw h ha
    refine hstart.close hconn ?_ ?_ hzero close
    · rw [hmade]
      exact hw.lt_made (hfd ▸ State.fd?_eq hconn)
    · rw [State.entry, hfd, hmap]
      exact hent

/-- **Closed once.**  In a run of timely steps `closeConnWithError` removes and closes each
    connection at most once and nothing but its own connection, and `fdMap.Delete` does not
    panic. -/
theorem closed_once {as : List Action} (hm : Meets (step cfg) (Timely cfg) {} as)
    (hr : run (step cfg) {} as = some s) :
    (∀ id, s.torn id ≤ 1) ∧ (∀ id v, Event.teardown id v ∈ s.log → v = id) ∧ Event.bug ∉ s.log := by
  have hinv : Wired s ∧ TornOnce s := by
    refine run_invariant (P := fun s => Wired s ∧ TornOnce s) ?_ ⟨Wired.init, TornOnce.init⟩ hm hr
    rintro t a t' ⟨hw, ht⟩ ha hstep
    refine ⟨step_wired hw (fun closes => ?_) hstep, step_tornOnce ht hw ha hstep⟩
    obtain ⟨⟨hloop, hent⟩, -⟩ := closes.timely hw ht ha
    exact ⟨hloop, .inr hent⟩
  exact ⟨hinv.2.once, hinv.2.own, hinv.2.noBug⟩

/-- A connection whose command is sent and never answered. -/
def unanswered : List Action :=
  [.exec [.bytes (ascii "PING")], .decide 0, .connect 0 (.ok 5), .arm 0, .event 5 true,
    .write (.ok 100), .expire 0, .timeout 0]

/-- It is closed by its timer, once. -/
theorem closed_once_unanswered :
    ∃ s, run (step { poolSize := 1 }) {} unanswered = some s ∧ s.torn 0 = 1 ∧
      ∀ id v, Event.teardown id v ∈ s.log → v = id := by
  have hsome : (run (step { poolSize := 1 }) {} unanswered).isSome := by decide +kernel
  obtain ⟨s, hs⟩ := Option.isSome_iff_exists.mp hsome
  have htorn : (run (step { poolSize := 1 }) {} unanswered).map (·.torn 0) = some 1 := by
    decide +kernel
  rw [hs, Option.map_some, Option.some.injEq] at htorn
  exact ⟨s, hs, htorn, (closed_once (by decide +kernel) hs).2.1⟩

/-- The server closes the connection and the next one gets its fd; then the timer of the first one,
    which nobody stopped, expires. -/
def lateTimer : List Action :=
  [.exec [.bytes (ascii "PING")], .decide 0, .connect 0 (.ok 5), .arm 0, .event 5 false,
    .read (.data []), .exec [.bytes (ascii "PING")], .decide 1, .connect 1 (.ok 5), .arm 1,
    .expire 0, .timeout 0]

/-- The timer of a closed connection closes another one. -/
theorem timer_closes_newer :
    (run (step { poolSize := 1 }) {} lateTimer).map
        (fun s => (s.torn 0, s.log.filter (Event.isTeardown 0)))
      = some (2, [.teardown 0 0, .teardown 0 1]) := by
  decide +kernel

end Resh.Client
