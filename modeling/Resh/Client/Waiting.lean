import Resh.Client.Counting

namespace Resh.Client

open Resh.Go

/-!
# Calls of `Exec` that wait for a connection

`activateFreeConn` waits for an idle connection when `fdConns.Len()` has reached the size of the
pool.  It is served by a connection that comes back to the pool; one that is closed instead does not
come back, and nobody makes a new one for the call that waits.

* `step_attended` — a registered connection stays active, idle or on its way to the pool, unless the
  timer of a connection expires just before its replies are all taken;
* `Served` — the assumptions on a step;
* `waiting_has_active` — in a run of such steps, a client that can only wait for its server has an
  active connection;
* `waiting_stranded` — a run that ends with a call waiting and no connection at all.
-/

variable {cfg : Config} {s s' : State} {id : ℕ} {c c' : Conn} {a : Action}

/-! ### Connections that somebody attends to -/

namespace State

/-- The connection is active, idle, or on its way to the pool. -/
def Attended (s : State) (id : ℕ) : Prop :=
  ∃ c, s.conns id = some c ∧ (c.callback ≠ none ∨ id ∈ s.fdIdle ∨ s.loop = .pushing id)

/-- Some call of `Exec` waits for an idle connection. -/
def waited (s : State) : Bool := ∃ k < s.called, (s.execs k).any fun e => e.pc = .waiting

/-- When the replies of a connection are all taken, its timer has not expired, so that
    `c.death.Stop()` succeeds. -/
def inTime (s : State) : Action → Bool
  | .parse =>
    match s.loop.at.bind s.conns with
    | some c => c.inp = [] ∧ c.authState = 0 → c.death.all (·.armed)
    | none => true
  | _ => true

/-- Nothing goes on but the server: the call `k` waits for an idle connection, the event loop for
    events, and every other call has returned or waits too. -/
structure Stalled (s : State) (k : ℕ) : Prop where
  up : s.crashed = false
  waits : ∃ cmdArgs, s.execs k = some ⟨cmdArgs, .waiting⟩
  idle : s.fdIdle = []
  loop : s.loop = .ready
  others : ∀ j e, s.execs j = some e → e.pc = .done ∨ e.pc = .waiting

/-- A step that leaves the connection active if it was, and idle if it was. -/
theorem Attended.mono (h : s.Attended id)
    (hconn : ∀ c, s.conns id = some c →
      ∃ c', s'.conns id = some c' ∧ (c.callback ≠ none → c'.callback ≠ none))
    (hidle : id ∈ s.fdIdle → id ∈ s'.fdIdle)
    (hloop : s.loop = .pushing id → s'.loop = .pushing id ∨ id ∈ s'.fdIdle) : s'.Attended id := by
  obtain ⟨c, hc, hwhere⟩ := h
  obtain ⟨c', hc', hactive⟩ := hconn c hc
  refine ⟨c', hc', ?_⟩
  rcases hwhere with hcb | hid | hpush
  · exact .inl (hactive hcb)
  · exact .inr (.inl (hidle hid))
  · rcases hloop hpush with hpush' | hid
    · exact .inr (.inr hpush')
    · exact .inr (.inl hid)

/-- A step that leaves the connections, the pool and the event loop. -/
theorem Attended.same (h : s.Attended id) (hconns : s'.conns = s.conns)
    (hidle : s'.fdIdle = s.fdIdle) (hloop : s'.loop = s.loop) : s'.Attended id := by
  unfold Attended
  rw [hconns, hidle, hloop]
  exact h

/-- A connection changes, but stays active if it was. -/
theorem conns_setConn {i : ℕ} (hc : s.conns id = some c)
    (hactive : c.callback ≠ none → c'.callback ≠ none) {d : Conn} (hd : s.conns i = some d) :
    ∃ d', (s.setConn id c').conns i = some d' ∧ (d.callback ≠ none → d'.callback ≠ none) := by
  by_cases hi : i = id
  · subst hi
    obtain rfl : c = d := Option.some.inj (hc.symm.trans hd)
    exact ⟨c', Function.update_self .., hactive⟩
  · exact ⟨d, (Function.update_of_ne hi ..).trans hd, fun h => h⟩

theorem Attended.setConn {i : ℕ} (h : s.Attended i) (hc : s.conns id = some c)
    (hactive : c.callback ≠ none → c'.callback ≠ none) : (s.setConn id c').Attended i :=
  h.mono (fun _ hd => conns_setConn hc hactive hd) (fun hid => hid) .inl

end State

/-- A part of the event loop leaves the connection active, or sends it to the pool. -/
theorem attended_proceed {i : ℕ} {es : List Event} {next : Next} (h : s.Attended i)
    (hc : s.conns id = some c) (hloop : ∀ j, s.loop ≠ .pushing j)
    (hkeep : c.callback ≠ none → c'.callback ≠ none ∨ next = .push)
    (hproceed : s.proceed id c' es next = some s') : s'.Attended i := by
  by_cases hpush : next = .push
  · subst hpush
    cases hproceed
    by_cases hi : i = id
    · subst hi
      exact ⟨c', Function.update_self .., .inr (.inr rfl)⟩
    · refine h.mono (fun d hd => ?_) (fun hid => hid) (fun hj => absurd hj (hloop i))
      exact ⟨d, (Function.update_of_ne hi ..).trans hd, fun hcb => hcb⟩
  have hactive : c.callback ≠ none → c'.callback ≠ none := fun hcb =>
    (hkeep hcb).resolve_right hpush
  obtain ⟨loop, rfl, -⟩ | ⟨typ, err, -, hclose⟩ := State.proceed_cases hproceed
  · exact h.mono (fun _ hd => State.conns_setConn hc hactive hd) (fun hid => hid)
      fun hj => absurd hj (hloop i)
  · obtain ⟨-, rfl⟩ | ⟨v, -, rfl⟩ := State.close_cases hclose
    · exact h.mono (fun _ hd => State.conns_setConn hc hactive hd) (fun hid => hid)
        fun hj => absurd hj (hloop i)
    · exact h.mono (fun _ hd => State.conns_setConn hc hactive hd) (fun hid => hid)
        fun hj => absurd hj (hloop i)

/-- Where `Stop` succeeds, the connection goes to the pool. -/
theorem Conn.parseOne_keeps (cfg : Config) (len : ℤ) (c : Conn)
    (htime : c.inp = [] ∧ c.authState = 0 → c.death.all (·.armed) = true)
    (hcb : c.callback ≠ none) :
    (c.parseOne cfg len).1.callback ≠ none ∨ (c.parseOne cfg len).2.2 = .push := by
  have hfinish : (c.finish cfg len).1.callback ≠ none ∨ (c.finish cfg len).2 = .push := by
    unfold finish
    split
    · rename_i hend
      rw [List.length_eq_zero_iff] at hend
      split
      · cases hd : c.death with
        | none => exact .inr rfl
        | some t =>
          have harmed : t.armed = true := by simpa [hd] using htime hend
          right
          simp [Timer.stop, harmed]
      · exact .inl hcb
    · exact .inl hcb
  unfold parseOne
  split
  · split
    · exact hfinish
    · exact .inl hcb
    · exact .inl hcb
    · split
      · exact .inl hcb
      · split
        · exact .inl hcb
        · exact .inl hcb
  · exact hfinish

theorem step_up (hstep : step cfg s a = some s') : s.crashed = false := by
  unfold step at hstep
  split at hstep
  · cases hstep
  · rename_i hup
    simpa using hup

/-- A round of the loop of `readConn`, as the function computes it. -/
theorem step_parse (hup : s.crashed = false) (hloop : s.loop = .parsing id)
    (hc : s.conns id = some c) : step cfg s .parse = s.proceed id (c.parseOne cfg s.fdConns.count).1
      (c.parseOne cfg s.fdConns.count).2.1 (c.parseOne cfg s.fdConns.count).2.2 := by
  simp only [step, hup, Bool.false_eq_true, if_false, State.parse, hloop, hc]

/-- A connection that is closed has no entry of its own any more, whoever had it. -/
theorem entry_of_removed (hc : s.conns id = some c) {who : State.Who} {es : List Event} :
    (s.removed who c.fd es).entry id = none := by
  show (s.fd? id).bind (Function.update s.fdConns.slot c.fd none) = none
  rw [State.fd?_eq hc, Option.bind_some, Function.update_self]

/-- **Nobody is forgotten.**  A connection that is attended to still is after a step, or it is not
    registered any more. -/
theorem step_attended {i : ℕ} (hp : Pooled cfg s) (h : s.Attended i) (htime : s.inTime a = true)
    (hup : s'.crashed = false) (hent : s'.entry i = some i) (hstep : step cfg s a = some s') :
    s'.Attended i := by
  cases step_move hstep with
  | enter => exact h.same rfl rfl rfl
  | @fill _ s₀ k id cmdArgs rest c c' takes idle conn filled =>
    obtain ⟨death, rfl, -⟩ := Conn.fill_spec filled
    have hfilled : (({ s with fdIdle := rest } : State).setConn id
        { c with callback := some k, out := appendCommand cmdArgs [], death := death }).Attended
        i := by
      by_cases hi : i = id
      · subst hi
        exact ⟨_, Function.update_self .., .inl (by simp)⟩
      · refine h.mono (fun d hd => ?_) (fun hid => ?_) .inl
        · exact ⟨d, (Function.update_of_ne hi ..).trans hd, fun hcb => hcb⟩
        · rw [idle] at hid
          exact (List.mem_cons.mp hid).resolve_left hi
    cases takes with
    | exec => exact hfilled.same rfl rfl rfl
    | receive => exact hfilled.same rfl rfl rfl
  | fillPanic => cases hup
  | pc => exact h.same rfl rfl rfl
  | refused => exact h.same rfl rfl rfl
  | connect =>
    refine h.mono (fun d hd => ?_) (fun hid => hid) .inl
    have hne : i ≠ s.made := by
      rintro rfl
      rw [hp.made _ le_rfl] at hd
      cases hd
    exact ⟨d, (Function.update_of_ne hne ..).trans hd, fun hcb => hcb⟩
  | @arm k id cmdArgs c exec conn =>
    have hcb : (c.arm cfg).callback = c.callback := by
      unfold Conn.arm
      split <;> rfl
    exact (h.setConn conn fun hactive => hcb ▸ hactive).same rfl rfl rfl
  | lost => exact h.same rfl rfl rfl
  | loopPanic loop =>
    exact h.mono (fun d hd => ⟨d, hd, fun hcb => hcb⟩) (fun hid => hid)
      fun hj => absurd (loop.symm.trans hj) (by simp)
  | dropped loop slot conn touch =>
    obtain ⟨death, rfl, -⟩ := Conn.touch_spec touch
    exact h.setConn conn fun hcb => hcb
  | @handle fd id write c c' loop slot conn touch =>
    obtain ⟨death, rfl, -⟩ := Conn.touch_spec touch
    have hset : (s.setConn id { c with death := death }).Attended i := h.setConn conn fun hcb => hcb
    exact hset.mono (fun d hd => ⟨d, hd, fun hcb => hcb⟩) (fun hid => hid)
      fun hj => absurd (loop.symm.trans hj) (by simp)
  | @part _ id c c' es next conn part _ proceed =>
    cases part with
    | write loop =>
      refine attended_proceed h conn ?_ ?_ proceed
      · rw [loop]
        simp
      · exact .inl
    | read loop =>
      refine attended_proceed h conn ?_ ?_ proceed
      · rw [loop]
        simp
      · exact .inl
    | parse loop round =>
      -- the inversion forgets whether the timer was stopped in time, the function does not
      rw [step_parse (step_up hstep) loop conn] at hstep
      have hend : c.inp = [] ∧ c.authState = 0 → c.death.all (·.armed) = true := by
        simpa only [State.inTime, loop, Loop.at, Option.bind_some,
          conn, decide_eq_true_eq] using htime
      refine attended_proceed h conn ?_ (c.parseOne_keeps cfg _ hend) hstep
      rw [loop]
      simp
  | @push id c loop conn =>
    refine h.mono (fun d hd => ⟨d, hd, fun hcb => hcb⟩) (fun hid => ?_) (fun hj => .inr ?_)
    · exact List.mem_append_left _ hid
    · obtain rfl : id = i := Loop.pushing.inj (loop.symm.trans hj)
      simp
  | expire conn => exact h.setConn conn fun hcb => hcb
  | @close _ s₀ id c closes _ _ _ close =>
    obtain ⟨-, rfl⟩ | ⟨v, -, rfl⟩ := State.close_cases close
    · cases hup
    have hne : i ≠ id := by
      rintro rfl
      rw [entry_of_removed closes.start.2.1] at hent
      cases hent
    have hstart : s₀.Attended i := by
      cases closes with
      | trim full idle =>
        refine h.mono (fun d hd => ⟨d, hd, fun hcb => hcb⟩) (fun hid => ?_) .inl
        rw [idle] at hid
        exact (List.mem_cons.mp hid).resolve_left hne
      | timeout conn => exact h.setConn conn fun hcb => hcb
      | shut => exact h
    exact hstart.same rfl rfl rfl

/-! ### Runs -/

/-- The assumptions on a step: while a call of `Exec` waits, nobody closes the last connection, and
    a connection whose replies are all taken is given back in time. -/
def Served (cfg : Config) (s : State) (a : Action) : Prop :=
  (s.waited = true → s.fdConns.count ≤ 1 → s.deletes cfg a = none) ∧ s.inTime a = true

instance (cfg : Config) (s : State) (a : Action) : Decidable (Served cfg s a) :=
  inferInstanceAs (Decidable ((_ → _ → _) ∧ _))

/-- What holds in such a run until the process ends. -/
structure Manned (s : State) : Prop where
  attended : ∀ id ∈ s.registered, s.Attended id
  waits : ∀ k cmdArgs, s.execs k = some ⟨cmdArgs, .waiting⟩ → 1 ≤ s.fdConns.count

namespace Manned

theorem init : Manned {} :=
  ⟨fun _ h => absurd h (by simp [State.registered]), fun _ _ h => absurd h (by simp)⟩

end Manned

theorem State.waited_of_waiting (hnum : Numbered s) {k : ℕ} {cmdArgs : List Arg}
    (hk : s.execs k = some ⟨cmdArgs, .waiting⟩) : s.waited = true := by
  have hlt : k < s.called := by
    by_contra hle
    rw [hnum k (by omega)] at hk
    cases hk
  simp only [State.waited, decide_eq_true_eq]
  exact ⟨k, hlt, by simp [hk]⟩

/-- One step that meets the condition leaves an active connection to whoever waits. -/
theorem step_manned (hpool : 1 ≤ cfg.poolSize) (hp : Pooled cfg s) (hc : Counted s)
    (hnum : Numbered s) (h : Manned s) (ha : Served cfg s a) (hstep : step cfg s a = some s')
    (hup : s'.crashed = false) : Manned s' := by
  refine ⟨fun id hid => ?_, fun k cmdArgs hk => ?_⟩
  · rcases step_registered hc hp hstep hid with hold | ⟨c, hconn, hcb⟩
    · exact step_attended hp (h.attended id hold) ha.2 hup (State.mem_registered.mp hid).2 hstep
    · exact ⟨c, hconn, .inl hcb⟩
  · rcases (step_calls hstep).waiting hk with hold | ⟨hfull, hmap⟩
    · have hbefore := h.waits k cmdArgs hold
      cases step_registers hstep with
      | same agrees => rwa [agrees.count]
      | delete closing taken agrees =>
        -- it is not the last one that the step closes
        have hmore : ¬ s.fdConns.count ≤ 1 := fun hlast => by
          have hnone := ha.1 (State.waited_of_waiting hnum hold) hlast
          rw [State.deletes, closing, Option.bind_some, taken] at hnone
          cases hnone
        have hcount : s'.fdConns.count = s.fdConns.count - 1 := agrees.count
        omega
      | add _ closed counted agrees =>
        have hcount : s'.fdConns.count = _ := agrees.count
        rw [hcount]
        simp only [counted (hc.free closed)]
        omega
    · rw [hmap]
      omega

/-- **No waiting call is stranded.**  In a run of such steps of a client with a pool of at least one
    connection: when some call of `Exec` waits for an idle connection, the event loop waits for
    events and every other call has returned or waits too, some registered connection is active. -/
theorem waiting_has_active (hpool : 1 ≤ cfg.poolSize) {as : List Action}
    (hm : Meets (step cfg) (Served cfg) {} as) (hr : run (step cfg) {} as = some s) {k : ℕ}
    (hstalled : s.Stalled k) :
    ∃ fd id c, s.fdConns.slot fd = some id ∧ s.conns id = some c ∧ c.callback ≠ none := by
  have hinv : Pooled cfg s ∧ Counted s ∧ Numbered s ∧ (s.crashed = false → Manned s) := by
    refine run_invariant
      (P := fun s => Pooled cfg s ∧ Counted s ∧ Numbered s ∧ (s.crashed = false → Manned s)) ?_
      ⟨Pooled.init, Counted.init, fun _ _ => rfl, fun _ => Manned.init⟩ hm hr
    rintro t a t' ⟨hp, hc, hnum, hman⟩ ha hstep
    exact ⟨step_pooled hp hstep, step_counted hc hp hstep, (step_calls hstep).numbered hnum,
      step_manned hpool hp hc hnum (hman (step_up hstep)) ha hstep⟩
  obtain ⟨-, hc, -, hmanned⟩ := hinv
  have h := hmanned hstalled.up
  obtain ⟨cmdArgs, hk⟩ := hstalled.waits
  have hpos : 0 < s.registered.card := by
    have hcount := hc.count
    have hwaits := h.waits k cmdArgs hk
    omega
  obtain ⟨id, hid⟩ := Finset.card_pos.mp hpos
  obtain ⟨c, hconn, hwhere⟩ := h.attended id hid
  have hentry := (State.mem_registered.mp hid).2
  rw [State.entry_eq hconn] at hentry
  refine ⟨c.fd, id, c, hentry, hconn, ?_⟩
  rcases hwhere with hcb | hidle | hpush
  · exact hcb
  · rw [hstalled.idle] at hidle
    cases hidle
  · rw [hstalled.loop] at hpush
    cases hpush

/-- Two calls and a pool of one connection: the second one waits. -/
def secondWaits : List Action :=
  [.exec [.string (ascii "PING")], .decide 0, .connect 0 (.ok 5),
    .arm 0, .exec [.string (ascii "PING")], .decide 1]

/-- Two calls that waited are left alone if they are the only ones. -/
theorem stalled_of_two (hr : Numbered s) (hup : s.crashed = false) (hidle : s.fdIdle = [])
    (hloop : s.loop = .ready) (hcalled : s.called = 2) {cmdArgs cmdArgs' : List Arg}
    (h0 : s.execs 0 = some ⟨cmdArgs, .done⟩) (h1 : s.execs 1 = some ⟨cmdArgs', .waiting⟩) :
    s.Stalled 1 := by
  refine ⟨hup, ⟨cmdArgs', h1⟩, hidle, hloop, fun j e he => ?_⟩
  have hj : j < 2 := by
    by_contra hle
    rw [hr j (by omega)] at he
    cases he
  interval_cases j
  · obtain rfl : _ = e := Option.some.inj (h0.symm.trans he)
    exact .inl rfl
  · obtain rfl : _ = e := Option.some.inj (h1.symm.trans he)
    exact .inr rfl

/-- The command of the first call is on its way. -/
theorem waiting_has_active_second :
    ∃ s, run (step { poolSize := 1 }) {} (secondWaits ++ [.event 5 true, .write (.ok 100)])
      = some s ∧
      s.Stalled 1 ∧ ∃ fd id c, s.fdConns.slot fd = some id ∧ s.conns id = some c ∧
      c.callback ≠ none := by
  have hrun : ∃ s ∈ run (step { poolSize := 1 }) {}
    (secondWaits ++ [.event 5 true, .write (.ok 100)]),
      s.crashed = false ∧ s.fdIdle = [] ∧ s.loop = .ready ∧ s.called = 2 ∧
        s.execs 0 = some ⟨[.string (ascii "PING")], .done⟩ ∧
        s.execs 1 = some ⟨[.string (ascii "PING")], .waiting⟩ := by decide +kernel
  obtain ⟨s, hs, hup, hidle, hloop, hcalled, h0, h1⟩ := hrun
  have hstalled := stalled_of_two (run_numbered hs) hup hidle hloop hcalled h0 h1
  refine ⟨s, hs, hstalled, ?_⟩
  have hmeets : Meets (step { poolSize := 1 }) (Served { poolSize := 1 }) {}
      (secondWaits ++ [.event 5 true, .write (.ok 100)]) := by decide +kernel
  exact waiting_has_active le_rfl hmeets hs hstalled

/-- The server closes the connection of the first call, and the second one waits for good: no
    connection is registered any more. -/
theorem waiting_stranded :
    ∃ s, run (step { poolSize := 1 }) {} (secondWaits ++ [.event 5 false, .read (.data [])])
      = some s ∧ s.Stalled 1 ∧ ∀ fd, s.fdConns.slot fd = none := by
  have hrun : ∃ s ∈ run (step { poolSize := 1 }) {}
    (secondWaits ++ [.event 5 false, .read (.data [])]),
      s.crashed = false ∧ s.fdIdle = [] ∧ s.loop = .ready ∧ s.called = 2 ∧
        s.execs 0 = some ⟨[.string (ascii "PING")], .done⟩ ∧
        s.execs 1 = some ⟨[.string (ascii "PING")], .waiting⟩ ∧ s.registered = ∅ := by
      decide +kernel
  obtain ⟨s, hs, hup, hidle, hloop, hcalled, h0, h1, hempty⟩ := hrun
  refine ⟨s, hs, stalled_of_two (run_numbered hs) hup hidle hloop hcalled h0 h1, fun fd => ?_⟩
  obtain ⟨hp, hc⟩ : Pooled { poolSize := 1 } s ∧ Counted s := by
    refine run_induction (P := fun s => Pooled { poolSize := 1 } s ∧ Counted s) ?_
      ⟨Pooled.init, Counted.init⟩ hs
    rintro t a t' ⟨hp, hc⟩ hstep
    exact ⟨step_pooled hp hstep, step_counted hc hp hstep⟩
  by_contra hne
  obtain ⟨v, hv⟩ := Option.ne_none_iff_exists'.mp hne
  have hmem := (hc.owner hp hv).1
  rw [hempty] at hmem
  cases hmem

end Resh.Client
