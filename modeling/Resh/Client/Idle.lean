import Resh.Client.Counting

namespace Resh.Client

open Resh.Go

/-!
# Usable idle connections

A connection leaves the pool only when somebody takes it, but it can be closed by anybody: the
event loop closes an idle connection when the server does, and it leaves it in the pool.  And
`readConn` puts a connection back when the replies are all taken, whether or not the command has
been sent.

* `Undisturbed` — no idle connection is closed, except by whoever took it out of the pool, and no
  reply ends before its command is sent;
* `idle_usable` — in a run of such steps the connections of the pool are open, registered, and
  ready for the next command, and there are at most `fdConns.Len()` of them;
* `idle_closed` — a run in which the server closes an idle connection, and one with an early reply.
-/

variable {cfg : Config} {s s' : State} {id : ℕ} {c c' : Conn}

namespace State

/-- The output of the connection is sent. -/
def Sent (s : State) (id : ℕ) : Prop := ∀ c, s.conns id = some c → c.out = []

/-- The assumption on a step of the event loop, a timer or `Close`. -/
def undisturbed (s : State) : Action → Bool
  | .write _ => ∀ id ∈ s.loop.at, id ∉ s.fdIdle
  | .read rd => ∀ id ∈ s.loop.at, id ∈ s.fdIdle → rd.live = true
  | .parse =>
    match s.loop.at.bind s.conns with
    | some c => c.inp = [] ∧ c.authState = 0 → c.out = []
    | none => true
  | .timeout id => id ∉ s.fdIdle
  | .shut fd => ∀ id ∈ s.fdConns.slot fd, id ∉ s.fdIdle
  | _ => true

end State

/-- The assumptions on a step: nobody closes a connection of the pool, nor the one that the event
    loop works on, nor a newer one, and a command is sent when its reply has been taken. -/
def Undisturbed (cfg : Config) (s : State) (a : Action) : Prop :=
  Alone cfg s a ∧ s.undisturbed a = true

instance (cfg : Config) (s : State) (a : Action) : Decidable (Undisturbed cfg s a) :=
  inferInstanceAs (Decidable (Alone cfg s a ∧ s.undisturbed a = true))

/-! ### The invariant -/

/-- The connections of the pool are registered and their output is sent. -/
structure Usable (s : State) : Prop where
  idle : ∀ id ∈ s.fdIdle, s.entry id = some id ∧ s.Sent id
  pushing : ∀ id, s.loop = .pushing id → s.Sent id

namespace Usable

theorem init : Usable {} := ⟨fun _ h => absurd h (by simp), fun _ h => absurd h (by simp)⟩

/-- A step that leaves the registry. -/
theorem same (h : Usable s) (hidle : s'.fdIdle ⊆ s.fdIdle) (hent : s'.entry = s.entry)
    (hpush : ∀ i, s'.loop = .pushing i → s.loop = .pushing i)
    (hsent : ∀ i, i ∈ s'.fdIdle ∨ s'.loop = .pushing i → s.Sent i → s'.Sent i) : Usable s' := by
  refine ⟨fun i hi => ?_, fun i hi => ?_⟩
  · obtain ⟨hreg, hout⟩ := h.idle i (hidle hi)
    exact ⟨hent ▸ hreg, hsent i (.inl hi) hout⟩
  · exact hsent i (.inr hi) (h.pushing i (hpush i hi))

/-- A step that leaves the connections too. -/
theorem silent (h : Usable s) (hidle : s'.fdIdle ⊆ s.fdIdle) (hconns : s'.conns = s.conns)
    (hslot : s'.fdConns.slot = s.fdConns.slot)
    (hpush : ∀ i, s'.loop = .pushing i → s.loop = .pushing i) : Usable s' := by
  refine h.same hidle (funext fun i => ?_) hpush (fun i _ hi => ?_)
  · rw [State.entry, State.entry, State.fd?, State.fd?, hconns, hslot]
  · rw [State.Sent, hconns]
    exact hi

/-- A connection changes, but not its output, or it is not in the pool. -/
theorem setConn (h : Usable s) (hc : s.conns id = some c) (hfd : c'.fd = c.fd)
    (hout : id ∈ s.fdIdle ∨ s.loop = .pushing id → c'.out = c.out) :
    Usable (s.setConn id c') := by
  refine h.same (fun _ hi => hi) (State.entry_setConn hc hfd) (fun _ hi => hi)
    (fun i hwhere hi d hd => ?_)
  by_cases hne : i = id
  · subst hne
    have hself : (s.setConn i c').conns i = some c' := Function.update_self ..
    obtain rfl : c' = d := Option.some.inj (hself.symm.trans hd)
    rw [hout hwhere]
    exact hi c hc
  · exact hi d ((Function.update_of_ne hne ..).symm.trans hd)

/-- A connection that is not in the pool is closed. -/
theorem close (h : Usable s) (hc : s.conns id = some c) (hidle : id ∉ s.fdIdle)
    (hent : s.entry id = none ∨ s.entry id = some id) {who : State.Who} {typ : ErrType}
    {err : Option Cause} (hclose : s.closeConnWithError who id c typ err = some s') :
    Usable s' := by
  have hslot : s.entry id = s.fdConns.slot c.fd := State.entry_eq hc
  obtain ⟨-, rfl⟩ | ⟨v, hv, rfl⟩ := State.close_cases hclose
  · cases who with
    | loop => exact h.silent (fun _ hi => hi) rfl rfl (fun i hi => by cases hi)
    | other => exact h.silent (fun _ hi => hi) rfl rfl (fun i hi => hi)
  have hreg : s.entry id = some id := by
    rw [← hslot] at hv
    rcases hent with hnone | hown
    · rw [hnone] at hv
      cases hv
    · exact hown
  have hown : s.fdConns.slot c.fd = some id := hslot ▸ hreg
  refine ⟨fun i hi => ?_, fun i hi => ?_⟩
  · obtain ⟨hi', hout⟩ := h.idle i hi
    refine ⟨(entry_removed hc hown who _ i).mpr ⟨hi', fun heq => hidle (heq ▸ hi)⟩, hout⟩
  · cases who with
    | loop => cases hi
    | other => exact h.pushing i hi

/-- A connection is made. -/
theorem added (h : Usable s) (hw : Wired s) (hp : Pooled cfg s) (hfd : s.opened c.fd = false) :
    Usable (s.added c.fd c) := by
  have hother : ∀ i, i ≠ s.made → s.Sent i → (s.added c.fd c).Sent i := fun i hi hs d hd =>
    hs d ((Function.update_of_ne hi ..).symm.trans hd)
  have hne : ∀ {i : ℕ}, (∃ d, s.conns i = some d ∧ d.Rests) → i ≠ s.made := by
    rintro i ⟨d, hd, -⟩ rfl
    rw [hp.made _ le_rfl] at hd
    cases hd
  refine ⟨fun i hi => ?_, fun i hi => ?_⟩
  · obtain ⟨hreg, hout⟩ := h.idle i hi
    exact ⟨(entry_added (hw.free hfd) i).mpr (.inl hreg), hother i (hne (hp.idle i hi)) hout⟩
  · exact hother i (hne (hp.pushing i hi).2) (h.pushing i hi)

/-- The event loop goes on. -/
theorem withLoop (h : Usable s) {loop : Loop} (hloop : ∀ i, loop = .pushing i → s.Sent i)
    (log : List Event) : Usable { s with log := log, loop := loop } :=
  ⟨h.idle, hloop⟩

end Usable

/-! ### The parts of the event loop -/

/-- A part that works on a connection of the pool leaves it there as it is, and a connection on its
    way to the pool has been sent. -/
theorem Part.undisturbed {a : Action} {es : List Event} {next : Next}
    (h : Part cfg s a id c c' es next) (hp : Pooled cfg s) (hc : s.conns id = some c)
    (ha : s.undisturbed a = true) :
    (id ∈ s.fdIdle → next = .wait ∧ c'.out = c.out) ∧ (next = .push → c'.out = []) ∧
      s.loop ≠ .pushing id := by
  obtain ⟨hat, -⟩ := h.spec
  cases h with
  | write loop goes =>
    simp only [State.undisturbed, decide_eq_true_eq] at ha
    refine ⟨fun hid => absurd hid (ha id hat), fun hpush => ?_, by rw [loop]; simp⟩
    rcases goes with rfl | ⟨err, rfl⟩ <;> cases hpush
  | read loop idle _ goes =>
    simp only [State.undisturbed, decide_eq_true_eq] at ha
    refine ⟨fun hid => ⟨(idle (hp.rests hid hc).1).2 (ha id hat hid), rfl⟩, fun hpush => ?_,
      by rw [loop]; simp⟩
    rcases goes with rfl | ⟨rfl, -⟩ | ⟨typ, err, rfl, -⟩ <;> cases hpush
  | parse loop round =>
    refine ⟨fun hid => absurd hid (hp.not_mem hc (hp.active loop hc)), fun hpush => ?_,
      by rw [loop]; simp⟩
    simp only [State.undisturbed, hat, Option.bind_some, hc, decide_eq_true_eq] at ha
    cases round with
    | release inp state => exact ha ⟨inp, state⟩
    | auth => cases hpush
    | reply => cases hpush
    | free => cases hpush
    | wait => cases hpush
    | failed => cases hpush
    | panic => cases hpush

theorem Usable.proceed (h : Usable s) (hw : Wired s) (hp : Pooled cfg s) {a : Action}
    {es : List Event} {next : Next} (hc : s.conns id = some c)
    (hpart : Part cfg s a id c c' es next)
    (ha : s.undisturbed a = true) (hproceed : s.proceed id c' es next = some s') : Usable s' := by
  obtain ⟨hat, hfd, -⟩ := hpart.spec
  obtain ⟨hidle, hpush, hnot⟩ := hpart.undisturbed hp hc ha
  have hset : Usable (s.setConn id c') := h.setConn hc hfd fun hwhere =>
    (hidle (hwhere.resolve_right hnot)).2
  have hself : (s.setConn id c').conns id = some c' := Function.update_self ..
  obtain ⟨loop, rfl, hwhere⟩ | ⟨typ, err, hnext, hclose⟩ := State.proceed_cases hproceed
  · refine hset.withLoop (fun i hi => ?_) _
    rcases hwhere with ⟨-, rfl⟩ | ⟨-, rfl⟩ | ⟨hnext, rfl⟩ | ⟨-, rfl⟩
    · cases hi
    · cases hi
    · obtain rfl : id = i := Loop.pushing.inj hi
      intro d hd
      obtain rfl : c' = d := Option.some.inj (hself.symm.trans hd)
      exact hpush hnext
    · cases hi
  · have hlog : Usable { s.setConn id c' with log := s.log ++ es } := hset.withLoop hset.pushing _
    have hent : (s.setConn id c').entry id = some id := by
      rw [State.entry_setConn hc hfd]
      exact hw.loop id hat
    refine hlog.close hself (fun hid => ?_) (.inr hent) hclose
    have hwait := (hidle hid).1
    rw [hnext] at hwait
    cases hwait

/-! ### Steps and runs -/

/-- Whoever else closes a connection has taken it out of the pool. -/
theorem Closes.usable {a : Action} {s₀ : State} (hc : Closes cfg s a s₀ id c) (h : Usable s)
    (hp : Pooled cfg s) (ha : s.undisturbed a = true) : Usable s₀ ∧ id ∉ s₀.fdIdle := by
  cases hc with
  | @trim _ _ rest _ _ idle =>
    have hnodup := hp.nodup
    rw [idle, List.nodup_cons] at hnodup
    have hsub : rest ⊆ s.fdIdle := by
      rw [idle]
      exact List.subset_cons_self ..
    exact ⟨h.silent hsub rfl rfl fun _ hi => hi, hnodup.1⟩
  | timeout conn =>
    simp only [State.undisturbed, decide_eq_true_eq] at ha
    exact ⟨h.setConn conn rfl fun _ => rfl, ha⟩
  | shut slot =>
    simp only [State.undisturbed, decide_eq_true_eq] at ha
    exact ⟨h, ha _ slot⟩

/-- One step keeps the pool usable, if it meets the condition. -/
theorem step_usable {a : Action} (h : Usable s) (hw : Wired s) (hp : Pooled cfg s)
    (ha : Undisturbed cfg s a) (hstep : step cfg s a = some s') : Usable s' := by
  have hrefl : s.fdIdle ⊆ s.fdIdle := fun _ hi => hi
  cases step_move hstep with
  | enter => exact h.silent hrefl rfl rfl fun _ hi => hi
  | @fill _ _ k id cmdArgs rest c c' takes idle conn filled =>
    -- the connection that is taken leaves the pool, where it was only once
    obtain ⟨death, rfl, -⟩ := Conn.fill_spec filled
    have hnodup := hp.nodup
    rw [idle, List.nodup_cons] at hnodup
    have hsub : rest ⊆ s.fdIdle := by
      rw [idle]
      exact List.subset_cons_self ..
    have htail : Usable { s with fdIdle := rest } := h.silent hsub rfl rfl fun _ hi => hi
    have hset : Usable (({ s with fdIdle := rest } : State).setConn id
        { c with callback := some k, out := appendCommand cmdArgs [], death := death }) := by
      refine htail.setConn conn rfl fun hwhere => ?_
      rcases hwhere with hid | hloop
      · exact absurd hid hnodup.1
      · exact absurd (idle ▸ List.mem_cons_self ..) (hp.pushing id hloop).1
    cases takes with
    | exec => exact hset.silent (fun _ hi => hi) rfl rfl fun _ hi => hi
    | receive => exact hset.silent (fun _ hi => hi) rfl rfl fun _ hi => hi
  | @fillPanic _ _ _ _ id rest takes idle =>
    have hsub : rest ⊆ s.fdIdle := by
      rw [idle]
      exact List.subset_cons_self ..
    cases takes with
    | exec => exact h.silent hsub rfl rfl fun _ hi => hi
    | receive => exact h.silent hsub rfl rfl fun _ hi => hi
  | pc => exact h.silent hrefl rfl rfl fun _ hi => hi
  | refused => exact h.silent hrefl rfl rfl fun _ hi => hi
  | @connect k fd cmdArgs _ _ exec closed =>
    have hadd := h.added (c := Conn.fresh cfg fd k cmdArgs) hw hp closed
    exact hadd.silent (fun _ hi => hi) rfl rfl fun _ hi => hi
  | @arm k id cmdArgs c exec conn =>
    have hset : Usable (s.setConn id (c.arm cfg)) := by
      unfold Conn.arm
      split
      · exact h.setConn conn rfl fun _ => rfl
      · exact h.setConn conn rfl fun _ => rfl
    exact hset.silent (fun _ hi => hi) rfl rfl fun _ hi => hi
  | lost => exact h.silent hrefl rfl rfl fun _ hi => hi
  | loopPanic => exact h.withLoop (fun i hi => by cases hi) s.log
  | dropped loop slot conn touch =>
    obtain ⟨death, rfl, -⟩ := Conn.touch_spec touch
    exact h.setConn conn rfl fun _ => rfl
  | @handle fd id write c c' loop slot conn touch =>
    obtain ⟨death, rfl, -⟩ := Conn.touch_spec touch
    have hset : Usable (s.setConn id { c with death := death }) := h.setConn conn rfl fun _ => rfl
    refine hset.withLoop (fun i hi => ?_) s.log
    cases write <;> cases hi
  -- a part that releases its connection has emptied it
  | part conn part proceed => exact h.proceed hw hp conn part ha.2 proceed
  | @push id c loop conn =>
    refine ⟨fun i hi => ?_, fun i hi => by cases hi⟩
    rw [List.mem_append, List.mem_singleton] at hi
    rcases hi with hi | rfl
    · exact h.idle i hi
    · exact ⟨hw.loop i (by rw [loop]; rfl), h.pushing i loop⟩
  | expire conn => exact h.setConn conn rfl fun _ => rfl
  | close closes close =>
    -- whoever closes an idle connection owns it, by the condition
    obtain ⟨-, hconn, hfd, hmap, -⟩ := closes.start
    obtain ⟨hstart, hidle⟩ := closes.usable h hp ha.2
    have hown := (ha.1.closes closes).2
    rw [State.entry, ← hfd, ← hmap] at hown
    exact hstart.close hconn hidle hown close

/-- **The idle pool.**  In a run of such steps every connection of the pool is there once, is open
    and registered, and has no callback, no input and no output, so that `fillIdleConn` can take
    it; and there are at most `fdConns.Len()` of them. -/
theorem idle_usable {as : List Action} (hm : Meets (step cfg) (Undisturbed cfg) {} as)
    (hr : run (step cfg) {} as = some s) :
    s.fdIdle.Nodup ∧ (s.fdIdle.length : ℤ) ≤ s.fdConns.count ∧
      ∀ id ∈ s.fdIdle, ∃ c, s.conns id = some c ∧ s.opened c.fd = true ∧
        s.fdConns.slot c.fd = some id ∧ c.callback = none ∧ c.inp = [] ∧ c.out = [] ∧
        ∀ k cmdArgs, c.fill cfg k cmdArgs ≠ none := by
  obtain ⟨hw, hp, hcount, hu⟩ : Wired s ∧ Pooled cfg s ∧ Counted s ∧ Usable s := by
    refine run_invariant (P := fun s => Wired s ∧ Pooled cfg s ∧ Counted s ∧ Usable s) ?_
      ⟨Wired.init, Pooled.init, Counted.init, Usable.init⟩ hm hr
    rintro t a t' ⟨hw, hp, hcount, hu⟩ ha hstep
    exact ⟨step_wired hw (fun hc => ha.1.closes hc) hstep, step_pooled hp hstep,
      step_counted hcount hp hstep, step_usable hu hw hp ha hstep⟩
  refine ⟨hp.nodup, ?_, fun id hid => ?_⟩
  · have hsub : s.fdIdle.toFinset ⊆ s.registered := by
      intro id hid
      rw [List.mem_toFinset] at hid
      obtain ⟨c, hc, -⟩ := hp.idle id hid
      exact State.mem_registered.mpr ⟨hw.lt_made (State.fd?_eq hc), (hu.idle id hid).1⟩
    have hcard := Finset.card_le_card hsub
    rw [List.toFinset_card_of_nodup hp.nodup] at hcard
    rw [hcount.count]
    exact_mod_cast hcard
  · obtain ⟨c, hc, hcb, hinp, -⟩ := hp.idle id hid
    obtain ⟨hreg, hsent⟩ := hu.idle id hid
    have hslot : s.fdConns.slot c.fd = some id := State.entry_eq hc ▸ hreg
    have hout := hsent c hc
    refine ⟨c, hc, (hw.slot _ _ hslot).1, hslot, hcb, hinp, hout, fun k cmdArgs => ?_⟩
    unfold Conn.fill
    rw [hout]
    cases htime : cfg.timeout with
    | false => simp
    | true =>
      obtain ⟨t, ht⟩ := Option.ne_none_iff_exists'.mp (hp.timed id c hc htime (.inl hcb))
      simp [ht]

/-- A connection that returns to the pool. -/
def returned : List Action :=
  [.exec [.string (ascii "PING")], .decide 0, .connect 0 (.ok 5), .arm 0, .event 5 true,
    .write (.ok 100), .event 5 false, .read (.data (ascii "+PONG\r\n")), .parse, .parse, .push,
    .event 5 false, .read (.data (ascii "+"))]

/-- It can be used again. -/
theorem idle_usable_returned :
    ∃ s, run (step { poolSize := 1 }) {} returned = some s ∧ s.fdIdle = [0] ∧
      ∃ c, s.conns 0 = some c ∧ ∀ k cmdArgs, c.fill { poolSize := 1 } k cmdArgs ≠ none := by
  have hsome : (run (step { poolSize := 1 }) {} returned).isSome := by decide +kernel
  obtain ⟨s, hs⟩ := Option.isSome_iff_exists.mp hsome
  have hidle : (run (step { poolSize := 1 }) {} returned).map (·.fdIdle) = some [0] := by
    decide +kernel
  rw [hs, Option.map_some, Option.some.injEq] at hidle
  obtain ⟨-, -, husable⟩ := @idle_usable { poolSize := 1 } s returned (by decide +kernel) hs
  obtain ⟨c, hc, -, -, -, -, -, hfill⟩ := husable 0 (by rw [hidle]; simp)
  exact ⟨s, hs, hidle, c, hc, hfill⟩

/-- The server closes the idle connection. -/
def closedByServer : List Action :=
  [.exec [.string (ascii "PING")], .decide 0, .connect 0 (.ok 5), .arm 0, .event 5 true,
    .write (.ok 100), .event 5 false, .read (.data (ascii "+PONG\r\n")), .parse, .parse, .push,
    .event 5 false, .read (.data [])]

/-- The server replies before it has got the whole command, and the next command comes. -/
def earlyReply : List Action :=
  [.exec [.string (ascii "PING")], .decide 0, .connect 0 (.ok 5), .arm 0, .event 5 true,
    .write (.ok 3), .event 5 false, .read (.data (ascii "-ERR\r\n")), .parse, .parse, .push,
    .exec [.string (ascii "PING")]]

/-- The closed connection stays in the pool, and `fillIdleConn` panics. -/
theorem idle_closed :
    (run (step { poolSize := 1 }) {} closedByServer).map
        (fun s => (s.fdIdle, s.entry 0, s.opened 5, s.fdConns.count)) = some ([0], none, false, 0) ∧
      (run (step { poolSize := 1 }) {} earlyReply).map (·.crashed) = some true := by
  decide +kernel

end Resh.Client
