import Mathlib.Data.Finset.Card
import Resh.Client.Pool

namespace Resh.Client

open Resh.Go

/-!
# The number of connections and the calls of `Exec`

What every step does with two parts of the state, in every run: the entries of `fdConns`, of which
`fdConns.Len()` is the number, and the calls of `Exec`.  Here nothing is assumed about who closes
what.

* `step_registers` — a step leaves the registry, deletes an entry or adds a connection;
* `Counted`, `step_counted` — `fdConns.Len()` is the number of registered connections;
* `step_calls` — a step leaves the calls, begins one or takes one on.
-/

variable {cfg : Config} {s s' t : State} {id : ℕ} {c c' : Conn} {a : Action}

/-! ### Registered connections -/

namespace State

/-- The registered connections. -/
def registered (s : State) : Finset ℕ := (Finset.range s.made).filter fun id => s.entry id = some id

/-- A connection is registered when the entry of `fdConns` under its fd is the connection itself;
    one that was made later under the same fd would have replaced it. -/
theorem mem_registered : id ∈ s.registered ↔ id < s.made ∧ s.entry id = some id := by
  rw [registered, Finset.mem_filter, Finset.mem_range]

/-- The registered connections after `fdConns.Delete`. -/
theorem registered_removed (hc : s.conns id = some c) (hslot : s.fdConns.slot c.fd = some id)
    (who : Who) (es : List Event) : (s.removed who c.fd es).registered = s.registered.erase id := by
  ext i
  rw [Finset.mem_erase, mem_registered, mem_registered, entry_removed hc hslot]
  exact ⟨fun h => ⟨h.2.2, h.1, h.2.1⟩, fun h => ⟨h.2.1, h.2.2, h.1⟩⟩

/-- The registered connections after `fdConns.Add`. -/
theorem registered_added (hmade : s.fd? s.made = none) (hfree : s.fdConns.slot c.fd = none) :
    (s.added c.fd c).registered = insert s.made s.registered := by
  ext i
  rw [Finset.mem_insert, mem_registered, mem_registered, entry_added hfree]
  simp only [added]
  constructor
  · rintro ⟨hlt, hreg | rfl⟩
    · have hne : i ≠ s.made := by
        rintro rfl
        rw [entry, hmade] at hreg
        cases hreg
      exact .inr ⟨by omega, hreg⟩
    · exact .inl rfl
  · rintro (rfl | ⟨hlt, hreg⟩)
    · exact ⟨by omega, .inr rfl⟩
    · exact ⟨by omega, .inl hreg⟩

/-- The number that the next connection will get is not registered yet. -/
theorem made_not_registered (s : State) : s.made ∉ s.registered := by simp [mem_registered]

end State

/-! ### What a step does with the registry -/

/-- Two states with the same registry. -/
structure Agrees (s s' : State) : Prop where
  made : s'.made = s.made
  fd : s'.fd? = s.fd?
  slot : s'.fdConns.slot = s.fdConns.slot
  count : s'.fdConns.count = s.fdConns.count
  opened : s'.opened = s.opened

namespace Agrees

/-- A connection may change in everything but its fd. -/
theorem setConn (hc : s.conns id = some c) (hfd : c'.fd = c.fd) : Agrees s (s.setConn id c') :=
  ⟨rfl, State.fd?_setConn hc hfd, rfl, rfl, rfl⟩

/-- Steps that leave the registry compose. -/
theorem trans (h : Agrees s s') (h' : Agrees s' t) : Agrees s t :=
  ⟨h'.made.trans h.made, h'.fd.trans h.fd, h'.slot.trans h.slot, h'.count.trans h.count,
    h'.opened.trans h.opened⟩

/-- The entry under each connection's fd is the same, for it only depends on the fds and the map. -/
theorem entry_eq (h : Agrees s s') : s'.entry = s.entry := by
  funext i
  rw [State.entry, State.entry, h.fd, h.slot]

/-- With the same registry the registered connections are the same. -/
theorem registered_eq (h : Agrees s s') : s'.registered = s.registered := by
  rw [State.registered, State.registered, h.made, h.entry_eq]

end Agrees

/-- A step leaves the registry, deletes an entry, or adds a new connection, which is active. -/
inductive Registers (cfg : Config) (s : State) (a : Action) (s' : State) : Prop
  | same (agrees : Agrees s s')
  | delete {fd v : ℕ} (closing : s.closing cfg a = some fd) (taken : s.fdConns.slot fd = some v)
      (agrees : Agrees (s.removed .other fd []) s')
  | add {c : Conn} {count : ℤ} (makes : a.makes = true) (closed : s.opened c.fd = false)
      (counted : s.fdConns.slot c.fd = none → count = s.fdConns.count + 1)
      (agrees : Agrees { s.added c.fd c with fdConns :=
      { (s.added c.fd c).fdConns with count := count } } s')
      (conn : s'.conns s.made = some c) (active : c.callback ≠ none)

/-- `closeConnWithError` deletes an entry, or panics. -/
theorem close_registers {who : State.Who} {typ : ErrType} {err : Option Cause} (h : Agrees s t)
    (hclosing : s.closing cfg a = some c.fd)
    (hclose : t.closeConnWithError who id c typ err = some s') : Registers cfg s a s' := by
  obtain ⟨-, rfl⟩ | ⟨v, hv, rfl⟩ := State.close_cases hclose
  · cases who with
    | loop => exact .same (h.trans ⟨rfl, rfl, rfl, rfl, rfl⟩)
    | other => exact .same (h.trans ⟨rfl, rfl, rfl, rfl, rfl⟩)
  · rw [h.slot] at hv
    refine .delete hclosing hv ⟨h.made, h.fd, ?_, ?_, ?_⟩
    · simp only [State.removed, h.slot]
    · simp only [State.removed, h.count]
    · simp only [State.removed, h.opened]

/-- **What a step does with the registry.** -/
theorem step_registers (hstep : step cfg s a = some s') : Registers cfg s a s' := by
  cases step_move hstep with
  | enter => exact .same ⟨rfl, rfl, rfl, rfl, rfl⟩
  | @fill _ _ k id cmdArgs rest c c' takes idle conn filled =>
    obtain ⟨death, rfl, -⟩ := Conn.fill_spec filled
    have hset : Agrees s (s.setConn id
        { c with callback := some k, out := appendCommand cmdArgs [], death := death }) :=
      .setConn conn rfl
    cases takes with
    | exec => exact .same ⟨rfl, hset.fd, rfl, rfl, rfl⟩
    | receive => exact .same ⟨rfl, hset.fd, rfl, rfl, rfl⟩
  | fillPanic takes =>
    cases takes with
    | exec => exact .same ⟨rfl, rfl, rfl, rfl, rfl⟩
    | receive => exact .same ⟨rfl, rfl, rfl, rfl, rfl⟩
  | pc => exact .same ⟨rfl, rfl, rfl, rfl, rfl⟩
  | refused => exact .same ⟨rfl, rfl, rfl, rfl, rfl⟩
  | @connect k fd cmdArgs crashed count exec closed _ counted =>
    have hnew : (s.setConn s.made (Conn.fresh cfg fd k cmdArgs)).conns s.made
        = some (Conn.fresh cfg fd k cmdArgs) := Function.update_self ..
    have hactive : (Conn.fresh cfg fd k cmdArgs).callback ≠ none := by simp [Conn.fresh]
    exact .add rfl closed counted ⟨rfl, rfl, rfl, rfl, rfl⟩ hnew hactive
  | @arm k id cmdArgs c exec conn =>
    have hfd : (c.arm cfg).fd = c.fd := by
      unfold Conn.arm
      split <;> rfl
    exact .same ((Agrees.setConn conn hfd).trans ⟨rfl, rfl, rfl, rfl, rfl⟩)
  | lost => exact .same ⟨rfl, rfl, rfl, rfl, rfl⟩
  | loopPanic => exact .same ⟨rfl, rfl, rfl, rfl, rfl⟩
  | dropped loop slot conn touch =>
    obtain ⟨death, rfl, -⟩ := Conn.touch_spec touch
    exact .same (.setConn conn rfl)
  | handle loop slot conn touch =>
    obtain ⟨death, rfl, -⟩ := Conn.touch_spec touch
    exact .same ⟨rfl, State.fd?_setConn conn rfl, rfl, rfl, rfl⟩
  | part conn part proceed ends =>
    obtain ⟨-, hfd, -⟩ := part.spec
    have hset := Agrees.setConn conn hfd
    obtain ⟨loop, rfl, -⟩ | ⟨typ, err, rfl, hclose⟩ := State.proceed_cases proceed
    · exact .same (hset.trans ⟨rfl, rfl, rfl, rfl, rfl⟩)
    · refine close_registers (hset.trans ?_)
        ((closing_of_partEnd ends conn).trans (by rw [hfd])) hclose
      exact ⟨rfl, rfl, rfl, rfl, rfl⟩
  | push => exact .same ⟨rfl, rfl, rfl, rfl, rfl⟩
  | expire conn => exact .same (.setConn conn rfl)
  | close closes close =>
    obtain ⟨-, -, hfd, hmap, hopen, hmade, -, -⟩ := closes.start
    exact close_registers ⟨hmade, hfd, congrArg FdMap.slot hmap, congrArg FdMap.count hmap, hopen⟩
      closes.closing close

/-! ### The count -/

/-- Every entry of `fdConns` is an open connection with that fd, and `fdConns.Len()` counts them. -/
structure Counted (s : State) : Prop where
  slot : ∀ fd id, s.fdConns.slot fd = some id → s.opened fd = true ∧ s.fd? id = some fd
  count : s.fdConns.count = s.registered.card

namespace Counted

/-- Before the first call there is no entry and the counter is zero. -/
theorem init : Counted {} := ⟨fun _ _ h => absurd h (by simp), rfl⟩

/-- There is no entry under an fd that is not open, so a new connection never overwrites one. -/
theorem free (h : Counted s) {fd : ℕ} (hfd : s.opened fd = false) : s.fdConns.slot fd = none :=
  State.slot_of_not_opened h.slot hfd

/-- The invariant only reads the registry. -/
theorem same (h : Counted s) (ha : Agrees s s') : Counted s' := by
  refine ⟨fun fd id hid => ?_, ?_⟩
  · rw [ha.slot] at hid
    rw [ha.opened, ha.fd]
    exact h.slot fd id hid
  · rw [ha.count, ha.registered_eq]
    exact h.count

/-- The connection under an fd. -/
theorem owner (h : Counted s) (hp : Pooled cfg s) {fd v : ℕ} (hv : s.fdConns.slot fd = some v) :
    v ∈ s.registered ∧ ∃ c, s.conns v = some c ∧ c.fd = fd := by
  obtain ⟨-, hfd⟩ := h.slot fd v hv
  rw [State.fd?, Option.map_eq_some_iff] at hfd
  obtain ⟨c, hc, rfl⟩ := hfd
  refine ⟨State.mem_registered.mpr ⟨?_, ?_⟩, c, hc, rfl⟩
  · by_contra hle
    rw [hp.made v (by omega)] at hc
    cases hc
  · rw [State.entry_eq hc]
    exact hv

/-- `fdConns.Delete` unregisters the connection that stands under the fd, and no other. -/
theorem registered_deleted (h : Counted s) (hp : Pooled cfg s) {fd v : ℕ}
    (hv : s.fdConns.slot fd = some v) :
    (s.removed .other fd []).registered = s.registered.erase v := by
  obtain ⟨-, c, hc, rfl⟩ := h.owner hp hv
  exact State.registered_removed hc hv .other []

/-- Deleting an entry and closing its fd keeps the invariant: one connection and one in the counter
    less. -/
theorem deleted (h : Counted s) (hp : Pooled cfg s) {fd v : ℕ} (hv : s.fdConns.slot fd = some v) :
    Counted (s.removed .other fd []) := by
  obtain ⟨hmem, -⟩ := h.owner hp hv
  refine ⟨fun fd' id hid => ?_, ?_⟩
  · have hne : fd' ≠ fd := by
      rintro rfl
      simp [State.removed] at hid
    simp only [State.removed, Function.update_of_ne hne] at hid ⊢
    exact h.slot fd' id hid
  · have hpos := Finset.card_pos.mpr ⟨v, hmem⟩
    have hcount := h.count
    rw [h.registered_deleted hp hv, Finset.card_erase_of_mem hmem]
    show s.fdConns.count - 1 = _
    omega

/-- A new connection joins the registered ones: its number is fresh, and its fd was free. -/
theorem registered_new (h : Counted s) (hp : Pooled cfg s) (hfd : s.opened c.fd = false) :
    (s.added c.fd c).registered = insert s.made s.registered := by
  refine State.registered_added ?_ (h.free hfd)
  rw [State.fd?, hp.made _ le_rfl]
  rfl

/-- Adding the new connection and counting it keeps the invariant. -/
theorem new (h : Counted s) (hp : Pooled cfg s) (hfd : s.opened c.fd = false) :
    Counted { s.added c.fd c with
      fdConns := { (s.added c.fd c).fdConns with count := s.fdConns.count + 1 } } := by
  refine ⟨fun fd id hid => ?_, ?_⟩
  · by_cases hf : fd = c.fd
    · subst hf
      simp only [State.added, Function.update_self, Option.some.injEq] at hid ⊢
      subst hid
      exact ⟨trivial, by simp [State.fd?, State.setConn]⟩
    · simp only [State.added, Function.update_of_ne hf] at hid ⊢
      obtain ⟨hopen, hfd?⟩ := h.slot fd id hid
      have hne : id ≠ s.made := by
        rintro rfl
        rw [State.fd?, hp.made _ le_rfl] at hfd?
        cases hfd?
      refine ⟨hopen, ?_⟩
      simpa only [State.fd?, State.setConn, Function.update_of_ne hne] using hfd?
  · show s.fdConns.count + 1 = ((s.added c.fd c).registered.card : ℤ)
    rw [h.registered_new hp hfd, Finset.card_insert_of_notMem s.made_not_registered, h.count]
    push_cast
    rfl

end Counted

/-- **Every step keeps the count.** -/
theorem step_counted (h : Counted s) (hp : Pooled cfg s) (hstep : step cfg s a = some s') :
    Counted s' := by
  cases step_registers hstep with
  | same agrees => exact h.same agrees
  | delete _ taken agrees => exact (h.deleted hp taken).same agrees
  | add _ closed counted agrees =>
    rw [counted (h.free closed)] at agrees
    exact (h.new hp closed).same agrees

/-- A registered connection was registered before, or it is new and active. -/
theorem step_registered (h : Counted s) (hp : Pooled cfg s) (hstep : step cfg s a = some s')
    (hid : id ∈ s'.registered) :
    id ∈ s.registered ∨ ∃ c, s'.conns id = some c ∧ c.callback ≠ none := by
  cases step_registers hstep with
  | same agrees => exact .inl (agrees.registered_eq ▸ hid)
  | delete _ taken agrees =>
    rw [agrees.registered_eq, h.registered_deleted hp taken] at hid
    exact .inl (Finset.mem_of_mem_erase hid)
  | add _ closed _ agrees conn active =>
    rw [agrees.registered_eq] at hid
    have hadd : id ∈ (s.added _ _).registered := hid
    rw [h.registered_new hp closed, Finset.mem_insert] at hadd
    rcases hadd with rfl | hold
    · exact .inr ⟨_, conn, active⟩
    · exact .inl hold

/-! ### What a step does with the calls of `Exec` -/

/-- The call of `Exec` whose goroutine acts. -/
def Action.caller : Action → Option ℕ
  | .decide k => some k
  | .receive k => some k
  | .connect k _ => some k
  | .arm k => some k
  | .trim k => some k
  | _ => none

/-- A step leaves the calls, begins one, or takes one on; a call begins to wait where it finds
    `fdConns.Len() >= poolSize`. -/
inductive CallStep (cfg : Config) (s : State) : Action → State → Prop
  | same {a : Action} {s' : State} (other : ∀ cmdArgs, a ≠ .exec cmdArgs)
      (execs : s'.execs = s.execs) (called : s'.called = s.called) : CallStep cfg s a s'
  | enter {cmdArgs : List Arg} {s' : State} {pc : Pc}
      (execs : s'.execs = Function.update s.execs s.called (some ⟨cmdArgs, pc⟩))
      (called : s'.called = s.called + 1) (map : s'.fdConns = s.fdConns)
      (goes : pc = .trimming ∨ (pc = .deciding ∧ (s.fdIdle = [] ∨ s'.crashed = true))) :
      CallStep cfg s (.exec cmdArgs) s'
  | goes {a : Action} {s' : State} {k : ℕ} {pc : Pc} (caller : a.caller = some k)
      (execs : s'.execs = (s.setPc k pc).execs) (called : s'.called = s.called)
      (new : pc ≠ .deciding)
      (waits : pc = .waiting → (∃ cmdArgs, s.execs k = some ⟨cmdArgs, .deciding⟩) ∧
        cfg.poolSize ≤ s.fdConns.count ∧ s'.fdConns = s.fdConns) :
      CallStep cfg s a s'

/-- Closing a connection does not move a call of `Exec`: a callback is told, and the goroutine of
    its call has long gone on. -/
theorem close_execs {who : State.Who} {typ : ErrType} {err : Option Cause}
    (h : s.closeConnWithError who id c typ err = some s') :
    s'.execs = s.execs ∧ s'.called = s.called := by
  obtain ⟨-, rfl⟩ | ⟨v, -, rfl⟩ := State.close_cases h
  · cases who with
    | loop => exact ⟨rfl, rfl⟩
    | other => exact ⟨rfl, rfl⟩
  · exact ⟨rfl, rfl⟩

/-- What the loop does after a read or a write does not move a call of `Exec`. -/
theorem proceed_execs {es : List Event} {next : Next} (h : s.proceed id c es next = some s') :
    s'.execs = s.execs ∧ s'.called = s.called := by
  obtain ⟨loop, rfl, -⟩ | ⟨typ, err, -, hclose⟩ := State.proceed_cases h
  · exact ⟨rfl, rfl⟩
  · obtain ⟨hexecs, hcalled⟩ := close_execs hclose
    exact ⟨hexecs, hcalled⟩

/-- Taking a connection leaves the call where it was, and panics, or takes it on. -/
theorem takeIdle_execs {k : ℕ} {cmdArgs : List Arg} (h : s.takeIdle cfg k cmdArgs = some s') :
    (s'.execs = s.execs ∧ s'.crashed = true ∨ s'.execs = (s.setPc k .trimming).execs) ∧
      s'.called = s.called ∧ s'.fdConns = s.fdConns := by
  unfold State.takeIdle at h
  split at h
  · cases h
  · split at h
    · cases h
    · split at h
      · cases h
        exact ⟨.inl ⟨rfl, rfl⟩, rfl, rfl⟩
      · cases h
        exact ⟨.inr rfl, rfl, rfl⟩

/-- The event loop, the timers and `Close` leave the calls alone. -/
theorem loop_execs (hcaller : a.caller = none) (hexec : ∀ cmdArgs, a ≠ .exec cmdArgs)
    (hstep : step cfg s a = some s') : s'.execs = s.execs ∧ s'.called = s.called := by
  unfold step at hstep
  split at hstep
  · cases hstep
  cases a with
  | exec cmdArgs => exact absurd rfl (hexec cmdArgs)
  | decide k => cases hcaller
  | receive k => cases hcaller
  | connect k res => cases hcaller
  | arm k => cases hcaller
  | trim k => cases hcaller
  | event fd write =>
    simp only [State.event] at hstep
    split at hstep
    · cases hstep
      exact ⟨rfl, rfl⟩
    · split at hstep
      · cases hstep
      · split at hstep <;> cases hstep <;> exact ⟨rfl, rfl⟩
    · cases hstep
  | write wr =>
    -- the parts of the event loop end in `proceed`, which leaves the calls alone
    simp only [State.write] at hstep
    split at hstep
    · split at hstep
      · cases hstep
      · exact proceed_execs hstep
    · cases hstep
  | read rd =>
    simp only [State.read] at hstep
    split at hstep
    · split at hstep
      · cases hstep
      · exact proceed_execs hstep
    · cases hstep
  | parse =>
    simp only [State.parse] at hstep
    split at hstep
    · split at hstep
      · cases hstep
      · exact proceed_execs hstep
    · cases hstep
  | push =>
    simp only [State.push] at hstep
    split at hstep
    · split at hstep
      · cases hstep
      · split at hstep
        · cases hstep
          exact ⟨rfl, rfl⟩
        · cases hstep
    · cases hstep
  | expire id =>
    simp only [State.expire] at hstep
    split at hstep
    · split at hstep
      · split at hstep
        · cases hstep
          exact ⟨rfl, rfl⟩
        · cases hstep
      · cases hstep
    · cases hstep
  | timeout id =>
    -- the timers and `Close` change a connection, or close it
    simp only [State.timeout] at hstep
    split at hstep
    · split at hstep
      · split at hstep
        · obtain ⟨hexecs, hcalled⟩ := close_execs hstep
          exact ⟨hexecs, hcalled⟩
        · cases hstep
      · cases hstep
    · cases hstep
  | shut fd =>
    simp only [State.shut] at hstep
    split at hstep
    · split at hstep
      · exact close_execs hstep
      · cases hstep
    · cases hstep

/-- **What a step does with the calls.** -/
theorem step_calls (hstep : step cfg s a = some s') : CallStep cfg s a s' := by
  by_cases hloop : a.caller = none ∧ ∀ cmdArgs, a ≠ .exec cmdArgs
  · obtain ⟨hexecs, hcalled⟩ := loop_execs hloop.1 hloop.2 hstep
    exact .same hloop.2 hexecs hcalled
  have hrun := hstep
  unfold step at hrun
  split at hrun
  · cases hrun
  cases a with
  | exec cmdArgs =>
    -- a call that finds an idle connection takes it in the same step
    simp only [State.exec] at hrun
    split at hrun
    · rename_i hidle
      cases hrun
      exact .enter rfl rfl rfl (.inr ⟨rfl, .inl hidle⟩)
    · obtain ⟨hexecs, hcalled, hmap⟩ := takeIdle_execs hrun
      rcases hexecs with ⟨hexecs, hcrash⟩ | hexecs
      · exact .enter hexecs hcalled hmap (.inr ⟨rfl, .inr hcrash⟩)
      · refine .enter ?_ hcalled hmap (.inl rfl)
        rw [hexecs]
        simp [State.setPc, State.enter]
  | decide k =>
    -- here, and only here, a call begins to wait
    simp only [State.decide] at hrun
    split at hrun
    · rename_i cmdArgs hk
      cases hrun
      refine .goes rfl rfl rfl ?_ ?_
      · split <;> simp
      · intro hwait
        split at hwait
        · rename_i hfull
          exact ⟨⟨cmdArgs, hk⟩, hfull, rfl⟩
        · cases hwait
    · cases hrun
  | receive k =>
    simp only [State.receive] at hrun
    split at hrun
    · obtain ⟨hexecs, hcalled, -⟩ := takeIdle_execs hrun
      rcases hexecs with ⟨hexecs, -⟩ | hexecs
      · exact .same (by simp) hexecs hcalled
      · exact .goes rfl hexecs hcalled (by simp) (by simp)
    · cases hrun
  | connect k res =>
    simp only [State.connect] at hrun
    split at hrun
    · cases hrun
      exact .goes rfl rfl rfl (by simp) (by simp)
    · split at hrun
      · cases hrun
      · split at hrun <;> cases hrun <;> exact .goes rfl rfl rfl (by simp) (by simp)
    · cases hrun
  | arm k =>
    simp only [State.arm] at hrun
    split at hrun
    · split at hrun
      · cases hrun
      · cases hrun
        exact .goes rfl rfl rfl (by simp) (by simp)
    · cases hrun
  | trim k =>
    simp only [State.trim] at hrun
    split at hrun
    · split at hrun
      · split at hrun
        · cases hrun
          exact .goes rfl rfl rfl (by simp) (by simp)
        · split at hrun
          · cases hrun
          · obtain ⟨hexecs, hcalled⟩ := close_execs hrun
            exact .same (by simp) hexecs hcalled
      · cases hrun
        exact .goes rfl rfl rfl (by simp) (by simp)
    · cases hrun
  | event fd write => exact absurd ⟨rfl, by simp⟩ hloop
  | write wr => exact absurd ⟨rfl, by simp⟩ hloop
  | read rd => exact absurd ⟨rfl, by simp⟩ hloop
  | parse => exact absurd ⟨rfl, by simp⟩ hloop
  | push => exact absurd ⟨rfl, by simp⟩ hloop
  | expire id => exact absurd ⟨rfl, by simp⟩ hloop
  | timeout id => exact absurd ⟨rfl, by simp⟩ hloop
  | shut fd => exact absurd ⟨rfl, by simp⟩ hloop

/-- A call that goes on changes its own program counter, and no other call's. -/
theorem State.execs_setPc (s : State) (k j : ℕ) (pc : Pc) :
    (s.setPc k pc).execs j = if j = k then (s.execs k).map fun e => { e with pc := pc }
    else s.execs j := by
  simp only [State.setPc, Function.update_apply]

/-- The calls are numbered in the order in which they begin. -/
def Numbered (s : State) : Prop := ∀ k, s.called ≤ k → s.execs k = none

/-- A call that waits waited before, or has just found too many connections. -/
theorem CallStep.waiting (h : CallStep cfg s a s') {k : ℕ} {cmdArgs : List Arg}
    (hk : s'.execs k = some ⟨cmdArgs, .waiting⟩) :
    s.execs k = some ⟨cmdArgs, .waiting⟩ ∨
      (cfg.poolSize ≤ s.fdConns.count ∧ s'.fdConns = s.fdConns) := by
  cases h with
  | same _ execs => exact .inl (execs ▸ hk)
  | enter execs _ _ goes =>
    rw [execs] at hk
    by_cases hnew : k = s.called
    · subst hnew
      rw [Function.update_self, Option.some.injEq, Exec.mk.injEq] at hk
      rcases goes with hpc | ⟨hpc, -⟩
      · exact absurd (hk.2.symm.trans hpc) (by simp)
      · exact absurd (hk.2.symm.trans hpc) (by simp)
    · rw [Function.update_of_ne hnew] at hk
      exact .inl hk
  | @goes _ _ j pc _ execs _ _ waits =>
    rw [execs, State.execs_setPc] at hk
    split at hk
    · rw [Option.map_eq_some_iff] at hk
      obtain ⟨e, -, he⟩ := hk
      exact .inr (waits (congrArg Exec.pc he)).2
    · exact .inl hk

/-- A call begins under the next free number, and only calls that have begun move. -/
theorem CallStep.numbered (h : CallStep cfg s a s') (hnum : Numbered s) : Numbered s' := by
  intro k hk
  cases h with
  | same _ execs called =>
    rw [execs]
    exact hnum k (called ▸ hk)
  | enter execs called =>
    rw [called] at hk
    rw [execs, Function.update_of_ne (by omega)]
    exact hnum k (by omega)
  | @goes _ _ j _ _ execs called =>
    rw [called] at hk
    rw [execs, State.execs_setPc]
    split
    · rename_i hself
      rw [← hself, hnum k hk]
      rfl
    · exact hnum k hk

/-- In every reachable state the calls with a number below `called` are those that have begun. -/
theorem run_numbered {as : List Action} (hr : run (step cfg) {} as = some s) : Numbered s :=
  run_induction (fun _ _ _ h hstep => (step_calls hstep).numbered h) (fun _ _ => rfl) hr

end Resh.Client
