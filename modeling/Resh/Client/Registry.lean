import Resh.Client.Moves

namespace Resh.Client

open Resh.Go

/-!
# The registry of connections

Which connection stands in `fdConns` under its fd, over every run in which the goroutines that
close connections keep out of the way of the event loop and of newer connections (`Alone`).

* `close_cases`, `proceed_cases` — what the two functions that end a part can do;
* `Wired` — an entry of `fdConns` is an open connection with that fd, and the event loop works on
  registered connections only;
* `step_wired` — every step keeps it.
-/

variable {cfg : Config} {s s' : State} {id : ℕ} {c c' : Conn}

namespace State

/-! ### Views of the state -/

/-- The fd of a connection. -/
def fd? (s : State) (id : ℕ) : Option ℕ := (s.conns id).map Conn.fd

/-- The entry of `fdConns` under the fd of a connection. -/
def entry (s : State) (id : ℕ) : Option ℕ := (s.fd? id).bind s.fdConns.slot

theorem fd?_eq (hc : s.conns id = some c) : s.fd? id = some c.fd := by rw [fd?, hc]; rfl

theorem entry_eq (hc : s.conns id = some c) : s.entry id = s.fdConns.slot c.fd := by
  rw [entry, fd?_eq hc]; rfl

/-- The fd of a connection never changes. -/
theorem fd?_setConn (hc : s.conns id = some c) (hfd : c'.fd = c.fd) :
    (s.setConn id c').fd? = s.fd? := by
  funext i
  by_cases hi : i = id
  · subst hi
    simp only [fd?, setConn, Function.update_self, hc, Option.map_some, hfd]
  · simp only [fd?, setConn, Function.update_of_ne hi]

/-- The entry under the fd of a connection does not change with the connection, for the fd is the
    same. -/
theorem entry_setConn (hc : s.conns id = some c) (hfd : c'.fd = c.fd) :
    (s.setConn id c').entry = s.entry := by
  funext i
  rw [entry, fd?_setConn hc hfd]
  rfl

/-! ### The end of a part -/

/-- **Closing** panics without an entry and otherwise removes the entry, whoever it belongs to. -/
theorem close_cases {who : Who} {typ : ErrType} {err : Option Cause}
    (h : s.closeConnWithError who id c typ err = some s') :
    (s.fdConns.slot c.fd = none ∧ s' = s.stuck who) ∨
      ∃ v, s.fdConns.slot c.fd = some v ∧
        s' = s.removed who c.fd
        (.teardown id v :: (s.closeErrors c.fd ++ closeEvents c typ err)) := by
  unfold closeConnWithError at h
  split at h
  · cases h
  · cases hslot : s.fdConns.slot c.fd with
    | none =>
      simp only [hslot, Option.some.injEq] at h
      exact .inl ⟨rfl, h.symm⟩
    | some v =>
      simp only [hslot, Option.some.injEq] at h
      exact .inr ⟨v, rfl, h.symm⟩

/-- A part of the event loop closes the connection, or it ends somewhere in the event loop with
    the connection still in its place. -/
theorem proceed_cases {es : List Event} {next : Next} (h : s.proceed id c es next = some s') :
    (∃ loop, s' = { s.setConn id c with log := s.log ++ es, loop := loop } ∧
      ((next = .wait ∧ loop = .ready) ∨ (next = .parse ∧ loop = .parsing id) ∨
        (next = .push ∧ loop = .pushing id) ∨ (next = .panic ∧ loop = .dead))) ∨
    ∃ typ err, next = .close typ err ∧
      ({ s.setConn id c with log := s.log ++ es } : State).closeConnWithError .loop id c typ err
        = some s' := by
  cases next with
  | wait => exact .inl ⟨_, (Option.some.inj h).symm, .inl ⟨rfl, rfl⟩⟩
  | parse => exact .inl ⟨_, (Option.some.inj h).symm, .inr (.inl ⟨rfl, rfl⟩)⟩
  | push => exact .inl ⟨_, (Option.some.inj h).symm, .inr (.inr (.inl ⟨rfl, rfl⟩))⟩
  | panic => exact .inl ⟨_, (Option.some.inj h).symm, .inr (.inr (.inr ⟨rfl, rfl⟩))⟩
  | close typ err => exact .inr ⟨typ, err, rfl, h⟩

end State

/-! ### Alone -/

/-- The connection that a goroutine other than the event loop closes in this step. -/
def outside (cfg : Config) (s : State) : Action → Option ℕ
  | .trim _ => if s.fdConns.count > cfg.poolSize then s.fdIdle.head? else none
  | .timeout id => some id
  | .shut fd => s.fdConns.slot fd
  | _ => none

/-- A goroutine other than the event loop closes a connection only while the event loop does not
    work on it, and not when its fd number belongs to a newer connection. -/
def Alone (cfg : Config) (s : State) (a : Action) : Prop :=
  match outside cfg s a with
  | none => True
  | some id => s.loop.at ≠ some id ∧ (s.entry id = none ∨ s.entry id = some id)

instance (cfg : Config) (s : State) (a : Action) : Decidable (Alone cfg s a) :=
  match h : outside cfg s a with
  | none => isTrue (by simp [Alone, h])
  | some id =>
    decidable_of_iff (s.loop.at ≠ some id ∧ (s.entry id = none ∨ s.entry id = some id))
      (by simp [Alone, h])

/-- The state in which `closeConnWithError` is called differs in the pool and in the timer. -/
theorem Closes.start {a : Action} {s₀ : State} (h : Closes cfg s a s₀ id c) :
    outside cfg s a = some id ∧ s₀.conns id = some c ∧ s₀.fd? = s.fd? ∧ s₀.fdConns = s.fdConns ∧
      s₀.opened = s.opened ∧ s₀.made = s.made ∧ s₀.loop = s.loop ∧ s₀.log = s.log := by
  cases h with
  | trim full idle conn =>
    exact ⟨by rw [outside, if_pos full, idle]; rfl, conn, rfl, rfl, rfl, rfl, rfl, rfl⟩
  | timeout conn =>
    exact ⟨rfl, Function.update_self .., State.fd?_setConn conn rfl, rfl, rfl, rfl, rfl, rfl⟩
  | shut slot conn => exact ⟨slot, conn, rfl, rfl, rfl, rfl, rfl, rfl⟩

theorem Alone.closes {a : Action} {s₀ : State} (ha : Alone cfg s a) (h : Closes cfg s a s₀ id c) :
    s.loop.at ≠ some id ∧ (s.entry id = none ∨ s.entry id = some id) := by
  simpa only [Alone, h.start.1] using ha

/-! ### The invariant -/

/-- An fd that is not open has no entry. -/
theorem State.slot_of_not_opened (h : ∀ fd id, s.fdConns.slot fd = some id →
    s.opened fd = true ∧ s.fd? id = some fd)
    {fd : ℕ} (hfd : s.opened fd = false) : s.fdConns.slot fd = none := by
  by_contra hne
  obtain ⟨i, hi⟩ := Option.ne_none_iff_exists'.mp hne
  rw [(h fd i hi).1] at hfd
  cases hfd

/-- The registry and the event loop agree with the connections. -/
structure Wired (s : State) : Prop where
  made : ∀ id, s.made ≤ id → s.fd? id = none
  slot : ∀ fd id, s.fdConns.slot fd = some id → s.opened fd = true ∧ s.fd? id = some fd
  loop : ∀ id, s.loop.at = some id → s.entry id = some id

namespace Wired

theorem init : Wired {} :=
  ⟨fun _ _ => rfl, fun _ _ h => absurd h (by simp), fun _ h => absurd h (by simp [Loop.at])⟩

/-- A connection that exists has been made. -/
theorem lt_made (h : Wired s) {fd : ℕ} (hfd : s.fd? id = some fd) : id < s.made := by
  by_contra hle
  have hnone := h.made id (by omega)
  rw [hfd] at hnone
  cases hnone

theorem free (h : Wired s) {fd : ℕ} (hfd : s.opened fd = false) : s.fdConns.slot fd = none :=
  State.slot_of_not_opened h.slot hfd

/-- A step that changes neither the entries nor the fds. -/
theorem same (h : Wired s) (hmade : s'.made = s.made) (hfd : s'.fd? = s.fd?)
    (hslot : s'.fdConns.slot = s.fdConns.slot) (hopen : s'.opened = s.opened)
    (hloop : ∀ id, s'.loop.at = some id → s.entry id = some id) : Wired s' := by
  refine ⟨fun id => ?_, fun fd id => ?_, fun id hid => ?_⟩
  · rw [hmade, hfd]
    exact h.made id
  · rw [hslot, hopen, hfd]
    exact h.slot fd id
  · rw [State.entry, hfd, hslot]
    exact hloop id hid

/-- A connection changes, but not its fd. -/
theorem setConn (h : Wired s) (hc : s.conns id = some c) (hfd : c'.fd = c.fd) :
    Wired (s.setConn id c') :=
  h.same rfl (State.fd?_setConn hc hfd) rfl rfl h.loop

/-- A connection is removed from its own entry. -/
theorem removed (h : Wired s) (hslot : s.fdConns.slot c.fd = some id)
    {who : State.Who} (hwho : who = .other → s.loop.at ≠ some id) (es : List Event) :
    Wired (s.removed who c.fd es) := by
  refine ⟨h.made, fun fd i hi => ?_, fun i hi => ?_⟩
  · have hne : fd ≠ c.fd := by
      rintro rfl
      simp [State.removed] at hi
    simp only [State.removed, Function.update_of_ne hne] at hi ⊢
    exact h.slot fd i hi
  · cases who with
    | loop => simp [State.removed, Loop.at] at hi
    | other =>
      have hent := h.loop i hi
      have hne : i ≠ id := fun e => hwho rfl (e ▸ hi)
      rw [State.entry, Option.bind_eq_some_iff] at hent ⊢
      obtain ⟨fd, hfd, hs⟩ := hent
      have hne' : fd ≠ c.fd := by
        rintro rfl
        rw [hslot, Option.some.injEq] at hs
        exact hne hs.symm
      exact ⟨fd, hfd, by simp only [State.removed, Function.update_of_ne hne', hs]⟩

/-- A new connection gets an fd that was not open. -/
theorem added (h : Wired s) (hfd : s.opened c.fd = false) : Wired (s.added c.fd c) := by
  have hsame : ∀ i, s.fd? i ≠ none → (s.added c.fd c).fd? i = s.fd? i := fun i hi => by
    have hne : i ≠ s.made := by
      rintro rfl
      exact hi (h.made _ le_rfl)
    simp only [State.fd?, State.added, State.setConn, Function.update_of_ne hne]
  refine ⟨fun i hi => ?_, fun fd i hi => ?_, fun i hi => ?_⟩
  · simp only [State.added] at hi
    have hne : i ≠ s.made := by omega
    simp only [State.fd?, State.added, State.setConn, Function.update_of_ne hne]
    exact h.made i (by omega)
  · by_cases hf : fd = c.fd
    · subst hf
      simp only [State.added, Function.update_self, Option.some.injEq] at hi ⊢
      subst hi
      exact ⟨trivial, by simp [State.fd?, State.setConn]⟩
    · simp only [State.added, Function.update_of_ne hf] at hi
      obtain ⟨hopen, hfd?⟩ := h.slot fd i hi
      refine ⟨by simp only [State.added, Function.update_of_ne hf, hopen], ?_⟩
      rw [hsame i (by rw [hfd?]; simp), hfd?]
  · have hent := h.loop i hi
    rw [State.entry, Option.bind_eq_some_iff] at hent ⊢
    obtain ⟨fd, hfd?, hs⟩ := hent
    have hf : fd ≠ c.fd := by
      rintro rfl
      rw [h.free hfd] at hs
      cases hs
    refine ⟨fd, by rw [hsame i (by rw [hfd?]; simp), hfd?], ?_⟩
    simp only [State.added, Function.update_of_ne hf, hs]

/-- A close that does not hit a newer connection. -/
theorem close (h : Wired s) (hc : s.conns id = some c) {who : State.Who} {typ : ErrType}
    {err : Option Cause} (hwho : who = .other → s.loop.at ≠ some id)
    (hown : s.entry id = none ∨ s.entry id = some id)
    (hclose : s.closeConnWithError who id c typ err = some s') : Wired s' := by
  rw [State.entry_eq hc] at hown
  obtain ⟨-, rfl⟩ | ⟨v, hv, rfl⟩ := State.close_cases hclose
  · cases who with
    | loop => exact h.same rfl rfl rfl rfl fun i hi => absurd hi (by simp [State.stuck,
        State.panicked, Loop.at])
    | other => exact h.same rfl rfl rfl rfl h.loop
  · obtain rfl : v = id := by
      rcases hown with hnone | hown
      · rw [hnone] at hv; cases hv
      · rw [hown, Option.some.injEq] at hv; exact hv.symm
    exact h.removed hv hwho _

end Wired

/-! ### Registered connections -/

/-- Behind `fdConns.Delete` the connection is not registered; the others are as they were. -/
theorem entry_removed (hc : s.conns id = some c) (hslot : s.fdConns.slot c.fd = some id)
    (who : State.Who) (es : List Event) (i : ℕ) :
    (s.removed who c.fd es).entry i = some i ↔ s.entry i = some i ∧ i ≠ id := by
  have hentry : (s.removed who c.fd es).entry i
      = (s.fd? i).bind (Function.update s.fdConns.slot c.fd none) := rfl
  rw [hentry, State.entry]
  cases hfd : s.fd? i with
  | none => simp
  | some fd =>
    simp only [Option.bind_some]
    by_cases hf : fd = c.fd
    · subst hf
      rw [Function.update_self, hslot]
      constructor
      · intro h
        cases h
      · rintro ⟨h, hne⟩
        exact absurd (Option.some.inj h).symm hne
    · rw [Function.update_of_ne hf]
      have hne : i ≠ id := by
        rintro rfl
        rw [State.fd?_eq hc, Option.some.injEq] at hfd
        exact hf hfd.symm
      exact ⟨fun h => ⟨h, hne⟩, fun h => h.1⟩

/-- Behind `fdConns.Add` the new connection is registered too. -/
theorem entry_added (hfree : s.fdConns.slot c.fd = none) (i : ℕ) :
    (s.added c.fd c).entry i = some i ↔ s.entry i = some i ∨ i = s.made := by
  have hentry : (s.added c.fd c).entry i
      = ((s.added c.fd c).fd? i).bind (Function.update s.fdConns.slot c.fd (some s.made)) := rfl
  rw [hentry]
  by_cases hi : i = s.made
  · subst hi
    have hnew : (s.added c.fd c).fd? s.made = some c.fd := by
      simp [State.fd?, State.added, State.setConn]
    simp [hnew]
  · have hold : (s.added c.fd c).fd? i = s.fd? i := by
      simp only [State.fd?, State.added, State.setConn, Function.update_of_ne hi]
    rw [hold, State.entry]
    cases hf : s.fd? i with
    | none => simp [hi]
    | some fd =>
      simp only [Option.bind_some, hi, or_false]
      by_cases heq : fd = c.fd
      · subst heq
        rw [Function.update_self]
        constructor
        · intro hm
          exact absurd (Option.some.inj hm).symm hi
        · intro hs
          rw [hfree] at hs
          cases hs
      · rw [Function.update_of_ne heq]

/-! ### The parts of the event loop -/

/-- A part works on the connection of the event loop and leaves its fd and what its timer has
    started. -/
theorem Part.spec {a : Action} {es : List Event} {next : Next} (h : Part cfg s a id c c' es next) :
    s.loop.at = some id ∧ c'.fd = c.fd ∧ c'.fired = c.fired := by
  cases h with
  | write loop => exact ⟨by rw [loop]; rfl, rfl, rfl⟩
  | read loop => exact ⟨by rw [loop]; rfl, rfl, rfl⟩
  | parse loop round =>
    refine ⟨by rw [loop]; rfl, ?_⟩
    cases round with
    | auth => exact ⟨rfl, rfl⟩
    | reply => exact ⟨rfl, rfl⟩
    | release _ _ _ timer => exact ⟨rfl, timer⟩
    | free => exact ⟨rfl, rfl⟩
    | wait => exact ⟨rfl, rfl⟩
    | failed => exact ⟨rfl, rfl⟩
    | panic => exact ⟨rfl, rfl⟩

/-- Where a part of the event loop ends, the event loop is at its connection or at none. -/
theorem Wired.proceed (h : Wired s) {a : Action} {es : List Event} {next : Next}
    (hc : s.conns id = some c) (hpart : Part cfg s a id c c' es next)
    (hproceed : s.proceed id c' es next = some s') : Wired s' := by
  obtain ⟨hloop, hfd, -⟩ := hpart.spec
  have hset : Wired { s.setConn id c' with log := s.log ++ es } :=
    (h.setConn hc hfd).same rfl rfl rfl rfl (h.setConn hc hfd).loop
  have hent : (s.setConn id c').entry id = some id := by
    rw [State.entry, State.fd?_setConn hc hfd]
    exact h.loop id hloop
  obtain ⟨loop, rfl, hwhere⟩ | ⟨typ, err, -, hclose⟩ := State.proceed_cases hproceed
  · refine hset.same rfl rfl rfl rfl fun i hi => ?_
    have hid : i = id := by
      rcases hwhere with ⟨-, rfl⟩ | ⟨-, rfl⟩ | ⟨-, rfl⟩ | ⟨-, rfl⟩
      · cases hi
      · exact (Option.some.inj hi).symm
      · exact (Option.some.inj hi).symm
      · cases hi
    rw [hid]
    exact hent
  · exact hset.close (Function.update_self ..) (fun hwho => absurd hwho (by simp))
      (.inr hent) hclose

/-- **Every step keeps the registry**, if it closes no connection of the event loop and no newer
    one (`Alone.closes`). -/
theorem step_wired {a : Action} (h : Wired s)
    (ha : ∀ {s₀ : State} {id : ℕ} {c : Conn}, Closes cfg s a s₀ id c →
      s.loop.at ≠ some id ∧ (s.entry id = none ∨ s.entry id = some id))
    (hstep : step cfg s a = some s') : Wired s' := by
  cases step_move hstep with
  | enter => exact h.same rfl rfl rfl rfl h.loop
  | @fill _ _ _ _ _ _ c c' takes idle conn filled =>
    obtain ⟨death, hfill, -⟩ := Conn.fill_spec filled
    have hset := h.setConn conn (show c'.fd = c.fd by rw [hfill])
    cases takes with
    | exec => exact hset.same rfl rfl rfl rfl hset.loop
    | receive => exact hset.same rfl rfl rfl rfl hset.loop
  | fillPanic takes =>
    cases takes with
    | exec => exact h.same rfl rfl rfl rfl h.loop
    | receive => exact h.same rfl rfl rfl rfl h.loop
  | pc => exact h.same rfl rfl rfl rfl h.loop
  | refused => exact h.same rfl rfl rfl rfl h.loop
  | @connect k fd cmdArgs _ _ exec closed =>
    have hadd : Wired (s.added fd (Conn.fresh cfg fd k cmdArgs)) := Wired.added h closed
    exact hadd.same rfl rfl rfl rfl hadd.loop
  | @arm k id cmdArgs c exec conn =>
    have hfd : (c.arm cfg).fd = c.fd := by rw [Conn.arm]; split <;> rfl
    have hset := h.setConn conn hfd
    exact hset.same rfl rfl rfl rfl hset.loop
  | lost => exact h.same rfl rfl rfl rfl h.loop
  | loopPanic => exact h.same rfl rfl rfl rfl fun i hi => absurd hi (by simp [Loop.at])
  | dropped loop slot conn touch =>
    obtain ⟨death, hc', -⟩ := Conn.touch_spec touch
    exact h.setConn conn (by rw [hc'])
  | @handle fd id write c c' loop slot conn touch =>
    obtain ⟨death, hc', -⟩ := Conn.touch_spec touch
    have hset := h.setConn conn (show c'.fd = c.fd by rw [hc'])
    refine hset.same rfl rfl rfl rfl fun i hi => ?_
    -- the loop is at the connection that `fdConns.Get` has found
    have hid : i = id := by
      cases write
      · exact (Option.some.inj hi).symm
      · exact (Option.some.inj hi).symm
    rw [hid, State.entry, State.fd?_setConn conn (by rw [hc']), (h.slot _ _ slot).2]
    exact slot
  | part conn part proceed => exact h.proceed conn part proceed
  | push => exact h.same rfl rfl rfl rfl fun i hi => absurd hi (by simp [Loop.at])
  | expire conn => exact h.setConn conn rfl
  | close closes close =>
    obtain ⟨-, hconn, hfd, hmap, hopen, hmade, hloop, -⟩ := closes.start
    -- the entry that goes is not the one the loop is at
    obtain ⟨haway, hown⟩ := ha closes
    have hstart : Wired _ := h.same hmade hfd (congrArg FdMap.slot hmap) hopen
      (fun i hi => h.loop i (hloop ▸ hi))
    refine hstart.close hconn (fun _ => hloop ▸ haway) ?_ close
    rw [State.entry, hfd, hmap]
    exact hown

end Resh.Client
