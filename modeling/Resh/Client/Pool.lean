import Resh.Client.Registry

namespace Resh.Client

open Resh.Go

/-!
# The pool of idle connections

What holds of the pool `fdIdle` in every run, whatever the server, the timers and the callers do:
a connection is in it at most once, has no callback and no input, and its timer exists.  The pool
says nothing about `fdConns`: a connection of the pool may be closed.

* `Pooled` — the invariant, which also says what the event loop has at hand on the way to the pool;
* `step_pooled` — every step keeps it.
-/

variable {cfg : Config} {s s' : State} {id : ℕ} {c c' : Conn}

/-- A connection that waits for the next command. -/
def Conn.Rests (c : Conn) : Prop := c.callback = none ∧ c.inp = [] ∧ c.authState = 0

/-- The pool, and the connection of the event loop. -/
structure Pooled (cfg : Config) (s : State) : Prop where
  made : ∀ id, s.made ≤ id → s.conns id = none
  loop : ∀ id, s.loop.at = some id → s.conns id ≠ none
  idle : ∀ id ∈ s.fdIdle, ∃ c, s.conns id = some c ∧ c.Rests
  nodup : s.fdIdle.Nodup
  parsing : ∀ id, s.loop = .parsing id → ∃ c, s.conns id = some c ∧ c.callback ≠ none
  pushing : ∀ id, s.loop = .pushing id → id ∉ s.fdIdle ∧ ∃ c, s.conns id = some c ∧ c.Rests
  timed : ∀ id c, s.conns id = some c → cfg.timeout = true →
    c.callback = none ∨ s.loop.at = some id → c.death ≠ none

namespace Pooled

theorem init : Pooled cfg {} where
  made := fun _ _ => rfl
  loop := fun _ h => absurd h (by simp [Loop.at])
  idle := fun _ h => absurd h (by simp)
  nodup := List.nodup_nil
  parsing := fun _ h => absurd h (by simp)
  pushing := fun _ h => absurd h (by simp)
  timed := fun _ _ h => absurd h (by simp)

/-- A connection of the pool, or the one that goes into it, is at rest. -/
theorem rests (h : Pooled cfg s) (hid : id ∈ s.fdIdle) (hc : s.conns id = some c) : c.Rests := by
  obtain ⟨d, hd, hrests⟩ := h.idle id hid
  rw [hc, Option.some.injEq] at hd
  exact hd ▸ hrests

/-- The connection whose replies are read is active. -/
theorem active (h : Pooled cfg s) (hloop : s.loop = .parsing id) (hc : s.conns id = some c) :
    c.callback ≠ none := by
  obtain ⟨d, hd, hcb⟩ := h.parsing id hloop
  rw [hc, Option.some.injEq] at hd
  exact hd ▸ hcb

/-- An active connection is not in the pool. -/
theorem not_mem (h : Pooled cfg s) (hc : s.conns id = some c) (hcb : c.callback ≠ none) :
    id ∉ s.fdIdle := fun hid => hcb (h.rests hid hc).1

/-- A step that leaves the connections and takes at most from the pool. -/
theorem weaken (h : Pooled cfg s) (hconns : s'.conns = s.conns) (hmade : s'.made = s.made)
    (hidle : s'.fdIdle.Sublist s.fdIdle) (hloop : s'.loop = s.loop ∨ s'.loop.at = none) :
    Pooled cfg s' := by
  have hat : ∀ id, s'.loop.at = some id → s'.loop = s.loop := by
    intro id hid
    refine hloop.resolve_right fun hnone => ?_
    rw [hnone] at hid
    cases hid
  refine ⟨fun id hid => ?_, fun id hid => ?_, fun id hid => ?_, h.nodup.sublist hidle,
    fun id hid => ?_, fun id hid => ?_, fun id c hc htime hwhen => ?_⟩
  · rw [hconns]
    exact h.made id (hmade ▸ hid)
  · rw [hconns]
    exact h.loop id (hat id hid ▸ hid)
  · rw [hconns]
    exact h.idle id (hidle.subset hid)
  · rw [hconns]
    exact h.parsing id (hat id (by rw [hid]; rfl) ▸ hid)
  · rw [hconns]
    obtain ⟨hnot, hrests⟩ := h.pushing id (hat id (by rw [hid]; rfl) ▸ hid)
    exact ⟨fun hmem => hnot (hidle.subset hmem), hrests⟩
  · rw [hconns] at hc
    refine h.timed id c hc htime (hwhen.imp_right fun hid => ?_)
    rw [← hat id hid]
    exact hid

/-- A connection changes, and the event loop stays or goes to this connection or to none. -/
theorem update (h : Pooled cfg s) (hc : s.conns id = some c) {loop : Loop}
    (hloop : ∀ i, i ≠ id → loop.at = some i → loop = s.loop)
    (hrests : id ∈ s.fdIdle → c'.Rests) (hparse : loop = .parsing id → c'.callback ≠ none)
    (hpush : loop = .pushing id → id ∉ s.fdIdle ∧ c'.Rests)
    (htimed : cfg.timeout = true → c'.callback = none ∨ loop.at = some id → c'.death ≠ none) :
    Pooled cfg { s.setConn id c' with loop := loop } := by
  have hself : (s.setConn id c').conns id = some c' := Function.update_self ..
  have hother : ∀ i, i ≠ id → (s.setConn id c').conns i = s.conns i := fun i hi =>
    Function.update_of_ne hi ..
  -- every field splits into this connection and the others
  refine ⟨fun i hi => ?_, fun i hi => ?_, fun i hi => ?_, h.nodup, fun i hi => ?_, fun i hi => ?_,
    fun i d hd htime hwhen => ?_⟩
  · have hne : i ≠ id := by
      rintro rfl
      rw [h.made i hi] at hc
      cases hc
    exact (hother i hne).trans (h.made i hi)
  · by_cases hne : i = id
    · rw [hne]
      exact fun hnone => absurd (hself.symm.trans hnone) (by simp)
    · exact fun hnone => h.loop i (hloop i hne hi ▸ hi) ((hother i hne).symm.trans hnone)
  · by_cases hne : i = id
    · subst hne
      exact ⟨c', hself, hrests hi⟩
    · obtain ⟨d, hd, hdr⟩ := h.idle i hi
      exact ⟨d, (hother i hne).trans hd, hdr⟩
  · by_cases hne : i = id
    · subst hne
      exact ⟨c', hself, hparse hi⟩
    · obtain ⟨d, hd, hdr⟩ := h.parsing i (hloop i hne (congrArg Loop.at hi) ▸ hi)
      exact ⟨d, (hother i hne).trans hd, hdr⟩
  · by_cases hne : i = id
    · subst hne
      exact ⟨(hpush hi).1, c', hself, (hpush hi).2⟩
    · obtain ⟨hnot, d, hd, hdr⟩ := h.pushing i (hloop i hne (congrArg Loop.at hi) ▸ hi)
      exact ⟨hnot, d, (hother i hne).trans hd, hdr⟩
  · by_cases hne : i = id
    · subst hne
      obtain rfl : c' = d := Option.some.inj (hself.symm.trans hd)
      exact htimed htime hwhen
    · refine h.timed i d ((hother i hne).symm.trans hd) htime (hwhen.imp_right fun hi => ?_)
      rw [← hloop i hne hi]
      exact hi

/-- The timer of a connection changes, or its output. -/
theorem setConn (h : Pooled cfg s) (hc : s.conns id = some c) (hcb : c'.callback = c.callback)
    (hinp : c'.inp = c.inp) (hauth : c'.authState = c.authState)
    (hdeath : c.death ≠ none → c'.death ≠ none) : Pooled cfg (s.setConn id c') := by
  have hrests : c.Rests → c'.Rests := by
    rw [Conn.Rests, Conn.Rests, hcb, hinp, hauth]
    exact fun h => h
  refine h.update hc (fun _ _ _ => rfl) (fun hid => hrests (h.rests hid hc)) (fun hloop => ?_)
    (fun hloop => ?_) (fun htime hwhen => ?_)
  · rw [hcb]
    exact h.active hloop hc
  · obtain ⟨hnot, d, hd, hdr⟩ := h.pushing id hloop
    rw [hc, Option.some.injEq] at hd
    exact ⟨hnot, hrests (hd ▸ hdr)⟩
  · rw [hcb] at hwhen
    exact hdeath (h.timed id c hc htime hwhen)

/-- A connection of the pool gets a command. -/
theorem fill (h : Pooled cfg s) {rest : List ℕ} {k : ℕ} {cmdArgs : List Arg}
    (hidle : s.fdIdle = id :: rest) (hc : s.conns id = some c)
    (hfill : c.fill cfg k cmdArgs = some c') :
    Pooled cfg (({ s with fdIdle := rest }).setConn id c') := by
  obtain ⟨death, rfl, -⟩ := Conn.fill_spec hfill
  have hnot : id ∉ rest := by
    have hnodup := h.nodup
    rw [hidle, List.nodup_cons] at hnodup
    exact hnodup.1
  have hrests : c.Rests := h.rests (by rw [hidle]; exact List.mem_cons_self ..) hc
  have htail : Pooled cfg { s with fdIdle := rest } :=
    h.weaken rfl rfl (by rw [hidle]; exact List.sublist_cons_self ..) (.inl rfl)
  refine htail.update hc (fun _ _ _ => rfl) (fun hid => absurd hid hnot) (fun _ => by simp)
    (fun hloop => ?_) (fun htime hwhen => ?_)
  · exact absurd (hidle ▸ List.mem_cons_self ..) (h.pushing id hloop).1
  · obtain ⟨d, hd, -, hkept⟩ := Conn.fill_spec hfill
    have hdeath : d = death := (congrArg Conn.death hd).symm
    rw [← hdeath]
    exact hkept (h.timed id c hc htime (.inl hrests.1))

/-- A new connection is active. -/
theorem added (h : Pooled cfg s) (hcb : c.callback ≠ none) : Pooled cfg (s.added c.fd c) := by
  have hself : (s.added c.fd c).conns s.made = some c := Function.update_self ..
  have hother : ∀ i, i ≠ s.made → (s.added c.fd c).conns i = s.conns i := fun i hi =>
    Function.update_of_ne hi ..
  have hne : ∀ {i : ℕ} {d : Conn}, s.conns i = some d → i ≠ s.made := by
    rintro i d hd rfl
    rw [h.made _ le_rfl] at hd
    cases hd
  have hat : s.loop.at ≠ some s.made := fun hat => h.loop _ hat (h.made _ le_rfl)
  refine ⟨fun i hi => ?_, fun i hi => ?_, fun i hi => ?_, h.nodup, fun i hi => ?_, fun i hi => ?_,
    fun i d hd htime hwhen => ?_⟩
  · simp only [State.added] at hi
    exact (hother i (by omega)).trans (h.made i (by omega))
  · rw [hother i fun heq => hat (heq ▸ hi)]
    exact h.loop i hi
  · obtain ⟨d, hd, hdr⟩ := h.idle i hi
    exact ⟨d, (hother i (hne hd)).trans hd, hdr⟩
  · obtain ⟨d, hd, hdr⟩ := h.parsing i hi
    exact ⟨d, (hother i (hne hd)).trans hd, hdr⟩
  · obtain ⟨hnot, d, hd, hdr⟩ := h.pushing i hi
    exact ⟨hnot, d, (hother i (hne hd)).trans hd, hdr⟩
  · by_cases heq : i = s.made
    · subst heq
      obtain rfl : c = d := Option.some.inj (hself.symm.trans hd)
      rcases hwhen with hnone | hloop
      · exact absurd hnone hcb
      · exact absurd hloop hat
    · exact h.timed i d ((hother i heq).symm.trans hd) htime hwhen

/-- A connection goes into the pool. -/
theorem push (h : Pooled cfg s) (hloop : s.loop = .pushing id) :
    Pooled cfg { s with fdIdle := s.fdIdle ++ [id], loop := .ready } := by
  obtain ⟨hnot, hrests⟩ := h.pushing id hloop
  refine ⟨h.made, fun i hi => absurd hi (by simp [Loop.at]), fun i hi => ?_, ?_,
    fun i hi => absurd hi (by simp), fun i hi => absurd hi (by simp), fun i d hd htime hwhen => ?_⟩
  · rw [List.mem_append, List.mem_singleton] at hi
    rcases hi with hi | rfl
    · exact h.idle i hi
    · exact hrests
  · exact List.nodup_append.mpr ⟨h.nodup, List.pairwise_singleton .., fun a ha b hb hab =>
      hnot (List.mem_singleton.mp hb ▸ hab ▸ ha)⟩
  · refine h.timed i d hd htime (.inl ?_)
    rcases hwhen with hnone | hat
    · exact hnone
    · cases hat

end Pooled

/-! ### The parts of the event loop -/

/-- What a part does to the connection: it keeps the timer, it keeps a connection at rest, and the
    callback goes only where the connection is ready for the pool. -/
theorem Part.conn {a : Action} {es : List Event} {next : Next} (h : Part cfg s a id c c' es next) :
    (c.death ≠ none → c'.death ≠ none) ∧ (s.loop ≠ .parsing id → c.Rests → c'.Rests) ∧
      (c'.callback = c.callback ∨ s.loop = .parsing id ∧ c'.Rests ∧
        (next = .push ∨ next = .wait)) := by
  cases h with
  | write => exact ⟨fun h => h, fun _ h => h, .inl rfl⟩
  | read _ idle =>
    refine ⟨fun h => h, fun _ h => ⟨h.1, ?_, h.2.2⟩, .inl rfl⟩
    rw [← h.2.1]
    exact (idle h.1).1
  | parse loop round =>
    cases round with
    | auth => exact ⟨fun h => h, fun hne => absurd loop hne, .inl rfl⟩
    | reply => exact ⟨fun h => h, fun hne => absurd loop hne, .inl rfl⟩
    | release inp state _ _ kept goes =>
      exact ⟨kept, fun hne => absurd loop hne, .inr ⟨loop, ⟨rfl, inp, state⟩, goes⟩⟩
    | free => exact ⟨fun h => h, fun _ h => h, .inl rfl⟩
    | wait => exact ⟨fun h => h, fun _ h => h, .inl rfl⟩
    | failed => exact ⟨fun h => h, fun _ h => h, .inl rfl⟩
    | panic => exact ⟨fun h => h, fun _ h => h, .inl rfl⟩

/-- Only a round of the loop of `readConn` is followed by the pool, and the loop goes on only for
    an active connection. -/
theorem Part.next {a : Action} {es : List Event} {next : Next} (h : Part cfg s a id c c' es next) :
    (next = .push → s.loop = .parsing id ∧ c'.Rests) ∧
      (next = .parse → s.loop = .parsing id ∧ c'.callback = c.callback ∨ c'.callback ≠ none) := by
  cases h with
  | write _ goes => rcases goes with rfl | ⟨err, rfl⟩ <;> exact ⟨by simp, by simp⟩
  | read _ _ _ goes =>
    rcases goes with rfl | ⟨rfl, hcb, -⟩ | ⟨typ, err, rfl, -⟩
    · exact ⟨by simp, by simp⟩
    · exact ⟨by simp, fun _ => .inr hcb⟩
    · exact ⟨by simp, by simp⟩
  | parse loop round =>
    cases round with
    | auth => exact ⟨by simp, fun _ => .inl ⟨loop, rfl⟩⟩
    | reply => exact ⟨by simp, fun _ => .inl ⟨loop, rfl⟩⟩
    | release inp state _ _ _ goes =>
      refine ⟨fun _ => ⟨loop, rfl, inp, state⟩, fun hnext => ?_⟩
      rcases goes with rfl | rfl <;> cases hnext
    | free => exact ⟨by simp, by simp⟩
    | wait => exact ⟨by simp, by simp⟩
    | failed => exact ⟨by simp, by simp⟩
    | panic => exact ⟨by simp, by simp⟩

namespace Pooled

/-- A part of the event loop, up to where it closes. -/
theorem part (h : Pooled cfg s) {a : Action} {es : List Event} {next : Next}
    (hc : s.conns id = some c) (hpart : Part cfg s a id c c' es next) {loop : Loop}
    (hloop : loop = .ready ∨ next = .parse ∧ loop = .parsing id ∨
      next = .push ∧ loop = .pushing id ∨ loop = .dead ∨
      (∃ typ err, next = .close typ err) ∧ loop = s.loop) :
    Pooled cfg { s.setConn id c' with loop := loop } := by
  obtain ⟨hat, -⟩ := hpart.spec
  obtain ⟨hkept, hrests, hcb⟩ := hpart.conn
  obtain ⟨hpush, hparse⟩ := hpart.next
  have hnot : s.loop = .parsing id → id ∉ s.fdIdle := fun hl => h.not_mem hc (h.active hl hc)
  -- nothing but a round of the loop of `readConn` leaves the pushing state
  have hclose : s.loop ≠ .pushing id := by
    cases hpart with
    | write loop => rw [loop]; simp
    | read loop => rw [loop]; simp
    | parse loop => rw [loop]; simp
  refine h.update hc (fun i hi hat' => ?_) (fun hid => ?_) (fun hl => ?_) (fun hl => ?_)
    (fun htime _ => hkept (h.timed id c hc htime (.inr hat)))
  · rcases hloop with rfl | ⟨-, rfl⟩ | ⟨-, rfl⟩ | rfl | ⟨-, rfl⟩
    · cases hat'
    · exact absurd (Option.some.inj hat').symm hi
    · exact absurd (Option.some.inj hat').symm hi
    · cases hat'
    · rfl
  · exact hrests (fun hl => hnot hl hid) (h.rests hid hc)
  · rcases hloop with rfl | ⟨hnext, rfl⟩ | ⟨-, rfl⟩ | rfl | ⟨⟨typ, err, hnext⟩, rfl⟩
    · cases hl
    · rcases hparse hnext with ⟨hl, hsame⟩ | hactive
      · rw [hsame]
        exact h.active hl hc
      · exact hactive
    · cases hl
    · cases hl
    · rcases hcb with hsame | ⟨-, -, hgoes | hgoes⟩
      · rw [hsame]
        exact h.active hl hc
      · rw [hnext] at hgoes; cases hgoes
      · rw [hnext] at hgoes; cases hgoes
  · rcases hloop with rfl | ⟨-, rfl⟩ | ⟨hnext, rfl⟩ | rfl | ⟨-, rfl⟩
    · cases hl
    · cases hl
    · exact ⟨hnot (hpush hnext).1, (hpush hnext).2⟩
    · cases hl
    · exact absurd hl hclose

/-- `closeConnWithError` leaves the connections and the pool. -/
theorem close (h : Pooled cfg s) {who : State.Who} {typ : ErrType} {err : Option Cause}
    (hclose : s.closeConnWithError who id c typ err = some s') : Pooled cfg s' := by
  obtain ⟨-, rfl⟩ | ⟨v, -, rfl⟩ := State.close_cases hclose
  · cases who with
    | loop => exact h.weaken rfl rfl (List.Sublist.refl _) (.inr rfl)
    | other => exact h.weaken rfl rfl (List.Sublist.refl _) (.inl rfl)
  · cases who with
    | loop => exact h.weaken rfl rfl (List.Sublist.refl _) (.inr rfl)
    | other => exact h.weaken rfl rfl (List.Sublist.refl _) (.inl rfl)

/-- Another goroutine is about to close a connection. -/
theorem start (h : Pooled cfg s) {a : Action} {s₀ : State} (hcloses : Closes cfg s a s₀ id c) :
    Pooled cfg s₀ := by
  cases hcloses with
  | @trim _ _ rest _ full idle =>
    have hsub : rest.Sublist s.fdIdle := by
      rw [idle]
      exact List.sublist_cons_self ..
    exact h.weaken rfl rfl hsub (.inl rfl)
  | timeout conn => exact h.setConn conn rfl rfl rfl fun _ => by simp
  | shut => exact h

theorem proceed (h : Pooled cfg s) {a : Action} {es : List Event} {next : Next}
    (hc : s.conns id = some c) (hpart : Part cfg s a id c c' es next)
    (hproceed : s.proceed id c' es next = some s') : Pooled cfg s' := by
  obtain ⟨loop, rfl, hwhere⟩ | ⟨typ, err, hnext, hclose⟩ := State.proceed_cases hproceed
  · have hset : Pooled cfg { s.setConn id c' with loop := loop } := by
      refine h.part hc hpart ?_
      rcases hwhere with ⟨-, hl⟩ | hl | hl | ⟨-, hl⟩
      · exact .inl hl
      · exact .inr (.inl hl)
      · exact .inr (.inr (.inl hl))
      · exact .inr (.inr (.inr (.inl hl)))
    exact hset.weaken rfl rfl (List.Sublist.refl _) (.inl rfl)
  · have hpooled : Pooled cfg { s.setConn id c' with log := s.log ++ es } :=
      (h.part hc hpart (.inr (.inr (.inr (.inr ⟨⟨typ, err, hnext⟩, rfl⟩))))).weaken rfl rfl
        (List.Sublist.refl _) (.inl rfl)
    exact hpooled.close hclose

end Pooled

/-! ### Steps -/

/-- **Every step keeps the pool.** -/
theorem step_pooled {a : Action} (h : Pooled cfg s) (hstep : step cfg s a = some s') :
    Pooled cfg s' := by
  have hrefl : s.fdIdle.Sublist s.fdIdle := List.Sublist.refl _
  cases step_move hstep with
  | enter => exact h.weaken rfl rfl hrefl (.inl rfl)
  | fill takes idle conn filled =>
    have hfill := h.fill idle conn filled
    cases takes with
    | exec => exact hfill.weaken rfl rfl (List.Sublist.refl _) (.inl rfl)
    | receive => exact hfill.weaken rfl rfl (List.Sublist.refl _) (.inl rfl)
  | fillPanic takes idle =>
    have hsub := idle ▸ List.sublist_cons_self ..
    cases takes with
    | exec => exact h.weaken rfl rfl hsub (.inl rfl)
    | receive => exact h.weaken rfl rfl hsub (.inl rfl)
  | pc => exact h.weaken rfl rfl hrefl (.inl rfl)
  | refused => exact h.weaken rfl rfl hrefl (.inl rfl)
  | @connect k fd cmdArgs _ _ exec closed =>
    have hadd : Pooled cfg (s.added fd (Conn.fresh cfg fd k cmdArgs)) :=
      h.added (c := Conn.fresh cfg fd k cmdArgs) (by simp [Conn.fresh])
    exact hadd.weaken rfl rfl (List.Sublist.refl _) (.inl rfl)
  | @arm k id cmdArgs c exec conn =>
    have hset : Pooled cfg (s.setConn id (c.arm cfg)) := by
      unfold Conn.arm
      split
      · exact h.setConn conn rfl rfl rfl (fun _ => by simp)
      · exact h.setConn conn rfl rfl rfl (fun hd => hd)
    exact hset.weaken rfl rfl (List.Sublist.refl _) (.inl rfl)
  | lost => exact h.weaken rfl rfl hrefl (.inl rfl)
  | loopPanic => exact h.weaken rfl rfl hrefl (.inr rfl)
  | dropped loop slot conn touch =>
    obtain ⟨death, rfl, -, hkept⟩ := Conn.touch_spec touch
    exact h.setConn conn rfl rfl rfl (fun hd => hkept (.inl hd))
  | @handle fd id write c c' loop slot conn touch =>
    obtain ⟨death, rfl, -, hkept⟩ := Conn.touch_spec touch
    have hat : (if write then Loop.writing id else Loop.reading id).at = some id := by
      cases write <;> rfl
    -- the timer of an active connection is re-armed before the loop goes to it
    refine h.update conn (fun i hi hat' => ?_) (fun hid => ?_) (fun hl => ?_) (fun hl => ?_)
      (fun htime _ => ?_)
    · exact absurd (Option.some.inj (hat'.symm.trans hat)) hi
    · have hrests : c.Rests := h.rests hid conn
      exact hrests
    · cases write <;> cases hl
    · cases write <;> cases hl
    · cases hcb : c.callback with
      | none => exact hkept (.inl (h.timed id c conn htime (.inl hcb)))
      | some k => exact hkept (.inr ⟨by simp [hcb], htime⟩)
  | part conn part proceed => exact h.proceed conn part proceed
  | push loop => exact (h.push loop).weaken rfl rfl (List.Sublist.refl _) (.inl rfl)
  | expire conn => exact h.setConn conn rfl rfl rfl (fun _ => by simp)
  | close closes close => exact (h.start closes).close close

end Resh.Client
