import Resh.Client.Callbacks
import Resh.Client.Pool

namespace Resh.Client

open Resh.Go

/-!
# Every callback is kept

Where the callback of an `Exec` is from the moment the command has got a connection: it has been
called, or a connection in `fdConns` has it and will call it when it is answered or closed.

* `Careful` — nobody closes the connection of somebody else, and `Exec` takes no closed connection
  out of the pool;
* `Kept`, `step_kept` — the invariant;
* `callback_kept` — in a run of such steps no callback is forgotten;
* `close_answers` — so `Close` calls all that are left.
-/

variable {cfg : Config} {s s' : State} {id : ℕ} {c c' : Conn}

namespace State

/-- The command of the call has got a connection, or an error instead of one. -/
def Assigned (s : State) (k : ℕ) : Prop := ∃ e, s.execs k = some e ∧ e.pc.unassigned = false

/-- The callback has been called, or a connection of `fdConns` has it. -/
def Accounted (s : State) (k : ℕ) : Prop :=
  0 < s.calls k ∨ ∃ id, s.entry id = some id ∧ s.callback id = some k

/-- `Exec` finds an open connection in the pool, if it finds one at all. -/
def takesOpen (s : State) : Action → Bool
  | .exec _ => ∀ id ∈ s.fdIdle.head?, s.entry id = some id
  | .receive _ => ∀ id ∈ s.fdIdle.head?, s.entry id = some id
  | _ => true

end State

/-- The assumptions on a step: nobody closes the connection that the event loop works on, nor a
    newer one, and `Exec` takes no closed connection. -/
def Careful (cfg : Config) (s : State) (a : Action) : Prop := Alone cfg s a ∧ s.takesOpen a = true

instance (cfg : Config) (s : State) (a : Action) : Decidable (Careful cfg s a) :=
  inferInstanceAs (Decidable (Alone cfg s a ∧ s.takesOpen a = true))

/-! ### The invariant -/

/-- Every callback is somewhere, and it has been called when its replies are all taken. -/
structure Kept (s : State) : Prop where
  held : ∀ k, s.Assigned k → s.Accounted k
  drained : ∀ id k, s.loop = .parsing id → s.Drained id → s.callback id = some k → 0 < s.calls k

/-- What a step that calls the callbacks `es` leaves of the calls before. -/
theorem State.calls_le {es : List Event} (hlog : s'.log = s.log ++ es) (k : ℕ) :
    s.calls k ≤ s'.calls k := by
  rw [State.calls_append hlog]
  exact Nat.le_add_right ..

/-- A callback stays where it is. -/
theorem State.Accounted.mono {k : ℕ} (h : s.Accounted k) (hcalls : s.calls k ≤ s'.calls k)
    (hheld : ∀ id, s.entry id = some id → s.callback id = some k → s'.Accounted k) :
    s'.Accounted k := by
  rcases h with hpos | ⟨id, hreg, hcb⟩
  · exact .inl (lt_of_lt_of_le hpos hcalls)
  · exact hheld id hreg hcb

namespace Kept

theorem init : Kept {} where
  held := fun _ h => by obtain ⟨e, he, -⟩ := h; cases he
  drained := fun _ _ h => by cases h

/-- A step that leaves every callback with its connection. -/
theorem same (h : Kept s) (hassigned : ∀ k, s'.Assigned k → s.Assigned k ∨ s'.Accounted k)
    (hcb : ∀ i k, s.callback i = some k ↔ s'.callback i = some k)
    (hent : ∀ i, s.entry i = some i → s'.entry i = some i) {es : List Event}
    (hlog : s'.log = s.log ++ es)
    (hloop : ∀ i, s'.loop = .parsing i → s'.Drained i → s.loop = .parsing i ∧ s.Drained i) :
    Kept s' := by
  refine ⟨fun k hk => ?_, fun i k hl hd hk => ?_⟩
  · rcases hassigned k hk with hold | hnew
    · apply (h.held k hold).mono (State.calls_le hlog k)
      intro i hreg hi
      exact .inr ⟨i, hent i hreg, (hcb i k).mp hi⟩
    · exact hnew
  · obtain ⟨hl', hd'⟩ := hloop i hl hd
    exact lt_of_lt_of_le (h.drained i k hl' hd' ((hcb i k).mpr hk)) (State.calls_le hlog k)

/-- A step that leaves the connections and the registry. -/
theorem silent (h : Kept s) (hassigned : ∀ k, s'.Assigned k → s.Assigned k ∨ s'.Accounted k)
    (hconns : s'.conns = s.conns) (hslot : s'.fdConns.slot = s.fdConns.slot) {es : List Event}
    (hlog : s'.log = s.log ++ es) (hloop : ∀ i, s'.loop = .parsing i → s.loop = .parsing i) :
    Kept s' := by
  refine h.same hassigned ?_ ?_ hlog ?_
  · intro i k
    rw [State.callback, State.callback, hconns]
  · intro i hi
    rw [State.entry, State.fd?, hconns, hslot]
    exact hi
  · intro i hl hd
    rw [State.Drained, hconns] at hd
    exact ⟨hloop i hl, hd⟩

/-- A connection changes, but neither its callback nor its input. -/
theorem setConn (h : Kept s) (hc : s.conns id = some c) (hfd : c'.fd = c.fd)
    (hcb : c'.callback = c.callback) (hinp : c'.inp = c.inp) (hauth : c'.authState = c.authState) :
    Kept (s.setConn id c') := by
  refine h.same (fun _ hk => .inl hk) ?_ ?_ (List.append_nil _).symm ?_
  · intro i k
    rw [State.callback_setConn]
    split
    · rename_i hi
      rw [hi, hcb, State.callback_eq hc]
    · exact Iff.rfl
  · intro i hi
    rw [State.entry_setConn hc hfd]
    exact hi
  · intro i hl hd
    refine ⟨hl, ?_⟩
    obtain ⟨d, hd, hempty, hzero⟩ := hd
    by_cases hi : i = id
    · subst hi
      have hself : (s.setConn i c').conns i = some c' := Function.update_self ..
      obtain rfl : c' = d := Option.some.inj (hself.symm.trans hd)
      exact ⟨c, hc, hinp ▸ hempty, hauth ▸ hzero⟩
    · exact ⟨d, (Function.update_of_ne hi ..).symm.trans hd, hempty, hzero⟩

/-- A call of `Exec` goes on with its connection, or without one. -/
theorem setPc (h : Kept s) {k : ℕ} {e : Exec} (hk : s.execs k = some e) (pc : Pc)
    (hpc : pc.unassigned = false → e.pc.unassigned = false) : Kept (s.setPc k pc) := by
  refine h.silent ?_ rfl rfl (List.append_nil _).symm (fun _ hl => hl)
  intro i hi
  left
  obtain ⟨e', he', hassigned⟩ := hi
  by_cases hik : i = k
  · subst hik
    have hset : (s.setPc i pc).execs i = some { e with pc := pc } := by simp [State.setPc, hk]
    obtain rfl := Option.some.inj (hset.symm.trans he')
    exact ⟨e, hk, hpc hassigned⟩
  · exact ⟨e', (Function.update_of_ne hik ..).symm.trans he', hassigned⟩

/-- `Exec` is called; its callback is with no connection yet. -/
theorem enter (h : Kept s) (cmdArgs : List Arg) : Kept (s.enter cmdArgs) := by
  refine h.silent ?_ rfl rfl (List.append_nil _).symm (fun _ hl => hl)
  intro i hi
  left
  obtain ⟨e, he, hassigned⟩ := hi
  by_cases hik : i = s.called
  · subst hik
    have hself : (s.enter cmdArgs).execs s.called = some ⟨cmdArgs, .deciding⟩ :=
      Function.update_self ..
    obtain rfl := Option.some.inj (hself.symm.trans he)
    cases hassigned
  · exact ⟨e, (Function.update_of_ne hik ..).symm.trans he, hassigned⟩

/-- A connection that has no callback gets that of the call, while the event loop does not read its
    replies. -/
theorem assign (h : Kept s) {k : ℕ} {pc : Pc} (hreg : s'.entry id = some id)
    (hcb : s'.callback id = some k) (hfree : s.entry id = some id → s.callback id = none)
    (hother : ∀ i, i ≠ id → s'.callback i = s.callback i)
    (hent : ∀ i, s.entry i = some i → s'.entry i = some i)
    (hexecs : s'.execs = (s.setPc k pc).execs) (hlog : s'.log = s.log) (hloop : s'.loop = s.loop)
    (haway : s.loop ≠ .parsing id) (hdrained : ∀ i, i ≠ id → s'.Drained i → s.Drained i) :
    Kept s' := by
  have hcalls : ∀ i, s'.calls i = s.calls i := fun i => by rw [State.calls, State.calls, hlog]
  refine ⟨fun i hi => ?_, fun i j hl hd hj => ?_⟩
  · by_cases hik : i = k
    · exact .inr ⟨id, hreg, hik ▸ hcb⟩
    obtain ⟨e, he, hassigned⟩ := hi
    rw [hexecs, State.setPc] at he
    have hold : s.Assigned i := ⟨e, (Function.update_of_ne hik ..).symm.trans he, hassigned⟩
    apply (h.held i hold).mono (hcalls i).ge
    intro j hj hcbj
    have hne : j ≠ id := by
      rintro rfl
      rw [hfree hj] at hcbj
      cases hcbj
    exact .inr ⟨j, hent j hj, (hother j hne).trans hcbj⟩
  · rw [hloop] at hl
    have hne : i ≠ id := by
      rintro rfl
      exact haway hl
    rw [hcalls]
    exact h.drained i j hl (hdrained i hne hd) (hother i hne ▸ hj)

/-- A connection of the pool gets a command. -/
theorem fill (h : Kept s) (hp : Pooled cfg s) {k : ℕ} {cmdArgs : List Arg} {rest : List ℕ}
    (hidle : s.fdIdle = id :: rest) (hc : s.conns id = some c) (hreg : s.entry id = some id)
    (hfill : c.fill cfg k cmdArgs = some c') :
    Kept ((({ s with fdIdle := rest }).setConn id c').setPc k .trimming) := by
  obtain ⟨death, rfl, -⟩ := Conn.fill_spec hfill
  have hrests : c.Rests := hp.rests (hidle ▸ List.mem_cons_self) hc
  have hentry : ∀ i, s.entry i = some i → (({ s with fdIdle := rest } : State).setConn id { c with
      callback := some k, out := appendCommand cmdArgs [], death := death }).entry i = some i := by
    intro i hi
    have hset := @State.entry_setConn { s with fdIdle := rest } id c
      { c with callback := some k, out := appendCommand cmdArgs [], death := death } hc rfl
    exact (congrFun hset i).trans hi
  have hcb : ∀ i, (({ s with fdIdle := rest } : State).setConn id { c with
      callback := some k, out := appendCommand cmdArgs [], death := death }).callback i
        = if i = id then some k else s.callback i := fun i => State.callback_setConn _ i
  have haway : s.loop ≠ .parsing id := by
    -- the event loop reads replies for an active connection only
    intro hl
    exact hp.active hl hc hrests.1
  refine h.assign (hentry id hreg) ((hcb id).trans (if_pos rfl))
    ?_ (fun i hi => (hcb i).trans (if_neg hi)) hentry rfl rfl rfl haway ?_
  · intro _
    rw [State.callback_eq hc]
    exact hrests.1
  · rintro i hi ⟨d, hd, hempty⟩
    exact ⟨d, (Function.update_of_ne hi ..).symm.trans hd, hempty⟩

/-- A connection is made for a command. -/
theorem connect (h : Kept s) (hw : Wired s) (hp : Pooled cfg s) {k fd : ℕ} {cmdArgs : List Arg}
    (hfd : s.opened fd = false) :
    Kept ((s.added fd (Conn.fresh cfg fd k cmdArgs)).setPc k (.arming s.made)) := by
  have hentry := entry_added (c := Conn.fresh cfg fd k cmdArgs) (hw.free hfd)
  have hcb : ∀ i, ((s.added fd (Conn.fresh cfg fd k cmdArgs)).setPc k (.arming s.made)).callback i
      = if i = s.made then some k else s.callback i := fun i => State.callback_setConn _ i
  have hnew : s.conns s.made = none := hp.made _ le_rfl
  have haway : s.loop ≠ .parsing s.made := by
    intro hl
    exact hp.loop s.made (by rw [hl]; rfl) hnew
  refine h.assign ((hentry s.made).mpr (.inr rfl)) ((hcb s.made).trans (if_pos rfl)) ?_
    (fun i hi => (hcb i).trans (if_neg hi)) (fun i hi => (hentry i).mpr (.inl hi))
    rfl rfl rfl haway ?_
  · intro _
    rw [State.callback, hnew]
    rfl
  · rintro i hi ⟨d, hd, hempty⟩
    exact ⟨d, (Function.update_of_ne hi ..).symm.trans hd, hempty⟩

/-! ### Closing -/

/-- A connection of `fdConns` is closed: its callback is called, unless its replies are all
    taken. -/
theorem close {who : State.Who} {typ : ErrType} {err : Option Cause}
    (hheld : ∀ k, s.Assigned k → s.Accounted k)
    (hdrained : who = .other → ∀ i k, s.loop = .parsing i → s.Drained i → s.callback i = some k →
      0 < s.calls k)
    (hc : s.conns id = some c) (hown : s.entry id = none ∨ s.entry id = some id)
    (hfree : typ = .free → ∀ k, c.callback = some k → 0 < s.calls k)
    (hclose : s.closeConnWithError who id c typ err = some s') : Kept s' := by
  rw [State.entry_eq hc] at hown
  obtain ⟨-, rfl⟩ | ⟨v, hv, rfl⟩ := State.close_cases hclose
  · -- `fdMap.Delete` panics and nothing else changes
    have hcalls : ∀ k, (s.stuck who).calls k = s.calls k := by
      intro k
      have hlog : (s.stuck who).log = s.log ++ [Event.bug] := by cases who <;> rfl
      rw [State.calls_append hlog]
      rfl
    refine ⟨fun k hk => ?_, fun i k hl hd hk => ?_⟩
    · have hold : s.Assigned k := by cases who <;> exact hk
      apply (hheld k hold).mono (hcalls k).ge
      intro i hi hcb
      exact .inr ⟨i, by cases who <;> exact hi, by cases who <;> exact hcb⟩
    · cases who with
      | loop => cases hl
      | other =>
        rw [hcalls]
        exact hdrained rfl i k hl hd hk
  -- the entry that is deleted is the connection's own
  obtain rfl : v = id := by
    rcases hown with hnone | hown
    · rw [hnone] at hv
      cases hv
    · exact Option.some.inj (hv.symm.trans hown)
  -- the callback is called now, unless the connection is freed
  have hcalls : ∀ k, (s.removed who c.fd (.teardown v v ::
      (s.closeErrors c.fd ++ State.closeEvents c typ err))).calls k
        = s.calls k + if typ ≠ .free ∧ c.callback = some k then 1 else 0 := by
    intro k
    rw [State.calls_append (s := s) rfl, List.countP_cons, closeLog_calls]
    simp [Event.isCall]
  refine ⟨fun k hk => ?_, fun i k hl hd hk => ?_⟩
  · apply (hheld k hk).mono (by rw [hcalls]; exact Nat.le_add_right ..)
    intro i hi hcb
    by_cases hne : i = v
    · subst hne
      rw [State.callback_eq hc] at hcb
      left
      rw [hcalls]
      by_cases htyp : typ = .free
      · have hpos := hfree htyp k hcb
        omega
      · rw [if_pos ⟨htyp, hcb⟩]
        omega
    · exact .inr ⟨i, (entry_removed hc hv who _ i).mpr ⟨hi, hne⟩, hcb⟩
  · cases who with
    | loop => cases hl
    | other =>
      have hpos := hdrained rfl i k hl hd hk
      rw [hcalls]
      omega

end Kept

/-! ### The parts of the event loop -/

/-- What a part does with the callback of its connection: it stays, or the replies are all taken.
    Only in the latter case is the connection freed, and a round that takes the last reply calls
    it. -/
theorem Part.accounts {a : Action} {es : List Event} {next : Next}
    (h : Part cfg s a id c c' es next) {k : ℕ} (hk : c.callback = some k) :
    (c'.callback = some k ∨ s.loop = .parsing id ∧ c.inp = [] ∧ c.authState = 0) ∧
      (∀ err, next = .close .free err → s.loop = .parsing id ∧ c.inp = [] ∧ c.authState = 0) ∧
      (next = .parse → c'.inp = [] → c'.authState = 0 → 0 < es.countP (Event.isCall k)) := by
  cases h with
  | write loop goes =>
    refine ⟨.inl hk, fun err hnext => ?_, fun hnext => ?_⟩
    · rcases goes with rfl | ⟨e, rfl⟩ <;> cases hnext
    · rcases goes with rfl | ⟨e, rfl⟩ <;> cases hnext
  | read loop idle warnings goes =>
    refine ⟨.inl hk, fun err hnext => ?_, fun hnext hinp => ?_⟩
    · rcases goes with rfl | ⟨rfl, -⟩ | ⟨typ, e, rfl, htyp⟩
      · cases hnext
      · cases hnext
      · cases hnext
        exact absurd rfl htyp
    · rcases goes with rfl | ⟨-, -, hsome⟩ | ⟨typ, e, rfl, -⟩
      · cases hnext
      · exact absurd hinp hsome
      · cases hnext
  | parse loop round =>
    cases round with
    -- the reply to AUTH is taken without a callback
    | auth element state =>
      refine ⟨.inl hk, fun err hnext => ?_, fun _ _ hstate => ?_⟩
      · cases hnext
      · cases hstate
    | reply element state callback =>
      refine ⟨.inl hk, fun err hnext => ?_, fun _ _ _ => ?_⟩
      · cases hnext
      · obtain rfl := Option.some.inj (callback.symm.trans hk)
        simp [Event.isCall]
    | release inp state room timer kept goes =>
      refine ⟨.inr ⟨loop, inp, state⟩, fun err hnext => ?_, fun hnext => ?_⟩
      · rcases goes with rfl | rfl <;> cases hnext
      · rcases goes with rfl | rfl <;> cases hnext
    | free inp state full =>
      refine ⟨.inl hk, fun err _ => ⟨loop, inp, state⟩, fun hnext => ?_⟩
      cases hnext
    | wait busy => refine ⟨.inl hk, fun err hnext => ?_, fun hnext => ?_⟩ <;> cases hnext
    | failed inp => refine ⟨.inl hk, fun err hnext => ?_, fun hnext => ?_⟩ <;> cases hnext
    | panic inp => refine ⟨.inl hk, fun err hnext => ?_, fun hnext => ?_⟩ <;> cases hnext

/-- A part gives no connection a callback. -/
theorem Part.callback_le {a : Action} {es : List Event} {next : Next}
    (h : Part cfg s a id c c' es next)
    {k : ℕ} (hk : c'.callback = some k) : c.callback = some k := by
  rcases h.calls with ⟨_, _, _, _, -, -, -, -, -, rfl, -⟩ | ⟨rfl, -⟩ | ⟨-, hcb, -⟩
  · exact hk
  · exact hk
  · rcases hcb with hcb | hcb
    · exact hcb ▸ hk
    · rw [hcb] at hk
      cases hk

/-- A part of the event loop. -/
theorem Kept.proceed (h : Kept s) (hw : Wired s) {a : Action} {es : List Event} {next : Next}
    (hc : s.conns id = some c) (hpart : Part cfg s a id c c' es next)
    (hproceed : s.proceed id c' es next = some s') : Kept s' := by
  obtain ⟨hat, hfd, -⟩ := hpart.spec
  -- the replies of a connection that are all taken were taken with its callback
  have hdone : ∀ k, c.callback = some k → s.loop = .parsing id ∧ c.inp = [] ∧ c.authState = 0 →
      0 < s.calls k := fun k hk hend =>
    h.drained id k hend.1 ⟨c, hc, hend.2⟩ ((State.callback_eq hc).trans hk)
  have hcb : ∀ i, (s.setConn id c').callback i = if i = id then c'.callback else s.callback i :=
    fun i => State.callback_setConn c' i
  have hentry := State.entry_setConn hc hfd
  have hheld : ∀ loop k, State.Assigned
      { s.setConn id c' with log := s.log ++ es, loop := loop } k →
      State.Accounted { s.setConn id c' with log := s.log ++ es, loop := loop } k := by
    intro loop k hk
    have hcalls : s.calls k ≤ State.calls
        { s.setConn id c' with log := s.log ++ es, loop := loop } k :=
      State.calls_le rfl k
    apply (h.held k hk).mono hcalls
    intro i hi hki
    have hreg : (s.setConn id c').entry i = some i := by rw [hentry]; exact hi
    by_cases hne : i = id
    · subst hne
      rw [State.callback_eq hc] at hki
      rcases (hpart.accounts hki).1 with hstay | hend
      · exact .inr ⟨i, hreg, (hcb i).trans ((if_pos rfl).trans hstay)⟩
      · exact .inl (lt_of_lt_of_le (hdone k hki hend) hcalls)
    · exact .inr ⟨i, hreg, (hcb i).trans ((if_neg hne).trans hki)⟩
  obtain ⟨loop, rfl, hwhere⟩ | ⟨typ, err, hnext, hclose⟩ := State.proceed_cases hproceed
  · refine ⟨hheld loop, fun i k hl hd hk => ?_⟩
    rcases hwhere with ⟨-, rfl⟩ | ⟨hnext, rfl⟩ | ⟨-, rfl⟩ | ⟨-, rfl⟩
    · cases hl
    · obtain rfl := Loop.parsing.inj hl
      replace hk : c'.callback = some k := ((hcb id).trans (if_pos rfl)).symm.trans hk
      obtain ⟨d, hd, hempty, hzero⟩ := hd
      have hself : (s.setConn id c').conns id = some c' := Function.update_self ..
      obtain rfl : c' = d := Option.some.inj (hself.symm.trans hd)
      have hpos := (hpart.accounts (hpart.callback_le hk)).2.2 hnext hempty hzero
      rw [State.calls_append (s := s) rfl]
      omega
    · cases hl
    · cases hl
  · refine Kept.close (hheld s.loop) (fun hwho => by cases hwho)
      (Function.update_self ..) ?_ ?_ hclose
    · right
      show (s.setConn id c').entry id = some id
      rw [hentry]
      exact hw.loop id hat
    · intro htyp k hk
      have hkc := hpart.callback_le hk
      have hpos := hdone k hkc ((hpart.accounts hkc).2.1 err (htyp ▸ hnext))
      exact lt_of_lt_of_le hpos (State.calls_le rfl k)

/-! ### Steps and runs -/

theorem Closes.kept {a : Action} {s₀ : State} (hc : Closes cfg s a s₀ id c) (h : Kept s) :
    Kept s₀ := by
  cases hc with
  | trim => exact h.silent (fun _ hk => .inl hk) rfl rfl (List.append_nil _).symm (fun _ hl => hl)
  | timeout conn => exact h.setConn conn rfl rfl rfl rfl
  | shut => exact h

theorem Takes.entry_open {a : Action} {s₀ : State} {k : ℕ} {cmdArgs : List Arg} {rest : List ℕ}
    (ht : Takes s a s₀ k cmdArgs) (ha : s.takesOpen a = true) (hidle : s.fdIdle = id :: rest) :
    s.entry id = some id := by
  cases ht with
  | exec =>
    simp only [State.takesOpen, decide_eq_true_eq] at ha
    exact ha id (by rw [hidle]; rfl)
  | receive =>
    simp only [State.takesOpen, decide_eq_true_eq] at ha
    exact ha id (by rw [hidle]; rfl)

/-- Nobody but the event loop frees a connection without a word. -/
theorem step_closes {a : Action} (hstep : step cfg s a = some s')
    (hout : outside cfg s a = some id) : ∃ s₀ c typ err, Closes cfg s a s₀ id c ∧ typ ≠ .free ∧
      s₀.closeConnWithError .other id c typ err = some s' := by
  unfold step at hstep
  split at hstep
  · cases hstep
  cases a with
  | trim k =>
    simp only [outside] at hout
    split at hout
    · rename_i hfull
      simp only [State.trim, if_pos hfull] at hstep
      split at hstep
      · cases hi : s.fdIdle with
        | nil => rw [hi] at hout; cases hout
        | cons i rest =>
          rw [hi] at hout
          obtain rfl := Option.some.inj hout
          simp only [hi] at hstep
          cases hc : s.conns i with
          | none => simp only [hc] at hstep; cases hstep
          | some c =>
            simp only [hc] at hstep
            exact ⟨_, c, .none, none, .trim hfull hi hc, by simp, hstep⟩
      · cases hstep
    · cases hout
  | timeout i =>
    obtain rfl := Option.some.inj hout
    simp only [State.timeout] at hstep
    split at hstep
    · rename_i c hc
      split at hstep
      · rename_i t ht
        split at hstep
        · rename_i hfired
          exact ⟨_, _, .timeout, _, .timeout hc ht hfired, by simp, hstep⟩
        · cases hstep
      · cases hstep
    · cases hstep
  | shut fd =>
    have hslot : s.fdConns.slot fd = some id := hout
    simp only [State.shut, hslot] at hstep
    split at hstep
    · rename_i c hc
      exact ⟨s, c, .none, none, .shut hslot hc, by simp, hstep⟩
    · cases hstep
  | _ => cases hout

/-- One step forgets no callback, if it meets the condition. -/
theorem step_kept {a : Action} (h : Kept s) (hw : Wired s) (hp : Pooled cfg s)
    (ha : Careful cfg s a) (hstep : step cfg s a = some s') : Kept s' := by
  cases step_move hstep with
  | enter => exact h.enter _
  | @fill _ s₀ k id cmdArgs rest c c' takes idle conn filled =>
    -- the connection is open, by the condition, so a close will find its callback
    have hreg := takes.entry_open ha.2 idle
    cases takes with
    | exec =>
      have hpool : Pooled cfg (s.enter cmdArgs) :=
        hp.weaken rfl rfl (List.Sublist.refl _) (.inl rfl)
      exact (h.enter cmdArgs).fill hpool idle conn hreg filled
    | receive pc =>
      exact h.fill hp idle conn hreg filled
  | fillPanic takes idle =>
    cases takes with
    | exec => exact (h.enter _).silent (fun _ hk =>
        .inl hk) rfl rfl (List.append_nil _).symm fun _ hl => hl
    | receive =>
      exact h.silent (fun _ hk => .inl hk) rfl rfl (List.append_nil _).symm fun _ hl => hl
  | pc exec same => exact h.setPc exec _ fun hpc => same ▸ hpc
  | @refused k cmdArgs text exec =>
    have hcalled : 0 < State.calls
        { s.setPc k .done with log := s.log ++ [.call k none (some (.io text))] } k := by
      rw [State.calls_append (s := s) rfl]
      simp [Event.isCall]
    refine h.silent ?_ rfl rfl rfl (fun _ hl => hl)
    intro i hi
    by_cases hik : i = k
    · exact .inr (.inl (hik ▸ hcalled))
    · obtain ⟨e, he, hassigned⟩ := hi
      exact .inl ⟨e, (Function.update_of_ne hik ..).symm.trans he, hassigned⟩
  | connect exec closed =>
    exact (h.connect hw hp closed).silent (fun _ hk => .inl hk) rfl rfl (List.append_nil _).symm
      fun _ hl => hl
  | @arm k id cmdArgs c exec conn =>
    have harm : Kept (s.setConn id (c.arm cfg)) := by
      unfold Conn.arm
      split
      · exact h.setConn conn rfl rfl rfl rfl
      · exact h.setConn conn rfl rfl rfl rfl
    exact harm.setPc exec .done fun _ => rfl
  | lost => exact h.silent (fun _ hk => .inl hk) rfl rfl rfl fun _ hl => hl
  | loopPanic =>
    exact h.silent (fun _ hk => .inl hk) rfl rfl (List.append_nil _).symm fun _ hl => by cases hl
  | dropped loop slot conn touch =>
    obtain ⟨death, rfl, -⟩ := Conn.touch_spec touch
    exact h.setConn conn rfl rfl rfl rfl
  | @handle fd id write c c' loop slot conn touch =>
    obtain ⟨death, rfl, -⟩ := Conn.touch_spec touch
    have hset : Kept (s.setConn id { c with death := death }) := h.setConn conn rfl rfl rfl rfl
    refine hset.silent (fun _ hk => .inl hk) rfl rfl (List.append_nil _).symm ?_
    intro i hl
    cases write <;> cases hl
  -- the event loop
  | part conn part proceed => exact h.proceed hw conn part proceed
  | push loop => exact h.silent (fun _ hk => .inl hk) rfl rfl rfl fun _ hl => by cases hl
  | expire conn => exact h.setConn conn rfl rfl rfl rfl
  | close closes =>
    -- a close from outside is never a free, so it calls the callback
    obtain ⟨s₀, c, typ, err, closes, htyp, hclose⟩ := step_closes hstep closes.start.1
    obtain ⟨-, hconn, hfd, hmap, -, -, -, -⟩ := closes.start
    obtain ⟨-, hown⟩ := ha.1.closes closes
    rw [State.entry, ← hfd, ← hmap] at hown
    have hstart := closes.kept h
    exact Kept.close hstart.held (fun _ => hstart.drained) hconn
      hown (fun hfree => absurd hfree htyp) hclose

/-- The invariants of a run of such steps. -/
theorem run_kept {as : List Action} (hm : Meets (step cfg) (Careful cfg) {} as)
    (hr : run (step cfg) {} as = some s) : Wired s ∧ Pooled cfg s ∧ Kept s := by
  refine run_invariant (P := fun s => Wired s ∧ Pooled cfg s ∧ Kept s) ?_
    ⟨Wired.init, Pooled.init, Kept.init⟩ hm hr
  rintro t a t' ⟨hw, hp, hk⟩ ha hstep
  exact ⟨step_wired hw (fun hc => ha.1.closes hc) hstep, step_pooled hp hstep,
    step_kept hk hw hp ha hstep⟩

/-- **No callback is forgotten.**  In a run of such steps the callback of each `Exec` that has got
    past its wait for a connection has been called, or a connection of `fdConns` has it. -/
theorem callback_kept {as : List Action} (hm : Meets (step cfg) (Careful cfg) {} as)
    (hr : run (step cfg) {} as = some s) (k : ℕ) {e : Exec} (hk : s.execs k = some e)
    (hpc : e.pc.unassigned = false) :
    0 < s.calls k ∨ ∃ id, s.entry id = some id ∧ s.callback id = some k := by
  obtain ⟨-, -, hkept⟩ := run_kept hm hr
  exact hkept.held k ⟨e, hk, hpc⟩

/-! ### `Close` -/

/-- The rounds of `Close`, for a slice of `n` entries. -/
def State.shuts (s : State) (n : ℕ) : List Action :=
  ((List.range n).filter fun fd => (s.fdConns.slot fd).isSome).map .shut

/-- A round of `Close` while the event loop is at no connection. -/
theorem shut_step (cfg : Config) (hw : Wired s) (hup : s.crashed = false)
    (hlock : s.fdConns.locked = false) {fd : ℕ} (hslot : s.fdConns.slot fd = some id) :
    ∃ s', step cfg s (.shut fd) = some s' ∧ s'.crashed = false ∧ s'.fdConns.locked = false ∧
      s'.loop = s.loop ∧ s'.execs = s.execs ∧ s'.fdConns.slot
        = Function.update s.fdConns.slot fd none := by
  obtain ⟨-, hfd⟩ := hw.slot fd id hslot
  obtain ⟨c, hc, rfl⟩ := Option.map_eq_some_iff.mp hfd
  refine ⟨s.removed .other c.fd
    (.teardown id id :: (s.closeErrors c.fd ++ State.closeEvents c .none none)),
    ?_, hup, hlock, rfl, rfl, rfl⟩
  simp only [step, hup, Bool.false_eq_true, if_false, State.shut,
    hslot, hc, State.closeConnWithError, hlock]

/-- What `Close` works with. -/
structure Closing (cfg : Config) (s : State) : Prop where
  wired : Wired s
  pooled : Pooled cfg s
  kept : Kept s
  once : CalledOnce s
  up : s.crashed = false
  unlocked : s.fdConns.locked = false
  away : s.loop.at = none

/-- The loop of `Close`. -/
theorem shut_all (fds : List ℕ) (h : Closing cfg s) (hnodup : fds.Nodup)
    (hstored : ∀ fd ∈ fds, s.fdConns.slot fd ≠ none) :
    ∃ s', run (step cfg) s (fds.map .shut) = some s' ∧ Closing cfg s' ∧ s'.execs = s.execs ∧
      ∀ fd, s'.fdConns.slot fd = if fd ∈ fds then none else s.fdConns.slot fd := by
  induction fds generalizing s with
  | nil => exact ⟨s, rfl, h, rfl, fun fd => by simp⟩
  | cons fd fds ih =>
    obtain ⟨hnew, hnodup⟩ := List.nodup_cons.mp hnodup
    obtain ⟨id, hslot⟩ := Option.ne_none_iff_exists'.mp (hstored fd List.mem_cons_self)
    obtain ⟨s₁, hstep, hup, hlock, hloop, hexecs, hslots⟩ :=
      shut_step cfg h.wired h.up h.unlocked hslot
    -- the connection is its own, and the event loop is somewhere else
    have halone : Alone cfg s (.shut fd) := by
      have hentry : s.entry id = some id := by
        rw [State.entry, (h.wired.slot fd id hslot).2]
        exact hslot
      simp only [Alone, outside, hslot, h.away]
      refine ⟨fun hat => ?_, .inr hentry⟩
      cases hat
    have hclosing : Closing cfg s₁ :=
      { wired := step_wired h.wired (fun hc => halone.closes hc) hstep
        pooled := step_pooled h.pooled hstep
        kept := step_kept h.kept h.wired h.pooled ⟨halone, rfl⟩ hstep
        once := step_calledOnce h.once h.wired ⟨halone, rfl⟩ hstep
        up := hup
        unlocked := hlock
        away := hloop ▸ h.away }
    obtain ⟨s', hrun, hend, hexecs', hslots'⟩ := ih hclosing hnodup fun i hi => by
      have hne : i ≠ fd := fun heq => hnew (heq ▸ hi)
      rw [hslots, Function.update_of_ne hne]
      exact hstored i (List.mem_cons_of_mem fd hi)
    refine ⟨s', ?_, hend, hexecs'.trans hexecs, fun i => ?_⟩
    · rw [List.map_cons, run, hstep]
      exact hrun
    · rw [hslots', hslots]
      by_cases hi : i = fd
      · subst hi
        simp
      · simp [hi]

/-- **`Close` answers everybody.**  When `Close` is called while the event loop is at no connection,
    in a state that such steps lead to and in which nothing stood behind a reply: it comes to its
    end, no connection is left, and the callback of each `Exec` that had got past its wait for a
    connection has been called exactly once. -/
theorem close_answers {as : List Action} (hm : Meets (step cfg) (Careful cfg) {} as)
    (hp : Meets (step cfg) (Paired cfg) {} as) (hr : run (step cfg) {} as = some s)
    (hup : s.crashed = false) (hlock : s.fdConns.locked = false) (haway : s.loop.at = none) (n : ℕ)
    (hn : ∀ id < s.made, ∀ fd ∈ s.fd? id, fd < n) :
    ∃ s', run (step cfg) s (s.shuts n) = some s' ∧ (∀ fd, s'.fdConns.slot fd = none) ∧
      ∀ k e, s.execs k = some e → e.pc.unassigned = false → s'.calls k = 1 := by
  obtain ⟨hw, hpool, hkept⟩ := run_kept hm hr
  have honce : Wired s ∧ CalledOnce s := by
    refine run_invariant (P := fun s => Wired s ∧ CalledOnce s)
      ?_ ⟨Wired.init, CalledOnce.init⟩ hp hr
    rintro t a t' ⟨hw, ht⟩ ha hstep
    exact ⟨step_wired hw (fun hc => ha.1.closes hc) hstep, step_calledOnce ht hw ha hstep⟩
  have hstart : Closing cfg s := ⟨hw, hpool, hkept, honce.2, hup, hlock, haway⟩
  obtain ⟨s', hrun, hend, hexecs, hslots⟩ := shut_all
    ((List.range n).filter fun fd => (s.fdConns.slot fd).isSome) hstart
    (List.nodup_range.sublist List.filter_sublist) (fun fd hfd => by
      have hsome := (List.mem_filter.mp hfd).2
      exact Option.isSome_iff_ne_none.mp hsome)
  -- `Close` has been at every fd that was registered
  have hnone : ∀ fd, s'.fdConns.slot fd = none := by
    intro fd
    rw [hslots]
    split
    · rfl
    · rename_i hout
      by_contra hne
      obtain ⟨id, hid⟩ := Option.ne_none_iff_exists'.mp hne
      have hfd := (hw.slot fd id hid).2
      apply hout
      rw [List.mem_filter, List.mem_range, hid]
      exact ⟨hn id (hw.lt_made hfd) fd hfd, rfl⟩
  refine ⟨s', hrun, hnone, fun k e he hpc => ?_⟩
  -- a call that is neither answered nor held by an open connection does not exist
  have hassigned : s'.Assigned k := ⟨e, by rw [hexecs]; exact he, hpc⟩
  rcases hend.kept.held k hassigned with hpos | ⟨id, hentry, -⟩
  · have hle := hend.once.once k
    omega
  · rw [State.entry, Option.bind_eq_some_iff] at hentry
    obtain ⟨fd, -, hslot⟩ := hentry
    rw [hnone fd] at hslot
    cases hslot

/-- Two commands, of which the second one waits for its reply. -/
def halfway : List Action :=
  [.exec [.string (ascii "PING")], .decide 0, .connect 0 (.ok 5),
    .arm 0, .exec [.string (ascii "GET")],
    .decide 1, .connect 1 (.ok 6), .arm 1, .event 6 true, .write (.ok 100),
    .event 5 true, .write (.ok 100),
    .event 5 false, .read (.data (ascii "+PONG\r\n")), .parse, .parse, .push, .event 6 false,
    .read (.data (ascii "$3\r\nab")), .parse]

theorem callback_kept_halfway :
    ∃ s ∈ run (step { poolSize := 2 }) {} halfway, s.calls 1 = 0 ∧
      ∃ id, s.entry id = some id ∧ s.callback id = some 1 := by
  obtain ⟨s, hs, e, he, hpc, hzero⟩ : ∃ s ∈ run (step { poolSize := 2 }) {} halfway,
      ∃ e ∈ s.execs 1, e.pc.unassigned = false ∧ s.calls 1 = 0 := by decide +kernel
  have hm : Meets (step { poolSize := 2 }) (Careful { poolSize := 2 }) {} halfway := by
    decide +kernel
  refine ⟨s, hs, hzero, ?_⟩
  exact (callback_kept hm hs 1 he hpc).resolve_left (by omega)

theorem close_answers_halfway :
    ∃ s ∈ run (step { poolSize := 2 }) {} halfway,
      ∃ s' ∈ run (step { poolSize := 2 }) s (s.shuts 8), s'.calls 0 = 1 ∧ s'.calls 1 = 1 := by
  obtain ⟨s, hs, hstate, hn, e₀, he₀, hpc₀, e₁, he₁, hpc₁⟩ :
      ∃ s ∈ run (step { poolSize := 2 }) {} halfway,
      (s.crashed = false ∧ s.fdConns.locked = false ∧ s.loop.at = none) ∧
      (∀ id < s.made, ∀ fd ∈ s.fd? id, fd < 8) ∧ ∃ e₀ ∈ s.execs 0, e₀.pc.unassigned = false ∧
        ∃ e₁ ∈ s.execs 1, e₁.pc.unassigned = false := by decide +kernel
  have hm : Meets (step { poolSize := 2 }) (Careful { poolSize := 2 }) {} halfway := by
    decide +kernel
  have hp : Meets (step { poolSize := 2 }) (Paired { poolSize := 2 }) {} halfway := by
    decide +kernel
  obtain ⟨s', hs', -, hcalled⟩ := close_answers hm hp hs hstate.1 hstate.2.1 hstate.2.2 8 hn
  exact ⟨s, hs, s', hs', hcalled 0 e₀ he₀ hpc₀, hcalled 1 e₁ he₁ hpc₁⟩

end Resh.Client
