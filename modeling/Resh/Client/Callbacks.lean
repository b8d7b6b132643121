import Resh.Client.Framing
import Resh.Client.Registry

namespace Resh.Client

open Resh.Go

/-!
# Callbacks

How often the callback of an `Exec` is called.  `readConn` calls it for every complete element in
the buffer and leaves it in place until the loop ends, and `closeConnWithError` calls it whatever
has been called before.

* `Paired` — the server sends nothing behind a reply, and nobody closes the connection that the
  event loop works on;
* `callback_once` — in a run of such steps every callback is called at most once;
* `callback_twice` — a run in which the server sends two replies to one command.
-/

variable {cfg : Config} {s s' : State} {id : ℕ} {c c' : Conn}

/-- A call of the callback of the `k`-th `Exec`. -/
def Event.isCall (k : ℕ) : Event → Bool
  | .call i _ _ => i == k
  | _ => false

namespace State

/-- How often the callback of the `k`-th `Exec` was called. -/
def calls (s : State) (k : ℕ) : ℕ := s.log.countP (Event.isCall k)

/-- The callback of a connection. -/
def callback (s : State) (id : ℕ) : Option ℕ := (s.conns id).bind Conn.callback

/-- The replies that the connection has read are all taken. -/
def Drained (s : State) (id : ℕ) : Prop :=
  ∃ c, s.conns id = some c ∧ c.inp = [] ∧ c.authState = 0

/-- The callback of the call of `Exec`, if there is one, is with no connection yet. -/
def Unassigned (s : State) (k : ℕ) : Prop := ∀ e, s.execs k = some e → e.pc.unassigned = true

theorem callback_eq (hc : s.conns id = some c) : s.callback id = c.callback := by
  rw [callback, hc]; rfl

theorem callback_setConn (c' : Conn) (i : ℕ) :
    (s.setConn id c').callback i = if i = id then c'.callback else s.callback i := by
  by_cases hi : i = id
  · subst hi
    simp only [callback, setConn, Function.update_self, Option.bind_some, if_true]
  · simp only [callback, setConn, Function.update_of_ne hi, if_neg hi]

theorem calls_append {es : List Event} (hlog : s'.log = s.log ++ es) (k : ℕ) :
    s'.calls k = s.calls k + es.countP (Event.isCall k) := by
  rw [calls, calls, hlog, List.countP_append]

end State

/-- Nothing follows the reply in the buffer. -/
def Conn.oneReply (c : Conn) : Bool :=
  match readElement c.inp with
  | .ok n => c.authState = 1 ∨ n = c.inp.length
  | _ => true

/-- The loop of `readConn` finds nothing behind a reply. -/
def State.oneReply (s : State) : Action → Bool
  | .parse =>
    match s.loop.at.bind s.conns with
    | some c => c.oneReply
    | none => true
  | _ => true

/-- The assumptions on a step: nothing stands behind a reply, and nobody closes the connection that
    the event loop works on. -/
def Paired (cfg : Config) (s : State) (a : Action) : Prop := Alone cfg s a ∧ s.oneReply a = true

instance (cfg : Config) (s : State) (a : Action) : Decidable (Paired cfg s a) :=
  inferInstanceAs (Decidable (Alone cfg s a ∧ s.oneReply a = true))

/-! ### The invariant -/

/-- Calls of callbacks so far. -/
structure CalledOnce (s : State) : Prop where
  fresh : ∀ k, s.called ≤ k → s.execs k = none
  unassigned : ∀ k, s.Unassigned k → s.calls k = 0 ∧ ∀ id, s.callback id ≠ some k
  unique : ∀ i j k, s.callback i = some k → s.callback j = some k → i = j
  pending : ∀ id k, s.entry id = some id → s.callback id = some k →
    s.calls k = 0 ∨ s.loop = .parsing id ∧ s.Drained id
  once : ∀ k, s.calls k ≤ 1

namespace CalledOnce

theorem init : CalledOnce {} where
  fresh := fun _ _ => rfl
  unassigned := fun _ _ => ⟨rfl, fun _ => by simp [State.callback]⟩
  unique := fun _ _ _ h => absurd h (by simp [State.callback])
  pending := fun _ _ _ h => absurd h (by simp [State.callback])
  once := fun _ => Nat.zero_le _

/-- A step that calls no callback and gives none to a connection. -/
theorem same (h : CalledOnce s) (hfresh : ∀ k, s'.called ≤ k → s'.execs k = none)
    (hwait : ∀ k, s'.Unassigned k → s.Unassigned k)
    (hcb : ∀ i k, s'.callback i = some k → s.callback i = some k)
    (hent : ∀ i k, s'.callback i = some k → s'.entry i = some i → s.entry i = some i)
    (hcalls : ∀ k, s'.calls k = s.calls k)
    (hloop : ∀ i k, s'.entry i = some i → s'.callback i = some k → s.loop = .parsing i →
      s.Drained i → s'.loop = .parsing i ∧ s'.Drained i) : CalledOnce s' := by
  refine ⟨hfresh, fun k hk => ?_, fun i j k hi hj => h.unique i j k (hcb i k hi) (hcb j k hj),
    fun i k hi hk => ?_, fun k => ?_⟩
  · obtain ⟨hzero, hnone⟩ := h.unassigned k (hwait k hk)
    exact ⟨(hcalls k).trans hzero, fun i hi => hnone i (hcb i k hi)⟩
  · rw [hcalls]
    refine (h.pending i k (hent i k hk hi) (hcb i k hk)).imp_right fun hbusy => ?_
    exact hloop i k hi hk hbusy.1 hbusy.2
  · rw [hcalls]
    exact h.once k

/-- A step of another goroutine that leaves callbacks, replies and the registry. -/
theorem keep (h : CalledOnce s) (hcalled : s'.called = s.called) (hexecs : s'.execs = s.execs)
    (hcb : s'.callback = s.callback) (hent : s'.entry = s.entry) (hloop : s'.loop = s.loop)
    (hdrained : ∀ i, s.Drained i → s'.Drained i) {es : List Event} (hlog : s'.log = s.log ++ es)
    (hes : ∀ e ∈ es, ∀ k, e.isCall k = false) : CalledOnce s' := by
  refine h.same (fun k hk => ?_) (fun k hk => ?_) (fun i k hi => ?_)
    (fun i k _ hi => ?_) (fun k => ?_) (fun i k _ _ hl hd => ⟨hloop.trans hl, hdrained i hd⟩)
  · rw [hexecs]
    exact h.fresh k (hcalled ▸ hk)
  · rw [State.Unassigned, hexecs] at hk
    exact hk
  · rw [← hcb]
    exact hi
  · rw [← hent]
    exact hi
  · rw [State.calls_append hlog, List.countP_eq_zero.mpr fun e he => by simp [hes e he k]]
    rfl

/-- A step that leaves the connections, the registry and the event loop. -/
theorem silent (h : CalledOnce s) (hexecs : s'.execs = s.execs) (hcalled : s'.called = s.called)
    (hconns : s'.conns = s.conns) (hslot : s'.fdConns.slot = s.fdConns.slot)
    (hloop : s'.loop = s.loop) {es : List Event} (hlog : s'.log = s.log ++ es)
    (hes : ∀ e ∈ es, ∀ k, e.isCall k = false) : CalledOnce s' := by
  refine h.keep hcalled hexecs (funext fun i => ?_) (funext fun i => ?_) hloop (fun i hi => ?_) hlog
    hes
  · rw [State.callback, State.callback, hconns]
  · rw [State.entry, State.entry, State.fd?, State.fd?, hconns, hslot]
  · rw [State.Drained, hconns]
    exact hi

/-- A connection changes, but neither its callback nor its input. -/
theorem setConn (h : CalledOnce s) (hc : s.conns id = some c) (hfd : c'.fd = c.fd)
    (hcb : c'.callback = c.callback) (hinp : c'.inp = c.inp) (hauth : c'.authState = c.authState) :
    CalledOnce (s.setConn id c') := by
  refine h.keep rfl rfl (funext fun i => ?_) (State.entry_setConn hc hfd) rfl (fun i hi => ?_)
    (List.append_nil _).symm (by simp)
  · rw [State.callback_setConn]
    split
    · rename_i hi
      rw [hi, hcb, State.callback_eq hc]
    · rfl
  · by_cases hne : i = id
    · subst hne
      obtain ⟨d, hd, hempty, hzero⟩ := hi
      obtain rfl : c = d := Option.some.inj (hc.symm.trans hd)
      exact ⟨c', Function.update_self .., hinp.trans hempty, hauth.trans hzero⟩
    · obtain ⟨d, hd, hdr⟩ := hi
      exact ⟨d, (Function.update_of_ne hne ..).trans hd, hdr⟩

/-- A call of `Exec` goes on without a connection. -/
theorem setPc (h : CalledOnce s) {k : ℕ} {e : Exec} (hk : s.execs k = some e) (pc : Pc)
    (hpc : pc.unassigned = true → e.pc.unassigned = true) : CalledOnce (s.setPc k pc) := by
  refine h.same (fun i hi => ?_) (fun i hi e' he' => ?_) (fun _ _ hi => hi) (fun _ _ _ hi => hi)
    (fun _ => rfl) (fun _ _ _ _ hl hd => ⟨hl, hd⟩)
  · have hne : i ≠ k := by
      rintro rfl
      rw [h.fresh i hi] at hk
      cases hk
    exact (Function.update_of_ne hne ..).trans (h.fresh i hi)
  · by_cases hne : i = k
    · subst hne
      obtain rfl : e = e' := Option.some.inj (hk.symm.trans he')
      exact hpc (hi { e with pc := pc } (by simp [State.setPc, hk]))
    · exact hi e' ((Function.update_of_ne hne ..).trans he')

/-- `Exec` is called. -/
theorem enter (h : CalledOnce s) (cmdArgs : List Arg) : CalledOnce (s.enter cmdArgs) := by
  refine h.same (fun i hi => ?_) (fun i hi e he => ?_) (fun _ _ hi => hi) (fun _ _ _ hi => hi)
    (fun _ => rfl) (fun _ _ _ _ hl hd => ⟨hl, hd⟩)
  · simp only [State.enter] at hi
    exact (Function.update_of_ne (by omega) ..).trans (h.fresh i (by omega))
  · have hne : i ≠ s.called := by
      rintro rfl
      rw [h.fresh _ le_rfl] at he
      cases he
    exact hi e ((Function.update_of_ne hne ..).trans he)

/-- A connection gets the callback of a call that had none. -/
theorem assign (h : CalledOnce s) (id : ℕ) {k : ℕ} (hk : s.Unassigned k)
    (hfresh : ∀ i, s'.called ≤ i → s'.execs i = none)
    (hwait : ∀ i, s'.Unassigned i → i ≠ k ∧ s.Unassigned i) (hself : s'.callback id = some k)
    (hother : ∀ i, i ≠ id → s'.callback i = s.callback i)
    (hent : ∀ i, i ≠ id → s'.entry i = some i → s.entry i = some i)
    (hcalls : ∀ i, s'.calls i = s.calls i)
    (hloop : ∀ i, i ≠ id → s.loop = .parsing i → s.Drained i →
      s'.loop = .parsing i ∧ s'.Drained i) : CalledOnce s' := by
  obtain ⟨hzero, hnone⟩ := h.unassigned k hk
  -- no other connection has this callback
  have hnew : ∀ i, s'.callback i = some k → i = id := by
    intro i hi
    by_contra hne
    exact hnone i (hother i hne ▸ hi)
  refine ⟨hfresh, fun i hi => ?_, fun i j l hi hj => ?_, fun i l hi hl => ?_, fun i => ?_⟩
  · obtain ⟨hne, hwaits⟩ := hwait i hi
    obtain ⟨hcalls', hfree⟩ := h.unassigned i hwaits
    refine ⟨(hcalls i).trans hcalls', fun j hj => ?_⟩
    by_cases hj' : j = id
    · rw [hj', hself, Option.some.injEq] at hj
      exact hne hj.symm
    · exact hfree j (hother j hj' ▸ hj)
  · by_cases hl : l = k
    · subst hl
      rw [hnew i hi, hnew j hj]
    · have hne : ∀ m, s'.callback m = some l → m ≠ id := by
        rintro m hm rfl
        rw [hself, Option.some.injEq] at hm
        exact hl hm.symm
      rw [hother i (hne i hi)] at hi
      rw [hother j (hne j hj)] at hj
      exact h.unique i j l hi hj
  · rw [hcalls]
    by_cases hne : i = id
    · rw [hne, hself, Option.some.injEq] at hl
      exact .inl (hl ▸ hzero)
    · rw [hother i hne] at hl
      exact (h.pending i l (hent i hne hi) hl).imp_right fun hbusy => hloop i hne hbusy.1 hbusy.2
  · rw [hcalls]
    exact h.once i

/-- The calls of `Exec` behind an assignment. -/
theorem setPc_assigned (h : CalledOnce s) {k : ℕ} {e : Exec} (hk : s.execs k = some e) (pc : Pc)
    (hpc : pc.unassigned = false) :
    (∀ i, (s.setPc k pc).called ≤ i → (s.setPc k pc).execs i = none) ∧
      ∀ i, (s.setPc k pc).Unassigned i → i ≠ k ∧ s.Unassigned i := by
  have hpos := h.setPc hk pc (by simp [hpc])
  refine ⟨hpos.fresh, fun i hi => ?_⟩
  have hne : i ≠ k := by
    rintro rfl
    have := hi { e with pc := pc } (by simp [State.setPc, hk])
    simp [hpc] at this
  exact ⟨hne, fun e' he' => hi e' ((Function.update_of_ne hne ..).trans he')⟩

/-- A connection of the pool gets a command. -/
theorem fill (h : CalledOnce s) {k : ℕ} {e : Exec} {rest : List ℕ}
    {cmdArgs : List Arg} (hk : s.execs k = some e) (he : e.pc.unassigned = true)
    (hc : s.conns id = some c) (hfill : c.fill cfg k cmdArgs = some c') :
    CalledOnce ((({ s with fdIdle := rest }).setConn id c').setPc k .trimming) := by
  obtain ⟨death, rfl, -⟩ := Conn.fill_spec hfill
  have hbase : CalledOnce { s with fdIdle := rest } :=
    h.keep rfl rfl rfl rfl rfl (fun _ hd => hd) (List.append_nil _).symm (by simp)
  obtain ⟨hfresh, hwait⟩ := hbase.setPc_assigned hk .trimming rfl
  have hunassigned : State.Unassigned { s with fdIdle := rest } k := fun e' he' => by
    obtain rfl : e = e' := Option.some.inj (hk.symm.trans he')
    exact he
  have hcb : ∀ i, ((({ s with fdIdle := rest } : State).setConn id { c with
      callback := some k, out := appendCommand cmdArgs [], death := death }).setPc
        k .trimming).callback i
        = if i = id then some k else s.callback i := fun i => State.callback_setConn _ i
  refine hbase.assign id hunassigned hfresh hwait (by rw [hcb, if_pos rfl])
    (fun i hi => by rw [hcb, if_neg hi]; rfl) (fun i _ hi => ?_) (fun _ => rfl)
    (fun i hi hl hd => ⟨hl, ?_⟩)
  · have hset := @State.entry_setConn { s with fdIdle := rest } id c
      { c with callback := some k, out := appendCommand cmdArgs [], death := death } hc rfl
    exact (congrFun hset i).symm.trans hi
  · obtain ⟨d, hd, hdr⟩ := hd
    exact ⟨d, (Function.update_of_ne hi ..).trans hd, hdr⟩

/-- A connection is made for a command. -/
theorem connect (h : CalledOnce s) (hw : Wired s) {k fd : ℕ} {cmdArgs : List Arg}
    (hk : s.execs k = some ⟨cmdArgs, .creating⟩) (hfd : s.opened fd = false) :
    CalledOnce ((s.added fd (Conn.fresh cfg fd k cmdArgs)).setPc k (.arming s.made)) := by
  obtain ⟨hfresh, hwait⟩ := h.setPc_assigned hk (.arming s.made) rfl
  have hunassigned : s.Unassigned k := fun e' he' => by
    obtain rfl : (⟨cmdArgs, .creating⟩ : Exec) = e' := Option.some.inj (hk.symm.trans he')
    rfl
  have hcb : ∀ i, ((s.added fd (Conn.fresh cfg fd k cmdArgs)).setPc k (.arming s.made)).callback i
      = if i = s.made then some k else s.callback i := fun i => State.callback_setConn _ i
  refine h.assign s.made hunassigned hfresh hwait (by rw [hcb, if_pos rfl])
    (fun i hi => by rw [hcb, if_neg hi]) (fun i hne hi => ?_) (fun _ => rfl)
    (fun i hi hl hd => ⟨hl, ?_⟩)
  · have hadd : (s.added fd (Conn.fresh cfg fd k cmdArgs)).entry i = some i := hi
    exact ((entry_added (c := Conn.fresh cfg fd k cmdArgs) (hw.free hfd) i).mp hadd).resolve_right
      hne
  · obtain ⟨d, hd, hdr⟩ := hd
    exact ⟨d, (Function.update_of_ne hi ..).trans hd, hdr⟩

/-- A callback is called, and its connection, if any, is closed or has no replies left. -/
theorem call (h : CalledOnce s) {k : ℕ} (hzero : s.calls k = 0)
    (hfresh : ∀ i, s'.called ≤ i → s'.execs i = none)
    (hwait : ∀ i, s'.Unassigned i → i ≠ k ∧ s.Unassigned i) (hcb : s'.callback = s.callback)
    (hcalls : ∀ i, s'.calls i = s.calls i + if k = i then 1 else 0)
    (hown : ∀ i, s.callback i = some k → s'.entry i = some i → s'.loop = .parsing i ∧ s'.Drained i)
    (hent : ∀ i, s'.entry i = some i → s.entry i = some i)
    (hloop : ∀ i, s.callback i ≠ some k → s.loop = .parsing i → s.Drained i →
      s'.loop = .parsing i ∧ s'.Drained i) : CalledOnce s' := by
  refine ⟨hfresh, fun i hi => ?_, fun i j l hi hj => ?_, fun i l hi hl => ?_, fun i => ?_⟩
  · obtain ⟨hne, hwaits⟩ := hwait i hi
    obtain ⟨hcalls', hfree⟩ := h.unassigned i hwaits
    rw [hcalls, hcalls', if_neg (Ne.symm hne), hcb]
    exact ⟨rfl, hfree⟩
  · rw [hcb] at hi hj
    exact h.unique i j l hi hj
  · rw [hcb] at hl
    by_cases hkl : k = l
    · subst hkl
      exact .inr (hown i hl hi)
    · rw [hcalls, if_neg hkl]
      refine (h.pending i l (hent i hi) hl).imp_right fun hbusy => hloop i ?_ hbusy.1 hbusy.2
      rw [hl, ne_eq, Option.some.injEq]
      exact Ne.symm hkl
  · rw [hcalls]
    split
    · rename_i heq
      rw [← heq, hzero]
    · exact h.once i

/-- `Exec` gives up. -/
theorem refused (h : CalledOnce s) {k : ℕ} {cmdArgs : List Arg} (err : Option Cause)
    (hk : s.execs k = some ⟨cmdArgs, .creating⟩) :
    CalledOnce { s.setPc k .done with log := s.log ++ [.call k none err] } := by
  obtain ⟨hfresh, hwait⟩ := h.setPc_assigned hk .done rfl
  have hunassigned : s.Unassigned k := fun e' he' => by
    obtain rfl : (⟨cmdArgs, .creating⟩ : Exec) = e' := Option.some.inj (hk.symm.trans he')
    rfl
  obtain ⟨hzero, hnone⟩ := h.unassigned k hunassigned
  refine h.call hzero hfresh hwait rfl (fun i => ?_) (fun i hi => absurd hi (hnone i))
    (fun _ hi => hi) (fun _ _ hl hd => ⟨hl, hd⟩)
  rw [State.calls_append (s := s) rfl]
  simp [Event.isCall]

end CalledOnce

/-- What `closeConnWithError` calls. -/
theorem closeLog_calls (s : State) (fd : ℕ) (c : Conn) (typ : ErrType)
    (err : Option Cause) (k : ℕ) :
    (s.closeErrors fd ++ State.closeEvents c typ err).countP (Event.isCall k)
      = if typ ≠ .free ∧ c.callback = some k then 1 else 0 := by
  have herrors : (s.closeErrors fd).countP (Event.isCall k) = 0 := by
    unfold State.closeErrors
    split <;> rfl
  rw [List.countP_append, herrors, Nat.zero_add]
  cases hcb : c.callback with
  | none => cases typ <;> cases err <;> simp [State.closeEvents, Event.isCall, hcb]
  | some i => cases typ <;> cases err <;> simp [State.closeEvents, Event.isCall, hcb]

namespace CalledOnce

/-- A close that does not hit a newer connection.  The event loop closes only the connection it
    works on, and nobody closes a connection whose callback has been called. -/
theorem close (h : CalledOnce s) (hc : s.conns id = some c) {who : State.Who} {typ : ErrType}
    {err : Option Cause} (hent : s.entry id = none ∨ s.entry id = some id)
    (hwho : who = .loop → s.loop.at = some id ∧ s.entry id = some id)
    (hzero : typ ≠ .free → ∀ k, s.entry id = some id → c.callback = some k → s.calls k = 0)
    (hclose : s.closeConnWithError who id c typ err = some s') : CalledOnce s' := by
  have hslot : s.entry id = s.fdConns.slot c.fd := State.entry_eq hc
  obtain ⟨hnone, rfl⟩ | ⟨v, hv, rfl⟩ := State.close_cases hclose
  · cases who with
    | loop =>
      rw [← hslot, (hwho rfl).2] at hnone
      cases hnone
    | other => exact h.keep rfl rfl rfl rfl rfl (fun _ hd => hd) rfl (by simp [Event.isCall])
  have hreg : s.entry id = some id := by
    rw [← hslot] at hv
    rcases hent with hnone | hown
    · rw [hnone] at hv
      cases hv
    · exact hown
  have hown : s.fdConns.slot c.fd = some id := hslot ▸ hreg
  have hentry : ∀ i, (s.removed who c.fd (.teardown id v ::
      (s.closeErrors c.fd ++ State.closeEvents c typ err))).entry i = some i →
        s.entry i = some i ∧ i ≠ id := fun i hi => (entry_removed hc hown who _ i).mp hi
  have hcalls : ∀ i, (s.removed who c.fd (.teardown id v ::
      (s.closeErrors c.fd ++ State.closeEvents c typ err))).calls i
        = s.calls i + if typ ≠ .free ∧ c.callback = some i then 1 else 0 := fun i => by
    rw [State.calls_append (s := s) rfl, List.countP_cons, closeLog_calls]
    simp [Event.isCall]
  -- the event loop does not read replies of another connection
  have hloop : ∀ i, i ≠ id → s.loop = .parsing i → s.Drained i →
      (s.removed who c.fd (.teardown id v ::
        (s.closeErrors c.fd ++ State.closeEvents c typ err))).loop = .parsing i ∧ s.Drained i := by
    intro i hi hl hd
    cases who with
    | loop =>
      have hat := (hwho rfl).1
      rw [hl] at hat
      exact absurd (Option.some.inj hat) hi
    | other => exact ⟨hl, hd⟩
  by_cases hcall : typ ≠ .free ∧ ∃ k, c.callback = some k
  · obtain ⟨htyp, k, hk⟩ := hcall
    have hcb : s.callback id = some k := (State.callback_eq hc).trans hk
    refine h.call (hzero htyp k hreg hk) h.fresh (fun i hi => ⟨?_, hi⟩) rfl (fun i => ?_)
      (fun i hi hi' => ?_) (fun i hi => (hentry i hi).1) (fun i hi hl hd => hloop i ?_ hl hd)
    · rintro rfl
      exact (h.unassigned i hi).2 id hcb
    · rw [hcalls, hk]
      simp [htyp]
    · exact absurd (h.unique i id k hi hcb) (hentry i hi').2
    · rintro rfl
      exact hi hcb
  · refine h.same h.fresh (fun _ hk => hk) (fun _ _ hi => hi) (fun i _ _ hi => (hentry i hi).1)
      (fun k => ?_) (fun i _ hi _ hl hd => hloop i (hentry i hi).2 hl hd)
    rw [hcalls, if_neg fun hk => hcall ⟨hk.1, k, hk.2⟩]
    rfl

/-! ### The parts of the event loop -/

/-- A part that calls nothing, on a connection whose callback has not been called or is gone. -/
theorem quiet (h : CalledOnce s) (hc : s.conns id = some c) (hfd : c'.fd = c.fd)
    (hat : s.loop.at = some id) (hcb : c'.callback = c.callback ∨ c'.callback = none)
    (hbusy : c'.callback = none ∨ ¬ (s.loop = .parsing id ∧ c.inp = [] ∧ c.authState = 0))
    {es : List Event} (hes : ∀ e ∈ es, ∀ k, e.isCall k = false) (loop : Loop) :
    CalledOnce { s.setConn id c' with log := s.log ++ es, loop := loop } := by
  have hcallback : ∀ i, State.callback { s.setConn id c' with log := s.log ++ es, loop := loop } i
      = if i = id then c'.callback else s.callback i := fun i => State.callback_setConn c' i
  refine h.same h.fresh (fun _ hk => hk) (fun i k hi => ?_) (fun i k _ hi => ?_) (fun k => ?_)
    (fun i k _ hi hl hd => ?_)
  · rw [hcallback] at hi
    split at hi
    · rename_i heq
      rw [heq, State.callback_eq hc]
      rcases hcb with hcb | hcb
      · exact hcb ▸ hi
      · rw [hcb] at hi
        cases hi
    · exact hi
  · exact (congrFun (State.entry_setConn hc hfd) i).symm.trans hi
  · rw [State.calls_append (s := s) rfl, List.countP_eq_zero.mpr fun e he => by simp [hes e he k]]
    rfl
  · -- the part works on this connection, so its replies are not all taken
    obtain rfl : i = id := by
      rw [hl] at hat
      exact Option.some.inj hat
    rw [hcallback, if_pos rfl] at hi
    obtain ⟨d, hd, hempty⟩ := hd
    obtain rfl : c = d := Option.some.inj (hc.symm.trans hd)
    rcases hbusy with hnone | hbusy
    · rw [hnone] at hi
      cases hi
    · exact absurd ⟨hl, hempty⟩ hbusy

/-- A part of this kind that ends with a close. -/
theorem quiet_close (h : CalledOnce s) (hw : Wired s) (hc : s.conns id = some c)
    (hfd : c'.fd = c.fd)
    (hat : s.loop.at = some id) (hcb : c'.callback = c.callback ∨ c'.callback = none)
    (hbusy : c'.callback = none ∨ ¬ (s.loop = .parsing id ∧ c.inp = [] ∧ c.authState = 0))
    {es : List Event} (hes : ∀ e ∈ es, ∀ k, e.isCall k = false) {typ : ErrType} {err : Option Cause}
    (hclose : ({ s.setConn id c' with log := s.log ++ es } : State).closeConnWithError
      .loop id c' typ err = some s') : CalledOnce s' := by
  have hpart := h.quiet hc hfd hat hcb hbusy hes s.loop
  have hent : (s.setConn id c').entry id = some id := by
    rw [State.entry_setConn hc hfd]
    exact hw.loop id hat
  refine hpart.close (Function.update_self ..) (.inr hent) (fun _ => ⟨hat, hent⟩)
    (fun _ k _ hk => ?_) hclose
  have hcalls :
      State.calls { s.setConn id c' with log := s.log ++ es, loop := s.loop } k = s.calls k := by
    rw [State.calls_append (s := s) rfl, List.countP_eq_zero.mpr fun e he => by simp [hes e he k]]
    rfl
  have hactive : c'.callback ≠ none := by simp [hk]
  rw [hcalls]
  refine (h.pending id k (hw.loop id hat) ?_).resolve_right fun hdone => ?_
  · rw [State.callback_eq hc, ← hcb.resolve_right hactive, hk]
  · obtain ⟨hl, d, hd, hempty⟩ := hdone
    obtain rfl : c = d := Option.some.inj (hc.symm.trans hd)
    exact hbusy.resolve_left hactive ⟨hl, hempty⟩

/-- A reply with nothing behind it. -/
theorem reply (h : CalledOnce s) (hw : Wired s) (hc : s.conns id = some c)
    (hloop : s.loop = .parsing id) {k : ℕ} (hk : c.callback = some k) (hinp : c.inp ≠ [])
    (reader : Option Bytes) (err : Option Cause) :
    CalledOnce { s.setConn id { c with authState := 0, inp := [] } with
      log := s.log ++ [.call k reader err] } := by
  have hat : s.loop.at = some id := by rw [hloop]; rfl
  have hcb : s.callback id = some k := (State.callback_eq hc).trans hk
  have hself : (s.setConn id { c with authState := 0, inp := [] }).conns id
      = some { c with authState := 0, inp := [] } := Function.update_self ..
  have hzero : s.calls k = 0 := by
    refine (h.pending id k (hw.loop id hat) hcb).resolve_right ?_
    rintro ⟨-, d, hd, hempty, -⟩
    obtain rfl : c = d := Option.some.inj (hc.symm.trans hd)
    exact hinp hempty
  refine h.call hzero h.fresh (fun i hi => ⟨?_, hi⟩) (funext fun i => ?_) (fun i => ?_)
    (fun i hi _ => ?_) (fun i hi => ?_) (fun i hi hl _ => ?_)
  · rintro rfl
    exact (h.unassigned i hi).2 id hcb
  · refine (State.callback_setConn (s := s) { c with authState := 0, inp := [] } i).trans ?_
    split
    · rename_i heq
      rw [heq, hcb]
      exact hk
    · rfl
  · rw [State.calls_append (s := s) rfl]
    simp [Event.isCall]
  · obtain rfl : i = id := h.unique i id k hi hcb
    exact ⟨hloop, _, hself, rfl, rfl⟩
  · refine (congrFun (State.entry_setConn hc ?_) i).symm.trans hi
    rfl
  · obtain rfl : id = i := Loop.parsing.inj (hloop.symm.trans hl)
    exact absurd hcb hi

end CalledOnce

/-- What a part calls: it takes a reply, or it frees the connection, or it calls nothing, and then
    the replies are not all taken or the callback is gone. -/
theorem Part.calls {a : Action} {es : List Event} {next : Next} (h : Part cfg s a id c c' es next) :
    (∃ n k rest err, a = .parse ∧ s.loop = .parsing id ∧ readElement c.inp = .ok n ∧
      c.authState ≠ 1 ∧ c.callback = some k ∧ c' = { c with authState := 0, inp := c.inp.drop n } ∧
      es = [.call k (some rest) err] ∧ next = .parse) ∨
    (c' = c ∧ es = [] ∧ next = .close .free none) ∨
    ((∀ e ∈ es, ∀ k, e.isCall k = false) ∧ (c'.callback = c.callback ∨ c'.callback = none) ∧
      (c'.callback = none ∨ ¬ (s.loop = .parsing id ∧ c.inp = [] ∧ c.authState = 0))) := by
  cases h with
  | write loop => exact .inr (.inr ⟨by simp, .inl rfl, .inr (by rw [loop]; simp)⟩)
  | read loop _ warnings =>
    refine .inr (.inr ⟨fun e he k => ?_, .inl rfl, .inr (by rw [loop]; simp)⟩)
    obtain ⟨cause, rfl⟩ := warnings e he
    rfl
  | parse loop round =>
    cases round with
    | auth element state => exact .inr (.inr ⟨by simp, .inl rfl, .inr fun h => by omega⟩)
    | reply element state callback =>
      exact .inl ⟨_, _, _, _, rfl, loop, element, state, callback, rfl, rfl, rfl⟩
    | release => exact .inr (.inr ⟨by simp, .inr rfl, .inl rfl⟩)
    | free => exact .inr (.inl ⟨rfl, rfl, rfl⟩)
    | wait busy => exact .inr (.inr ⟨by simp, .inl rfl, .inr fun h => busy h.2⟩)
    | failed inp => exact .inr (.inr ⟨by simp, .inl rfl, .inr fun h => inp h.2.1⟩)
    | panic inp => exact .inr (.inr ⟨by simp, .inl rfl, .inr fun h => inp h.2.1⟩)

/-- Under the assumption a reply is all that has been read. -/
theorem reply_all (ha : s.oneReply .parse = true) (hloop : s.loop = .parsing id)
    (hc : s.conns id = some c) {n : ℕ} (hel : readElement c.inp = .ok n)
    (hstate : c.authState ≠ 1) : n = c.inp.length ∧ c.inp ≠ [] := by
  obtain ⟨hpos, hle⟩ := readElement_le hel
  refine ⟨?_, List.ne_nil_of_length_pos (by omega)⟩
  have hat : s.loop.at = some id := by rw [hloop]; rfl
  simp only [State.oneReply, hat, Option.bind_some, hc, Conn.oneReply, hel, decide_eq_true_eq] at ha
  exact ha.resolve_left hstate

/-- A part of the event loop. -/
theorem CalledOnce.proceed (h : CalledOnce s) (hw : Wired s) {a : Action} {es : List Event}
    {next : Next} (hc : s.conns id = some c) (hpart : Part cfg s a id c c' es next)
    (ha : s.oneReply a = true) (hproceed : s.proceed id c' es next = some s') : CalledOnce s' := by
  obtain ⟨hat, hfd, -⟩ := hpart.spec
  rcases hpart.calls with ⟨n, k, rest, err, rfl, hloop, hel, hstate, hk, rfl, rfl, rfl⟩ |
    ⟨rfl, rfl, rfl⟩ | ⟨hes, hcb, hbusy⟩
  · obtain ⟨rfl, hinp⟩ := reply_all ha hloop hc hel hstate
    rw [List.drop_length] at hproceed
    have hreply := h.reply hw hc hloop hk hinp (some rest) err
    exact Option.some.inj hproceed ▸ hreply.keep rfl rfl rfl rfl hloop.symm (fun _ hd => hd)
      (List.append_nil _).symm (by simp)
  · have hset : CalledOnce { s.setConn id c' with log := s.log ++ [] } :=
      (h.setConn hc rfl rfl rfl rfl).keep rfl rfl rfl rfl rfl (fun _ hd => hd) rfl (by simp)
    have hent : (s.setConn id c').entry id = some id := by
      rw [State.entry_setConn hc rfl]
      exact hw.loop id hat
    exact hset.close (Function.update_self ..) (.inr hent) (fun _ => ⟨hat, hent⟩)
      (fun hfree => absurd rfl hfree) hproceed
  · obtain ⟨loop, rfl, -⟩ | ⟨typ, err, -, hclose⟩ := State.proceed_cases hproceed
    · exact h.quiet hc hfd hat hcb hbusy hes loop
    · exact h.quiet_close hw hc hfd hat hcb hbusy hes hclose

/-! ### Steps and runs -/

theorem Takes.calledOnce {a : Action} {s₀ : State} {k : ℕ} {cmdArgs : List Arg}
    (ht : Takes s a s₀ k cmdArgs) (h : CalledOnce s) :
    CalledOnce s₀ ∧ s₀.conns = s.conns ∧ ∃ e, s₀.execs k = some e ∧ e.pc.unassigned = true := by
  cases ht with
  | exec => exact ⟨h.enter cmdArgs, rfl, _, Function.update_self .., rfl⟩
  | receive pc => exact ⟨h, rfl, _, pc, rfl⟩

theorem Closes.calledOnce {a : Action} {s₀ : State} (hc : Closes cfg s a s₀ id c)
    (h : CalledOnce s) : CalledOnce s₀ := by
  cases hc with
  | trim => exact h.silent rfl rfl rfl rfl rfl (List.append_nil _).symm (by simp)
  | timeout conn => exact h.setConn conn rfl rfl rfl rfl
  | shut => exact h

/-- One step calls no callback a second time, if it meets the condition. -/
theorem step_calledOnce {a : Action} (h : CalledOnce s) (hw : Wired s) (ha : Paired cfg s a)
    (hstep : step cfg s a = some s') : CalledOnce s' := by
  cases step_move hstep with
  | enter => exact h.enter _
  | fill takes idle conn filled =>
    obtain ⟨hstart, hconns, e, hk, he⟩ := takes.calledOnce h
    exact hstart.fill hk he (hconns ▸ conn) filled
  | fillPanic takes =>
    obtain ⟨hstart, -⟩ := takes.calledOnce h
    exact hstart.silent rfl rfl rfl rfl rfl (List.append_nil _).symm (by simp)
  | pc exec same => exact h.setPc exec _ fun hpc => same ▸ hpc
  | refused exec => exact h.refused _ exec
  | connect exec closed =>
    exact (h.connect hw exec closed).silent rfl rfl rfl rfl rfl (List.append_nil _).symm (by simp)
  | @arm k id cmdArgs c exec conn =>
    have harm : CalledOnce (s.setConn id (c.arm cfg)) := by
      unfold Conn.arm
      split
      · exact h.setConn conn rfl rfl rfl rfl
      · exact h.setConn conn rfl rfl rfl rfl
    exact harm.setPc exec .done (by simp [Pc.unassigned])
  | lost => exact h.silent rfl rfl rfl rfl rfl rfl (by simp [Event.isCall])
  | loopPanic loop =>
    exact h.same h.fresh (fun _ hk => hk) (fun _ _ hi => hi) (fun _ _ _ hi => hi) (fun _ => rfl)
      (fun i _ _ _ hl => by rw [loop] at hl; cases hl)
  | dropped loop slot conn touch =>
    obtain ⟨death, rfl, -⟩ := Conn.touch_spec touch
    exact h.setConn conn rfl rfl rfl rfl
  | @handle fd id write c c' loop slot conn touch =>
    obtain ⟨death, rfl, -⟩ := Conn.touch_spec touch
    have hset : CalledOnce (s.setConn id { c with death := death }) :=
      h.setConn conn rfl rfl rfl rfl
    exact hset.same hset.fresh (fun _ hk => hk) (fun _ _ hi => hi)
      (fun _ _ _ hi => hi) (fun _ => rfl)
      (fun i _ _ _ hl => by rw [State.setConn, loop] at hl; cases hl)
  -- the event loop: `Paired` bounds what a read can bring
  | part conn part proceed => exact h.proceed hw conn part ha.2 proceed
  | push loop =>
    refine h.same h.fresh (fun _ hk => hk) (fun _ _ hi => hi) (fun _ _ _ hi => hi) (fun k => ?_)
      (fun i _ _ _ hl => by rw [loop] at hl; cases hl)
    rw [State.calls_append (s := s) rfl]
    rfl
  | expire conn => exact h.setConn conn rfl rfl rfl rfl
  | close closes close =>
    obtain ⟨-, hconn, hfd, hmap, -, -, hloop, -⟩ := closes.start
    -- the loop is not at this connection, so its callback has not been called yet
    obtain ⟨haway, hown⟩ := ha.1.closes closes
    have hstart := closes.calledOnce h
    rw [State.entry, ← hfd, ← hmap] at hown
    refine hstart.close hconn hown (fun hwho => by cases hwho) (fun _ k hreg hk => ?_) close
    refine (hstart.pending _ k hreg ((State.callback_eq hconn).trans hk)).resolve_right ?_
    intro hbusy
    rw [hloop] at hbusy
    exact haway (by rw [hbusy.1]; rfl)

/-- **Called once.**  In a run of such steps the callback of each `Exec` is called at most once. -/
theorem callback_once {as : List Action} (hm : Meets (step cfg) (Paired cfg) {} as)
    (hr : run (step cfg) {} as = some s) (k : ℕ) : s.calls k ≤ 1 := by
  have hinv : Wired s ∧ CalledOnce s := by
    refine run_invariant (P := fun s => Wired s ∧ CalledOnce s)
      ?_ ⟨Wired.init, CalledOnce.init⟩ hm hr
    rintro t a t' ⟨hw, ht⟩ ha hstep
    exact ⟨step_wired hw (fun hc => ha.1.closes hc) hstep, step_calledOnce ht hw ha hstep⟩
  exact hinv.2.once k

/-- A connection that answers one command and fails at the next one. -/
def answered : List Action :=
  [.exec [.string (ascii "PING")], .decide 0, .connect 0 (.ok 5), .arm 0, .event 5 true,
    .write (.ok 100), .event 5 false, .read (.data (ascii "+PO")), .parse, .event 5 false,
    .read (.data (ascii "NG\r\n")), .parse, .parse, .push, .exec [.string (ascii "PING")], .trim 1,
    .event 5 true, .write (.error (ascii "broken pipe"))]

/-- Each of the two callbacks is called once. -/
theorem callback_once_answered :
    ∃ s, run (step { poolSize := 1 }) {} answered = some s ∧ s.calls 0 = 1 ∧ s.calls 1 = 1 ∧
      ∀ k, s.calls k ≤ 1 := by
  have hsome : (run (step { poolSize := 1 }) {} answered).isSome := by decide +kernel
  obtain ⟨s, hs⟩ := Option.isSome_iff_exists.mp hsome
  have hcalls : (run (step { poolSize := 1 }) {} answered).map (fun s => (s.calls 0, s.calls 1))
      = some (1, 1) := by decide +kernel
  rw [hs, Option.map_some, Option.some.injEq, Prod.mk.injEq] at hcalls
  exact ⟨s, hs, hcalls.1, hcalls.2, callback_once (by decide +kernel) hs⟩

/-- The server sends two replies to one command. -/
def repliedTwice : List Action :=
  [.exec [.string (ascii "PING")], .decide 0, .connect 0 (.ok 5), .arm 0, .event 5 true,
    .write (.ok 100), .event 5 false, .read (.data (ascii "+OK\r\n+OK\r\n")), .parse, .parse]

/-- The callback is called for both. -/
theorem callback_twice :
    (run (step { poolSize := 1 }) {} repliedTwice).map (·.calls 0) = some 2 := by
  decide +kernel

end Resh.Client
