import Resh.Client.Waiting

namespace Resh.Client

open Resh.Go

/-!
# The event loop and the pool

The event loop sends on the channel `fdIdle`, and a callback that it runs may call `Exec`, which
receives from it.  `Reentrant` is the client with the callbacks of the event loop: while it is in
one it handles no events, and a call of `Exec` from there is made by its own goroutine.  Every step
of the client is one of `step`.

* `Blocked` — the event loop waits on the channel;
* `PoolStep` — what a step does with the pool and the connection on its way there;
* `Roomy` — the assumptions on the pool: connections that are closed while they are idle, and new
  ones, leave room;
* `loop_never_blocks` — in a run of such steps, whose callbacks call `Exec` only while there is an
  idle connection or room for a new one, the event loop does not wait on the channel;
* `loop_blocks` — two runs in which it does.
-/

/-! ### Callbacks that call `Exec` -/

def Event.isCallback : Event → Bool
  | .call .. => true
  | _ => false

/-- The actions of the goroutine of the event loop, outside of callbacks. -/
def Action.ofLoop : Action → Bool
  | .event .. => true
  | .write _ => true
  | .read _ => true
  | .parse => true
  | .push => true
  | _ => false

namespace State

/-- The step to `s'` has called a callback. -/
def callsBack (s s' : State) : Bool := (s'.log.drop s.log.length).any Event.isCallback

/-- The `k`-th call of `Exec` has panicked in the goroutine of the event loop, which recovers and
    ends. -/
def recovered (s : State) (k : ℕ) :
    State := { s.setPc k .done with crashed := false, loop := .dead }

end State

/-- A client, and where the goroutine of its event loop is. -/
structure Reentrant where
  client : State := {}
  /-- the event loop is in a callback -/
  inside : Bool := false
  /-- the last call of `Exec` from this callback -/
  call : Option ℕ := none

inductive Reentrant.Action where
  | client (a : Client.Action)
  /-- the callback calls `Exec` -/
  | exec (cmdArgs : List Arg)
  /-- the callback returns -/
  | leave

namespace Reentrant

/-- The callback is not in a call of `Exec`. -/
def returned (n : Reentrant) : Bool :=
  match n.call with
  | none => true
  | some k => (n.client.execs k).all fun e => e.pc = .done

/-- The goroutine of the event loop has taken on its call of `Exec`. -/
def goOn (n : Reentrant) (k : ℕ) (s : State) : Reentrant :=
  if s.crashed then { client := s.recovered k } else { n with client := s, call := some k }

/-- **One step.** -/
def step (cfg : Config) (n : Reentrant) : Action → Option Reentrant
  | .client a =>
    if a.ofLoop then
      if n.inside then none
      else (Client.step cfg n.client a).map fun s =>
        { client := s, inside := n.client.callsBack s, call := none }
    else match n.call, a.caller with
      | some k, some j =>
        (Client.step cfg n.client a).map fun s => if j = k then n.goOn k s
          else { n with client := s }
      | _, _ => (Client.step cfg n.client a).map fun s => { n with client := s }
  | .exec cmdArgs =>
    if n.inside ∧ n.returned then
      (Client.step cfg n.client (.exec cmdArgs)).map (n.goOn n.client.called)
    else none
  | .leave => if n.inside ∧ n.returned then some { n with inside := false, call := none } else none

/-- The goroutine of the event loop waits on the channel: it sends and there is no room, or its
    callback is in a call of `Exec` that waits for an idle connection. -/
def Blocked (cfg : Config) (n : Reentrant) : Prop :=
  (∃ id, n.client.loop = .pushing id ∧ cfg.poolSize ≤ n.client.fdIdle.length) ∨
    ∃ k cmdArgs, n.call = some k ∧ n.client.execs k = some ⟨cmdArgs, .waiting⟩

/-- The call of the callback looks at `fdConns.Len()` next. -/
def deciding (n : Reentrant) : Bool := (n.call.bind n.client.execs).any fun e => e.pc = .deciding

end Reentrant

/-! ### What a step does with the pool -/

section Pool

variable {cfg : Config} {s s' : State} {id : ℕ} {c : Conn} {a : Action}

namespace State

/-- The idle connections, and the one on its way to the pool. -/
def idling (s : State) : List ℕ :=
  s.fdIdle ++ match s.loop with
    | .pushing id => [id]
    | _ => []

/-- The idle connections that an action leaves in the pool if it closes one: whoever trims the pool
    has taken out the first. -/
def kept (s : State) : Action → List ℕ
  | .trim _ => s.idling.tail
  | _ => s.idling

/-- The connections that are registered or idle. -/
def held (s : State) : Finset ℕ := s.idling.toFinset ∪ s.registered

/-- A connection idles in the pool, or is on its way there. -/
theorem mem_idling : id ∈ s.idling ↔ id ∈ s.fdIdle ∨ s.loop = .pushing id := by
  unfold idling
  rw [List.mem_append]
  apply or_congr_right
  cases hloop : s.loop with
  | pushing j => simp [eq_comm]
  | ready => simp
  | writing j => simp
  | reading j => simp
  | parsing j => simp
  | dead => simp

end State

/-- A step takes at most from the pool, gives a connection back, or puts it into the pool. -/
inductive PoolStep (cfg : Config) (s : State) (a : Action) (s' : State) : Prop
  | shrink (idle : s'.fdIdle.Sublist s.fdIdle) (loop : ∀ id, s'.loop = .pushing id →
    s.loop = .pushing id)
  | release {id : ℕ} (returns : s.returns cfg a = some id) (parsing : s.loop = .parsing id)
      (pushing : s'.loop = .pushing id) (idle : s'.fdIdle = s.fdIdle)
      (room : s.fdConns.count ≤ cfg.poolSize) (up : s'.crashed = false)
  | push {id : ℕ} (pushing : s.loop = .pushing id) (ready : s'.loop = .ready)
      (idle : s'.fdIdle = s.fdIdle ++ [id]) (up : s'.crashed = false)

/-- Closing a connection puts nothing into the pool. -/
theorem close_pool {s₀ : State} {who : State.Who} {typ : ErrType} {err : Option Cause}
    (hidle : s₀.fdIdle.Sublist s.fdIdle) (hloop : s₀.loop = s.loop)
    (hclose : s₀.closeConnWithError who id c typ err = some s') : PoolStep cfg s a s' := by
  obtain ⟨-, rfl⟩ | ⟨v, -, rfl⟩ := State.close_cases hclose
  · cases who with
    | loop => exact .shrink hidle fun i hi => absurd hi (by simp [State.stuck, State.panicked])
    | other => exact .shrink hidle fun i hi => hloop ▸ hi
  · cases who with
    | loop => exact .shrink hidle fun i hi => absurd hi (by simp [State.removed])
    | other => exact .shrink hidle fun i hi => hloop ▸ hi

/-- A part of the event loop sends a connection to the pool only when it has taken all its
    replies. -/
theorem Part.pool {c' : Conn} {es : List Event} {next : Next} (h : Part cfg s a id c c' es next)
    (hpush : next = .push) : s.loop = .parsing id ∧ s.fdConns.count ≤ cfg.poolSize := by
  cases h with
  | write loop goes =>
    rcases goes with rfl | ⟨err, rfl⟩ <;> cases hpush
  | read loop _ _ goes =>
    rcases goes with rfl | ⟨rfl, -⟩ | ⟨typ, err, rfl, -⟩ <;> cases hpush
  | parse loop round =>
    refine ⟨loop, ?_⟩
    cases round with
    | release _ _ room => exact room
    | auth => cases hpush
    | reply => cases hpush
    | free => cases hpush
    | wait => cases hpush
    | failed => cases hpush
    | panic => cases hpush

/-- **What a step does with the pool.** -/
theorem step_pool (hstep : step cfg s a = some s') : PoolStep cfg s a s' := by
  have hup := step_up hstep
  have hrefl : s.fdIdle.Sublist s.fdIdle := .refl _
  cases step_move hstep with
  | enter => exact .shrink hrefl fun _ hi => hi
  | @fill _ _ _ _ _ rest _ _ takes idle =>
    have htail : rest.Sublist s.fdIdle := idle ▸ List.sublist_cons_self ..
    cases takes with
    | exec => exact .shrink htail fun _ hi => hi
    | receive => exact .shrink htail fun _ hi => hi
  | @fillPanic _ _ _ _ _ rest takes idle =>
    have htail : rest.Sublist s.fdIdle := idle ▸ List.sublist_cons_self ..
    cases takes with
    | exec => exact .shrink htail fun _ hi => hi
    | receive => exact .shrink htail fun _ hi => hi
  | pc => exact .shrink hrefl fun _ hi => hi
  | refused => exact .shrink hrefl fun _ hi => hi
  | connect => exact .shrink hrefl fun _ hi => hi
  | arm => exact .shrink hrefl fun _ hi => hi
  | lost => exact .shrink hrefl fun _ hi => hi
  | loopPanic => exact .shrink hrefl fun _ hi => by cases hi
  | dropped => exact .shrink hrefl fun _ hi => hi
  | @handle _ _ write => exact .shrink hrefl fun _ hi => by cases write <;> cases hi
  -- only a part that ends in `push` sends its connection to the pool
  | @part _ id c c' es next conn part _ proceed ends =>
    obtain ⟨loop, rfl, hwhere⟩ | ⟨typ, err, -, hclose⟩ := State.proceed_cases proceed
    · rcases hwhere with ⟨-, rfl⟩ | ⟨-, rfl⟩ | ⟨rfl, rfl⟩ | ⟨-, rfl⟩
      · exact .shrink hrefl fun _ hi => by cases hi
      · exact .shrink hrefl fun _ hi => by cases hi
      · obtain ⟨hparse, hroom⟩ := part.pool rfl
        exact .release (by rw [State.returns, ends]) hparse rfl rfl hroom hup
      · exact .shrink hrefl fun _ hi => by cases hi
    · refine close_pool ?_ ?_ hclose
      · exact hrefl
      · rfl
  | push loop => exact .push loop rfl rfl hup
  | expire => exact .shrink hrefl fun _ hi => hi
  | close closes close =>
    -- whoever trims has taken the connection out before
    refine close_pool ?_ closes.start.2.2.2.2.2.2.1 close
    cases closes with
    | trim full idle => exact idle ▸ List.sublist_cons_self ..
    | timeout => exact hrefl
    | shut => exact hrefl

/-- The idle connections of the next state were idle before, or are given back. -/
theorem PoolStep.idling (h : PoolStep cfg s a s') (hid : id ∈ s'.idling) :
    id ∈ s.idling ∨ s.returns cfg a = some id := by
  rw [State.mem_idling] at hid ⊢
  cases h with
  | shrink idle loop => exact .inl (hid.imp (fun h => idle.subset h) (loop id))
  | @release i returns _ pushing idle =>
    rcases hid with hid | hid
    · exact .inl (.inl (idle ▸ hid))
    · obtain rfl : i = id := Loop.pushing.inj (pushing.symm.trans hid)
      exact .inr returns
  | push pushing ready idle =>
    rcases hid with hid | hid
    · rw [idle, List.mem_append, List.mem_singleton] at hid
      refine .inl (hid.imp_right fun (heq : id = _) => ?_)
      rw [heq]
      exact pushing
    · rw [ready] at hid
      cases hid

/-- A step that closes a connection leaves in the pool what it says. -/
theorem idling_kept (hstep : step cfg s a = some s') (hclosing : s.closing cfg a ≠ none)
    (hid : id ∈ s'.idling) : id ∈ s.kept a := by
  by_cases htrim : ∃ k, a = .trim k
  · obtain ⟨k, rfl⟩ := htrim
    cases step_move hstep with
    | pc _ _ quiet => exact absurd quiet hclosing
    | part _ part => cases part
    | fill takes => cases takes
    | fillPanic takes => cases takes
    | close closes close =>
      cases closes with
      | @trim _ _ rest _ _ idle =>
        have htail : s.kept (.trim k) = ({ s with fdIdle := rest } : State).idling := by
          simp [State.kept, State.idling, idle]
        rw [htail]
        obtain ⟨-, rfl⟩ | ⟨v, -, rfl⟩ := State.close_cases close
        · exact hid
        · exact hid
  · have hkept : s.kept a = s.idling := by
      cases a with
      | trim k => exact absurd ⟨k, rfl⟩ htrim
      | _ => rfl
    rw [hkept]
    exact ((step_pool hstep).idling hid).resolve_right fun hreturns =>
      hclosing (closing_of_returns hreturns)

/-! ### Room in the pool -/

namespace State

/-- Every idle connection is registered. -/
def Clean (s : State) : Prop := ∀ id ∈ s.idling, id ∈ s.registered

instance (s : State) : Decidable s.Clean := inferInstanceAs (Decidable (∀ id ∈ s.idling, _))

/-- The idle connections are among those that count for the room in the pool. -/
theorem idling_subset_held (s : State) : s.idling.toFinset ⊆ s.held := Finset.subset_union_left

end State

/-- The assumptions on the pool in a step: a connection is given back only if nobody has closed it;
    and where closed connections are or come to be in the pool, the idle and the registered ones
    together are not too many. -/
structure Roomy (cfg : Config) (s : State) (a : Action) : Prop where
  back : ∀ id ∈ s.returns cfg a, id ∈ s.registered
  made : a.makes = true → s.Clean ∨ s.held.card < cfg.poolSize
  closed : ∀ id ∈ s.deletes cfg a, id ∉ s.kept a ∨ s.held.card ≤ cfg.poolSize

instance (cfg : Config) (s : State) (a : Action) : Decidable (Roomy cfg s a) :=
  decidable_of_iff (_ ∧ _ ∧ _) ⟨fun h => ⟨h.1, h.2.1, h.2.2⟩, fun h => ⟨h.back, h.made, h.closed⟩⟩

/-- What such steps keep: closed connections in the pool do not take the room of registered ones,
    and there is room for the connection on its way. -/
structure HasRoom (cfg : Config) (s : State) : Prop where
  held : s.Clean ∨ s.held.card ≤ cfg.poolSize
  pushing : ∀ id, s.loop = .pushing id → s.fdIdle.length < cfg.poolSize

namespace HasRoom

/-- Before the first call nothing is in the pool. -/
theorem init : HasRoom cfg {} :=
  ⟨.inl fun _ h => absurd h (by simp [State.idling]), fun _ h => absurd h (by simp)⟩

/-- The idle connections of the next state were idle before, or are registered. -/
theorem idling_subset (hr : Roomy cfg s a) (hstep : PoolStep cfg s a s') :
    s'.idling.toFinset ⊆ s.held := by
  intro i hi
  rcases hstep.idling (List.mem_toFinset.mp hi) with hold | hreturns
  · exact s.idling_subset_held (List.mem_toFinset.mpr hold)
  · exact Finset.mem_union_right _ (hr.back i hreturns)

/-- In a clean state they are all registered. -/
theorem registered_of_clean (hr : Roomy cfg s a) (hclean : s.Clean) (hstep : PoolStep cfg s a s')
    (hid : id ∈ s'.idling) : id ∈ s.registered := by
  have hheld := idling_subset hr hstep (List.mem_toFinset.mpr hid)
  rw [State.held, Finset.mem_union, List.mem_toFinset] at hheld
  exact hheld.elim (hclean id) fun h => h

/-- The first half, over the registry. -/
theorem held_step (h : HasRoom cfg s) (hc : Counted s) (hp : Pooled cfg s) (hr : Roomy cfg s a)
    (hpool : PoolStep cfg s a s') (hreg : Registers cfg s a s')
    (hkept : s.closing cfg a ≠ none → ∀ id ∈ s'.idling, id ∈ s.kept a) :
    s'.Clean ∨ s'.held.card ≤ cfg.poolSize := by
  have hidling := idling_subset hr hpool
  -- nothing that was held is lost, and at most the new connection is gained
  have hkeep : s'.registered ⊆ s.registered → s.held.card ≤ cfg.poolSize →
      s'.held.card ≤ cfg.poolSize := by
    intro hsub hcard
    refine (Finset.card_le_card ?_).trans hcard
    exact Finset.union_subset hidling (hsub.trans Finset.subset_union_right)
  have hclean : s.registered ⊆ s'.registered → s.Clean → s'.Clean := fun hsub hclean id hid =>
    hsub (registered_of_clean hr hclean hpool hid)
  cases hreg with
  | same agrees =>
    have heq := agrees.registered_eq
    exact h.held.imp (hclean heq.symm.subset) (hkeep heq.subset)
  | @delete fd v closing taken agrees =>
    have heq : s'.registered = s.registered.erase v := by
      rw [agrees.registered_eq, hc.registered_deleted hp taken]
    have hdeletes : s.deletes cfg a = some v := by
      rw [State.deletes, closing, Option.bind_some, taken]
    have hsub : s'.registered ⊆ s.registered := heq ▸ Finset.erase_subset ..
    rcases hr.closed v hdeletes with hgone | hcard
    · refine h.held.imp (fun hclean id hid => ?_) (hkeep hsub)
      rw [heq]
      refine Finset.mem_erase.mpr ⟨?_, registered_of_clean hr hclean hpool hid⟩
      rintro rfl
      exact hgone (hkept (by simp [closing]) id hid)
    · exact .inr (hkeep hsub hcard)
  | @add c count makes closed counted agrees =>
    have heq : s'.registered = insert s.made s.registered := by
      rw [agrees.registered_eq]
      exact hc.registered_new hp closed
    rcases hr.made makes with hold | hcard
    · exact .inl (hclean (heq ▸ Finset.subset_insert ..) hold)
    · right
      have hsub : s'.held ⊆ insert s.made s.held := by
        refine Finset.union_subset (hidling.trans (Finset.subset_insert ..)) ?_
        rw [heq]
        exact Finset.insert_subset_insert _ Finset.subset_union_right
      have hle := Finset.card_le_card hsub
      have hins := Finset.card_insert_le s.made s.held
      omega

/-- A connection that is given back finds room. -/
theorem released (h : HasRoom cfg s) (hc : Counted s) (hp : Pooled cfg s)
    (hparse : s.loop = .parsing id) (hreg : id ∈ s.registered)
    (hroom : s.fdConns.count ≤ cfg.poolSize) : s.fdIdle.length < cfg.poolSize := by
  obtain ⟨d, hd, hcb⟩ := hp.parsing id hparse
  have hnot : id ∉ s.fdIdle.toFinset := by
    rw [List.mem_toFinset]
    exact hp.not_mem hd hcb
  have hcard : (insert id s.fdIdle.toFinset).card = s.fdIdle.length + 1 := by
    rw [Finset.card_insert_of_notMem hnot, List.toFinset_card_of_nodup hp.nodup]
  have hidle : ∀ i ∈ s.fdIdle.toFinset, i ∈ s.idling := fun i hi =>
    State.mem_idling.mpr (.inl (List.mem_toFinset.mp hi))
  rcases h.held with hclean | hheld
  · have hsub : insert id s.fdIdle.toFinset ⊆ s.registered :=
      Finset.insert_subset hreg fun i hi => hclean i (hidle i hi)
    have hle := Finset.card_le_card hsub
    have hcount := hc.count
    omega
  · have hsub : insert id s.fdIdle.toFinset ⊆ s.held := by
      refine Finset.insert_subset (Finset.mem_union_right _ hreg) fun i hi => ?_
      exact s.idling_subset_held (List.mem_toFinset.mpr (hidle i hi))
    have hle := Finset.card_le_card hsub
    omega

/-- **Such a step keeps the room.** -/
theorem step (h : HasRoom cfg s) (hc : Counted s) (hp : Pooled cfg s) (hr : Roomy cfg s a)
    (hpool : PoolStep cfg s a s') (hreg : Registers cfg s a s')
    (hkept : s.closing cfg a ≠ none → ∀ id ∈ s'.idling, id ∈ s.kept a) : HasRoom cfg s' := by
  refine ⟨h.held_step hc hp hr hpool hreg hkept, fun i hi => ?_⟩
  cases hpool with
  | shrink idle loop => exact idle.length_le.trans_lt (h.pushing i (loop i hi))
  | @release id returns parsing pushing idle room =>
    rw [idle]
    exact h.released hc hp parsing (hr.back id returns) room
  | push pushing ready idle =>
    rw [ready] at hi
    cases hi

end HasRoom

/-! ### The call of the callback -/

/-- A step of another goroutine leaves a call where it is. -/
theorem CallStep.other {k : ℕ} (h : CallStep cfg s a s') (hk : k < s.called)
    (hother : a.caller ≠ some k) : s'.execs k = s.execs k := by
  cases h with
  | same _ execs => rw [execs]
  | enter execs => rw [execs, Function.update_of_ne (by omega)]
  | @goes _ _ j _ caller execs =>
    rw [execs, State.execs_setPc, if_neg]
    rintro rfl
    exact hother caller

/-- The number of connections grows only when one is made. -/
theorem Registers.count_le (h : Registers cfg s a s') (hc : Counted s) :
    s'.fdConns.count ≤ s.fdConns.count ∨
      (a.makes = true ∧ s'.fdConns.count = s.fdConns.count + 1) := by
  cases h with
  | same agrees => exact .inl agrees.count.le
  | delete _ _ agrees =>
    have hcount : s'.fdConns.count = s.fdConns.count - 1 := agrees.count
    exact .inl (by omega)
  | add makes closed counted agrees =>
    refine .inr ⟨makes, ?_⟩
    rw [agrees.count]
    exact counted (hc.free closed)

/-- A panic that is recovered does not touch the registry. -/
theorem Agrees.recovered (s : State) (k : ℕ) : Agrees s (s.recovered k) := ⟨rfl, rfl, rfl, rfl, rfl⟩

/-- A step that panics, and is recovered, has done to the registry what the step did. -/
theorem Registers.recovered (h : Registers cfg s a s') (k : ℕ) :
    Registers cfg s a (s'.recovered k) := by
  cases h with
  | same agrees => exact .same (agrees.trans (.recovered s' k))
  | delete closing taken agrees => exact .delete closing taken (agrees.trans (.recovered s' k))
  | add makes closed counted agrees conn active =>
    exact .add makes closed counted (agrees.trans (.recovered s' k)) conn active

/-- A step that panics, and is recovered, has put nothing into the pool. -/
theorem PoolStep.recovered (h : PoolStep cfg s a s') (hcrash : s'.crashed = true) (k : ℕ) :
    PoolStep cfg s a (s'.recovered k) := by
  cases h with
  | shrink idle => exact .shrink idle fun i hi => by cases hi
  | release _ _ _ _ _ up => rw [up] at hcrash; cases hcrash
  | push _ _ _ up => rw [up] at hcrash; cases hcrash

/-- Nothing is on its way to the pool when the event loop has ended. -/
theorem State.idling_recovered {k : ℕ} (hid : id ∈ (s.recovered k).idling) : id ∈ s.idling := by
  rw [State.mem_idling] at hid ⊢
  exact .inl (hid.resolve_right fun hloop => by cases hloop)

/-- The invariant of the pool survives a recovered panic, since the event loop has ended with it. -/
theorem Pooled.recovered (h : Pooled cfg s) (k : ℕ) : Pooled cfg (s.recovered k) :=
  h.weaken rfl rfl (.refl _) (.inr rfl)

end Pool

/-! ### Runs -/

namespace Reentrant

variable {cfg : Config} {n n' : Reentrant} {a : Action}

/-- A callback calls `Exec` only while there is an idle connection or room for a new one. -/
def spare (cfg : Config) (n : Reentrant) : Action → Bool
  | .exec _ => n.client.fdIdle ≠ [] ∨ n.client.fdConns.count < cfg.poolSize
  | _ => true

/-- The action of the client in a step. -/
def Action.inner : Action → Option Client.Action
  | .client a => some a
  | .exec cmdArgs => some (.exec cmdArgs)
  | .leave => none

/-- The assumptions on a step: there is room in the pool, and for the call of the callback, also
    when another call makes a connection just before it looks. -/
def Unblocked (cfg : Config) (n : Reentrant) (a : Action) : Prop :=
  n.spare cfg a = true ∧ ∀ b ∈ a.inner, Roomy cfg n.client b ∧
    (n.deciding = true → b.makes = true → n.client.fdConns.count + 1 < cfg.poolSize)

instance (cfg : Config) (n : Reentrant) (a : Action) : Decidable (Unblocked cfg n a) :=
  inferInstanceAs (Decidable (_ ∧ ∀ b ∈ a.inner, _))

/-- What a step does. -/
inductive Move (cfg : Config) (n : Reentrant) : Action → Reentrant → Prop
  | loop {a : Client.Action} {s : State} {inside : Bool}
      (step : Client.step cfg n.client a = some s) :
      Move cfg n (.client a) { client := s, inside := inside, call := none }
  | own {a : Client.Action} {s : State} {k : ℕ} (call : n.call = some k)
      (caller : a.caller = some k)
      (step : Client.step cfg n.client a = some s) : Move cfg n (.client a) (n.goOn k s)
  | other {a : Client.Action} {s : State} (other : ∀ k, n.call = some k → a.caller ≠ some k)
      (step : Client.step cfg n.client a = some s) : Move cfg n (.client a) { n with client := s }
  | exec {cmdArgs : List Arg} {s : State}
      (step : Client.step cfg n.client (.exec cmdArgs) = some s) :
      Move cfg n (.exec cmdArgs) (n.goOn n.client.called s)
  | leave : Move cfg n .leave { n with inside := false, call := none }

/-- Every step of the nested loop is one of the client, or of the call within the callback. -/
theorem step_move (hstep : n.step cfg a = some n') : Move cfg n a n' := by
  cases a with
  | client a =>
    simp only [step] at hstep
    split at hstep
    · split at hstep
      · cases hstep
      · obtain ⟨s, hs, rfl⟩ := Option.map_eq_some_iff.mp hstep
        exact .loop hs
    · split at hstep
      · rename_i k j hcall hcaller
        obtain ⟨s, hs, rfl⟩ := Option.map_eq_some_iff.mp hstep
        split
        · rename_i heq
          exact .own hcall (heq ▸ hcaller) hs
        · rename_i hne
          refine .other (fun i hi hj => hne ?_) hs
          rw [hcall, Option.some.injEq] at hi
          rw [hcaller, Option.some.injEq] at hj
          rw [hi, hj]
      · rename_i hneither
        obtain ⟨s, hs, rfl⟩ := Option.map_eq_some_iff.mp hstep
        exact .other (fun k hk hj => hneither k k hk hj) hs
  | exec cmdArgs =>
    simp only [step] at hstep
    split at hstep
    · obtain ⟨s, hs, rfl⟩ := Option.map_eq_some_iff.mp hstep
      exact .exec hs
    · cases hstep
  | leave =>
    simp only [step] at hstep
    split at hstep
    · cases hstep
      exact .leave
    · cases hstep

/-- The part of the invariant about the client. -/
structure Sound (cfg : Config) (s : State) : Prop where
  pooled : Pooled cfg s
  counted : Counted s
  room : HasRoom cfg s

/-- A step of the client keeps the three invariants, given room in the pool. -/
theorem Sound.step {s s' : State} {a : Client.Action} (h : Sound cfg s) (hr : Roomy cfg s a)
    (hstep : Client.step cfg s a = some s') : Sound cfg s' :=
  ⟨step_pooled h.pooled hstep, step_counted h.counted h.pooled hstep,
    h.room.step h.counted h.pooled hr (step_pool hstep) (step_registers hstep)
      fun hclosing _ hid => idling_kept hstep hclosing hid⟩

/-- A step that panics and is recovered keeps the three invariants, too. -/
theorem Sound.recovered {s s' : State} {a : Client.Action} {k : ℕ} (h : Sound cfg s)
    (hr : Roomy cfg s a) (hstep : Client.step cfg s a = some s') (hcrash : s'.crashed = true) :
    Sound cfg (s'.recovered k) :=
  ⟨(step_pooled h.pooled hstep).recovered k,
    (step_counted h.counted h.pooled hstep).same (.recovered s' k),
    h.room.step h.counted h.pooled hr ((step_pool hstep).recovered hcrash k)
      ((step_registers hstep).recovered k)
      fun hclosing _ hid => idling_kept hstep hclosing (State.idling_recovered hid)⟩

/-- The call within the callback leaves an orderly client, whether it panics or goes on. -/
theorem Sound.goOn {s : State} {a : Client.Action} {k : ℕ} (h : Sound cfg n.client)
    (hr : Roomy cfg n.client a) (hstep : Client.step cfg n.client a = some s) :
    Sound cfg (n.goOn k s).client := by
  unfold Reentrant.goOn
  split
  · rename_i hcrash
    exact h.recovered hr hstep hcrash
  · exact h.step hr hstep

/-- The call of the callback does not wait, and will not. -/
structure Free (cfg : Config) (s : State) (k : ℕ) : Prop where
  called : k < s.called
  moving : ∀ cmdArgs, s.execs k ≠ some ⟨cmdArgs, .waiting⟩
  room : ∀ cmdArgs, s.execs k = some ⟨cmdArgs, .deciding⟩ → s.fdConns.count < cfg.poolSize

/-- The invariant. -/
structure Flows (cfg : Config) (n : Reentrant) : Prop where
  sound : Sound cfg n.client
  call : ∀ k, n.call = some k → Free cfg n.client k

/-- The number of calls does not go down. -/
theorem called_le {s s' : State} {a : Client.Action} (h : CallStep cfg s a s') :
    s.called ≤ s'.called := by
  cases h with
  | same _ _ called => exact called.ge
  | enter _ called => omega
  | goes _ _ called => exact called.ge

/-- While the call decides, the pool keeps a connection for it. -/
theorem Free.keeps_room {s' : State} {a : Client.Action} {k : ℕ}
    {cmdArgs : List Arg} (h : Free cfg n.client k) (hcall : n.call = some k) (hc : Counted n.client)
    (hmade : n.deciding = true → a.makes = true → n.client.fdConns.count + 1 < cfg.poolSize)
    (hstep : Client.step cfg n.client a = some s')
    (hk : n.client.execs k = some ⟨cmdArgs, .deciding⟩) : s'.fdConns.count < cfg.poolSize := by
  have hroom := h.room cmdArgs hk
  rcases (step_registers hstep).count_le hc with hle | ⟨hnew, heq⟩
  · omega
  · rw [heq]
    refine hmade ?_ hnew
    simp [deciding, hcall, hk]

/-- Another goroutine acts. -/
theorem Free.other {s' : State} {a : Client.Action} {k : ℕ} (h : Free cfg n.client k)
    (hcall : n.call = some k) (hc : Counted n.client) (hother : a.caller ≠ some k)
    (hmade : n.deciding = true → a.makes = true → n.client.fdConns.count + 1 < cfg.poolSize)
    (hstep : Client.step cfg n.client a = some s') : Free cfg s' k := by
  have hexecs := (step_calls hstep).other h.called hother
  refine ⟨h.called.trans_le (called_le (step_calls hstep)), ?_, fun cmdArgs hk => ?_⟩
  · rw [hexecs]
    exact h.moving
  · rw [hexecs] at hk
    exact h.keeps_room hcall hc hmade hstep hk

/-- The callback goes on with its call. -/
theorem Free.own {s' : State} {a : Client.Action} {k : ℕ} (h : Free cfg n.client k)
    (hcall : n.call = some k) (hc : Counted n.client) (hcaller : a.caller = some k)
    (hmade : n.deciding = true → a.makes = true → n.client.fdConns.count + 1 < cfg.poolSize)
    (hstep : Client.step cfg n.client a = some s') : Free cfg s' k := by
  have hcalls := step_calls hstep
  refine ⟨h.called.trans_le (called_le hcalls), fun cmdArgs hk => ?_, fun cmdArgs hk => ?_⟩
  · cases hcalls with
    | same _ execs => exact h.moving cmdArgs (execs ▸ hk)
    | enter => cases hcaller
    | @goes _ _ j pc caller execs _ _ waits =>
      obtain rfl : k = j := Option.some.inj (hcaller.symm.trans caller)
      rw [execs, State.execs_setPc, if_pos rfl, Option.map_eq_some_iff] at hk
      obtain ⟨e, -, he⟩ := hk
      -- it would have found `fdConns.Len() >= poolSize`
      obtain ⟨⟨cmdArgs', hdec⟩, hfull, -⟩ := waits (congrArg Exec.pc he)
      have hroom := h.room cmdArgs' hdec
      omega
  · cases hcalls with
    | same _ execs =>
      rw [execs] at hk
      exact h.keeps_room hcall hc hmade hstep hk
    | enter => cases hcaller
    | @goes _ _ j pc caller execs _ new =>
      obtain rfl : k = j := Option.some.inj (hcaller.symm.trans caller)
      rw [execs, State.execs_setPc, if_pos rfl, Option.map_eq_some_iff] at hk
      obtain ⟨e, -, he⟩ := hk
      exact absurd (congrArg Exec.pc he) new

/-- The callback calls `Exec`. -/
theorem Free.enter {s s' : State} {cmdArgs : List Arg}
    (hspare : s.fdIdle ≠ [] ∨ s.fdConns.count < cfg.poolSize) (hup : s'.crashed = false)
    (hstep : Client.step cfg s (.exec cmdArgs) = some s') : Free cfg s' s.called := by
  cases step_calls hstep with
  | same other => exact absurd rfl (other cmdArgs)
  | @enter _ _ pc execs called map goes =>
    have hself : s'.execs s.called = some ⟨cmdArgs, pc⟩ := by rw [execs, Function.update_self]
    refine ⟨by omega, fun args hk => ?_, fun args hk => ?_⟩
    · rw [hself, Option.some.injEq, Exec.mk.injEq] at hk
      rcases goes with hpc | ⟨hpc, -⟩
      · exact absurd (hpc.symm.trans hk.2) (by simp)
      · exact absurd (hpc.symm.trans hk.2) (by simp)
    · rw [hself, Option.some.injEq, Exec.mk.injEq] at hk
      rw [map]
      rcases goes with hpc | ⟨-, hidle | hcrash⟩
      · exact absurd (hpc.symm.trans hk.2) (by simp)
      · exact hspare.resolve_left fun hne => hne hidle
      · rw [hup] at hcrash
        cases hcrash
  | goes caller => cases caller

/-- After a step of the goroutine of the event loop in its call. -/
theorem call_goOn {s : State} {k : ℕ} (h : s.crashed = false → Free cfg s k) (j : ℕ)
    (hj : (n.goOn k s).call = some j) : Free cfg (n.goOn k s).client j := by
  unfold goOn at hj ⊢
  split at hj
  · cases hj
  · rename_i hup
    rw [if_neg hup]
    obtain rfl : k = j := Option.some.inj hj
    exact h (by simpa using hup)

/-- **Such a step keeps the event loop free.** -/
theorem step_flows (h : Flows cfg n) (ha : Unblocked cfg n a) (hstep : n.step cfg a = some n') :
    Flows cfg n' := by
  cases step_move hstep with
  | @loop a _ _ step => exact ⟨h.sound.step (ha.2 a rfl).1 step, fun k hk => by cases hk⟩
  | @own a s k call caller step =>
    obtain ⟨hr, hmade⟩ := ha.2 a rfl
    refine ⟨h.sound.goOn hr step, call_goOn fun hup => ?_⟩
    exact (h.call k call).own call h.sound.counted caller hmade step
  | @other a _ other step =>
    obtain ⟨hr, hmade⟩ := ha.2 a rfl
    exact ⟨h.sound.step hr step,
      fun k hk => (h.call k hk).other hk h.sound.counted (other k hk) hmade step⟩
  | @exec cmdArgs _ step =>
    refine ⟨h.sound.goOn (ha.2 (.exec cmdArgs) rfl).1 step, call_goOn fun hup =>
      Free.enter ?_ hup step⟩
    simpa [spare] using ha.1
  | leave => exact ⟨h.sound, fun k hk => by cases hk⟩

/-- **The event loop does not wait on the pool.**  In a run of such steps, with any callbacks that
    call `Exec` and whatever the server does, the event loop finds room whenever it sends on the
    channel, and no call of `Exec` that it makes waits for an idle connection. -/
theorem loop_never_blocks {as : List Action} (hm : Meets (step cfg) (Unblocked cfg) {} as)
    (hr : run (step cfg) {} as = some n) : ¬ n.Blocked cfg := by
  have hinit : Flows cfg {} :=
    ⟨⟨Pooled.init, Counted.init, HasRoom.init⟩, fun k hk => by cases hk⟩
  have h : Flows cfg n := run_invariant (fun _ _ _ h ha hstep => step_flows h ha hstep) hinit hm hr
  rintro (⟨id, hloop, hfull⟩ | ⟨k, cmdArgs, hcall, hwait⟩)
  · have hroom := h.sound.room.pushing id hloop
    omega
  · exact (h.call k hcall).moving cmdArgs hwait

/-- A command and its reply. -/
def exchange (fd : ℕ) : List Action :=
  [.client (.event fd true), .client (.write (.ok 100)), .client (.event fd false),
    .client (.read (.data (ascii "+PONG\r\n"))), .client .parse]

/-- `Exec` makes the `k`-th call with a new connection. -/
def connecting (k fd : ℕ) : List Action :=
  [.client (.decide k), .client (.connect k (.ok fd)), .client (.arm k)]

/-- A callback calls `Exec` while the event loop has the reply of the first command. -/
def calledInside : List Action :=
  .client (.exec [.string (ascii "PING")]) :: connecting 0 5 ++ exchange 5
    ++ [.exec [.string (ascii "PING")]]

/-- A pool of two: the callback makes a second connection, and the first one finds room. -/
theorem loop_never_blocks_pair :
    ∃ n, run (step { poolSize := 2 }) {} (calledInside ++ connecting 1 6 ++
        [.leave, .client .parse]) = some n ∧ n.client.loop = .pushing 0 ∧
        ¬ n.Blocked { poolSize := 2 } := by
  have hrun : ∃ n ∈ run (step { poolSize := 2 }) {} (calledInside ++ connecting 1 6 ++
      [.leave, .client .parse]), n.client.loop = .pushing 0 := by decide +kernel
  obtain ⟨n, hn, hloop⟩ := hrun
  have hmeets : Meets (step { poolSize := 2 }) (Unblocked { poolSize := 2 }) {}
      (calledInside ++ connecting 1 6 ++ [.leave, .client .parse]) := by decide +kernel
  exact ⟨n, hn, hloop, loop_never_blocks hmeets hn⟩

/-- Two calls find no connection, the first one is served, and its connection is closed by the
    server while it is idle. -/
def closedIdle : List Action :=
  [.client (.exec [.string (ascii "PING")]), .client (.exec [.string (ascii "PING")]),
    .client (.decide 1)]
    ++ connecting 0 5 ++ exchange 5 ++ [.leave, .client .parse,
      .client .push, .client (.event 5 false), .client (.read (.data []))]

/-- With a pool of one, the call of the callback waits for the connection whose reply the event loop
    has at hand; and without such a call, the closed connection in the pool takes the room of the
    next. -/
theorem loop_blocks :
    (∃ n, run (step { poolSize := 1 }) {} (calledInside ++ [.client (.decide 1)]) = some n ∧
      n.Blocked { poolSize := 1 } ∧ n.client.fdIdle = []) ∧
    ∃ n, run (step { poolSize := 1 }) {}
    (closedIdle ++ [.client (.connect 1 (.ok 6)), .client (.arm 1)] ++
        exchange 6 ++ [.leave, .client .parse]) = some n ∧
      n.Blocked { poolSize := 1 } ∧ n.client.loop = .pushing 1 := by
  have hinside : ∃ n ∈ run (step { poolSize := 1 }) {} (calledInside ++ [.client (.decide 1)]),
      n.call = some 1 ∧ n.client.execs 1 = some ⟨[.string (ascii "PING")], .waiting⟩ ∧
        n.client.fdIdle = [] := by decide +kernel
  have hfull : ∃ n ∈ run (step { poolSize := 1 }) {} (closedIdle ++
      [.client (.connect 1 (.ok 6)), .client (.arm 1)] ++ exchange 6 ++ [.leave, .client .parse]),
      n.client.loop = .pushing 1 ∧ 1 ≤ n.client.fdIdle.length := by decide +kernel
  obtain ⟨n, hn, hcall, hwait, hidle⟩ := hinside
  obtain ⟨m, hm, hloop, hlen⟩ := hfull
  exact ⟨⟨n, hn, .inr ⟨1, _, hcall, hwait⟩, hidle⟩, m, hm, .inl ⟨1, hloop, hlen⟩, hloop⟩

end Reentrant

end Resh.Client
