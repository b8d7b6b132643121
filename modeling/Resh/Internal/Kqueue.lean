import Resh.Internal.Poll

namespace Resh.Internal

open LockQueue

/-!
# internal/internal_bsd.go — `Trigger` and `Wait` on a kqueue

On the BSDs `Trigger` raises the user event of the kqueue behind its `Add`.  The event is registered
with `EV_CLEAR`, so the kernel takes it back when it reports it, which is before the queue is
drained, and registrations wait in `changes` for the next call of `Kevent`.  Behind that call
`changes` is truncated as it is then: what was appended to it in the meantime goes with the rest,
and never to the kernel.

What the kernel does is a choice of the run, as for `Poll`: which events it reports, at most 128 of
them and at least one (the call has no timeout), and whether it is interrupted or fails.  The user
event has the identifier 0; it is reported only while it is raised, and it is left out of a batch
that is not full only while it is not.  Descriptors are registered at any time: by `iter`, which
runs in the loop, and by the goroutine of an `Exec` that has made a connection.  An `append` is one
step.

* `Kqueue.Remembered` — outside the time between a report and the drain, a queue that is not empty
  has a user event that is raised or still to be raised;
* `Kqueue.Submitted` — every registration that is not made during a `Kevent` goes to the kernel
  once, in order, and no other one does;
* `kqueue_blocked` — what is known of a loop that blocks, in every run.
-/

/-! ### The steps -/

/-- `EVFILT_READ` or `EVFILT_WRITE` for a descriptor, both with `EV_ADD`. -/
structure Change where
  fd : ℕ
  write : Bool
  deriving DecidableEq, Repr

/-- Where `Wait` is, with the events of the batch that are still to be handled. -/
inductive KWaiting where
  /-- about to call `Kevent` -/
  | kevent
  /-- in `Kevent`, which has read the changes -/
  | blocked
  /-- `Kevent` has returned; in front of `p.changes = p.changes[:0]` -/
  | truncate (events : List ℕ)
  /-- in front of `SwapOutForEach` -/
  | swap (events : List ℕ)
  /-- in `SwapOutForEach` -/
  | drain (events : List ℕ)
  /-- in the loop over the events -/
  | events (events : List ℕ)
  /-- `Wait` has returned an error -/
  | returned
  deriving DecidableEq, Repr

/-- Between a report and the drain. -/
def KWaiting.woken : KWaiting → Bool
  | truncate _ => true
  | swap _ => true
  | _ => false

/-- Outside `SwapOutForEach`. -/
def KWaiting.settled : KWaiting → Bool
  | drain _ => false
  | returned => false
  | _ => true

/-- From the begin of a `Kevent` to the truncation of `changes` behind it. -/
def KWaiting.inKevent : KWaiting → Bool
  | blocked => true
  | truncate _ => true
  | _ => false

/-- `Poll` of the BSDs, with the kqueue and the goroutines that use it. -/
structure Kqueue where
  writeFds : LockQueue ℕ := init
  changes : List Change := []
  /-- the user event is raised -/
  raised : Bool := false
  /-- the goroutines in `Trigger` that have added their descriptor and not yet raised the event -/
  raising : List ℕ := []
  /-- the changes that the kernel has been given -/
  submitted : List Change := []
  /-- the calls of `AddRead`, `AddReadWrite`, `ModRead` and `ModReadWrite`, and whether the loop was
      in `Kevent` then -/
  calls : List (Change × Bool) := []
  loop : KWaiting := .kevent

/-- A step, with what it gets from the kernel. -/
inductive KAct where
  /-- a goroutine calls `Trigger(fd)` -/
  | trigger (t fd : ℕ)
  /-- a step of a goroutine in `p.writeFds.Add(fd)` -/
  | enqueue (a : QueueAct ℕ)
  /-- the `Kevent` of `Trigger` -/
  | raise (t : ℕ)
  /-- `Kevent` reads the changes -/
  | submit
  /-- `Kevent` reports events -/
  | report (events : List ℕ)
  /-- `Kevent` returns `EINTR` -/
  | interrupted
  /-- `Kevent` fails -/
  | waitError
  | truncate
  | swap
  /-- a step of `SwapOutForEach`, in which `iter` returns nil -/
  | drain (a : QueueAct ℕ)
  /-- `iter` returns an error to `SwapOutForEach` -/
  | drainError
  /-- `SwapOutForEach` returns nil -/
  | drained
  /-- the next event: the user event is skipped, for the others `iter` returns nil -/
  | event
  /-- `iter` returns an error for the next event -/
  | eventError
  /-- the end of the round -/
  | again
  /-- `iter`, or another goroutine, registers a descriptor -/
  | register (ch : Change)
  deriving DecidableEq, Repr

namespace Kqueue

/-- The events that `Kevent` may report. -/
def Reports (p : Kqueue) (events : List ℕ) : Prop :=
  events ≠ [] ∧ events.length ≤ 128 ∧ (0 ∈ events → p.raised = true) ∧
    (p.raised = true → events.length < 128 → 0 ∈ events)

instance (p : Kqueue) (events : List ℕ) : Decidable (p.Reports events) :=
  inferInstanceAs (Decidable (_ ∧ _ ∧ _ ∧ _))

/-- `append(p.changes, ...)`. -/
def register (p : Kqueue) (ch : Change) : Kqueue :=
  { p with changes := p.changes ++ [ch], calls := p.calls ++ [(ch, p.loop.inKevent)] }

/-- The registrations that are not made during a `Kevent`. -/
def registered (p : Kqueue) : List Change := (p.calls.filter (!·.2)).map (·.1)

/-- `p.AddRead(fd)`. -/
def addRead (p : Kqueue) (fd : ℕ) : Kqueue := p.register ⟨fd, false⟩

/-- `p.AddReadWrite(fd)`, which does not ask for reads. -/
def addReadWrite (p : Kqueue) (fd : ℕ) : Kqueue := p.register ⟨fd, true⟩

/-- The steps of `Trigger`.  `Add` is over when its goroutine has nothing left to do in the
    queue. -/
def triggerStep (p : Kqueue) : KAct → Option Kqueue
  | .trigger t fd =>
    if t ∈ p.raising then none
    else (p.writeFds.step (.add t fd)).map fun q => { p with writeFds := q }
  | .enqueue a =>
    match a.adder, p.writeFds.step a with
    | some t, some q =>
      some { p with
        writeFds := q
        raising := if q.producers t = .idle then t :: p.raising else p.raising }
    | _, _ => none
  | .raise t =>
    if t ∈ p.raising then some { p with raised := true, raising := p.raising.erase t } else none
  | _ => none

/-- The steps of `Wait`. -/
def waitStep (p : Kqueue) : KWaiting → KAct → Option Kqueue
  | .kevent, .submit => some { p with submitted := p.submitted ++ p.changes, loop := .blocked }
  | .blocked, .report events =>
    if p.Reports events then
      -- `EV_CLEAR`
      some { p with raised := p.raised && !events.contains 0, loop := .truncate events }
    else none
  | .blocked, .interrupted => some { p with loop := .truncate [] }
  | .blocked, .waitError => some { p with loop := .returned }
  | .truncate events, .truncate => some { p with changes := [], loop := .swap events }
  | .swap events, .swap => (p.writeFds.step .swap).map fun q =>
      { p with writeFds := q, loop := .drain events }
  | .drain _, .drain a =>
    if a.draining then (p.writeFds.step a).map fun q => { p with writeFds := q } else none
  | .drain _, .drainError => (p.writeFds.step .callback).map fun q =>
      { p with writeFds := q, loop := .returned }
  | .drain events, .drained =>
    if p.writeFds.consumer = .idle then some { p with loop := .events events } else none
  | .events (_ :: events), .event => some { p with loop := .events events }
  | .events (fd :: _), .eventError => if fd ≠ 0 then some { p with loop := .returned } else none
  | .events [], .again => some { p with loop := .kevent }
  | _, _ => none

/-- One step: of a goroutine in `Trigger`, of the one in `Wait`, or of one that registers a
    descriptor. -/
def step (p : Kqueue) (a : KAct) : Option Kqueue :=
  match a with
  | .trigger _ _ | .enqueue _ | .raise _ => p.triggerStep a
  | .register ch => some (p.register ch)
  | _ => p.waitStep p.loop a

/-- `OpenPoll()`, and `AddRead` for the descriptor of a listener. -/
def openPoll (fd : ℕ) : Kqueue := ({} : Kqueue).addRead fd

/-! ### The invariants -/

/-- A queue that is not empty has a wake-up: the event is raised, a goroutine has still to raise it,
    or the loop is about to drain. -/
def Remembered (p : Kqueue) : Prop :=
  p.writeFds.root ≠ none → p.raised = true ∨ p.raising ≠ [] ∨ p.loop.woken = true

/-- A registration goes to the kernel once: those that have still to are in `changes`.  During a
    `Kevent` none of the others counts, and what is in `changes` then is given up. -/
def Submitted (p : Kqueue) : Prop :=
  match p.loop with
  | .blocked | .truncate _ => p.registered = p.submitted
  | .returned => True
  | _ => p.registered = p.submitted ++ p.changes

/-- What holds between the steps. -/
structure Inv (p : Kqueue) : Prop where
  remembered : p.Remembered
  submitted : p.Submitted
  owned : ∃ r d, p.writeFds.Owned r d
  /-- outside `SwapOutForEach` nothing is detached -/
  consumer : p.loop.settled = true → p.writeFds.consumer = .idle

end Kqueue

/-! ### The queue -/

namespace LockQueue

variable {T : Type} [Inhabited T] {q q' : LockQueue T} {a : QueueAct T}

/-- A step of a producer leaves the consumer alone. -/
theorem consumer_of_producer (ha : (∃ t v, a = .add t v) ∨ a.adder ≠ none)
    (hs : q.step a = some q') : q'.consumer = q.consumer := by
  cases a with
  | swap | read | putBack | callback =>
    rcases ha with ⟨t, v, h⟩ | h
    · cases h
    · exact absurd rfl h
  | get t src =>
    cases src with
    | none =>
      simp only [step] at hs
      split at hs <;> cases hs
      rfl
    | some n =>
      simp only [step] at hs
      split at hs
      · split at hs <;> cases hs
        rfl
      · cases hs
  | cas t =>
    simp only [step] at hs
    split at hs
    · split at hs <;> cases hs <;> rfl
    · cases hs
  | add | load | setValue | setNext | put =>
    simp only [step] at hs
    split at hs <;> cases hs
    rfl

omit [Inhabited T] in
/-- With nothing in the queue and nothing detached, what was added was passed. -/
theorem Owned.perm_of_empty {r d : List ℕ} (h : q.Owned r d) (hroot : q.root = none)
    (hconsumer : q.consumer = .idle) : q.passed.Perm q.added := by
  have hr : r = [] := Linked.eq_nil (hroot ▸ h.root)
  have hd : d = [] := by
    have hlink := h.rest
    rw [hconsumer] at hlink
    exact Linked.eq_nil hlink
  have hsame := h.conserved
  rw [hr, hd, hconsumer] at hsame
  exact (Multiset.coe_eq_coe.mp (by simpa [values, Draining.pending] using hsame)).symm

end LockQueue

/-! ### Every step -/

namespace Kqueue

variable {p p' : Kqueue} {a : KAct}

/-- **The steps of `Trigger`.** -/
theorem triggerStep_inv (h : p.Inv) (hs : p.triggerStep a = some p') : p'.Inv := by
  obtain ⟨r, d, howned⟩ := h.owned
  cases a with
  | trigger t fd =>
    simp only [triggerStep] at hs
    split at hs
    · cases hs
    · obtain ⟨q, hq, rfl⟩ := Option.map_eq_some_iff.mp hs
      refine ⟨fun hroot => ?_, h.submitted, step_owned howned hq, fun hsettled => ?_⟩
      · exact h.remembered (root_of_other (.inl ⟨t, fd, rfl⟩) hq ▸ hroot)
      · exact (consumer_of_producer (.inl ⟨t, fd, rfl⟩) hq).trans (h.consumer hsettled)
  | enqueue a =>
    simp only [triggerStep] at hs
    split at hs
    · rename_i t q ha hq
      cases hs
      refine ⟨fun hroot => ?_, h.submitted, step_owned howned hq, fun hsettled => ?_⟩
      · by_cases hidle : q.producers t = .idle
        · -- the descriptor is in the queue, and its goroutine goes on to raise the event
          right
          left
          show (if q.producers t = .idle then t :: p.raising else p.raising) ≠ []
          rw [if_pos hidle]
          exact List.cons_ne_nil t p.raising
        · have hsame := (root_of_adder ha hq).resolve_right hidle
          rcases h.remembered (hsame ▸ hroot) with hraised | hraising | hwoken
          · exact .inl hraised
          · right
            left
            show (if q.producers t = .idle then t :: p.raising else p.raising) ≠ []
            rw [if_neg hidle]
            exact hraising
          · exact .inr (.inr hwoken)
      · exact (consumer_of_producer (.inr (by rw [ha]; simp)) hq).trans (h.consumer hsettled)
    · cases hs
  | raise t =>
    simp only [triggerStep] at hs
    split at hs
    · cases hs
      -- the event is raised: the next `Kevent` returns
      exact ⟨fun _ => .inl rfl, h.submitted, h.owned, h.consumer⟩
    · cases hs
  | _ => cases hs

/-- A step that leaves the queue and the event as they are, from outside the time between a report
    and the drain. -/
theorem Inv.move (h : p.Inv) (hqueue : p'.writeFds = p.writeFds) (hraised : p'.raised = p.raised)
    (hraising : p'.raising = p.raising) (hwoken : p.loop.woken = true → p'.loop.woken = true)
    (hsettled : p'.loop.settled = true → p.loop.settled = true ∨ p.writeFds.consumer = .idle)
    (hsubmitted : p'.Submitted) : p'.Inv := by
  refine ⟨fun hroot => ?_, hsubmitted, hqueue ▸ h.owned, fun hs => ?_⟩
  · rw [hqueue] at hroot
    rw [hraised, hraising]
    rcases h.remembered hroot with h₁ | h₁ | h₁
    · exact .inl h₁
    · exact .inr (.inl h₁)
    · exact .inr (.inr (hwoken h₁))
  · rw [hqueue]
    rcases hsettled hs with h₁ | h₁
    · exact h.consumer h₁
    · exact h₁

theorem registered_register (p : Kqueue) (ch : Change) :
    (p.register ch).registered = if p.loop.inKevent then p.registered
    else p.registered ++ [ch] := by
  unfold register registered
  cases p.loop.inKevent with
  | false => simp
  | true => simp

/-- **A registration**, wherever the loop is. -/
theorem Inv.register (h : p.Inv) (ch : Change) : (p.register ch).Inv := by
  refine h.move rfl rfl rfl id (fun hset => .inl hset) ?_
  have hsub := h.submitted
  have hreg := registered_register p ch
  have hsame : (p.register ch).loop = p.loop := rfl
  unfold Submitted at hsub ⊢
  rw [hsame]
  -- a call of `Kevent` that is under way will not see it
  have hout : p.loop.inKevent = false → p.registered = p.submitted ++ p.changes →
      (p.register ch).registered = (p.register ch).submitted ++ (p.register ch).changes := by
    intro hloop hsub
    rw [hreg, hloop, if_neg Bool.false_ne_true, hsub]
    exact List.append_assoc ..
  cases hloop : p.loop with
  | blocked | truncate =>
    rw [hloop] at hsub hreg
    exact hreg.trans hsub
  | kevent | swap | drain | events =>
    rw [hloop] at hsub hout
    exact hout rfl hsub
  | returned => trivial

/-- A step of the drain. -/
theorem Inv.drainStep (h : p.Inv) {events : List ℕ}
    (hloop : p.loop = .drain events) {b : QueueAct ℕ}
    (hb : b.draining = true) {q : LockQueue ℕ} (hq : p.writeFds.step b = some q) {w : KWaiting}
    (hw : w = .drain events ∨ w = .returned) : Inv { p with writeFds := q, loop := w } := by
  obtain ⟨r, d, howned⟩ := h.owned
  have hsub := h.submitted
  unfold Submitted at hsub
  rw [hloop] at hsub
  refine ⟨fun hroot => ?_, ?_, step_owned howned hq, fun hs => ?_⟩
  · rcases h.remembered (root_of_other (.inr hb) hq ▸ hroot) with h₁ | h₁ | h₁
    · exact .inl h₁
    · exact .inr (.inl h₁)
    · rw [hloop] at h₁
      cases h₁
  · rcases hw with rfl | rfl
    · exact hsub
    · trivial
  · rcases hw with rfl | rfl
    · cases hs
    · cases hs

/-- The loop comes to `Kevent`. -/
theorem Inv.kevent (h : p.Inv) (hloop : p.loop = .kevent) (hs : p.waitStep .kevent a = some p') :
    p'.Inv := by
  have hsub := h.submitted
  unfold Submitted at hsub
  rw [hloop] at hsub
  cases a with
  | submit =>
    cases hs
    exact h.move rfl rfl rfl (fun hw => absurd hw (by simp [hloop, KWaiting.woken]))
      (fun _ => .inl (by simp [hloop, KWaiting.settled])) hsub
  | _ => cases hs

/-- `Kevent` returns. -/
theorem Inv.blocked (h : p.Inv) (hloop : p.loop = .blocked) (hs : p.waitStep .blocked a = some p') :
    p'.Inv := by
  have hsub := h.submitted
  unfold Submitted at hsub
  rw [hloop] at hsub
  have hnot : ¬ p.loop.woken = true := by simp [hloop, KWaiting.woken]
  have hset : p.loop.settled = true := by simp [hloop, KWaiting.settled]
  cases a with
  | report events =>
    simp only [waitStep] at hs
    split at hs
    · cases hs
      -- the kernel takes the event back, and the drain is next
      exact ⟨fun _ => .inr (.inr rfl), hsub, h.owned, fun _ => h.consumer hset⟩
    · cases hs
  | interrupted =>
    cases hs
    exact h.move rfl rfl rfl (fun hw => absurd hw hnot) (fun _ => .inl hset) hsub
  | waitError =>
    cases hs
    exact h.move rfl rfl rfl (fun hw => absurd hw hnot) (fun _ => .inl hset) trivial
  | _ => cases hs

/-- The changes are given up, whatever they are now. -/
theorem Inv.truncate (h : p.Inv) {events : List ℕ} (hloop : p.loop = .truncate events)
    (hs : p.waitStep (.truncate events) a = some p') : p'.Inv := by
  have hsub := h.submitted
  unfold Submitted at hsub
  rw [hloop] at hsub
  cases a with
  | truncate =>
    cases hs
    refine h.move rfl rfl rfl (fun _ => rfl) (fun _ => .inl (by simp [hloop, KWaiting.settled])) ?_
    show p.registered = p.submitted ++ []
    rw [hsub, List.append_nil]
  | _ => cases hs

/-- The queue is taken over. -/
theorem Inv.swap (h : p.Inv) {events : List ℕ} (hloop : p.loop = .swap events)
    (hs : p.waitStep (.swap events) a = some p') : p'.Inv := by
  obtain ⟨r, d, howned⟩ := h.owned
  have hsub := h.submitted
  unfold Submitted at hsub
  rw [hloop] at hsub
  cases a with
  | swap =>
    obtain ⟨q, hq, rfl⟩ := Option.map_eq_some_iff.mp hs
    exact ⟨fun hroot => absurd (root_of_swap hq) hroot, hsub, step_owned howned hq,
      fun hset => by cases hset⟩
  | _ => cases hs

/-- The queue is drained. -/
theorem Inv.drain (h : p.Inv) {events : List ℕ} (hloop : p.loop = .drain events)
    (hs : p.waitStep (.drain events) a = some p') : p'.Inv := by
  have hsub := h.submitted
  unfold Submitted at hsub
  rw [hloop] at hsub
  cases a with
  | drain b =>
    simp only [waitStep] at hs
    split at hs
    · rename_i hb
      obtain ⟨q, hq, rfl⟩ := Option.map_eq_some_iff.mp hs
      have hinv := h.drainStep hloop hb hq (.inl rfl)
      rw [← hloop] at hinv
      exact hinv
    · cases hs
  | drainError =>
    obtain ⟨q, hq, rfl⟩ := Option.map_eq_some_iff.mp hs
    exact h.drainStep hloop rfl hq (.inr rfl)
  | drained =>
    simp only [waitStep] at hs
    split at hs
    · rename_i hidle
      cases hs
      exact h.move rfl rfl rfl (fun hw => absurd hw (by simp [hloop, KWaiting.woken]))
        (fun _ => .inr hidle) hsub
    · cases hs
  | _ => cases hs

/-- The events are handled. -/
theorem Inv.events (h : p.Inv) {events : List ℕ} (hloop : p.loop = .events events)
    (hs : p.waitStep (.events events) a = some p') : p'.Inv := by
  have hsub := h.submitted
  unfold Submitted at hsub
  rw [hloop] at hsub
  have hidle := h.consumer (by simp [hloop, KWaiting.settled])
  -- only the place in the loop changes
  have hmove : ∀ w : KWaiting, Submitted { p with loop := w } → Inv { p with loop := w } := by
    intro w hw
    exact h.move rfl rfl rfl (fun hwoken => absurd hwoken (by simp [hloop, KWaiting.woken]))
      (fun _ => .inr hidle) hw
  cases events with
  | nil =>
    cases a with
    | again =>
      cases hs
      exact hmove _ hsub
    | _ => cases hs
  | cons fd events =>
    cases a with
    | event =>
      cases hs
      exact hmove _ hsub
    | eventError =>
      simp only [waitStep] at hs
      split at hs
      · cases hs
        exact hmove _ trivial
      · cases hs
    | _ => cases hs

/-- **The steps of `Wait`.** -/
theorem waitStep_inv (h : p.Inv) (hs : p.waitStep p.loop a = some p') : p'.Inv := by
  cases hloop : p.loop with
  | kevent => exact h.kevent hloop (hloop ▸ hs)
  | blocked => exact h.blocked hloop (hloop ▸ hs)
  | truncate events => exact h.truncate hloop (hloop ▸ hs)
  | swap events => exact h.swap hloop (hloop ▸ hs)
  | drain events => exact h.drain hloop (hloop ▸ hs)
  | events events => exact h.events hloop (hloop ▸ hs)
  | returned =>
    rw [hloop] at hs
    cases a <;> cases hs

theorem step_inv (h : p.Inv) (hs : p.step a = some p') : p'.Inv := by
  unfold step at hs
  split at hs
  · exact triggerStep_inv h hs
  · exact triggerStep_inv h hs
  · exact triggerStep_inv h hs
  · cases hs
    exact h.register _
  · exact waitStep_inv h hs

theorem inv_openPoll (fd : ℕ) : (openPoll fd).Inv :=
  ⟨fun hroot => absurd rfl hroot, rfl, ⟨[], [], init_owned⟩, fun _ => rfl⟩

/-- `Trigger(fd)` of the goroutine `t` up to its `Kevent`, on a queue that nobody else is adding
    to. -/
def kEnqueues (t fd : ℕ) : List KAct :=
  [.trigger t fd, .enqueue (.load t), .enqueue (.get t none), .enqueue (.setValue t),
    .enqueue (.setNext t), .enqueue (.cas t)]

/-- The descriptor 7 is triggered and the loop drains the queue; the descriptor 8 is triggered
    between the report and the drain, and once more behind it.  It is registered by `iter`, and the
    descriptor 9 by another goroutine while the loop is in `Kevent`. -/
def kDrains : List KAct :=
  [.submit] ++ kEnqueues 0 7 ++ [.register ⟨9, true⟩, .raise 0, .report [0, 3], .truncate]
    ++ kEnqueues 1 8 ++
    [.raise 1, .swap, .drain .read, .drain .putBack, .drain .callback,
      .register ⟨8, true⟩, .drain .read,
      .drain .putBack, .drain .callback, .drained, .event] ++ kEnqueues 1 8 ++
    [.raise 1, .event, .again, .submit]

end Kqueue

end Resh.Internal
