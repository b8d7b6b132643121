import Resh.Internal.LockQueue

namespace Resh.Internal

open LockQueue

/-!
# internal/internal_linux.go — `Trigger` and `Wait`

Goroutines call `Trigger`, which adds a descriptor to the queue `writesFd` and then writes to the
eventfd `wfd`; one goroutine runs `Wait`.  The queue takes its atomic steps as in `LockQueue`, and
the steps of the two functions around it are interleaved with them.

What the kernel does is a choice of the run: which descriptors `EpollWait` reports, at most 64 of
them, and whether it is interrupted or fails.  Readiness is level-triggered: `wfd` is reported only
while its counter is not zero, and it is left out of a batch that is not full only while the counter
is zero.  A write adds to the counter and a read sets it to zero; both block where the eventfd does.
The flags that `iter` gets play no part here and are left out.

* `Remembered` — a queue that is not empty has a wake-up that is counted or still to be written;
* `queued_wakes` — if `wfd` is never read with a descriptor in the queue that nobody has still to
  write for, the loop does not block with a descriptor in the queue;
* `wake_up_missed` — the queue is drained before `wfd` is read, so the read can take a later
  wake-up.
-/

/-! ### The steps -/

/-- Where `Wait` is, with the events of the batch that are still to be handled. -/
inductive Waiting where
  /-- about to block in `EpollWait` -/
  | epollWait
  /-- in front of `SwapOutForEach` -/
  | swap (events : List ℕ)
  /-- in `SwapOutForEach` -/
  | drain (events : List ℕ)
  /-- in the loop over the events -/
  | events (events : List ℕ)
  /-- `Wait` has returned an error -/
  | returned
  deriving DecidableEq, Repr

/-- The next event of the batch. -/
def Waiting.head? : Waiting → Option ℕ
  | events (fd :: _) => some fd
  | _ => none

/-- `Poll`, with the eventfd and the goroutines that use it. -/
structure Poll where
  wfd : ℕ
  writesFd : LockQueue ℕ := init
  /-- the counter of the eventfd -/
  counter : ℕ := 0
  /-- the goroutines in `Trigger` that have added their descriptor and not yet written to `wfd` -/
  writing : List ℕ := []
  loop : Waiting := .epollWait

/-- A step, with what it gets from the kernel. -/
inductive PollAct where
  /-- a goroutine calls `Trigger(fd)` -/
  | trigger (t fd : ℕ)
  /-- a step of a goroutine in `p.writesFd.Add(fd)` -/
  | enqueue (a : QueueAct ℕ)
  /-- `syscall.Write(p.wfd, ...)` -/
  | write (t : ℕ)
  /-- `EpollWait` reports some descriptors, or none when the time is out -/
  | wait (events : List ℕ)
  /-- `EpollWait` returns `EINTR` -/
  | interrupted
  /-- `EpollWait` fails -/
  | waitError
  | swap
  /-- a step of `SwapOutForEach`, in which `iter` returns nil -/
  | drain (a : QueueAct ℕ)
  /-- `iter` returns an error to `SwapOutForEach` -/
  | drainError
  /-- `SwapOutForEach` returns nil -/
  | drained
  /-- the next event: `iter` returns nil, or `wfd` is read -/
  | event
  /-- `iter` returns an error for the next event -/
  | eventError
  /-- the end of the round -/
  | again
  deriving DecidableEq, Repr

/-- The goroutine of a step of `Add`. -/
def QueueAct.adder {T : Type} : QueueAct T → Option ℕ
  | load t => some t
  | get t _ => some t
  | setValue t => some t
  | setNext t => some t
  | cas t => some t
  | put t => some t
  | _ => none

/-- A step of `SwapOutForEach` behind its `Swap`. -/
def QueueAct.draining {T : Type} : QueueAct T → Bool
  | read => true
  | putBack => true
  | callback => true
  | _ => false

namespace Poll

/-- The descriptors that `EpollWait` may report. -/
def Reports (p : Poll) (events : List ℕ) : Prop :=
  events.Nodup ∧ events.length ≤ 64 ∧ (p.wfd ∈ events → p.counter ≠ 0) ∧
    (p.counter ≠ 0 → events.length < 64 → p.wfd ∈ events)

instance (p : Poll) (events : List ℕ) : Decidable (p.Reports events) :=
  inferInstanceAs (Decidable (_ ∧ _ ∧ _ ∧ _))

/-- The steps of `Trigger`.  `Add` is over when its goroutine has nothing left to do in the
    queue. -/
def triggerStep (p : Poll) : PollAct → Option Poll
  | .trigger t fd =>
    if t ∈ p.writing then none
    else (p.writesFd.step (.add t fd)).map fun q => { p with writesFd := q }
  | .enqueue a =>
    match a.adder, p.writesFd.step a with
    | some t, some q =>
      some { p with
        writesFd := q
        writing := if q.producers t = .idle then t :: p.writing else p.writing }
    | _, _ => none
  | .write t =>
    -- the largest value of the counter is `2^64 - 2`
    if t ∈ p.writing ∧ p.counter < 2 ^ 64 - 2 then
      some { p with counter := p.counter + 1, writing := p.writing.erase t }
    else none
  | _ => none

/-- The steps of `Wait`. -/
def waitStep (p : Poll) : Waiting → PollAct → Option Poll
  | .epollWait, .wait events =>
    if p.Reports events then some { p with loop := .swap events } else none
  | .epollWait, .interrupted => some { p with loop := .swap [] }
  | .epollWait, .waitError => some { p with loop := .returned }
  | .swap events, .swap => (p.writesFd.step .swap).map fun q =>
      { p with writesFd := q, loop := .drain events }
  | .drain _, .drain a =>
    if a.draining then (p.writesFd.step a).map fun q => { p with writesFd := q } else none
  | .drain _, .drainError => (p.writesFd.step .callback).map fun q =>
      { p with writesFd := q, loop := .returned }
  | .drain events, .drained =>
    if p.writesFd.consumer = .idle then some { p with loop := .events events } else none
  | .events (fd :: events), .event =>
    if fd ≠ p.wfd then some { p with loop := .events events }
    -- an eventfd blocks its reader while the counter is zero
    else if p.counter = 0 then none
    else some { p with counter := 0, loop := .events events }
  | .events (fd :: _), .eventError => if fd ≠ p.wfd then some { p with loop := .returned } else none
  | .events [], .again => some { p with loop := .epollWait }
  | _, _ => none

/-- One step: of a goroutine in `Trigger`, or of the one in `Wait`. -/
def step (p : Poll) (a : PollAct) : Option Poll :=
  match a with
  | .trigger _ _ | .enqueue _ | .write _ => p.triggerStep a
  | _ => p.waitStep p.loop a

/-- `OpenPoll()`, which gets the descriptor of its eventfd from the kernel. -/
def openPoll (wfd : ℕ) : Poll := { wfd := wfd }

end Poll

/-! ### The root of the queue -/

namespace LockQueue

variable {T : Type} [Inhabited T] {q q' : LockQueue T} {a : QueueAct T} {t : ℕ}

/-- A step of `Add` leaves the root as it is, or `Add` returns with it. -/
theorem root_of_adder (ha : a.adder = some t) (hs : q.step a = some q') :
    q'.root = q.root ∨ q'.producers t = .idle := by
  cases a with
  | cas t' =>
    obtain rfl : t' = t := by simpa [QueueAct.adder] using ha
    simp only [step] at hs
    split at hs
    · split at hs
      · cases hs
        exact .inr (setProducer_self ..)
      · cases hs
        exact .inl rfl
    · cases hs
  | get t' src =>
    left
    cases src with
    | none =>
      simp only [step] at hs
      split at hs <;> cases hs
      rfl
    | some n =>
      simp only [step] at hs
      split at hs
      · split at hs <;> cases hs
        rfl
      · cases hs
  | add | swap | read | putBack | callback => cases ha
  | load | setValue | setNext | put =>
    left
    simp only [step] at hs
    split at hs <;> cases hs
    rfl

/-- The call of `Add` and the rounds of `SwapOutForEach` leave the root as it is. -/
theorem root_of_other (ha : (∃ t v, a = .add t v) ∨ a.draining = true) (hs : q.step a = some q') :
    q'.root = q.root := by
  rcases ha with ⟨t, v, rfl⟩ | ha
  · simp only [step] at hs
    split at hs <;> cases hs
    rfl
  · cases a with
    | read | putBack | callback =>
      simp only [step] at hs
      split at hs <;> cases hs
      rfl
    | _ => cases ha

theorem root_of_swap (hs : q.step .swap = some q') : q'.root = none := by
  simp only [step] at hs
  split at hs <;> cases hs
  rfl

end LockQueue

/-! ### Wake-ups -/

namespace Poll

/-- A queue that is not empty has a wake-up: the counter is not zero, or a goroutine has still to
    write. -/
def Remembered (p : Poll) : Prop := p.writesFd.root ≠ none → p.counter ≠ 0 ∨ p.writing ≠ []

/-- The condition: when `wfd` is read, the queue is empty or a goroutine has still to write. -/
def Unhurried (p : Poll) (a : PollAct) : Prop :=
  a = .event → p.loop.head? = some p.wfd → p.writesFd.root = none ∨ p.writing ≠ []

instance (p : Poll) (a : PollAct) : Decidable (p.Unhurried a) :=
  inferInstanceAs (Decidable (_ → _ → _))

variable {p p' : Poll} {a : PollAct}

/-- **The steps of `Trigger`.** -/
theorem triggerStep_remembered (h : p.Remembered) (hs : p.triggerStep a = some p') :
    p'.Remembered := by
  intro hroot
  cases a with
  | trigger t fd =>
    simp only [triggerStep] at hs
    split at hs
    · cases hs
    · obtain ⟨q, hq, rfl⟩ := Option.map_eq_some_iff.mp hs
      exact h (root_of_other (.inl ⟨t, fd, rfl⟩) hq ▸ hroot)
  | enqueue a =>
    simp only [triggerStep] at hs
    split at hs
    · rename_i t q ha hq
      cases hs
      by_cases hidle : q.producers t = .idle
      · -- the descriptor is in the queue, and its goroutine goes on to write
        right
        show (if q.producers t = .idle then t :: p.writing else p.writing) ≠ []
        rw [if_pos hidle]
        exact List.cons_ne_nil t p.writing
      · have hsame := (root_of_adder ha hq).resolve_right hidle
        show p.counter ≠ 0 ∨ (if q.producers t = .idle then t :: p.writing else p.writing) ≠ []
        rw [if_neg hidle]
        exact h (hsame ▸ hroot)
    · cases hs
  | write t =>
    simp only [triggerStep] at hs
    split at hs
    · cases hs
      exact .inl (Nat.succ_ne_zero p.counter)
    · cases hs
  | _ => cases hs

/-- **The steps of `Wait`.** -/
theorem waitStep_remembered (h : p.Remembered) (hcond : p.Unhurried a)
    (hs : p.waitStep p.loop a = some p') : p'.Remembered := by
  intro hroot
  unfold waitStep at hs
  split at hs
  · split at hs <;> cases hs
    exact h hroot
  · cases hs
    exact h hroot
  · cases hs
    exact h hroot
  · obtain ⟨q, hq, rfl⟩ := Option.map_eq_some_iff.mp hs
    exact absurd (root_of_swap hq) hroot
  · rename_i a
    split at hs
    · rename_i ha
      obtain ⟨q, hq, rfl⟩ := Option.map_eq_some_iff.mp hs
      exact h (root_of_other (.inr ha) hq ▸ hroot)
    · cases hs
  · obtain ⟨q, hq, rfl⟩ := Option.map_eq_some_iff.mp hs
    exact h (root_of_other (.inr rfl) hq ▸ hroot)
  · split at hs <;> cases hs
    exact h hroot
  · rename_i fd events hloop
    split at hs
    · cases hs
      exact h hroot
    · rename_i hfd
      split at hs
      · cases hs
      · cases hs
        -- the counter is zero now: the condition has the wake-up
        refine .inr ((hcond rfl ?_).resolve_left hroot)
        rw [hloop]
        exact congrArg some (not_not.mp hfd)
  · split at hs <;> cases hs
    exact h hroot
  · cases hs
    exact h hroot
  · cases hs

theorem step_remembered (h : p.Remembered) (hcond : p.Unhurried a) (hs : p.step a = some p') :
    p'.Remembered := by
  unfold step at hs
  split at hs
  · exact triggerStep_remembered h hs
  · exact triggerStep_remembered h hs
  · exact triggerStep_remembered h hs
  · exact waitStep_remembered h hcond hs

/-- **No missed wake-up.**  In every run that meets the condition, wherever the loop is, so also
    when it is about to block: if no `Trigger` is between its enqueue and its write and the queue is
    not empty, the counter of the eventfd is not zero; so a kernel that is level-triggered reports
    something, and `EpollWait` does not wait for its time to be out. -/
theorem queued_wakes (wfd : ℕ) (as : List PollAct) (p : Poll)
    (hm : Meets step Unhurried (openPoll wfd) as) (hr : run step (openPoll wfd) as = some p)
    (hwriting : p.writing = []) (hqueue : p.writesFd.root ≠ none) :
    p.counter ≠ 0 ∧ ∀ events, p.Reports events → events ≠ [] := by
  have hinit : (openPoll wfd).Remembered := fun hroot => absurd rfl hroot
  have hinv := run_invariant (fun _ _ _ h hcond hs => step_remembered h hcond hs) hinit hm hr
  have hcounter : p.counter ≠ 0 := (hinv hqueue).resolve_right (not_not.mpr hwriting)
  refine ⟨hcounter, ?_⟩
  rintro events ⟨-, -, -, hleft⟩ rfl
  exact List.not_mem_nil (hleft hcounter (by decide))

/-- `Trigger(fd)` of the goroutine `t` up to its write, on a queue that nobody else is adding to. -/
def enqueues (t fd : ℕ) : List PollAct :=
  [.trigger t fd, .enqueue (.load t), .enqueue (.get t none), .enqueue (.setValue t),
    .enqueue (.setNext t), .enqueue (.cas t)]

/-- The descriptor 7 is triggered, and the loop wakes up and drains the queue. -/
def drainsFirst : List PollAct :=
  enqueues 0 7 ++ [.write 0, .wait [5], .swap, .drain .read, .drain .putBack,
    .drain .callback, .drained]

/-- The descriptor 8 is added before `wfd` is read, and written for behind it. -/
theorem queued_wakes_late_write :
    Meets step Unhurried (openPoll 5) (drainsFirst ++ enqueues 1 8 ++ [.event, .again, .write 1]) ∧
    ∃ p, run step (openPoll 5) (drainsFirst ++ enqueues 1 8 ++ [.event, .again, .write 1])
      = some p ∧ p.loop = .epollWait ∧ p.writing = [] ∧ p.writesFd.root ≠ none ∧
      p.counter ≠ 0 ∧ ∀ events, p.Reports events → events ≠ [] := by
  have hm : Meets step Unhurried (openPoll 5)
      (drainsFirst ++ enqueues 1 8 ++ [.event, .again, .write 1]) := by decide +kernel
  have hrun : ∃ p ∈ run step (openPoll 5)
      (drainsFirst ++ enqueues 1 8 ++ [.event, .again, .write 1]),
      p.loop = .epollWait ∧ p.writing = [] ∧ p.writesFd.root ≠ none := by decide +kernel
  obtain ⟨p, hp, hloop, hwriting, hroot⟩ := hrun
  exact ⟨hm, p, hp, hloop, hwriting, hroot, queued_wakes 5 _ p hm hp hwriting hroot⟩

/-- The descriptor 8 is added and written for between the two: the read takes its wake-up away, and
    `EpollWait` waits with the descriptor in the queue. -/
theorem wake_up_missed :
    ∃ p, run step (openPoll 5) (drainsFirst ++ enqueues 1 8 ++ [.write 1, .event, .again])
      = some p ∧ p.loop = .epollWait ∧ p.writing = [] ∧ p.writesFd.root ≠ none ∧ p.counter = 0 := by
  have hrun : ∃ p ∈ run step (openPoll 5)
      (drainsFirst ++ enqueues 1 8 ++ [.write 1, .event, .again]),
      p.loop = .epollWait ∧ p.writing = [] ∧ p.writesFd.root ≠ none ∧ p.counter = 0 := by
    decide +kernel
  obtain ⟨p, hp, hstate⟩ := hrun
  exact ⟨p, hp, hstate⟩

end Poll

end Resh.Internal
