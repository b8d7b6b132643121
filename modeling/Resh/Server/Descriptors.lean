import Resh.Server.Bookkeeping

namespace Resh.Server.Listener

open Resh.Go

/-!
# Accepted descriptors

A descriptor that `accept` has returned belongs to a connection in `fdconns` until
`closeConnWithError` closes it.  Between `accept` and the entry in the map the callback may return
with an error or panic, and nothing closes the descriptor then.

* `lostBy` — the descriptor with which an accept fails midway;
* `Stray` — an accepted descriptor that is open and not in `fdconns`;
* `step_kept` — a step makes no stray descriptor but that one, and never closes one;
* `accepted_stored_iff` — the open descriptors are the keys of `fdconns` as long as no accept fails
  midway, and no longer.
-/

variable {cfg : Config} {l l' : Listener} {a : Act} {ids : List ℕ} {id : ℕ}

/-- The descriptor of an accept that fails in `SetNonblock`, the TLS layer or `AddRead`. -/
def lostBy (cfg : Config) (l : Listener) (a : Act) : Option ℕ :=
  match a, l.loop with
  | .callback _ (.setupError fd), .between (e :: _) => if e.fd = cfg.fd then some fd else none
  | .callback _ (.addReadError fd), .between (e :: _) => if e.fd = cfg.fd then some fd else none
  | _, _ => none

/-- An open descriptor, other than `ln.fd`, without a connection. -/
def Stray (cfg : Config) (l : Listener) (fd : ℕ) : Prop :=
  l.opened fd = true ∧ fd ≠ cfg.fd ∧ l.fdconns fd = none

/-- The kernel has only open descriptors in the epoll instance. -/
def Watched (l : Listener) : Prop := ∀ fd, l.poll.interest fd ≠ none → l.opened fd = true

theorem watched_init : Watched (init cfg) := by
  intro fd hfd
  show Function.update (fun _ => false) cfg.fd true fd = true
  by_cases h : fd = cfg.fd
  · rw [h, Function.update_self]
  · refine absurd ?_ hfd
    show Function.update (fun _ => none) cfg.fd _ fd = none
    rw [Function.update_of_ne h]

/-! ### The changes -/

/-- Nothing becomes stray and nothing stray is closed. -/
structure Kept (cfg : Config) (l l' : Listener) : Prop where
  stray : ∀ fd, Stray cfg l' fd ↔ Stray cfg l fd
  watched : Watched l → Watched l'

theorem Kept.same (hopened : l'.opened = l.opened) (hfdconns : l'.fdconns = l.fdconns)
    (hinterest : l'.poll.interest = l.poll.interest) : Kept cfg l l' := by
  refine ⟨?_, ?_⟩
  · intro fd
    rw [Stray, Stray, hopened, hfdconns]
  · intro h fd
    rw [hinterest, hopened]
    exact h fd

/-- A close takes the descriptor out of the map, the kernel's table and the epoll instance. -/
theorem Kept.close (hb : Balanced cfg l ids) (hid : id < l.made) :
    Kept cfg l (l.closeConnWithError id) := by
  cases hclosed : (l.conns id).closed with
  | true =>
    rw [closeConnWithError_of_closed hclosed]
    exact .same rfl rfl rfl
  | false =>
    have hstored : l.fdconns (l.conns id).fd = some id :=
      (hb.stored _ id).2 ⟨(hb.mem_iff id).2 ⟨hid, hclosed⟩, rfl⟩
    rw [closeConnWithError_of_open hclosed]
    refine ⟨?_, ?_⟩
    · intro fd
      show Function.update l.opened (l.conns id).fd false fd = true ∧ fd ≠ cfg.fd ∧
        Function.update l.fdconns (l.conns id).fd none fd = none ↔ Stray cfg l fd
      by_cases hfd : fd = (l.conns id).fd
      · -- it was stored before, and it is not open behind
        rw [hfd, Stray, hstored, Function.update_self]
        simp
      · rw [Function.update_of_ne hfd, Function.update_of_ne hfd, Stray]
    · intro h fd
      show Function.update l.poll.interest (l.conns id).fd none fd ≠ none →
        Function.update l.opened (l.conns id).fd false fd = true
      by_cases hfd : fd = (l.conns id).fd
      · rw [hfd, Function.update_self]
        intro hne
        exact absurd rfl hne
      · rw [Function.update_of_ne hfd, Function.update_of_ne hfd]
        exact h fd

/-- A new connection is stored under its descriptor. -/
theorem Kept.newConn {fd : ℕ} (now : ℤ) (hfd : l.opened fd = false) :
    Kept cfg l (l.newConn fd now) := by
  refine ⟨?_, ?_⟩
  · intro f
    show Function.update l.opened fd true f = true ∧ f ≠ cfg.fd ∧
      Function.update l.fdconns fd (some l.made) f = none ↔ Stray cfg l f
    by_cases hf : f = fd
    · rw [hf, Stray, hfd, Function.update_self, Function.update_self]
      simp
    · rw [Function.update_of_ne hf, Function.update_of_ne hf, Stray]
  · intro h f
    show Function.update l.poll.interest fd (some .read) f ≠ none →
        Function.update l.opened fd true f = true
    by_cases hf : f = fd
    · rw [hf, Function.update_self, Function.update_self]
      exact fun _ => rfl
    · rw [Function.update_of_ne hf, Function.update_of_ne hf]
      exact h f

theorem Kept.uses (hu : Uses l l') : Kept cfg l l' := by
  cases hu with
  | _ => exact .same rfl rfl rfl

/-- **A step without a lost descriptor.** -/
theorem step_kept (hb : Balanced cfg l ids) (hw : Within l.made ids l.loop) (hwatched : Watched l)
    (hlost : lostBy cfg l a = none) (hs : step cfg l a = some l') : Kept cfg l l' := by
  cases step_moves hs with
  | user op _ hu => exact .uses hu
  | wake evs hloop => exact .same rfl rfl rfl
  | die => exact .same rfl rfl rfl
  | rest => exact .same rfl rfl rfl
  | leak _ fd now e todo loop hloop he hfd hto =>
    -- the accept failed midway: this is what `lostBy` says of the step
    rcases hto with ⟨rfl, rfl⟩ | ⟨rfl, rfl⟩ | ⟨hreg, rfl⟩
    · simp [lostBy, hloop, he] at hlost
    · simp [lostBy, hloop, he] at hlost
    · -- a descriptor in the epoll instance is open, so `accept` does not return it
      rw [hwatched fd hreg] at hfd
      cases hfd
  | accept _ fd now e todo hloop he hfd =>
    have hnew : Kept cfg l (l.newConn fd now) := .newConn now hfd
    exact ⟨hnew.stray, hnew.watched⟩
  | touch => exact .same rfl rfl rfl
  | pass => exact .same rfl rfl rfl
  | close _ id stage ev todo loop hloop hc =>
    rw [hloop] at hw
    have hclose : Kept cfg l (l.closeConnWithError id) := .close hb hw
    exact ⟨hclose.stray, hclose.watched⟩
  | writeNothing => exact .same rfl rfl rfl
  | writeError text id ev todo hloop hout =>
    rw [hloop] at hw
    have hrec : Balanced cfg ((l.flushed none id).record (.write id)) ids := Books.record hb hw rfl
    have hclose := Kept.close hrec hw
    exact ⟨hclose.stray, hclose.watched⟩
  | writePart => exact .same rfl rfl rfl
  | writeAll => exact .same rfl rfl rfl
  | readClose rd id ev todo hloop =>
    rw [hloop] at hw
    have hrec : Balanced cfg (l.record (.read id)) ids := Books.record hb hw rfl
    have hclose := Kept.close hrec hw
    exact ⟨hclose.stray, hclose.watched⟩
  | readData => exact .same rfl rfl rfl
  | readAgain => exact .same rfl rfl rfl
  -- `epoll_ctl` changes the interest of a descriptor that is registered, hence open
  | mod id i ev todo hloop hreg =>
    refine ⟨fun _ => Iff.rfl, ?_⟩
    intro h fd
    show Function.update l.poll.interest (l.conns id).fd (some i) fd ≠ none → l.opened fd = true
    by_cases hfd : fd = (l.conns id).fd
    · rw [hfd]
      exact fun _ => h _ hreg
    · rw [Function.update_of_ne hfd]
      exact h fd
  | modPanic => exact .same rfl rfl rfl
  | tick => exact .same rfl rfl rfl
  | sweep id now todo hloop =>
    have hid := ((hb.mem_iff id).1 (mem_of_within (hloop ▸ hw))).1
    have hclose : Kept cfg l (l.closeConnWithError id) := .close hb hid
    exact ⟨hclose.stray, hclose.watched⟩
  | cleanup fd id hloop hfd => exact .close hb ((hb.mem_iff id).1 ((hb.stored _ _).1 hfd).1).1

/-- Where a descriptor is lost, the step leaves it open and goes on, or ends the loop. -/
theorem step_of_lostBy {fd : ℕ} (hlost : lostBy cfg l a = some fd) (hs : step cfg l a = some l') :
    l.opened fd = false ∧ ∃ loop, l' = (l.leak fd).goto loop := by
  obtain ⟨now, acc, e, todo, rfl, hloop, he, hacc⟩ : ∃ now acc e todo, a = .callback now acc ∧
      l.loop = .between (e :: todo) ∧ e.fd = cfg.fd ∧
      (acc = .setupError fd ∨ acc = .addReadError fd) := by
    unfold lostBy at hlost
    split at hlost
    · rename_i now fd' e todo hloop
      obtain ⟨he, hfd⟩ := Option.ite_none_right_eq_some.mp hlost
      cases hfd
      exact ⟨now, _, e, todo, rfl, hloop, he, .inl rfl⟩
    · rename_i now fd' e todo hloop
      obtain ⟨he, hfd⟩ := Option.ite_none_right_eq_some.mp hlost
      cases hfd
      exact ⟨now, _, e, todo, rfl, hloop, he, .inr rfl⟩
    · cases hlost
  -- the two errors differ in where the loop goes
  have hleak : ∀ loop, (if l.opened fd then none else some ((l.leak fd).goto loop)) = some l' →
      l.opened fd = false ∧ ∃ loop, l' = (l.leak fd).goto loop := by
    intro loop h
    obtain ⟨hfd, h⟩ := Option.ite_none_left_eq_some.mp h
    exact ⟨by simpa using hfd, loop, (Option.some.inj h).symm⟩
  simp only [step, hloop, if_pos he] at hs
  rcases hacc with rfl | rfl
  · exact hleak _ hs
  · exact hleak _ hs

/-- **A step with a lost descriptor.** -/
theorem step_lost {fd : ℕ} (hb : Balanced cfg l ids) (hlost : lostBy cfg l a = some fd)
    (hs : step cfg l a = some l') :
    (∀ f, Stray cfg l' f ↔ Stray cfg l f ∨ f = fd) ∧ (Watched l → Watched l') := by
  obtain ⟨hfd, loop, rfl⟩ := step_of_lostBy hlost hs
  have hne : fd ≠ cfg.fd := by
    rintro rfl
    rw [hb.listening] at hfd
    cases hfd
  have hnone : l.fdconns fd = none := by
    rw [Option.eq_none_iff_forall_ne_some]
    intro id hid
    obtain ⟨hmem, heq⟩ := (hb.stored fd id).1 hid
    exact hb.fd_ne_of_not_opened hfd id hmem heq
  refine ⟨?_, ?_⟩
  · intro f
    show Function.update l.opened fd true f = true ∧ f ≠ cfg.fd ∧ l.fdconns f = none ↔ _
    by_cases hf : f = fd
    · rw [hf, Function.update_self]
      simp [hne, hnone]
    · rw [Function.update_of_ne hf, Stray]
      simp [hf]
  · intro h f hf
    show Function.update l.opened fd true f = true
    by_cases heq : f = fd
    · rw [heq, Function.update_self]
    · rw [Function.update_of_ne heq]
      exact h f hf

/-! ### Runs -/

/-- A run ends without a stray descriptor if it starts without one and loses none. -/
theorem run_stray {as : List Act} (hb : Balanced cfg l ids) (hw : Within l.made ids l.loop)
    (hwatched : Watched l) (hr : run (step cfg) l as = some l') :
    (∀ fd, ¬ Stray cfg l' fd) ↔
      (∀ fd, ¬ Stray cfg l fd) ∧ Meets (step cfg) (fun l a => lostBy cfg l a = none) l as := by
  induction as generalizing l ids with
  | nil =>
    cases hr
    exact ⟨fun h => ⟨h, trivial⟩, fun h => h.1⟩
  | cons a as ih =>
    rw [run] at hr
    cases hs : step cfg l a with
    | none =>
      rw [hs] at hr
      cases hr
    | some l₁ =>
      rw [hs] at hr
      obtain ⟨ids₁, hb₁, hw₁, -⟩ := step_relists hb hw hs
      rw [Meets, hs]
      cases hlost : lostBy cfg l a with
      | none =>
        have hkept := step_kept hb hw hwatched hlost hs
        rw [ih hb₁ hw₁ (hkept.watched hwatched) hr]
        simp only [hkept.stray, true_and]
      | some fd =>
        obtain ⟨hstray, hkeeps⟩ := step_lost hb hlost hs
        rw [ih hb₁ hw₁ (hkeeps hwatched) hr]
        -- the lost descriptor stays
        have hfd : Stray cfg l₁ fd := (hstray fd).mpr (.inr rfl)
        exact iff_of_false (fun h => h.1 fd hfd) fun h => by cases h.2.1

/-- **Accepted descriptors.**  In every reachable state, in the callbacks and between them: the open
    descriptors that `accept` has returned are the keys of `fdconns`, if and only if no accept of
    the run has failed midway. -/
theorem accepted_stored_iff (cfg : Config) (as : List Act) (l : Listener)
    (hr : run (step cfg) (init cfg) as = some l) :
    (∀ fd, (l.opened fd = true ∧ fd ≠ cfg.fd) ↔ l.fdconns fd ≠ none) ↔
      Meets (step cfg) (fun l a => lostBy cfg l a = none) (init cfg) as := by
  obtain ⟨ids, hb, -⟩ := run_books hr
  have hinit : ∀ fd, ¬ Stray cfg (init cfg) fd := by
    rintro fd ⟨hopen, hne, -⟩
    have hclosed : (init cfg).opened fd = false := by
      show Function.update (fun _ => false) cfg.fd true fd = false
      rw [Function.update_of_ne hne]
    rw [hclosed] at hopen
    cases hopen
  have hrun := run_stray Balanced.init trivial watched_init hr
  rw [iff_true_intro hinit, true_and] at hrun
  rw [← hrun]
  constructor
  · rintro h fd ⟨hopen, hne, hnone⟩
    exact (h fd).mp ⟨hopen, hne⟩ hnone
  · intro h fd
    constructor
    · rintro ⟨hopen, hne⟩ hnone
      exact h fd ⟨hopen, hne, hnone⟩
    · intro hsome
      obtain ⟨id, hid⟩ := Option.ne_none_iff_exists'.mp hsome
      obtain ⟨hmem, heq⟩ := (hb.stored fd id).1 hid
      rw [← heq]
      exact ⟨hb.fd_opened id hmem, hb.fd_ne id hmem⟩

/-- One connection is accepted and closed, then another one is accepted; accept fails once in
    between. -/
theorem accepted_stored_iff_reused : ∃ l,
    run (step ⟨3, 0⟩) (init ⟨3, 0⟩) [.wake [⟨3, {}⟩, ⟨3, {}⟩, ⟨7, { eof := true }⟩, ⟨3, {}⟩],
      .callback 0 (.ok 7),
      .tick 0, .callback 1 .none, .callback 2 .none, .eof, .tick 2, .callback 3 (.ok 7)] = some l ∧
    l.made = 2 ∧ ∀ fd, (l.opened fd = true ∧ fd ≠ 3) ↔ l.fdconns fd ≠ none := by
  have hrun : ∃ l ∈ run (step ⟨3, 0⟩) (init ⟨3, 0⟩)
      [.wake [⟨3, {}⟩, ⟨3, {}⟩, ⟨7, { eof := true }⟩, ⟨3, {}⟩],
      .callback 0 (.ok 7), .tick 0, .callback 1 .none, .callback 2 .none,
      .eof, .tick 2, .callback 3 (.ok 7)], l.made = 2 := by decide +kernel
  obtain ⟨l, hl, hmade⟩ := hrun
  exact ⟨l, hl, hmade, (accepted_stored_iff ⟨3, 0⟩ _ l hl).mpr (by decide +kernel)⟩

/-- `SetNonblock` or the TLS layer fails for the descriptor 7: the callback is over, 7 is open, and
    it is not in `fdconns`. -/
theorem setup_error_leaks : ∃ l,
    run (step ⟨3, 0⟩) (init ⟨3, 0⟩) [.wake [⟨3, {}⟩], .callback 0 (.setupError 7)] = some l ∧
    l.loop = .between [] ∧ l.opened 7 = true ∧ l.fdconns 7 = none := by
  have hrun : ∃ l ∈ run (step ⟨3, 0⟩) (init ⟨3, 0⟩) [.wake [⟨3, {}⟩], .callback 0 (.setupError 7)],
      l.loop = .between [] ∧ l.opened 7 = true ∧ l.fdconns 7 = none := by decide +kernel
  exact hrun

end Resh.Server.Listener
