import Mathlib.Tactic.IntervalCases
import Resh.Server.Bookkeeping

namespace Resh.Server

open Resh.Go

/-!
# The end of `Serve`

A panic in the callback or an error of the wait ends the event loop.  The deferred function then
goes over `fdconns` and closes what is there; the order is that of a Go map, and
`closeConnWithError` deletes the entry that the loop is at.  Handlers and goroutines may still use
the connections meanwhile.

* `Ending` — what is left to close;
* `cleanup_ending`, `user_ending` — a round of the loop, and what others do between two rounds;
* `serve_ends` — every order of the map, with anything of the others in between.
-/

/-- The connection that the operation is on exists. -/
def UserOp.Existing (made : ℕ) : UserOp → Prop
  | write _ id _ => id < made
  | append _ id _ => id < made
  | flush _ id => id < made
  | trigger _ => True
  | upgrade id => id < made
  | wsClose id => id < made

/-- What can happen once the event loop has ended. -/
def Act.Late (made : ℕ) : Act → Prop
  | cleanup _ => True
  | user op => op.Existing made
  | _ => False

/-- The entry that a round of the deferred loop is at. -/
def Act.cleaned : Act → Option ℕ
  | cleanup fd => some fd
  | _ => none

namespace Listener

/-- The event loop has ended, and the entries `fds` of `fdconns` are still to be visited. -/
structure Ending (cfg : Config) (l : Listener) (fds : List ℕ) : Prop where
  books : ∃ ids, Balanced cfg l ids
  dead : l.loop = .dead
  nodup : fds.Nodup
  stored : ∀ fd, fd ∈ fds ↔ l.fdconns fd ≠ none

variable {cfg : Config} {l l' : Listener} {fd : ℕ} {fds : List ℕ}

/-- A round closes the connection of its entry. -/
theorem cleanup_ending (h : Ending cfg l (fd :: fds)) :
    ∃ l', step cfg l (.cleanup fd) = some l' ∧ Ending cfg l' fds ∧ l'.made = l.made ∧
      ∃ es, l'.log = l.log ++ es ∧ ∀ e ∈ es, e.io = false := by
  obtain ⟨ids, hb⟩ := h.books
  obtain ⟨id, hid⟩ := Option.ne_none_iff_exists'.mp ((h.stored fd).mp List.mem_cons_self)
  obtain ⟨hmem, hfd⟩ := (hb.stored fd id).mp hid
  have hopen := ((hb.mem_iff id).mp hmem).2
  have hstep : step cfg l (.cleanup fd) = some (l.closeConnWithError id) := by
    unfold step
    rw [h.dead]
    show (l.fdconns fd).map _ = _
    rw [hid]
    rfl
  refine ⟨_, hstep, ⟨⟨_, hb.close hmem⟩, ?_, h.nodup.of_cons, fun g => ?_⟩,
    closeConnWithError_made l id, closing (l.conns id).ws.isSome id, ?_, ?_⟩
  · rw [closeConnWithError_loop, h.dead]
  · rw [closeConnWithError_of_open hopen]
    show g ∈ fds ↔ Function.update l.fdconns (l.conns id).fd none g ≠ none
    rw [hfd]
    by_cases hg : g = fd
    · subst hg
      rw [Function.update_self]
      exact ⟨fun hin => absurd hin (List.nodup_cons.mp h.nodup).1, fun hne => absurd rfl hne⟩
    · rw [Function.update_of_ne hg, ← h.stored g, List.mem_cons]
      exact ⟨.inr, fun hin => hin.resolve_left hg⟩
  · rw [closeConnWithError_of_open hopen]
  · intro e he
    simp only [closing, List.mem_append, List.mem_cons, List.not_mem_nil, or_false] at he
    rcases he with he | rfl | rfl
    · split at he
      · rw [List.mem_singleton.mp he]
        rfl
      · cases he
    · rfl
    · rfl

/-- What others do leaves the entries. -/
theorem user_ending {op : UserOp} (h : Ending cfg l fds) (hop : op.Existing l.made) :
    ∃ l', step cfg l (.user op) = some l' ∧ Ending cfg l' fds ∧ l'.made = l.made ∧
      ∃ es, l'.log = l.log ++ es ∧ ∀ e ∈ es, e.io = false := by
  obtain ⟨l', hl', hstored, hlog⟩ : ∃ l', l.useConn op = some l' ∧ l'.fdconns = l.fdconns ∧
      ∃ es, l'.log = l.log ++ es ∧ ∀ e ∈ es, e.io = false := by
    have hsame : ∃ es, l.log = l.log ++ es ∧ ∀ e ∈ es, e.io = false :=
      ⟨[], (List.append_nil _).symm, fun _ he => absurd he List.not_mem_nil⟩
    cases op with
    | write w id p =>
      refine ⟨_, if_pos hop, ?_, ?_⟩
      · split <;> rfl
      · split <;> exact hsame
    | append w id p => exact ⟨_, if_pos hop, rfl, hsame⟩
    | flush w id =>
      refine ⟨_, if_pos hop, ?_, ?_⟩
      · split <;> rfl
      · split <;> exact hsame
    | trigger fd => exact ⟨_, rfl, rfl, hsame⟩
    | upgrade id =>
      refine ⟨_, if_pos hop, rfl, [.upgrade id], rfl, fun e he => ?_⟩
      rw [List.mem_singleton.mp he]
      rfl
    | wsClose id => exact ⟨_, if_pos hop, rfl, hsame⟩
  obtain ⟨ids, hb⟩ := h.books
  have huses := useConn_uses hl'
  obtain ⟨-, hmade, -, hloop⟩ := huses.same
  exact ⟨l', hl', ⟨⟨ids, hb.uses huses⟩, hloop.trans h.dead, h.nodup,
    fun g => by rw [hstored]; exact h.stored g⟩, hmade, hlog⟩

/-- The rest of the deferred loop. -/
theorem run_ending {bs : List Act} (h : Ending cfg l fds) (hlate : ∀ a ∈ bs, a.Late l.made)
    (hfds : bs.filterMap Act.cleaned = fds) :
    ∃ l', run (step cfg) l bs = some l' ∧ Ending cfg l' [] ∧ l'.made = l.made ∧
      ∃ es, l'.log = l.log ++ es ∧ ∀ e ∈ es, e.io = false := by
  induction bs generalizing l fds with
  | nil =>
    subst hfds
    exact ⟨l, rfl, h, rfl, [], (List.append_nil _).symm, fun _ he => absurd he List.not_mem_nil⟩
  | cons a bs ih =>
    have ha := hlate a List.mem_cons_self
    obtain ⟨l₁, hl₁, hend, hmade, es, hlog, hes⟩ : ∃ l₁, step cfg l a = some l₁ ∧
        Ending cfg l₁ (bs.filterMap Act.cleaned) ∧ l₁.made = l.made ∧
        ∃ es, l₁.log = l.log ++ es ∧ ∀ e ∈ es, e.io = false := by
      cases a with
      | cleanup fd =>
        have hcons : (Act.cleanup fd :: bs).filterMap Act.cleaned
            = fd :: bs.filterMap Act.cleaned := rfl
        rw [hcons] at hfds
        exact cleanup_ending (hfds ▸ h)
      | user op =>
        rw [List.filterMap_cons_none rfl] at hfds
        exact user_ending (hfds ▸ h) ha
      | _ => exact absurd ha id
    obtain ⟨l', hrun, hend', hmade', es', hlog', hes'⟩ := ih hend
      (fun b hb => by rw [hmade]; exact hlate b (List.mem_cons_of_mem a hb)) rfl
    refine ⟨l', ?_, hend', hmade'.trans hmade, es ++ es', ?_, ?_⟩
    · rw [run, hl₁]
      exact hrun
    · rw [hlog', hlog, List.append_assoc]
    · intro e he
      exact (List.mem_append.mp he).elim (hes e) (hes' e)

/-- **`Serve` ends with everything closed.**  However the event loop came to its end, whatever order
    the map is visited in and whatever handlers and goroutines do meanwhile: the deferred loop comes
    to its end, nothing is read, written or registered any more, the list and the map are empty, the
    counter is 0, and every connection was closed once, with `OnWSClose` once if it had been
    upgraded before. -/
theorem serve_ends (cfg : Config) (as : List Act) (l : Listener)
    (hr : run (step cfg) (init cfg) as = some l) (hdead : l.loop = .dead) (bs : List Act)
    (hlate : ∀ a ∈ bs, a.Late l.made) (hnodup : (bs.filterMap Act.cleaned).Nodup)
    (hvisits : ∀ fd, fd ∈ bs.filterMap Act.cleaned ↔ l.fdconns fd ≠ none) :
    ∃ l', run (step cfg) l bs = some l' ∧ (∀ fd, l'.fdconns fd = none) ∧ l'.count = 0 ∧
      l'.next .head = .tail ∧ l'.prev .tail = .head ∧
      (∃ es, l'.log = l.log ++ es ∧ ∀ e ∈ es, e.io = false) ∧
      ∀ id < l.made, (l'.conns id).closed = true ∧ l'.log.count (.sysClose id) = 1 ∧
        l'.log.count (.decrement id) = 1 ∧
        l'.log.count (.onWSClose id)
          = if .upgrade id ∈ l'.log.takeWhile (· ≠ .sysClose id) then 1 else 0 := by
  obtain ⟨ids, hb, -⟩ := run_books hr
  have hstart : Ending cfg l (bs.filterMap Act.cleaned) := ⟨⟨ids, hb⟩, hdead, hnodup, hvisits⟩
  obtain ⟨l', hrun, hend, hmade, hlog⟩ := run_ending hstart hlate rfl
  have hempty : ∀ fd, l'.fdconns fd = none := by
    intro fd
    by_contra hne
    exact absurd ((hend.stored fd).mpr hne) List.not_mem_nil
  obtain ⟨ids', hb'⟩ := hend.books
  have hnil : ids' = [] := by
    apply List.eq_nil_iff_forall_not_mem.mpr
    intro id hid
    have hstored := (hb'.stored (l'.conns id).fd id).mpr ⟨hid, rfl⟩
    rw [hempty] at hstored
    cases hstored
  subst hnil
  refine ⟨l', hrun, hempty, hb'.length, ?_, ?_, hlog, fun id hid => ?_⟩
  · exact List.isChain_cons_cons.mp hb'.joined.forward |>.1
  · have hback := hb'.joined.backward
    exact List.isChain_cons_cons.mp hback |>.1
  · have hlt : id < l'.made := hmade ▸ hid
    refine ⟨?_, (hb'.gone id hlt List.not_mem_nil).count⟩
    by_contra hopen
    exact absurd ((hb'.mem_iff id).mpr ⟨hlt, Bool.eq_false_iff.mpr hopen⟩) List.not_mem_nil

/-- Two connections, the first of them a websocket; then the wait fails. -/
def waitFails : List Act :=
  [.wake [⟨3, { read := true }⟩, ⟨3, { read := true }⟩], .callback 0 (.ok 7),
    .tick 0, .callback 1 (.ok 8),
    .tick 1, .wake [⟨7, { read := true }⟩], .callback 2 .none, .read (.data [1]), .parse .complete,
    .user (.upgrade 0), .handled .done, .finish, .eof, .tick 3, .waitError]

/-- The deferred loop comes to the second connection first; a goroutine writes to it behind that. -/
def lateActs : List Act :=
  [.cleanup 8, .user (.append (some 1) 1 [65]), .user (.write none 0 [66]), .cleanup 7]

theorem serve_ends_websocket :
    ∃ l l', run (step ⟨3, 0⟩) (init ⟨3, 0⟩) waitFails = some l ∧
    run (step ⟨3, 0⟩) l lateActs = some l' ∧
      l'.count = 0 ∧ l'.log.count (.sysClose 0) = 1 ∧ l'.log.count (.sysClose 1) = 1 := by
  obtain ⟨l, hl, hdead, hmade, h7, h8⟩ : ∃ l ∈ run (step ⟨3, 0⟩) (init ⟨3, 0⟩) waitFails,
      l.loop = .dead ∧ l.made = 2 ∧ l.fdconns 7 = some 0 ∧ l.fdconns 8 = some 1 := by decide +kernel
  have hvisits : ∀ fd, fd ∈ lateActs.filterMap Act.cleaned ↔ l.fdconns fd ≠ none := by
    obtain ⟨ids, hb, -⟩ := run_books hl
    intro fd
    show fd ∈ [8, 7] ↔ _
    constructor
    · intro hfd
      simp only [List.mem_cons, List.not_mem_nil, or_false] at hfd
      rcases hfd with rfl | rfl
      · rw [h8]; exact Option.some_ne_none _
      · rw [h7]; exact Option.some_ne_none _
    · intro hne
      obtain ⟨id, hid⟩ := Option.ne_none_iff_exists'.mp hne
      obtain ⟨hmem, rfl⟩ := (hb.stored fd id).mp hid
      have hlt := ((hb.mem_iff id).mp hmem).1
      rw [hmade] at hlt
      interval_cases id
      · rw [((hb.stored 7 0).mp h7).2]; decide
      · rw [((hb.stored 8 1).mp h8).2]; decide
  have hlate : ∀ a ∈ lateActs, a.Late l.made := by
    rw [hmade]
    simp [lateActs, Act.Late, UserOp.Existing]
  obtain ⟨l', hrun, -, hcount, -, -, -, hclosed⟩ :=
    serve_ends ⟨3, 0⟩ waitFails l hl hdead lateActs hlate (by decide) hvisits
  exact ⟨l, l', hl, hrun, hcount, (hclosed 0 (by omega)).2.1, (hclosed 1 (by omega)).2.1⟩

end Listener

end Resh.Server
