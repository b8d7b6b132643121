import Resh.Server.Bookkeeping

namespace Resh.Server.Listener

open Resh.Go

/-!
# No input or output on a closed connection

The callback of one event may run `writeConn`, `readConn` and a close on the same connection.
`writeConn` closes the connection when the write call fails, or when the output of a closed
websocket is written; the callback does not look at that and calls `readConn`, which reads from the
closed descriptor (`read_after_close`).

* `Spares` — the condition: `writeConn` does not close while `READ` is still to be looked at;
* `Attends` — the invariant of the position: the callback is at an open connection, but for its end;
* `Quiet` — the invariant of the log: after a close nothing more is called for the connection;
* `closed_quiet` — both hold along every run that meets the condition.
-/

/-- With `READ` still to be looked at, the write call does not fail and a websocket whose output is
    written is not closed. -/
def Spares (l : Listener) (a : Act) : Prop :=
  match l.loop, a with
  | .serving id .write ev _, .write (.error _) => ev.read = true → (l.conns id).out = []
  | .serving id .drained ev _, .drained => ev.read = true → (l.conns id).ws ≠ some true
  | _, _ => True

instance (l : Listener) (a : Act) : Decidable (Spares l a) := by
  unfold Spares
  split <;> infer_instance

/-! ### The invariants -/

/-- A call for a connection that an earlier call has closed. -/
def Clash (c d : LoopCall) : Prop :=
  c = .sysClose d.conn ∧ (d.io = true ∨ d = .sysClose d.conn)

/-- After a close nothing more is called for the connection. -/
def Quiet (log : List LoopCall) : Prop := log.Pairwise fun c d => ¬ Clash c d

/-- Nothing is left to read in the stages from the read call on. -/
def Stage.reading : Stage → Bool
  | .read | .parse | .handler | .finish | .eof => true
  | _ => false

/-- The callback is at an open connection until it looks at `EOF`, and it reads once. -/
def Attends (conns : ℕ → Socket) : Loop → Prop
  | .serving id stage ev _ => (stage ≠ .eof → (conns id).closed = false) ∧
    (Stage.reading stage = true → ev.read = false)
  | _ => True

variable {cfg : Config} {l l' : Listener} {a : Act} {ids : List ℕ} {id : ℕ} {log : List LoopCall}

theorem Quiet.append {cs : List LoopCall} (h : Quiet log) (hcs : Quiet cs)
    (hno : ∀ c ∈ cs, LoopCall.sysClose c.conn ∉ log) : Quiet (log ++ cs) := by
  refine List.pairwise_append.2 ⟨h, hcs, fun c hc d hd hclash => ?_⟩
  exact hno d hd (hclash.1 ▸ hc)

theorem quiet_closing (ws : Bool) (id : ℕ) : Quiet (closing ws id) := by
  cases ws <;> simp [Quiet, closing, Clash]

/-- An open connection is not closed in the log. -/
theorem Balanced.not_mem_sysClose (h : Balanced cfg l ids) (hid : id < l.made)
    (hopen : (l.conns id).closed = false) : LoopCall.sysClose id ∉ l.log := fun hmem =>
  h.unclosed id ((h.mem_iff id).2 ⟨hid, hopen⟩) _ hmem (.inr (.inr rfl))

/-- A call for an open connection. -/
theorem Quiet.record (hq : Quiet l.log) (h : Balanced cfg l ids)
    {c : LoopCall} (hid : c.conn < l.made)
    (hopen : (l.conns c.conn).closed = false) : Quiet (l.record c).log := by
  refine hq.append (List.pairwise_singleton ..) fun d hd => ?_
  rw [List.mem_singleton.1 hd]
  exact h.not_mem_sysClose hid hopen

/-- A close. -/
theorem Quiet.closeConnWithError (hq : Quiet l.log) (h : Balanced cfg l ids) (hid : id < l.made) :
    Quiet (l.closeConnWithError id).log := by
  cases hclosed : (l.conns id).closed with
  | true => rwa [closeConnWithError_of_closed hclosed]
  | false =>
    rw [closeConnWithError_of_open hclosed]
    refine hq.append (quiet_closing _ id) fun c hc => ?_
    rw [isClosing_conn (mem_closing hc)]
    exact h.not_mem_sysClose hid hclosed

/-- Handlers and goroutines call nothing for a connection but the upgrade. -/
theorem Quiet.uses (hq : Quiet l.log) (hu : Uses l l') : Quiet l'.log := by
  cases hu with
  | upgrade id hid =>
    refine List.pairwise_append.2 ⟨hq, List.pairwise_singleton .., fun c hc d hd hclash => ?_⟩
    rw [List.mem_singleton.1 hd] at hclash
    rcases hclash.2 with hio | hclose
    · cases hio
    · cases hclose
  | _ => exact hq

/-! ### Runs -/

section Attends

variable {conns : ℕ → Socket} {ev : Flags} {todo : List PollEvent}

theorem Attends.congr {conns' : ℕ → Socket} {loop : Loop} (h : Attends conns loop)
    (hsame : ∀ i, (conns' i).closed = (conns i).closed) : Attends conns' loop := by
  cases loop with
  | serving id stage ev todo => exact ⟨fun hst => (hsame id).trans (h.1 hst), h.2⟩
  | _ => trivial

/-- The callback is at a connection that is open, before the read call. -/
theorem attends_of_open {stage : Stage} (hopen : (conns id).closed = false)
    (hstage : Stage.reading stage = false) : Attends conns (.serving id stage ev todo) :=
  ⟨fun _ => hopen, fun h => absurd (hstage.symm.trans h) Bool.false_ne_true⟩

/-- The callback goes on with an open connection. -/
theorem attends_resume (hopen : (conns id).closed = false) : Attends conns (resume id ev todo) := by
  unfold resume
  split
  · exact ⟨fun _ => hopen, fun _ => rfl⟩
  · rename_i hread
    exact ⟨fun _ => hopen, fun _ => Bool.eq_false_iff.2 hread⟩

/-- After a close the callback must have nothing to read. -/
theorem attends_resume_of_read (hread : ev.read = false) : Attends conns (resume id ev todo) := by
  unfold resume
  rw [if_neg (by rw [hread]; exact Bool.false_ne_true)]
  exact ⟨fun h => absurd rfl h, fun _ => hread⟩

theorem attends_dispatch (hopen : (conns id).closed = false) :
    Attends conns (dispatch id ev todo) := by
  unfold dispatch
  split
  · exact attends_of_open hopen rfl
  · exact attends_resume hopen

theorem Passes.attends {stage : Stage} {loop : Loop} (h : Passes l id ev todo stage loop)
    (ha : Attends conns (.serving id stage ev todo)) : Attends conns loop := by
  obtain ⟨hopen, hread⟩ := ha
  cases h with
  | drained h => exact attends_of_open (hopen (by decide)) rfl
  | more => exact attends_resume (hopen (by decide))
  | complete => exact ⟨fun _ => hopen (by decide), fun _ => hread rfl⟩
  | again => exact ⟨fun _ => hopen (by decide), fun _ => hread rfl⟩
  | done => exact ⟨fun _ => hopen (by decide), fun _ => hread rfl⟩
  | finish h => exact attends_resume (hopen (by decide))
  | output => exact attends_of_open (hopen (by decide)) rfl
  | eof => trivial

end Attends

/-- What a run keeps: the books, the log and the position. -/
def Orderly (cfg : Config) (l : Listener) : Prop :=
  (∃ ids, Balanced cfg l ids ∧ Within l.made ids l.loop) ∧ Quiet l.log ∧ Attends l.conns l.loop

/-- One step that meets the condition. -/
theorem step_orderly (h : Orderly cfg l) (hcond : Spares l a) (hs : step cfg l a = some l') :
    Orderly cfg l' := by
  obtain ⟨hbooks, hq, ha⟩ := h
  refine ⟨step_books hbooks hs, ?_⟩
  obtain ⟨ids, hb, hw⟩ := hbooks
  cases step_moves hs with
  | user op _ hu =>
    obtain ⟨hconns, -, -, hloop⟩ := hu.same
    exact ⟨hq.uses hu, hloop ▸ ha.congr fun i => (hconns i).1⟩
  | wake evs hloop => exact ⟨hq, trivial⟩
  | die => exact ⟨hq, trivial⟩
  | rest _ todo => exact ⟨hq, trivial⟩
  | leak _ fd now e todo loop hloop he hfd hto =>
    refine ⟨hq, ?_⟩
    rcases hto with ⟨-, rfl⟩ | ⟨-, rfl⟩ | ⟨-, rfl⟩ <;> trivial
  | accept _ fd now e todo hloop he hfd =>
    refine ⟨hq.append (List.pairwise_singleton ..) fun c hc hmem => ?_, trivial⟩
    -- the new connection has a number that the log does not know
    rw [List.mem_singleton.1 hc] at hmem
    exact Nat.lt_irrefl _ (hb.log_lt _ hmem)
  | touch _ id now e todo hloop he hfd =>
    have hopen := ((hb.mem_iff id).1 ((hb.stored _ _).1 hfd).1).2
    refine ⟨hq, attends_dispatch ?_⟩
    simpa [goto, attachConn, detach] using hopen
  | pass _ id stage ev todo loop hloop hp =>
    rw [hloop] at ha
    exact ⟨hq, hp.attends ha⟩
  | close _ id stage ev todo loop hloop hc =>
    rw [hloop] at ha hw
    refine ⟨hq.closeConnWithError hb hw, ?_⟩
    cases hc with
    | drained hws =>
      -- `writeConn` closes and the callback would go on to `readConn`: the condition rules it out
      simp only [Spares, hloop] at hcond
      exact attends_resume_of_read (Bool.eq_false_iff.2 fun hread => hcond hread hws)
    | parse => exact attends_resume_of_read (ha.2 rfl)
    | handler => exact attends_resume_of_read (ha.2 rfl)
    | eof => trivial
  | writeNothing wr id ev todo hloop hout =>
    rw [hloop] at ha
    exact ⟨hq, attends_of_open (ha.1 (by decide)) rfl⟩
  | writeError text id ev todo hloop hout =>
    rw [hloop] at ha hw
    have hrec : Balanced cfg ((l.flushed none id).record (.write id)) ids := Books.record hb hw rfl
    have hq' : Quiet ((l.flushed none id).record (.write id)).log :=
      Quiet.record (l := l.flushed none id) hq hb hw (ha.1 (by simp))
    simp only [Spares, hloop] at hcond
    exact ⟨hq'.closeConnWithError hrec hw,
      attends_resume_of_read (Bool.eq_false_iff.2 fun hread => hout (hcond hread))⟩
  | writePart wr id ev todo out hloop =>
    rw [hloop] at ha hw
    refine ⟨Quiet.record (l := l.flushed none id) hq hb hw (ha.1 (by decide)),
      attends_of_open ?_ rfl⟩
    simpa [goto, setConn] using ha.1 (by decide)
  | writeAll wr id ev todo hloop =>
    rw [hloop] at ha hw
    refine ⟨Quiet.record (l := l.flushed none id) hq hb hw (ha.1 (by decide)),
      attends_of_open ?_ rfl⟩
    simpa [goto, setConn] using ha.1 (by decide)
  | readClose rd id ev todo hloop =>
    rw [hloop] at ha hw
    have hrec : Balanced cfg (l.record (.read id)) ids := Books.record hb hw rfl
    have hq' : Quiet (l.record (.read id)).log := hq.record hb hw (ha.1 (by simp))
    exact ⟨hq'.closeConnWithError hrec hw, attends_resume_of_read (ha.2 rfl)⟩
  | readData rd id ev todo hloop =>
    rw [hloop] at ha hw
    exact ⟨hq.record hb hw (ha.1 (by simp)), fun _ => ha.1 (by simp), fun _ => ha.2 rfl⟩
  | readAgain id ev todo hloop =>
    rw [hloop] at ha hw
    exact ⟨hq.record hb hw (ha.1 (by simp)), attends_of_open (ha.1 (by simp)) rfl⟩
  | mod id i ev todo hloop hreg =>
    rw [hloop] at ha hw
    exact ⟨hq.record hb hw (ha.1 (by simp)), attends_resume (ha.1 (by simp))⟩
  | modPanic id i ev todo hloop hreg =>
    rw [hloop] at ha hw
    exact ⟨hq.record hb hw (ha.1 (by simp)), trivial⟩
  | tick now todo hloop => exact ⟨hq, trivial⟩
  | sweep id now todo hloop =>
    have hid : id ∈ ids := mem_of_within (hloop ▸ hw)
    exact ⟨hq.closeConnWithError hb ((hb.mem_iff id).1 hid).1, trivial⟩
  | cleanup fd id hloop hfd =>
    have hid := ((hb.stored _ _).1 hfd).1
    refine ⟨hq.closeConnWithError hb ((hb.mem_iff id).1 hid).1, ?_⟩
    rw [closeConnWithError_loop, hloop]
    trivial

/-- **No input or output after a close.**  In every run that meets the condition, once a connection
    is closed no later call for it reads, writes, changes the registration or closes again. -/
theorem closed_quiet (cfg : Config) (as : List Act) (l : Listener)
    (hm : Meets (step cfg) Spares (init cfg) as) (hr : run (step cfg) (init cfg) as = some l)
    (id : ℕ) (before after : List LoopCall) (hlog : l.log = before ++ .sysClose id :: after) :
    ∀ c ∈ after, c.conn = id → c.io = false ∧ c ≠ .sysClose id := by
  have hinit : Orderly cfg (init cfg) := ⟨⟨[], .init, trivial⟩, List.Pairwise.nil, trivial⟩
  have hq : Quiet l.log :=
    (run_invariant (fun _ _ _ h hcond hs => step_orderly h hcond hs) hinit hm hr).2.1
  rw [hlog] at hq
  have hafter := (List.pairwise_cons.1 (List.pairwise_append.1 hq).2.1).1
  rintro c hc rfl
  have hno := hafter c hc
  exact ⟨Bool.eq_false_iff.2 fun hio => hno ⟨rfl, .inl hio⟩, fun hclose => hno ⟨rfl, .inr hclose⟩⟩

/-- A connection on the descriptor 7 gets two bytes of output, of which one is written, so that it
    waits for `EPOLLOUT` too; then it has both events. -/
def shortWrite : List Act :=
  [.wake [⟨3, { read := true }⟩], .callback 0 (.ok 7), .tick 0, .wake [⟨7, { read := true }⟩],
    .callback 0 .none, .read (.data [1]), .parse .complete, .user (.append none 0 [1, 2]),
    .handled .done, .finish, .write (.ok 1), .mod, .eof, .tick 0,
    .wake [⟨7, { read := true, write := true }⟩], .callback 0 .none]

/-- The output goes out, the peer has closed its end, and the descriptor is used for the next
    connection. -/
def reusedFd : List Act :=
  shortWrite ++ [.write (.ok 1), .drained, .mod, .read (.data []), .eof, .tick 0,
    .wake [⟨3, { read := true }⟩], .callback 0 (.ok 7)]

theorem closed_quiet_reused :
    Meets (step ⟨3, 0⟩) Spares (init ⟨3, 0⟩) reusedFd ∧
    ∃ l, run (step ⟨3, 0⟩) (init ⟨3, 0⟩) reusedFd = some l ∧
    ∃ before, l.log = before ++ .sysClose 0 :: [.addRead 1] ∧
      ∀ c ∈ [LoopCall.addRead 1], c.conn = 0 → c.io = false ∧ c ≠ .sysClose 0 := by
  have hm : Meets (step ⟨3, 0⟩) Spares (init ⟨3, 0⟩) reusedFd := by decide +kernel
  have hrun : ∃ l ∈ run (step ⟨3, 0⟩) (init ⟨3, 0⟩) reusedFd,
      l.log = [.addRead 0, .read 0, .write 0, .mod 0, .write 0, .mod 0, .read 0, .decrement 0]
        ++ .sysClose 0 :: [.addRead 1] := by
    decide +kernel
  obtain ⟨l, hl, hlog⟩ := hrun
  exact ⟨hm, l, hl, _, hlog, closed_quiet ⟨3, 0⟩ reusedFd l hm hl 0 _ _ hlog⟩

/-- The write of the event fails: the connection is closed, and then its descriptor is read. -/
theorem read_after_close : ∃ l, run (step ⟨3, 0⟩) (init ⟨3, 0⟩)
      (shortWrite ++ [.write (.error []), .read (.error [])]) = some l ∧
    ∃ before after, l.log = before ++ .sysClose 0 :: after ∧ .read 0 ∈ after := by
  have hrun : ∃ l ∈ run (step ⟨3, 0⟩) (init ⟨3, 0⟩)
      (shortWrite ++ [.write (.error []), .read (.error [])]),
      l.log = [.addRead 0, .read 0, .write 0, .mod 0, .write 0, .decrement 0]
        ++ .sysClose 0 :: [.read 0] := by
    decide +kernel
  obtain ⟨l, hl, hlog⟩ := hrun
  exact ⟨l, hl, _, _, hlog, List.mem_singleton_self _⟩

end Resh.Server.Listener
