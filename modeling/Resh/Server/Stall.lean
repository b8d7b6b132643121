import Resh.Server.Bookkeeping

namespace Resh.Server.Listener

open Resh.Go

/-!
# Output that nobody will write

Output that stays after a short write is written when the descriptor becomes writable, for which
`writeConn` registers `EPOLLOUT`.  `readConn` registers `EPOLLIN` alone when a read call says
`EAGAIN`, as it does for an incomplete TLS record, and so takes the write interest away
(`stalled_output`).

* `Calm` — the condition: such a read finds no output that has only the write interest;
* `Covered` — the invariant: output of an open connection will be looked at again;
* `output_awaited` — in every run that meets the condition no output is stalled when the loop waits.
-/

/-- An event of this round will write the output of the descriptor. -/
def Pending (fd : ℕ) (todo : List PollEvent) : Prop := ∃ e ∈ todo, e.fd = fd ∧ e.ev.write = true

/-- The connection whose read call says `EAGAIN`, with the events left in the round. -/
def againAt (l : Listener) (a : Act) : Option (ℕ × List PollEvent) :=
  match l.loop, a with
  | .serving id .read _ todo, .read .again => some (id, todo)
  | _, _ => none

/-- A read call says `EAGAIN` only if there is no output, or it has another way out: a writer that
    has still to flush, the queue of `Trigger` or an event of this round. -/
def Calm (l : Listener) (a : Act) : Prop :=
  ∀ q ∈ againAt l a, (l.conns q.1).out = [] ∨ (∃ p ∈ l.dirty, p.2 = q.1) ∨
    (l.conns q.1).fd ∈ l.poll.writesFd ∨ Pending (l.conns q.1).fd q.2

instance (fd : ℕ) (todo : List PollEvent) : Decidable (Pending fd todo) :=
  inferInstanceAs (Decidable (∃ e ∈ todo, _))

instance (l : Listener) (a : Act) : Decidable (Calm l a) :=
  inferInstanceAs (Decidable (∀ q ∈ againAt l a, _))

/-! ### The invariant -/

/-- The event loop will write the output of the connection, or has ended. -/
def Owes (fd id : ℕ) : Loop → Prop
  | .between todo | .tick todo | .sweep _ _ todo => Pending fd todo
  | .serving i stage _ todo =>
    i = id ∧ (stage = .write ∨ stage = .mod .readWrite) ∨ Pending fd todo
  | .dead => True

/-- The event loop is about to take the write interest of the connection away. -/
def Drops (id : ℕ) : Loop → Prop
  | .serving i stage _ _ => i = id ∧ (stage = .drained ∨ stage = .mod .read)
  | _ => False

/-- The connection is closed, or has no output, or somebody will look at its output. -/
def Covered (l : Listener) (id : ℕ) : Prop :=
  (l.conns id).closed = true ∨ (l.conns id).out = [] ∨ (∃ p ∈ l.dirty, p.2 = id) ∨
    (l.conns id).fd ∈ l.poll.writesFd ∨ Owes (l.conns id).fd id l.loop ∨
    l.poll.interest (l.conns id).fd = some .readWrite ∧ ¬ Drops id l.loop

/-- The connection that the callback works on. -/
def conn? : Loop → Option ℕ
  | .serving id _ _ _ => some id
  | _ => none

/-- The descriptor of a closed connection in the callback is not registered. -/
def Unwatched (l : Listener) : Prop :=
  ∀ id, conn? l.loop = some id → (l.conns id).closed = true →
    l.poll.interest (l.conns id).fd = none

variable {cfg : Config} {l l' : Listener} {a : Act} {ids : List ℕ} {id i j fd : ℕ} {ev : Flags}
  {todo : List PollEvent}

/-! ### The position of the event loop -/

/-- An event for another descriptor is not the one that is awaited. -/
theorem Pending.tail {e : PollEvent} (h : Pending fd (e :: todo)) (hne : e.fd ≠ fd) :
    Pending fd todo := by
  obtain ⟨e', he', hfd, hwrite⟩ := h
  rcases List.mem_cons.1 he' with rfl | he'
  · exact absurd hfd hne
  · exact ⟨e', he', hfd, hwrite⟩

/-- Where the callback resumes, only the events that are left can owe the output a write. -/
theorem owes_resume : Owes fd j (resume id ev todo) ↔ Pending fd todo := by
  unfold resume
  split <;> simp [Owes]

/-- Resuming the callback does not take the write interest of any connection away. -/
theorem not_drops_resume : ¬ Drops j (resume id ev todo) := by
  unfold resume
  split <;> simp [Drops]

/-- Looking at the event does not take the write interest of any connection away. -/
theorem not_drops_dispatch : ¬ Drops j (dispatch id ev todo) := by
  unfold dispatch
  split
  · simp [Drops]
  · exact not_drops_resume

/-- A write event of the connection itself, or one that is left, is a write that is owed. -/
theorem owes_dispatch (h : Pending fd todo ∨ id = j ∧ ev.write = true) :
    Owes fd j (dispatch id ev todo) := by
  unfold dispatch
  split
  · exact h.symm.imp_left fun h => ⟨h.1, .inl rfl⟩
  · rename_i hwrite
    exact owes_resume.2 (h.resolve_right fun h => hwrite h.2)

/-- The callback for one connection, seen from another. -/
theorem owes_other {stage : Stage} (hne : j ≠ id) :
    Owes fd j (.serving id stage ev todo) ↔ Pending fd todo := by
  simp [Owes, hne.symm]

/-- The callback changes the interest of the connection that it works on, of no other. -/
theorem not_drops_other {stage : Stage} (hne : j ≠ id) : ¬ Drops j (.serving id stage ev todo) :=
  fun hd => hne hd.1.symm

/-- The stages that end without a write owe nothing of their own. -/
theorem Passes.owes {stage : Stage} {loop : Loop} (h : Passes l id ev todo stage loop)
    (ho : Owes fd j (.serving id stage ev todo)) : Owes fd j loop := by
  cases h with
  | more => exact owes_resume.2 (by simpa [Owes] using ho)
  | finish h => exact owes_resume.2 (by simpa [Owes] using ho)
  | _ => simp_all [Owes]

/-- A stage that is passed leads to `ModRead` only where the write interest was already to go. -/
theorem Passes.drops {stage : Stage} {loop : Loop} (h : Passes l id ev todo stage loop)
    (hd : Drops j loop) : Drops j (.serving id stage ev todo) := by
  cases h with
  | more => exact absurd hd not_drops_resume
  | finish h => exact absurd hd not_drops_resume
  | _ => simp_all [Drops]

/-- A close ends the callback, so what was owed is owed by an event that is left. -/
theorem Closes.owes {stage : Stage} {loop : Loop} (h : Closes l id ev todo stage a loop)
    (ho : Owes fd j (.serving id stage ev todo)) : Owes fd j loop := by
  cases h with
  | eof => simpa [Owes] using ho
  | _ => exact owes_resume.2 (by simpa [Owes] using ho)

/-- After a close no interest is changed. -/
theorem Closes.not_drops {stage : Stage} {loop : Loop} (h : Closes l id ev todo stage a loop) :
    ¬ Drops j loop := by
  cases h with
  | eof => exact fun hd => hd
  | _ => exact not_drops_resume

/-- Where the callback resumes it is still at its connection. -/
theorem conn?_resume : conn? (resume id ev todo) = some id := by
  unfold resume
  split <;> rfl

/-- Where the callback looks at the event it is still at its connection. -/
theorem conn?_dispatch : conn? (dispatch id ev todo) = some id := by
  unfold dispatch
  split
  · rfl
  · exact conn?_resume

/-- A stage that is passed leads to no other connection than its own. -/
theorem Passes.conn? {stage : Stage} {loop : Loop} (h : Passes l id ev todo stage loop)
    (hi : conn? loop = some i) : i = id := by
  cases h with
  | more => exact Option.some.inj (hi.symm.trans conn?_resume)
  | finish h => exact Option.some.inj (hi.symm.trans conn?_resume)
  | eof => cases hi
  | _ => exact (Option.some.inj hi).symm

/-- A stage that closes its connection leads to no other connection. -/
theorem Closes.conn? {stage : Stage} {loop : Loop} (h : Closes l id ev todo stage a loop)
    (hi : conn? loop = some i) : i = id := by
  cases h with
  | eof => cases hi
  | _ => exact Option.some.inj (hi.symm.trans conn?_resume)

/-! ### What keeps a connection covered -/

namespace Covered

/-- The event loop moves. -/
theorem goto {loop : Loop} (h : Covered l j)
    (howes : Owes (l.conns j).fd j l.loop → Owes (l.conns j).fd j loop)
    (hdrops : Drops j loop → Drops j l.loop) : Covered (l.goto loop) j := by
  rcases h with h | h | h | h | h | h
  · exact .inl h
  · exact .inr (.inl h)
  · exact .inr (.inr (.inl h))
  · exact .inr (.inr (.inr (.inl h)))
  · exact .inr (.inr (.inr (.inr (.inl (howes h)))))
  · exact .inr (.inr (.inr (.inr (.inr ⟨h.1, fun hd => h.2 (hdrops hd)⟩))))

/-- The event loop moves in the callback for a connection. -/
theorem move {pos loop : Loop} (h : Covered l j) (hloop : l.loop = pos)
    (howes : ∀ fd, Owes fd j pos → Owes fd j loop) (hdrops : Drops j loop → Drops j pos) :
    Covered (l.goto loop) j :=
  h.goto (fun ho => howes _ (hloop ▸ ho)) fun hd => hloop ▸ hdrops hd

/-- Nothing of the connection changes. -/
theorem congr (l' : Listener) (h : Covered l j) (hclosed : (l'.conns j).closed = (l.conns j).closed)
    (hout : (l'.conns j).out = (l.conns j).out) (hfd : (l'.conns j).fd = (l.conns j).fd)
    (hdirty : ∀ p ∈ l.dirty, p.2 = j → p ∈ l'.dirty)
    (hqueue : (l.conns j).fd ∈ l.poll.writesFd → (l.conns j).fd ∈ l'.poll.writesFd)
    (hinterest : (l.conns j).closed = false →
      l'.poll.interest (l.conns j).fd = l.poll.interest (l.conns j).fd)
    (hloop : l'.loop = l.loop) : Covered l' j := by
  unfold Covered
  rw [hclosed, hout, hfd, hloop]
  cases hc : (l.conns j).closed with
  | true => exact .inl rfl
  | false =>
    rw [hinterest hc]
    rcases h with h | h | ⟨p, hp, hj⟩ | h | h | h
    · rw [hc] at h
      cases h
    · exact .inr (.inl h)
    · exact .inr (.inr (.inl ⟨p, hdirty p hp hj, hj⟩))
    · exact .inr (.inr (.inr (.inl (hqueue h))))
    · exact .inr (.inr (.inr (.inr (.inl h))))
    · exact .inr (.inr (.inr (.inr (.inr h))))

/-- A writer of another connection has flushed. -/
theorem flushed (h : Covered l j) (w : Option ℕ) (hne : j ≠ id) : Covered (l.flushed w id) j := by
  refine h.congr (l.flushed w id) rfl rfl rfl (fun p hp hj => ?_) (fun hq => hq) (fun _ => rfl) rfl
  have hp' : p ≠ (w, id) := by
    rintro rfl
    exact hne hj.symm
  exact List.mem_filter.2 ⟨hp, decide_eq_true hp'⟩

/-- Another connection gets new fields. -/
theorem setConn (h : Covered l j) (c : Socket) (hne : j ≠ id) : Covered (l.setConn id c) j := by
  have hsame : (l.setConn id c).conns j = l.conns j := Function.update_of_ne hne ..
  exact h.congr (l.setConn id c) (by rw [hsame]) (by rw [hsame]) (by rw [hsame])
    (fun _ hp _ => hp) (fun hq => hq) (fun _ => rfl) rfl

/-- A connection gets a websocket, or another one. -/
theorem setWs (h : Covered l j) (ws : Option Bool) :
    Covered (l.setConn id { l.conns id with ws := ws }) j := by
  by_cases hne : j = id
  · subst hne
    refine h.congr _ ?_ ?_ ?_ (fun _ hp _ => hp) (fun hq => hq) (fun _ => rfl) rfl <;>
      simp [Listener.setConn]
  · exact h.setConn _ hne

/-- A connection is closed. -/
theorem closeConnWithError (hb : Balanced cfg l ids) (hid : id < l.made) (hj : j < l.made)
    (h : Covered l j) : Covered (l.closeConnWithError id) j := by
  cases hclosed : (l.conns id).closed with
  | true => rwa [closeConnWithError_of_closed hclosed]
  | false =>
    rw [closeConnWithError_of_open hclosed]
    by_cases hne : j = id
    · subst hne
      exact .inl (by simp)
    · have hsame : Function.update l.conns id { l.conns id with closed := true } j = l.conns j :=
        Function.update_of_ne hne ..
      refine h.congr _ ?_ ?_ ?_ (fun _ hp _ => hp) (fun hq => hq) (fun hopen => ?_) rfl
      · exact congrArg Socket.closed hsame
      · exact congrArg Socket.out hsame
      · exact congrArg Socket.fd hsame
      · -- two open connections have different descriptors
        refine Function.update_of_ne (fun he => hne ?_) _ _
        exact hb.fd_inj ((hb.mem_iff j).2 ⟨hj, hopen⟩) ((hb.mem_iff id).2 ⟨hid, hclosed⟩) he

/-- The queue of `Trigger` becomes events of the round. -/
theorem wake (h : Covered l j) (evs : List PollEvent) (hloop : l.loop = .between []) :
    Covered (Listener.goto { l with poll := { l.poll with writesFd := [] } }
      (.between (l.poll.writesFd.map (fun fd => ⟨fd, { write := true }⟩) ++ evs))) j := by
  rcases h with h | h | h | h | h | h
  · exact .inl h
  · exact .inr (.inl h)
  · exact .inr (.inr (.inl h))
  · refine .inr (.inr (.inr (.inr (.inl ⟨⟨_, { write := true }⟩, ?_, rfl, rfl⟩))))
    exact List.mem_append_left _ (List.mem_map_of_mem h)
  · rw [hloop] at h
    obtain ⟨e, he, -⟩ := h
    cases he
  · exact .inr (.inr (.inr (.inr (.inr ⟨h.1, fun hd => hd⟩))))

/-- The callback is over, or there was nothing to do in it. -/
theorem rest (hb : Balanced cfg l ids) (hj : j < l.made) (h : Covered l j) (hr : Rests cfg l todo) :
    Covered (l.goto (.between todo)) j := by
  cases hopen : (l.conns j).closed with
  | true => exact .inl hopen
  | false =>
    have hmem := (hb.mem_iff j).2 ⟨hj, hopen⟩
    refine h.goto (fun ho => ?_) fun hd => hd.elim
    cases hr with
    | accept e hloop he =>
      rw [hloop] at ho
      exact Pending.tail ho (he ▸ (hb.fd_ne j hmem).symm)
    | lookup e hloop hfd =>
      rw [hloop] at ho
      refine Pending.tail ho fun he => ?_
      rw [he, (hb.stored _ j).2 ⟨hmem, rfl⟩] at hfd
      cases hfd
    | tick hloop => rwa [hloop] at ho
    | sweep conn now hloop => rwa [hloop] at ho

/-- A new connection. -/
theorem newConn (hb : Balanced cfg l ids) (hj : j < l.made) (h : Covered l j) (now : ℤ)
    (hfd : l.opened fd = false) : Covered (l.newConn fd now) j := by
  have hsame : (l.newConn fd now).conns j = l.conns j := by
    simp [Listener.newConn, attachConn, Function.update_of_ne (Nat.ne_of_lt hj)]
  refine h.congr _ (by rw [hsame]) (by rw [hsame]) (by rw [hsame]) (fun _ hp _ => hp) (fun hq => hq)
    (fun hopen => Function.update_of_ne (fun he => ?_) _ _) rfl
  have hopened := hb.fd_opened j ((hb.mem_iff j).2 ⟨hj, hopen⟩)
  rw [he, hfd] at hopened
  cases hopened

/-- The callback for a connection that was found. -/
theorem touch (hb : Balanced cfg l ids) (hj : j < l.made) (h : Covered l j)
    {e : PollEvent} (now : ℤ)
    (hloop : l.loop = .between (e :: todo)) (hfd : l.fdconns e.fd = some id) :
    Covered (((l.detach id).attachConn id now).goto (dispatch id e.ev todo)) j := by
  have hconn : ∀ i, (((l.detach id).attachConn id now).conns i).closed = (l.conns i).closed ∧
      (((l.detach id).attachConn id now).conns i).out = (l.conns i).out ∧
      (((l.detach id).attachConn id now).conns i).fd = (l.conns i).fd := fun i => by
    by_cases hi : i = id
    · subst hi
      simp [attachConn, detach]
    · simp [attachConn, detach, Function.update_of_ne hi]
  obtain ⟨hclosed, hout, hfd'⟩ := hconn j
  have h' : Covered ((l.detach id).attachConn id now) j :=
    h.congr _ hclosed hout hfd' (fun _ hp _ => hp) (fun hq => hq) (fun _ => rfl) rfl
  cases hopen : (l.conns j).closed with
  | true => exact .inl (hclosed.trans hopen)
  | false =>
    refine h'.goto (fun ho => owes_dispatch ?_) fun hd => absurd hd not_drops_dispatch
    rw [hfd'] at ho ⊢
    have hpending : Pending (l.conns j).fd (e :: todo) := by
      have : Owes (l.conns j).fd j l.loop := ho
      rwa [hloop] at this
    obtain ⟨e', he', hefd, hwrite⟩ := hpending
    rcases List.mem_cons.1 he' with rfl | he'
    · -- the connection stored under the descriptor of the event is the one that waits
      have hstored := (hb.stored _ j).2 ⟨(hb.mem_iff j).2 ⟨hj, hopen⟩, rfl⟩
      rw [← hefd, hfd, Option.some.injEq] at hstored
      exact .inr ⟨hstored, hwrite⟩
    · exact .inl ⟨e', he', hefd, hwrite⟩

/-- Handlers and goroutines. -/
theorem uses (h : Covered l j) (hu : Uses l l') : Covered l' j := by
  cases hu with
  | none => exact h
  | append w id p =>
    by_cases hne : j = id
    · subst hne
      exact .inr (.inr (.inl ⟨(w, j), List.mem_cons_self, rfl⟩))
    · refine (h.setConn _ hne).congr _ rfl rfl rfl (fun q hq _ => ?_) (fun hq => hq)
        (fun _ => rfl) rfl
      exact List.mem_cons_of_mem _ hq
  | flushClosed w id hclosed =>
    by_cases hne : j = id
    · exact .inl (hne ▸ hclosed)
    · exact h.flushed w hne
  | flush w id =>
    by_cases hne : j = id
    · subst hne
      exact .inr (.inr (.inr (.inl List.mem_cons_self)))
    · exact (h.flushed w hne).congr _ rfl rfl rfl (fun _ hp _ => hp)
        (fun hq => List.mem_cons_of_mem _ hq) (fun _ => rfl) rfl
  | trigger fd =>
    exact h.congr _ rfl rfl rfl (fun _ hp _ => hp) (fun hq => List.mem_cons_of_mem _ hq)
      (fun _ => rfl) rfl
  | upgrade id hid => exact h.setWs (some false)
  | wsClose id => exact h.setWs _

end Covered

/-! ### Runs -/

/-- A close takes the registration of the connection away. -/
theorem unwatched_close (h : (l.conns id).closed = true → l.poll.interest (l.conns id).fd = none) :
    (l.closeConnWithError id).poll.interest ((l.closeConnWithError id).conns id).fd = none := by
  cases hclosed : (l.conns id).closed with
  | true =>
    rw [closeConnWithError_of_closed hclosed]
    exact h hclosed
  | false =>
    rw [closeConnWithError_of_open hclosed]
    simp

/-- Outside the callback of a connection there is nothing to say. -/
theorem unwatched_of_none (h : conn? l.loop = none) : Unwatched l := fun id hid => by
  rw [h] at hid
  cases hid

/-- A closed connection in the callback stays unregistered. -/
theorem step_unwatched (hb : Balanced cfg l ids) (h : Unwatched l) (hs : step cfg l a = some l') :
    Unwatched l' := by
  -- the callback is still at the connection `id`, which has not changed
  have hstay : ∀ {id stage ev todo}, l.loop = .serving id stage ev todo →
      (l.conns id).closed = true → l.poll.interest (l.conns id).fd = none :=
    fun hloop => h _ (by rw [hloop]; rfl)
  cases step_moves hs with
  | user op _ hu =>
    obtain ⟨hconns, -, hinterest, hloop⟩ := hu.same
    intro i hi hclosed
    rw [hinterest, (hconns i).2]
    exact h i (hloop ▸ hi) ((hconns i).1 ▸ hclosed)
  | wake evs hloop => exact unwatched_of_none rfl
  | die => exact unwatched_of_none rfl
  | rest _ todo => exact unwatched_of_none rfl
  | leak _ fd now e todo loop hloop he hfd hto =>
    rcases hto with ⟨-, rfl⟩ | ⟨-, rfl⟩ | ⟨-, rfl⟩ <;> exact unwatched_of_none rfl
  | accept _ fd now e todo hloop he hfd => exact unwatched_of_none rfl
  | touch _ id now e todo hloop he hfd =>
    intro i hi hclosed
    obtain rfl : id = i := Option.some.inj (conn?_dispatch.symm.trans hi)
    have hopen := ((hb.mem_iff id).1 ((hb.stored _ _).1 hfd).1).2
    simp [Listener.goto, attachConn, detach, hopen] at hclosed
  | pass _ id stage ev todo loop hloop hp =>
    intro i hi
    rw [hp.conn? hi]
    exact hstay hloop
  | close _ id stage ev todo loop hloop hc =>
    intro i hi _
    rw [hc.conn? hi]
    exact unwatched_close (hstay hloop)
  | writeNothing wr id ev todo hloop hout =>
    intro i hi
    obtain rfl : id = i := Option.some.inj hi
    exact hstay hloop
  | writeError text id ev todo hloop hout =>
    intro i hi _
    obtain rfl : id = i := Option.some.inj (conn?_resume.symm.trans hi)
    exact unwatched_close (l := (l.flushed none id).record (.write id)) (hstay hloop)
  | writePart wr id ev todo out hloop =>
    intro i hi hclosed
    obtain rfl : id = i := Option.some.inj hi
    simp only [Listener.goto, Listener.setConn, Function.update_self] at hclosed ⊢
    exact hstay hloop hclosed
  | writeAll wr id ev todo hloop =>
    intro i hi hclosed
    obtain rfl : id = i := Option.some.inj hi
    simp only [Listener.goto, Listener.setConn, Function.update_self] at hclosed ⊢
    exact hstay hloop hclosed
  | readClose rd id ev todo hloop =>
    intro i hi _
    obtain rfl : id = i := Option.some.inj (conn?_resume.symm.trans hi)
    exact unwatched_close (l := l.record (.read id)) (hstay hloop)
  | readData rd id ev todo hloop =>
    intro i hi
    obtain rfl : id = i := Option.some.inj hi
    exact hstay hloop
  | readAgain id ev todo hloop =>
    intro i hi
    obtain rfl : id = i := Option.some.inj hi
    exact hstay hloop
  | mod id k ev todo hloop hreg =>
    intro i hi hclosed
    obtain rfl : id = i := Option.some.inj (conn?_resume.symm.trans hi)
    exact absurd (hstay hloop hclosed) hreg
  | modPanic id k ev todo hloop hreg => exact unwatched_of_none rfl
  | tick now todo hloop => exact unwatched_of_none rfl
  | sweep id now todo hloop => exact unwatched_of_none rfl
  | cleanup fd id hloop hfd =>
    refine unwatched_of_none ?_
    rw [closeConnWithError_loop, hloop]
    rfl

/-- `ModRead` and `ModReadWrite`. -/
theorem covered_mod (hb : Balanced cfg l ids) (hw : id < l.made) (hun : Unwatched l) {k : Interest}
    (hloop : l.loop = .serving id (.mod k) ev todo)
    (hreg : l.poll.interest (l.conns id).fd ≠ none) (hj : j < l.made) (h : Covered l j) :
    Covered (Listener.goto { l.record (.mod id) with
      poll := { l.poll with
        interest := Function.update l.poll.interest (l.conns id).fd (some k) } }
      (resume id ev todo)) j := by
  by_cases hne : j = id
  · subst hne
    cases k with
    | readWrite =>
      exact .inr (.inr (.inr (.inr (.inr ⟨Function.update_self .., not_drops_resume⟩))))
    | read =>
      -- the write interest did not count in this stage
      rcases h with h | h | h | h | h | h
      · exact .inl h
      · exact .inr (.inl h)
      · exact .inr (.inr (.inl h))
      · exact .inr (.inr (.inr (.inl h)))
      · rw [hloop] at h
        have hpending : Pending (l.conns j).fd todo := by simpa [Owes] using h
        exact .inr (.inr (.inr (.inr (.inl (owes_resume.2 hpending)))))
      · rw [hloop] at h
        exact absurd ⟨rfl, .inr rfl⟩ h.2
  · have hopen : (l.conns id).closed = false := by
      refine Bool.eq_false_iff.2 fun hclosed => hreg (hun id ?_ hclosed)
      rw [hloop]
      rfl
    have h' : Covered { l.record (.mod id) with
        poll := { l.poll with
          interest := Function.update l.poll.interest (l.conns id).fd (some k) } } j := by
      refine h.congr _ rfl rfl rfl (fun _ hp _ => hp) (fun hq => hq) (fun hjopen => ?_) rfl
      refine Function.update_of_ne (fun he => hne ?_) _ _
      exact hb.fd_inj ((hb.mem_iff j).2 ⟨hj, hjopen⟩) ((hb.mem_iff id).2 ⟨hw, hopen⟩) he
    exact h'.move hloop (fun fd ho => owes_resume.2 ((owes_other hne).1 ho))
      fun hd => absurd hd not_drops_resume

/-- One step that meets the condition keeps every connection covered. -/
theorem step_covered (hb : Balanced cfg l ids) (hw : Within l.made ids l.loop) (hun : Unwatched l)
    (hcond : Calm l a) (h : ∀ j < l.made, Covered l j) (hs : step cfg l a = some l') :
    ∀ j < l'.made, Covered l' j := by
  intro j hj
  -- in the callback for another connection only the events of the round count
  have hother : ∀ {id stage stage'} {ev ev' : Flags} {todo : List PollEvent}, j ≠ id → ∀ fd,
      Owes fd j (.serving id stage ev todo) → Owes fd j (.serving id stage' ev' todo) :=
    fun hne fd ho => (owes_other hne).2 ((owes_other hne).1 ho)
  cases step_moves hs with
  | user op _ hu => exact (h j (hu.same.2.1 ▸ hj)).uses hu
  | wake evs hloop => exact (h j hj).wake evs hloop
  | die => exact (h j hj).goto (fun _ => trivial) fun hd => hd.elim
  | rest _ todo hr => exact (h j hj).rest hb hj hr
  | leak _ fd now e todo loop hloop he hfd hto =>
    rcases hto with ⟨-, rfl⟩ | ⟨-, rfl⟩ | ⟨-, rfl⟩
    · have hrest := (h j hj).rest hb hj (.accept e hloop he)
      exact hrest
    all_goals exact (h j hj).goto (fun _ => trivial) fun hd => hd.elim
  | accept _ fd now e todo hloop he hfd =>
    rcases Nat.lt_succ_iff_lt_or_eq.1 hj with hj | rfl
    · have hrest := (h j hj).rest hb hj (.accept e hloop he)
      have hnew : Covered ((l.goto (.between todo)).newConn fd now) j :=
        Covered.newConn (l := l.goto (.between todo)) hb hj hrest now hfd
      exact hnew.move rfl (fun _ ho => ho) fun hd => hd
    · exact .inr (.inl (by simp [Listener.goto, Listener.newConn, attachConn]))
  | touch _ id now e todo hloop he hfd => exact (h j hj).touch hb hj now hloop hfd
  | pass _ id stage ev todo loop hloop hp =>
    exact (h j hj).move hloop (fun _ ho => hp.owes ho) hp.drops
  | close _ id stage ev todo loop hloop hc =>
    rw [hloop] at hw
    have hj : j < l.made := closeConnWithError_made l id ▸ hj
    exact ((h j hj).closeConnWithError hb hw hj).move ((closeConnWithError_loop l id).trans hloop)
      (fun _ ho => hc.owes ho) fun hd => absurd hd hc.not_drops
  | writeNothing wr id ev todo hloop hout =>
    by_cases hne : j = id
    · exact .inr (.inl (hne ▸ hout))
    · exact ((h j hj).flushed none hne).move hloop (hother hne) fun hd =>
        absurd hd (not_drops_other hne)
  | writeError text id ev todo hloop hout =>
    rw [hloop] at hw
    have hj : j < l.made := closeConnWithError_made ((l.flushed none id).record (.write id)) id ▸ hj
    by_cases hne : j = id
    · exact .inl (hne ▸ closeConnWithError_closed _ id)
    · have hclose : Covered (((l.flushed none id).record (.write id)).closeConnWithError id) j :=
        Covered.closeConnWithError (l := (l.flushed none id).record (.write id))
          (Books.record hb hw rfl) hw hj ((h j hj).flushed none hne)
      exact hclose.move ((closeConnWithError_loop _ id).trans hloop)
        (fun _ ho => owes_resume.2 ((owes_other hne).1 ho)) fun hd => absurd hd not_drops_resume
  | writePart wr id ev todo out hloop =>
    by_cases hne : j = id
    · exact .inr (.inr (.inr (.inr (.inl (.inl ⟨hne.symm, .inr rfl⟩)))))
    · exact (((h j hj).flushed none hne).setConn _ hne).move hloop (hother hne) fun hd =>
        absurd hd (not_drops_other hne)
  | writeAll wr id ev todo hloop =>
    by_cases hne : j = id
    · subst hne
      exact .inr (.inl (by simp [Listener.goto, Listener.setConn]))
    · exact (((h j hj).flushed none hne).setConn _ hne).move hloop (hother hne) fun hd =>
        absurd hd (not_drops_other hne)
  | readClose rd id ev todo hloop =>
    rw [hloop] at hw
    have hj : j < l.made := closeConnWithError_made (l.record (.read id)) id ▸ hj
    have hclose : Covered ((l.record (.read id)).closeConnWithError id) j :=
      Covered.closeConnWithError (l := l.record (.read id)) (Books.record hb hw rfl) hw hj (h j hj)
    exact hclose.move ((closeConnWithError_loop _ id).trans hloop)
      (fun _ ho => owes_resume.2 (by simpa [Owes] using ho)) fun hd => absurd hd not_drops_resume
  | readData rd id ev todo hloop =>
    exact Covered.move (l := l.record (.read id)) (h j hj) hloop
      (fun _ ho => .inr (by simpa [Owes] using ho)) fun hd => by simp [Drops] at hd
  | readAgain id ev todo hloop =>
    by_cases hne : j = id
    · subst hne
      -- `ModRead` follows, whatever the output is: here the condition is what covers it
      have hat : againAt l (.read .again) = some (j, todo) := by simp [againAt, hloop]
      rcases hcond _ hat with hc | hc | hc | hc
      · exact .inr (.inl hc)
      · exact .inr (.inr (.inl hc))
      · exact .inr (.inr (.inr (.inl hc)))
      · exact .inr (.inr (.inr (.inr (.inl (.inr hc)))))
    · exact Covered.move (l := l.record (.read id)) (h j hj) hloop (hother hne) fun hd =>
        absurd hd (not_drops_other hne)
  | mod id k ev todo hloop hreg =>
    rw [hloop] at hw
    exact covered_mod hb hw hun hloop hreg hj (h j hj)
  | modPanic id k ev todo hloop hreg => exact (h j hj).goto (fun _ => trivial) fun hd => hd.elim
  | tick now todo hloop => exact (h j hj).move hloop (fun _ ho => ho) fun hd => hd
  | sweep id now todo hloop =>
    have hj : j < l.made := closeConnWithError_made l id ▸ hj
    have hid : id < l.made := ((hb.mem_iff id).1 (mem_of_within (hloop ▸ hw))).1
    exact ((h j hj).closeConnWithError hb hid hj).move ((closeConnWithError_loop l id).trans hloop)
      (fun _ ho => ho) fun hd => hd
  | cleanup fd id hloop hfd =>
    have hj : j < l.made := closeConnWithError_made l id ▸ hj
    have hid := ((hb.mem_iff id).1 ((hb.stored _ _).1 hfd).1).1
    exact (h j hj).closeConnWithError hb hid hj

/-- **No stalled output.**  In every run that meets the condition, when the event loop is about to
    wait, an open connection with output, whose writers have all flushed, is registered for
    `EPOLLOUT` or its descriptor is in the queue of `Trigger`. -/
theorem output_awaited (cfg : Config) (as : List Act) (l : Listener)
    (hm : Meets (step cfg) Calm (init cfg) as) (hr : run (step cfg) (init cfg) as = some l)
    (hloop : l.loop = .between []) (id : ℕ) (hid : id < l.made)
    (hopen : (l.conns id).closed = false) (hout : (l.conns id).out ≠ [])
    (hflushed : ∀ p ∈ l.dirty, p.2 ≠ id) :
    l.poll.interest (l.conns id).fd = some .readWrite ∨ (l.conns id).fd ∈ l.poll.writesFd := by
  have hinv : (∃ ids, Balanced cfg l ids ∧ Within l.made ids l.loop) ∧ Unwatched l ∧
      ∀ j < l.made, Covered l j := by
    refine run_invariant (P := fun l => (∃ ids, Balanced cfg l ids ∧ Within l.made ids l.loop) ∧
      Unwatched l ∧ ∀ j < l.made, Covered l j) (fun s a s' h hcond hs => ?_) ?_ hm hr
    · obtain ⟨⟨ids, hb, hw⟩, hun, hcov⟩ := h
      exact ⟨step_books ⟨ids, hb, hw⟩ hs, step_unwatched hb hun hs,
        step_covered hb hw hun hcond hcov hs⟩
    · exact ⟨⟨[], .init, trivial⟩, unwatched_of_none rfl, fun j hj => absurd hj (Nat.not_lt_zero j)⟩
  rcases hinv.2.2 id hid with h | h | ⟨p, hp, hpid⟩ | h | h | h
  · rw [hopen] at h
    cases h
  · exact absurd h hout
  · exact absurd hpid (hflushed p hp)
  · exact .inr h
  · rw [hloop] at h
    obtain ⟨e, he, -⟩ := h
    cases he
  · exact .inl h.1

/-- The handler of a request on the descriptor 7 writes two bytes, and the socket takes one. -/
def halfWritten : List Act :=
  [.wake [⟨3, { read := true }⟩], .callback 0 (.ok 7), .tick 0, .wake [⟨7, { read := true }⟩],
    .callback 0 .none, .read (.data [1]), .parse .complete, .user (.append none 0 [1, 2]),
    .handled .done, .finish, .write (.ok 1), .mod, .eof, .tick 0]

/-- While the event loop is at the next read, which says `EAGAIN`, a goroutine writes and
    flushes. -/
def flushedMeanwhile : List Act :=
  halfWritten ++ [.wake [⟨7, { read := true }⟩], .callback 0 .none,
    .user (.append (some 5) 0 [3]), .user (.flush (some 5) 0), .read .again, .mod, .eof, .tick 0]

/-- In that run `ModRead` takes the write interest away after the flush, and the output is awaited
    all the same: the flush has put the descriptor into `writesFd`. -/
theorem output_awaited_flushed :
    Meets (step ⟨3, 0⟩) Calm (init ⟨3, 0⟩) flushedMeanwhile ∧
    ∃ l, run (step ⟨3, 0⟩) (init ⟨3, 0⟩) flushedMeanwhile = some l ∧ l.loop = .between [] ∧
      0 < l.made ∧ (l.conns 0).closed = false ∧ (l.conns 0).out ≠ [] ∧ (∀ p ∈ l.dirty, p.2 ≠ 0) ∧
      (l.poll.interest (l.conns 0).fd = some .readWrite ∨ (l.conns 0).fd ∈ l.poll.writesFd) := by
  have hm : Meets (step ⟨3, 0⟩) Calm (init ⟨3, 0⟩) flushedMeanwhile := by decide +kernel
  have hrun : ∃ l ∈ run (step ⟨3, 0⟩) (init ⟨3, 0⟩) flushedMeanwhile, l.loop = .between [] ∧
      0 < l.made ∧ (l.conns 0).closed = false ∧ (l.conns 0).out ≠ [] ∧
      ∀ p ∈ l.dirty, p.2 ≠ 0 := by
    decide +kernel
  obtain ⟨l, hl, hloop, hmade, hopen, hout, hdirty⟩ := hrun
  exact ⟨hm, l, hl, hloop, hmade, hopen, hout, hdirty,
    output_awaited ⟨3, 0⟩ flushedMeanwhile l hm hl hloop 0 hmade hopen hout hdirty⟩

/-- With one byte of output left, a read says `EAGAIN`: the event loop waits, and nobody will write
    that byte. -/
theorem stalled_output : ∃ l, run (step ⟨3, 0⟩) (init ⟨3, 0⟩) (halfWritten ++
      [.wake [⟨7, { read := true }⟩], .callback 0 .none, .read .again, .mod, .eof, .tick 0])
        = some l ∧
    l.loop = .between [] ∧ 0 < l.made ∧ (l.conns 0).closed = false ∧ (l.conns 0).out = [2] ∧
    l.dirty = [] ∧ l.poll.interest (l.conns 0).fd = some .read ∧ l.poll.writesFd = [] := by
  have hrun : ∃ l ∈ run (step ⟨3, 0⟩) (init ⟨3, 0⟩) (halfWritten ++
        [.wake [⟨7, { read := true }⟩], .callback 0 .none, .read .again, .mod, .eof, .tick 0]),
      l.loop = .between [] ∧ 0 < l.made ∧ (l.conns 0).closed = false ∧ (l.conns 0).out = [2] ∧
      l.dirty = [] ∧ l.poll.interest (l.conns 0).fd = some .read ∧ l.poll.writesFd = [] := by
    decide +kernel
  exact hrun

end Resh.Server.Listener
