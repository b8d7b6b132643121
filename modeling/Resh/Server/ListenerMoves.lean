import Resh.Server.Listener

namespace Resh.Server.Listener

open Resh.Go

/-!
# What a step of the listener can do

`Moves cfg l a l'` lists what the action `a` can make of the listener `l`, with what is known of `l`
where it happens; `step_moves` says that a step is one of them.  The invariants of the listener are
proved from this list.
-/

variable {cfg : Config} {l l' : Listener} {a : Act}

/-! ### Closing -/

theorem closeConnWithError_of_closed {id : ℕ} (h : (l.conns id).closed = true) :
    l.closeConnWithError id = l := by
  rw [closeConnWithError, if_pos h]

theorem closeConnWithError_of_open {id : ℕ} (h : (l.conns id).closed = false) :
    l.closeConnWithError id = { l.detach id with
      conns := Function.update l.conns id { l.conns id with closed := true }
      count := l.count - 1
      fdconns := Function.update l.fdconns (l.conns id).fd none
      opened := Function.update l.opened (l.conns id).fd false
      poll := { l.poll with interest := Function.update l.poll.interest (l.conns id).fd none }
      log := l.log ++ closing (l.conns id).ws.isSome id } := by
  simp only [closeConnWithError, h, Bool.false_eq_true, if_false]

theorem closeConnWithError_closed (l : Listener) (id : ℕ) :
    ((l.closeConnWithError id).conns id).closed = true := by
  cases hclosed : (l.conns id).closed with
  | true => rwa [closeConnWithError_of_closed hclosed]
  | false =>
    rw [closeConnWithError_of_open hclosed]
    simp

theorem closeConnWithError_loop (l : Listener) (id : ℕ) :
    (l.closeConnWithError id).loop = l.loop := by
  unfold closeConnWithError
  simp only
  split <;> rfl

theorem closeConnWithError_made (l : Listener) (id : ℕ) :
    (l.closeConnWithError id).made = l.made := by
  unfold closeConnWithError
  simp only
  split <;> rfl

/-! ### Inversion -/

/-- The callback goes on from a stage and changes nothing. -/
inductive Passes (l : Listener) (id : ℕ) (ev : Flags) (todo : List PollEvent) : Stage → Loop → Prop
  | drained (h : (l.conns id).ws ≠ some true) :
    Passes l id ev todo .drained (.serving id (.mod .read) ev todo)
  | more : Passes l id ev todo .parse (resume id ev todo)
  | complete : Passes l id ev todo .parse (.serving id .handler ev todo)
  | again : Passes l id ev todo .handler (.serving id .parse ev todo)
  | done : Passes l id ev todo .handler (.serving id .finish ev todo)
  | finish (h : (l.conns id).out = []) : Passes l id ev todo .finish (resume id ev todo)
  | output : Passes l id ev todo .finish (.serving id .write ev todo)
  | eof : Passes l id ev todo .eof (.tick todo)

/-- The callback closes the connection in a stage and goes on. -/
inductive Closes (l : Listener) (id : ℕ) (ev : Flags) (todo : List PollEvent) :
    Stage → Act → Loop → Prop
  | drained (h : (l.conns id).ws = some true) :
    Closes l id ev todo .drained .drained (resume id ev todo)
  | parse (res : ParseResult) : Closes l id ev todo .parse (.parse res) (resume id ev todo)
  | handler : Closes l id ev todo .handler (.handled .close) (resume id ev todo)
  | eof : Closes l id ev todo .eof .eof (.tick todo)

/-- What a handler or goroutine does. -/
inductive Uses (l : Listener) : Listener → Prop
  | none : Uses l l
  | append (w : Option ℕ) (id : ℕ) (p : Bytes) : Uses l (l.append w id p)
  | flushClosed (w : Option ℕ) (id : ℕ) (h : (l.conns id).closed = true) : Uses l (l.flushed w id)
  | flush (w : Option ℕ) (id : ℕ) : Uses l ((l.flushed w id).trigger (l.conns id).fd)
  | trigger (fd : ℕ) : Uses l (l.trigger fd)
  | upgrade (id : ℕ) (hid : id < l.made) :
    Uses l ((l.setConn id { l.conns id with ws := some false }).record (.upgrade id))
  | wsClose (id : ℕ) :
    Uses l (l.setConn id { l.conns id with ws := (l.conns id).ws.map fun _ => true })

/-- The callback is over, or there was nothing to do in it. -/
inductive Rests (cfg : Config) (l : Listener) (todo : List PollEvent) : Prop
  | accept (e : PollEvent) (hloop : l.loop = .between (e :: todo)) (hfd : e.fd = cfg.fd)
  | lookup (e : PollEvent) (hloop : l.loop = .between (e :: todo)) (hfd : l.fdconns e.fd = none)
  | tick (hloop : l.loop = .tick todo)
  | sweep (conn : Ptr) (now : ℤ) (hloop : l.loop = .sweep conn now todo)

/-- What an action can make of a listener. -/
inductive Moves (cfg : Config) (l : Listener) : Act → Listener → Prop
  | user (op : UserOp) (l' : Listener) (h : Uses l l') : Moves cfg l (.user op) l'
  | wake (evs : List PollEvent) (hloop : l.loop = .between []) :
    Moves cfg l (.wake evs) (goto { l with poll := { l.poll with writesFd := [] } }
      (.between (l.poll.writesFd.map (fun fd => ⟨fd, { write := true }⟩) ++ evs)))
  | die (a : Act) : Moves cfg l a (l.goto .dead)
  | rest (a : Act) (todo : List PollEvent) (h : Rests cfg l todo) :
    Moves cfg l a (l.goto (.between todo))
  | leak (acc : AcceptResult) (fd : ℕ) (now : ℤ) (e : PollEvent)
      (todo : List PollEvent) (loop : Loop)
    (hloop : l.loop = .between (e :: todo)) (he : e.fd = cfg.fd) (hfd : l.opened fd = false)
    (hto : acc = .setupError fd ∧ loop = .between todo ∨ acc = .addReadError fd ∧ loop = .dead ∨
      l.poll.interest fd ≠ none ∧ loop = .dead) :
    Moves cfg l (.callback now acc) ((l.leak fd).goto loop)
  | accept (acc : AcceptResult) (fd : ℕ) (now : ℤ) (e : PollEvent) (todo : List PollEvent)
    (hloop : l.loop = .between (e :: todo)) (he : e.fd = cfg.fd) (hfd : l.opened fd = false) :
    Moves cfg l (.callback now acc) ((l.newConn fd now).goto (.tick todo))
  | touch (acc : AcceptResult) (id : ℕ) (now : ℤ) (e : PollEvent) (todo : List PollEvent)
    (hloop : l.loop = .between (e :: todo)) (he : e.fd ≠ cfg.fd) (hfd : l.fdconns e.fd = some id) :
    Moves cfg l (.callback now acc) (((l.detach id).attachConn id now).goto (dispatch id e.ev todo))
  | pass (a : Act) (id : ℕ) (stage : Stage) (ev : Flags) (todo : List PollEvent) (loop : Loop)
    (hloop : l.loop = .serving id stage ev todo) (h : Passes l id ev todo stage loop) :
    Moves cfg l a (l.goto loop)
  | close (a : Act) (id : ℕ) (stage : Stage) (ev : Flags) (todo : List PollEvent) (loop : Loop)
    (hloop : l.loop = .serving id stage ev todo) (h : Closes l id ev todo stage a loop) :
    Moves cfg l a ((l.closeConnWithError id).goto loop)
  | writeNothing (wr : WriteResult) (id : ℕ) (ev : Flags) (todo : List PollEvent)
    (hloop : l.loop = .serving id .write ev todo) (hout : (l.conns id).out = []) :
    Moves cfg l (.write wr) ((l.flushed none id).goto (.serving id (.mod .read) ev todo))
  | writeError (text : Bytes) (id : ℕ) (ev : Flags) (todo : List PollEvent)
    (hloop : l.loop = .serving id .write ev todo) (hout : (l.conns id).out ≠ []) :
    Moves cfg l (.write (.error text))
      ((((l.flushed none id).record (.write id)).closeConnWithError id).goto (resume id ev todo))
  | writePart (wr : WriteResult) (id : ℕ) (ev : Flags) (todo : List PollEvent) (out : Bytes)
    (hloop : l.loop = .serving id .write ev todo) :
    Moves cfg l (.write wr)
      ((((l.flushed none id).record (.write id)).setConn id { l.conns id with out := out }).goto
        (.serving id (.mod .readWrite) ev todo))
  | writeAll (wr : WriteResult) (id : ℕ) (ev : Flags) (todo : List PollEvent)
    (hloop : l.loop = .serving id .write ev todo) :
    Moves cfg l (.write wr)
      ((((l.flushed none id).record (.write id)).setConn id { l.conns id with out := [] }).goto
        (.serving id .drained ev todo))
  | readClose (rd : ReadResult) (id : ℕ) (ev : Flags) (todo : List PollEvent)
    (hloop : l.loop = .serving id .read ev todo) :
    Moves cfg l (.read rd) (((l.record (.read id)).closeConnWithError id).goto (resume id ev todo))
  | readData (rd : ReadResult) (id : ℕ) (ev : Flags) (todo : List PollEvent)
    (hloop : l.loop = .serving id .read ev todo) :
    Moves cfg l (.read rd) ((l.record (.read id)).goto (.serving id .parse ev todo))
  | readAgain (id : ℕ) (ev : Flags) (todo : List PollEvent)
    (hloop : l.loop = .serving id .read ev todo) :
    Moves cfg l (.read .again) ((l.record (.read id)).goto (.serving id (.mod .read) ev todo))
  | mod (id : ℕ) (i : Interest) (ev : Flags) (todo : List PollEvent)
    (hloop : l.loop = .serving id (.mod i) ev todo)
    (hreg : l.poll.interest (l.conns id).fd ≠ none) :
    Moves cfg l .mod (goto { l.record (.mod id) with
      poll := { l.poll with
        interest := Function.update l.poll.interest (l.conns id).fd (some i) } }
          (resume id ev todo))
  | modPanic (id : ℕ) (i : Interest) (ev : Flags) (todo : List PollEvent)
    (hloop : l.loop = .serving id (.mod i) ev todo)
    (hreg : l.poll.interest (l.conns id).fd = none) :
    Moves cfg l .mod ((l.record (.mod id)).goto .dead)
  | tick (now : ℤ) (todo : List PollEvent) (hloop : l.loop = .tick todo) :
    Moves cfg l (.tick now) (l.goto (.sweep (l.prev .tail) now todo))
  | sweep (id : ℕ) (now : ℤ) (todo : List PollEvent) (hloop : l.loop = .sweep (.conn id) now todo) :
    Moves cfg l .sweep ((l.closeConnWithError id).goto
      (.sweep ((l.closeConnWithError id).prev (.conn id)) now todo))
  | cleanup (fd id : ℕ) (hloop : l.loop = .dead) (hfd : l.fdconns fd = some id) :
    Moves cfg l (.cleanup fd) (l.closeConnWithError id)

/-- Handlers and goroutines. -/
theorem useConn_uses {op : UserOp} (h : l.useConn op = some l') : Uses l l' := by
  cases op with
  | write w id p =>
    rw [useConn] at h
    split at h
    · cases h
      split
      · exact .none
      · exact .append w id p
    · cases h
  | append w id p =>
    rw [useConn] at h
    split at h
    · cases h
      exact .append w id p
    · cases h
  | flush w id =>
    rw [useConn] at h
    split at h
    · cases h
      split
      · rename_i hclosed
        exact .flushClosed w id hclosed
      · exact .flush w id
    · cases h
  | trigger fd =>
    cases h
    exact .trigger fd
  | upgrade id =>
    rw [useConn] at h
    split at h
    · rename_i hid
      cases h
      exact .upgrade id hid
    · cases h
  | wsClose id =>
    rw [useConn] at h
    split at h
    · cases h
      exact .wsClose id
    · cases h

/-- What handlers and goroutines leave alone. -/
theorem Uses.same (h : Uses l l') :
    (∀ i, (l'.conns i).closed = (l.conns i).closed ∧ (l'.conns i).fd = (l.conns i).fd) ∧
      l'.made = l.made ∧ l'.poll.interest = l.poll.interest ∧ l'.loop = l.loop := by
  have hset : ∀ (id : ℕ) (c : Socket), c.closed = (l.conns id).closed → c.fd = (l.conns id).fd →
      ∀ i, (Function.update l.conns id c i).closed = (l.conns i).closed ∧
        (Function.update l.conns id c i).fd = (l.conns i).fd := fun id c hclosed hfd i => by
    rw [Function.update_apply]
    split
    · rename_i hi
      rw [hi]
      exact ⟨hclosed, hfd⟩
    · exact ⟨rfl, rfl⟩
  cases h with
  | append w id p => exact ⟨hset id _ rfl rfl, rfl, rfl, rfl⟩
  | upgrade id hid => exact ⟨hset id _ rfl rfl, rfl, rfl, rfl⟩
  | wsClose id => exact ⟨hset id _ rfl rfl, rfl, rfl, rfl⟩
  | _ => exact ⟨fun _ => ⟨rfl, rfl⟩, rfl, rfl, rfl⟩

/-- The callback for `ln.fd`. -/
theorem acceptConn_moves {e : PollEvent} {todo : List PollEvent} {now : ℤ} {acc : AcceptResult}
    (hloop : l.loop = .between (e :: todo)) (he : e.fd = cfg.fd)
    (h : l.acceptConn todo now acc = some l') : Moves cfg l (.callback now acc) l' := by
  cases acc with
  | none =>
    cases h
    exact .rest _ todo (.accept e hloop he)
  | setupError fd =>
    rw [acceptConn] at h
    split at h
    · cases h
    · rename_i hfd
      cases h
      exact .leak _ fd now e todo _ hloop he (Bool.not_eq_true _ ▸ hfd) (.inl ⟨rfl, rfl⟩)
  | addReadError fd =>
    rw [acceptConn] at h
    split at h
    · cases h
    · rename_i hfd
      cases h
      exact .leak _ fd now e todo _ hloop he (Bool.not_eq_true _ ▸ hfd) (.inr (.inl ⟨rfl, rfl⟩))
  | ok fd =>
    rw [acceptConn] at h
    split at h
    · cases h
    · rename_i hfd
      have hclosed : l.opened fd = false := Bool.not_eq_true _ ▸ hfd
      split at h
      · rename_i hreg
        cases h
        exact .leak _ fd now e todo _ hloop he hclosed (.inr (.inr ⟨by simp [hreg], rfl⟩))
      · cases h
        exact .accept _ fd now e todo hloop he hclosed

/-- `writeConn`. -/
theorem writeConn_moves {id : ℕ} {ev : Flags} {todo : List PollEvent} (wr : WriteResult)
    (hloop : l.loop = .serving id .write ev todo) :
    Moves cfg l (.write wr) (l.writeConn id ev todo wr) := by
  unfold writeConn
  simp only
  split
  · rename_i hout
    exact .writeNothing wr id ev todo hloop hout
  · rename_i hout
    cases wr with
    | error text => exact .writeError text id ev todo hloop hout
    | again room => exact .writePart _ id ev todo _ hloop
    | ok room =>
      simp only
      split
      · exact .writeAll _ id ev todo hloop
      · exact .writePart _ id ev todo _ hloop

/-- The read call of `readConn`. -/
theorem readConn_moves {id : ℕ} {ev : Flags} {todo : List PollEvent} (rd : ReadResult)
    (hloop : l.loop = .serving id .read ev todo) :
    Moves cfg l (.read rd) (l.readConn id ev todo rd) := by
  cases rd with
  | data d =>
    cases d with
    | nil => exact .readClose _ id ev todo hloop
    | cons b d => exact .readData _ id ev todo hloop
  | again => exact .readAgain id ev todo hloop
  | error text => exact .readClose _ id ev todo hloop

/-- The callback in a stage. -/
theorem serve_moves {id : ℕ} {stage : Stage} {ev : Flags} {todo : List PollEvent}
    (hloop : l.loop = .serving id stage ev todo) (h : l.serve id ev todo stage a = some l') :
    Moves cfg l a l' := by
  -- one case for each stage, in the order of `serve`
  unfold serve at h
  split at h
  · rename_i wr
    cases h
    exact writeConn_moves wr hloop
  · split at h
    · rename_i hws
      cases h
      exact .close _ id .drained ev todo _ hloop (.drained hws)
    · rename_i hws
      cases h
      exact .pass _ id .drained ev todo _ hloop (.drained hws)
  · rename_i i
    -- `ModRead` and `ModReadWrite` panic on a descriptor that is not registered
    unfold modPoll at h
    cases hreg : l.poll.interest (l.conns id).fd with
    | none =>
      simp only [hreg] at h
      cases h
      exact .modPanic id i ev todo hloop hreg
    | some j =>
      simp only [hreg] at h
      cases h
      exact .mod id i ev todo hloop (by rw [hreg]; simp)
  · rename_i rd
    cases h
    exact readConn_moves rd hloop
  · rename_i res
    cases res with
    | oversize =>
      cases h
      exact .close _ id .parse ev todo _ hloop (.parse _)
    | more =>
      cases h
      exact .pass _ id .parse ev todo _ hloop .more
    | error =>
      rw [parseConn] at h
      split at h
      · cases h
        exact .close _ id .parse ev todo _ hloop (.parse _)
      · cases h
    | complete =>
      rw [parseConn] at h
      split at h
      · cases h
      · cases h
        exact .pass _ id .parse ev todo _ hloop .complete
  · cases h
    exact .close _ id .handler ev todo _ hloop .handler
  · cases h
    exact .pass _ id .handler ev todo _ hloop .again
  · cases h
    exact .pass _ id .handler ev todo _ hloop .done
  · split at h
    · rename_i hout
      cases h
      exact .pass _ id .finish ev todo _ hloop (.finish hout)
    · cases h
      exact .pass _ id .finish ev todo _ hloop .output
  · rw [Option.some.injEq] at h
    subst h
    split
    · exact .close _ id .eof ev todo _ hloop .eof
    · exact .pass _ id .eof ev todo _ hloop .eof
  · cases h

/-- One round of the loop over the list. -/
theorem sweepConn_moves {conn : Ptr} {now : ℤ} {todo : List PollEvent}
    (hloop : l.loop = .sweep conn now todo) :
    Moves cfg l .sweep (sweepConn cfg l now todo conn) := by
  cases conn with
  | nil => exact .rest _ todo (.sweep _ now hloop)
  | head => exact .rest _ todo (.sweep _ now hloop)
  | tail => exact .die _
  | conn id =>
    rw [sweepConn]
    split
    · exact .sweep id now todo hloop
    · exact .rest _ todo (.sweep _ now hloop)

/-- **Inversion.** -/
theorem step_moves (h : step cfg l a = some l') : Moves cfg l a l' := by
  unfold step at h
  split at h
  · exact .user _ l' (useConn_uses h)
  · rename_i evs hloop
    cases h
    exact .wake evs hloop
  · cases h
    exact .die _
  · rename_i now acc e todo hloop
    split at h
    · rename_i he
      exact acceptConn_moves hloop he h
    · rename_i he
      cases hfd : l.fdconns e.fd with
      | none =>
        simp only [hfd] at h
        cases h
        exact .rest _ todo (.lookup e hloop hfd)
      | some id =>
        simp only [hfd] at h
        cases h
        exact .touch _ id now e todo hloop he hfd
  · rename_i now todo hloop
    split at h
    · cases h
      exact .tick now todo hloop
    · cases h
      exact .rest _ todo (.tick hloop)
  · rename_i conn now todo hloop
    cases h
    exact sweepConn_moves hloop
  · rename_i fd hloop
    obtain ⟨id, hfd, rfl⟩ := Option.map_eq_some_iff.1 h
    exact .cleanup fd id hloop hfd
  · exact serve_moves ‹_› h
  · cases h

end Resh.Server.Listener
