import Resh.Server.Effects
import Resh.Server.ListenerMoves
import Resh.Simulation

namespace Resh.Server.Listener

open Resh.Go

/-!
# The connections of the listener

`Resh.Server.Conn` has the functions of the event loop for one connection, with its buffers and its
lock; the listener has them cut into steps, with the bookkeeping.

* `Views`, `Shown` — a socket of the listener shows a connection, and is registered while it is
  open;
* `Apart` — nothing of the other connections has changed;
* `Reaches` — some steps bring the event loop to a place, and the listener shows a connection then;
* `mod_reaches`, `close_reaches`, `sent_reaches` — the steps that several functions share.
-/

/-- The socket shows the output, the flag `closed` and the websocket of the connection. -/
def Views (s : Socket) (c : Conn) : Prop :=
  s.out = c.out ∧ s.closed = c.closed ∧ s.ws = c.ws.map (·.closed)

variable {cfg : Config} {l l' : Listener} {id : ℕ} {c c' : Conn}
  {ev : Flags} {todo : List PollEvent} {loop : Loop} {as : List Act}

/-- A close of the listener is a close of the connection. -/
theorem views_close (hv : Views (l.conns id) c) (errType : Bytes) (err : Option Cause) :
    Views ((l.closeConnWithError id).conns id) (c.closeConnWithError errType err) := by
  obtain ⟨hout, hclosed, hws⟩ := hv
  cases hc : (l.conns id).closed with
  | true =>
    rw [closeConnWithError_of_closed hc, Conn.closeConnWithError.eq_def, if_pos (hclosed ▸ hc)]
    exact ⟨hout, hclosed, hws⟩
  | false =>
    rw [closeConnWithError_of_open hc, Conn.closeConnWithError.eq_def,
      if_neg (by rw [← hclosed, hc]; exact Bool.false_ne_true)]
    simp only [Function.update_self]
    exact ⟨hout, rfl, hws⟩

/-! ### What the listener shows -/

/-- Both look at the flag `closed` of the websocket. -/
theorem Views.flag {s : Socket} (h : Views s c) :
    s.ws = some true ↔ c.ws.any (·.closed) = true := by
  rw [h.2.2]
  cases c.ws <;> simp

/-- The listener shows the connection, which is registered with the poller while it is open. -/
structure Shown (l : Listener) (id : ℕ) (c : Conn) : Prop where
  made : id < l.made
  views : Views (l.conns id) c
  registered : c.closed = false → l.poll.interest (l.conns id).fd ≠ none

/-- Nothing has changed but the connection and what belongs to it. -/
structure Apart (id : ℕ) (l l' : Listener) : Prop where
  made : l'.made = l.made
  others : ∀ j, j ≠ id → l'.conns j = l.conns j
  fd : (l'.conns id).fd = (l.conns id).fd
  interest : ∀ fd, fd ≠ (l.conns id).fd → l'.poll.interest fd = l.poll.interest fd

namespace Apart

/-- A listener differs from itself in no connection. -/
theorem refl (id : ℕ) (l : Listener) : Apart id l l := ⟨rfl, fun _ _ => rfl, rfl, fun _ _ => rfl⟩

/-- Two changes of one connection, one after the other, are a change of this connection. -/
theorem trans {l'' : Listener} (h : Apart id l l') (h' : Apart id l' l'') : Apart id l l'' := by
  refine ⟨h'.made.trans h.made, fun j hj => (h'.others j hj).trans
    (h.others j hj), h'.fd.trans h.fd, fun fd hfd => ?_⟩
  rw [h'.interest fd (by rw [h.fd]; exact hfd), h.interest fd hfd]

/-- A step that leaves the connections and the registrations. -/
theorem same (hmade : l'.made = l.made) (hconns : l'.conns = l.conns)
    (hinterest : l'.poll.interest = l.poll.interest) : Apart id l l' :=
  ⟨hmade, fun j _ => by rw [hconns], by rw [hconns], fun fd _ => by rw [hinterest]⟩

/-- A step that changes the connection, but not its descriptor. -/
theorem update {s : Socket} (hmade : l'.made = l.made)
    (hconns : l'.conns = Function.update l.conns id s)
    (hfd : s.fd = (l.conns id).fd) (hinterest : l'.poll.interest = l.poll.interest) :
    Apart id l l' := by
  refine ⟨hmade, fun j hj => ?_, ?_, fun fd _ => by rw [hinterest]⟩
  · rw [hconns, Function.update_of_ne hj]
  · rw [hconns, Function.update_self, hfd]

/-- A close changes its connection, and the registration of its descriptor. -/
theorem close (id : ℕ) (l : Listener) : Apart id l (l.closeConnWithError id) := by
  cases hclosed : (l.conns id).closed with
  | true =>
    rw [closeConnWithError_of_closed hclosed]
    exact refl id l
  | false =>
    rw [closeConnWithError_of_open hclosed]
    refine ⟨rfl, fun j hj => Function.update_of_ne hj .., ?_,
      fun fd hfd => Function.update_of_ne hfd ..⟩
    show (Function.update l.conns id { l.conns id with closed := true } id).fd = (l.conns id).fd
    rw [Function.update_self]

end Apart

/-- A connection is still shown if neither its socket nor the registrations have changed. -/
theorem Shown.same (h : Shown l id c) (hmade : l'.made = l.made) (hconns : l'.conns id = l.conns id)
    (hinterest : l'.poll.interest = l.poll.interest) : Shown l' id c := by
  refine ⟨hmade ▸ h.made, hconns ▸ h.views, fun hopen => ?_⟩
  rw [hconns, hinterest]
  exact h.registered hopen

/-- A close is shown on both sides: the connection is closed, and needs no registration. -/
theorem Shown.close (h : Shown l id c) (errType : Bytes) (err : Option Cause) :
    Shown (l.closeConnWithError id) id (c.closeConnWithError errType err) := by
  have hviews := views_close h.views errType err
  refine ⟨by rw [closeConnWithError_made]; exact h.made, hviews, fun hopen => ?_⟩
  rw [← hviews.2.1, closeConnWithError_closed] at hopen
  cases hopen

/-- The connection changes its output or its websocket. -/
theorem Shown.update (h : Shown l id c) {s : Socket} (hmade : l'.made = l.made)
    (hconns : l'.conns = Function.update l.conns id s)
    (hinterest : l'.poll.interest = l.poll.interest)
    (hfd : s.fd = (l.conns id).fd) (hviews : Views s c') (hclosed : c'.closed = c.closed) :
    Shown l' id c' := by
  have hself : l'.conns id = s := by rw [hconns, Function.update_self]
  refine ⟨hmade ▸ h.made, hself ▸ hviews, fun hopen => ?_⟩
  rw [hself, hinterest, hfd]
  exact h.registered (hclosed ▸ hopen)

/-- With these steps the event loop gets to `loop`, and the listener shows `c` then. -/
def Reaches (cfg : Config) (id : ℕ) (l : Listener) (as : List Act) (loop : Loop) (c : Conn) :
    Prop :=
  ∃ l', run (step cfg) l as = some l' ∧ l'.loop = loop ∧ Shown l' id c ∧ Apart id l l'

namespace Reaches

/-- No step is needed where the loop already is. -/
theorem nil (hloop : l.loop = loop) (h : Shown l id c) : Reaches cfg id l [] loop c :=
  ⟨l, rfl, hloop, h, .refl id l⟩

/-- One step, and the steps behind it. -/
theorem cons {a : Act} {l₁ : Listener} (hstep : step cfg l a = some l₁) (hapart : Apart id l l₁)
    (h : Reaches cfg id l₁ as loop c) : Reaches cfg id l (a :: as) loop c := by
  obtain ⟨l', hrun, hloop, hshown, hapart'⟩ := h
  refine ⟨l', ?_, hloop, hshown, hapart.trans hapart'⟩
  rw [run, hstep]
  exact hrun

/-- Steps one after the other: the second sequence starts from whatever listener the first one leads
    to, of which only the position and the connection are known. -/
theorem append {bs : List Act} {loop' : Loop} (h : Reaches cfg id l as loop c)
    (hthen : ∀ l', l'.loop = loop → Shown l' id c → Reaches cfg id l' bs loop' c') :
    Reaches cfg id l (as ++ bs) loop' c' := by
  obtain ⟨l₁, hrun, hloop, hshown, hapart⟩ := h
  obtain ⟨l', hrun', hloop', hshown', hapart'⟩ := hthen l₁ hloop hshown
  exact ⟨l', (run_append hrun).trans hrun', hloop', hshown', hapart.trans hapart'⟩

end Reaches

/-! ### The steps -/

/-- The event loop is in a callback. -/
theorem step_serving {stage : Stage} (hloop : l.loop = .serving id stage ev todo) (a : Act)
    (ha : ∀ op, a ≠ .user op) : step cfg l a = l.serve id ev todo stage a := by
  unfold step
  rw [hloop]
  cases a with
  | user op => exact absurd rfl (ha op)
  | _ => rfl

/-- What a handler or a goroutine does is a step of the listener at any position of the loop. -/
theorem step_user (op : UserOp) : step cfg l (.user op) = l.useConn op := rfl

/-- `ModRead` or `ModReadWrite` for an open connection. -/
theorem mod_reaches {i : Interest} (hloop : l.loop = .serving id (.mod i) ev todo)
    (h : Shown l id c)
    (hopen : c.closed = false) : Reaches cfg id l [.mod] (resume id ev todo) c := by
  obtain ⟨k, hk⟩ := Option.ne_none_iff_exists'.mp (h.registered hopen)
  have hstep : step cfg l .mod = some ({ l.record (.mod id) with poll := { l.poll with
      interest := Function.update l.poll.interest (l.conns id).fd (some i) } }.goto
        (resume id ev todo)) := by
    rw [step_serving hloop .mod (fun _ => Act.noConfusion)]
    simp only [serve, modPoll, hk]
  refine .cons hstep ?_ (.nil rfl ⟨h.made, h.views, fun _ => ?_⟩)
  · exact ⟨rfl, fun _ _ => rfl, rfl, fun fd hfd => Function.update_of_ne hfd ..⟩
  · show Function.update l.poll.interest (l.conns id).fd (some i) (l.conns id).fd ≠ none
    rw [Function.update_self]
    exact Option.some_ne_none i

/-- A step that closes the connection. -/
theorem close_reaches {a : Act} {l₁ : Listener}
    (hstep : step cfg l a = some ((l₁.closeConnWithError id).goto loop))
    (hapart : Apart id l l₁) (h : Shown l₁ id c) (errType : Bytes) (err : Option Cause) :
    Reaches cfg id l [a] loop (c.closeConnWithError errType err) := by
  have hclosed := h.close errType err
  refine .cons hstep ?_ (.nil rfl (hclosed.same rfl rfl rfl))
  exact hapart.trans ((Apart.close id l₁).trans (.same rfl rfl rfl))

/-- Some output goes to the socket. -/
theorem sent_reaches {n : ℕ} {out : Bytes} {wr : WriteResult} (h : Shown l id c)
    (hstep : step cfg l (.write wr) = some ((((l.flushed none id).record (.write id)).setConn id
      { l.conns id with out := out }).goto loop)) (hout : out = c.out.drop n) :
    Reaches cfg id l [.write wr] loop (c.send n) := by
  obtain ⟨-, hclosed, hws⟩ := h.views
  refine .cons hstep (.update rfl rfl rfl rfl) (.nil rfl ?_)
  exact h.update rfl rfl rfl rfl ⟨hout, hclosed, hws⟩ rfl

end Resh.Server.Listener
