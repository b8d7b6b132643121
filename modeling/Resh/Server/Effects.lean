import Resh.Server.Conn

namespace Resh.Server

open Resh.Go

/-!
# What the functions of a connection do

One lemma per function of `Resh.Server.Conn` that says everything it can do, so that the modules
behind this one never look into the functions again.

* `closeConnWithError_*` — what a close leaves alone;
* `Written`, `writeConn_written` — the outcomes of `writeConn`;
* `Handles`, `handles_of_onWebsocket`, `Handles.onWebsocket_eq` — the outcomes of `onWebsocket`;
* `turn_data` — a read of some bytes by a connection that is not upgraded.
-/

/-- A frame with a payload for the application: not a close, ping or pong. -/
def WsFrame.IsData (f : WsFrame) : Prop := f.opcode ≠ 8 ∧ f.opcode ≠ 9 ∧ f.opcode ≠ 10

/-- The first frame of a message. -/
def WsFrame.Starts (f : WsFrame) : Prop := f.IsData ∧ f.opcode ≠ 0

instance (f : WsFrame) : Decidable f.IsData := inferInstanceAs (Decidable (_ ∧ _ ∧ _))
instance (f : WsFrame) : Decidable f.Starts := inferInstanceAs (Decidable (_ ∧ _))

namespace Conn

variable {c c' : Conn}

/-! ### The lock and the input -/

/-- The lock is taken iff it is free. -/
theorem spinLock_eq_ok_iff {d : Conn} :
    c.spinLock = .ok d ↔ c.lock = false ∧ d = { c with lock := true } := by
  unfold spinLock
  cases hlock : c.lock with
  | true => simp
  | false => simp [eq_comm]

/-- A lock that is free is taken. -/
theorem spinLock_eq (h : c.lock = false) : c.spinLock = .ok { c with lock := true } :=
  spinLock_eq_ok_iff.mpr ⟨h, rfl⟩

/-- On an unlocked connection `Write` appends, unless the connection is closed. -/
theorem write_unlocked (hlock : c.lock = false) (p : Bytes) :
    c.write p = .ok { c with out := c.out ++ if c.closed then [] else p } := by
  obtain ⟨ws, srs, closed, lock, inp, out, sent, log⟩ := c
  subst hlock
  cases closed with
  | true => simp [write]
  | false => rfl

/-- A `Write` that returns has appended to the output and changed nothing else but the lock. -/
theorem write_frame {p : Bytes} (h : c.write p = .ok c') :
    c'.log = c.log ∧ c'.ws = c.ws ∧ c'.closed = c.closed ∧ c.out <+: c'.out := by
  unfold write at h
  split at h
  · cases h
    exact ⟨rfl, rfl, rfl, List.prefix_rfl⟩
  · cases hspin : c.spinLock with
    | error e => rw [hspin] at h; cases h
    | ok d =>
      obtain ⟨-, rfl⟩ := spinLock_eq_ok_iff.mp hspin
      rw [hspin] at h
      cases h
      exact ⟨rfl, rfl, rfl, List.prefix_append _ _⟩

/-- With a free lock and `sz` within the input, `TruncateInputBuffer` cuts the input and gives the
    lock back; `sz` outside would panic with the lock held. -/
theorem truncateInputBuffer_eq {sz : ℤ} {t : Bytes} (h : c.lock = false)
    (hs : slice? c.inp sz c.inp.length = some t) :
    c.truncateInputBuffer sz = .ok ({ c with inp := t, lock := false }, t.length) := by
  unfold truncateInputBuffer
  simp only [spinLock_eq h, bind, Except.bind, hs]
  rfl

/-! ### `closeConnWithError` -/

section Close

variable (c : Conn) (errType : Bytes) (err : Option Cause)

/-- A close does not touch the lock. -/
@[simp] theorem closeConnWithError_lock : (c.closeConnWithError errType err).lock = c.lock := by
  unfold closeConnWithError
  split <;> rfl

/-- A close does not touch the input. -/
@[simp] theorem closeConnWithError_inp : (c.closeConnWithError errType err).inp = c.inp := by
  unfold closeConnWithError
  split <;> rfl

/-- A close does not touch the output: what was not sent stays there, and is never sent. -/
@[simp] theorem closeConnWithError_out : (c.closeConnWithError errType err).out = c.out := by
  unfold closeConnWithError
  split <;> rfl

/-- A close sends nothing. -/
@[simp] theorem closeConnWithError_sent : (c.closeConnWithError errType err).sent = c.sent := by
  unfold closeConnWithError
  split <;> rfl

/-- Behind a close the connection is closed, whether or not it was before. -/
@[simp] theorem closeConnWithError_closed : (c.closeConnWithError errType err).closed = true := by
  unfold closeConnWithError
  split
  · assumption
  · rfl

end Close

/-! ### `writeConn` -/

/-- `n` bytes of the output have gone to the socket. -/
def send (c : Conn) (n : ℕ) : Conn :=
  { c with sent := c.sent ++ c.out.take n, out := c.out.drop n }

/-- Nothing is lost on the way to the socket. -/
theorem send_bytes (c : Conn) (n : ℕ) : (c.send n).sent ++ (c.send n).out = c.sent ++ c.out := by
  rw [send, List.append_assoc, List.take_append_drop]

/-- Without output there is nothing to send. -/
theorem send_of_out_eq_nil (hout : c.out = []) (n : ℕ) : c.send n = c := by
  obtain ⟨ws, srs, closed, lock, inp, out, sent, log⟩ := c
  subst hout
  simp [send]

/-- **What `writeConn` does** with the result of the write call: there is no output; the call fails,
    or takes a part and blocks; it takes less than all; or it takes all, and the connection is
    closed if the websocket was. -/
inductive Written (c : Conn) : WriteResult → Conn → Prop where
  | empty {wr : WriteResult} (hout : c.out = []) : Written c wr c
  | failed {text : Bytes} (hout : c.out ≠ []) :
      Written c (.error text) (c.closeConnWithError (ascii "write") (some (.io text)))
  | blocked {room : ℕ} (hout : c.out ≠ []) :
      Written c (.again room) (c.send (min room c.out.length))
  | short {room : ℕ} (hout : c.out ≠ []) (hroom : room < c.out.length) :
      Written c (.ok room) (c.send (min room c.out.length))
  | whole {room : ℕ} (hout : c.out ≠ []) (hroom : c.out.length ≤ room)
      (hws : c.ws.any (·.closed) = false) : Written c (.ok room) (c.send (min room c.out.length))
  | closing {room : ℕ} (hout : c.out ≠ []) (hroom : c.out.length ≤ room)
      (hws : c.ws.any (·.closed) = true) :
      Written c (.ok room) ((c.send (min room c.out.length)).closeConnWithError [] none)

/-- **`writeConn`** returns on an unlocked connection, with one of these outcomes. -/
theorem writeConn_written (hlock : c.lock = false) (wr : WriteResult) :
    ∃ c', c.writeConn wr = .ok c' ∧ c.Written wr c' := by
  -- the source gives the lock back on every path
  obtain ⟨ws, srs, closed, lock, inp, out, sent, log⟩ := c
  subst hlock
  unfold writeConn
  simp only [spinLock, Bool.false_eq_true, if_false, bind, Except.bind, List.length_eq_zero_iff]
  split
  · rename_i hnil
    exact ⟨_, rfl, .empty hnil⟩
  rename_i hne
  cases wr with
  | error text =>
    refine ⟨_, rfl, ?_⟩
    simp only [WriteResult.accepted, List.take_zero, List.append_nil]
    exact .failed hne
  | again room =>
    have hblocked := @Written.blocked ⟨ws, srs, closed, false, inp, out, sent, log⟩ room hne
    by_cases hpos : 0 < (WriteResult.again room).accepted out
    · simp only [if_pos hpos]
      exact ⟨_, rfl, hblocked⟩
    · -- a slice of which nothing was taken is left as it is
      have hzero : min room out.length = 0 := Nat.eq_zero_of_not_pos hpos
      simp only [if_neg hpos]
      simp only [send, hzero, List.take_zero, List.drop_zero] at hblocked
      simp only [WriteResult.accepted, hzero, List.take_zero]
      exact ⟨_, rfl, hblocked⟩
  | ok room =>
    simp only [WriteResult.accepted, min_eq_right_iff]
    split
    · rename_i hroom
      have hall : ({ ws, srs, closed, lock := false, inp, out, sent, log } : Conn).send
        (min room out.length)
          = { ws, srs, closed, lock := false, inp, out := [], sent := sent ++ out, log } := by
        simp only [send, Nat.min_eq_right hroom, List.take_length, List.drop_length]
      simp only [Nat.min_eq_right hroom, List.take_length, spinUnlock]
      split
      · rename_i hws
        exact ⟨_, rfl, hall ▸ .closing hne hroom hws⟩
      · rename_i hws
        exact ⟨_, rfl, hall ▸ .whole hne hroom (Bool.eq_false_iff.mpr hws)⟩
    · rename_i hroom
      exact ⟨_, rfl, .short hne (not_le.mp hroom)⟩

/-- A call of `writeConn` that returns has found the lock free and has had one of these outcomes. -/
theorem written_of_writeConn {wr : WriteResult} (h : c.writeConn wr = .ok c') :
    c.lock = false ∧ c.Written wr c' := by
  have hlock : c.lock = false := by
    cases hspin : c.spinLock with
    | error e => simp only [writeConn, hspin, bind, Except.bind] at h; cases h
    | ok d => exact (spinLock_eq_ok_iff.mp hspin).1
  obtain ⟨d, hd, hw⟩ := writeConn_written hlock wr
  rw [hd] at h
  cases h
  exact ⟨hlock, hw⟩

namespace Written

variable {wr : WriteResult}

/-- The lock and the input stay as they are. -/
theorem kept (h : c.Written wr c') : c'.lock = c.lock ∧ c'.inp = c.inp := by
  cases h with
  | empty => exact ⟨rfl, rfl⟩
  | failed => exact ⟨closeConnWithError_lock .., closeConnWithError_inp ..⟩
  | blocked => exact ⟨rfl, rfl⟩
  | short => exact ⟨rfl, rfl⟩
  | whole => exact ⟨rfl, rfl⟩
  | closing => exact ⟨closeConnWithError_lock .., closeConnWithError_inp ..⟩

/-- The output loses what the write call has accepted, and the socket gets it. -/
theorem accepted (h : c.Written wr c') : c'.sent = c.sent ++ c.out.take (wr.accepted c.out) ∧
    c'.out = c.out.drop (wr.accepted c.out) := by
  cases h with
  | empty hout => simp [hout]
  | failed => simp [WriteResult.accepted]
  | blocked => exact ⟨rfl, rfl⟩
  | short => exact ⟨rfl, rfl⟩
  | whole => exact ⟨rfl, rfl⟩
  | closing => exact ⟨closeConnWithError_sent .., closeConnWithError_out ..⟩

/-- A sound write leaves a connection open whose websocket is. -/
theorem eq_send (h : c.Written wr c') (hwr : wr.Sound) (hws : c.ws.any (·.closed) = false) :
    c' = c.send (wr.accepted c.out) := by
  cases h with
  | empty hout => rw [send_of_out_eq_nil hout]
  | failed => exact absurd hwr id
  | blocked => rfl
  | short => rfl
  | whole => rfl
  | closing _ _ hclosed => rw [hws] at hclosed; cases hclosed

end Written

/-! ### `onWebsocket` -/

section Frame

variable {env : Env} {H : Handlers} {ws : Websocket} {req : WsFrame} {go : Bool}

/-- `contFrame` of a websocket is replaced. -/
def withCont (c : Conn) (ws : Websocket) (cont : Option Bytes) : Conn :=
  { c with ws := some { ws with contFrame := cont } }

/-- **What `onWebsocket` does with a frame** on a connection with the websocket `ws`, and whether
    the connection goes on. -/
inductive Handles (env : Env) (H : Handlers) (c : Conn) (ws : Websocket) (req : WsFrame) :
    Conn → Bool → Prop where
  /-- a continuation without a message -/
  | unexpected (hop : req.opcode = 0) (hcont : ws.contFrame = none) : Handles env H c ws req
      (c.closeConnWithError (ascii "websocket") (some .unexpectedContinuation)) false
  | tooLarge {m : Bytes} (hop : req.opcode = 0) (hcont : ws.contFrame = some m)
      (hover : env.requestMaxBytes < (m ++ req.data).length) : Handles env H c ws req
      ((c.withCont ws (some (m ++ req.data))).closeConnWithError (ascii "websocket")
        (some .continuationTooLarge)) false
  | grows {m : Bytes} (hop : req.opcode = 0) (hcont : ws.contFrame = some m)
      (hfits : ¬ env.requestMaxBytes < (m ++ req.data).length) (hfin : req.fin = false) :
      Handles env H c ws req (c.withCont ws (some (m ++ req.data))) true
  | finishes {m : Bytes} {d : Conn} (hop : req.opcode = 0) (hcont : ws.contFrame = some m)
      (hfits : ¬ env.requestMaxBytes < (m ++ req.data).length) (hfin : req.fin = true)
      (hd : d = (c.withCont ws (some (m ++ req.data))).onWSData H (m ++ req.data)) :
      Handles env H c ws req
        { d with ws := d.ws.map fun ws => { ws with contFrame := none } } true
  | close (hop : req.opcode = 8) : Handles env H c ws req
      (({ c with ws := some { ws with closingData := req.data } } : Conn).closeConnWithError
        [] none) false
  | ping {d : Conn} (hop : req.opcode = 9)
      (hd : ({ c with log := c.log ++ [.pong req.data] } : Conn).wsWrite 10 req.data = .ok d) :
      Handles env H c ws req d true
  | pong (hop : req.opcode = 10) : Handles env H c ws req c true
  | message (hstarts : req.Starts) (hfin : req.fin = true) :
      Handles env H c ws req (c.onWSData H req.data) true
  | opens (hstarts : req.Starts) (hfin : req.fin = false) :
      Handles env H c ws req (c.withCont ws (some req.data)) true

/-- A frame that is handled is handled in one of these ways. -/
theorem handles_of_onWebsocket (h : c.onWebsocket env H req = .ok (c', go)) :
    ∃ ws, c.ws = some ws ∧ Handles env H c ws req c' go := by
  -- the branches in the order of the source: continuation, close, ping, pong, and a new message
  unfold onWebsocket at h
  split at h
  · cases h
  rename_i ws hws
  refine ⟨ws, hws, ?_⟩
  split at h
  · rename_i h0
    split at h
    · rename_i hnone
      cases h
      exact .unexpected h0 hnone
    · rename_i m hm
      simp only at h
      split at h
      · rename_i hover
        cases h
        exact .tooLarge h0 hm hover
      · rename_i hfits
        split at h
        · rename_i hfin
          cases h
          exact .finishes h0 hm hfits hfin rfl
        · rename_i hfin
          cases h
          exact .grows h0 hm hfits (Bool.eq_false_iff.mpr hfin)
  rename_i h0
  split at h
  · rename_i h8
    cases h
    exact .close h8
  rename_i h8
  split at h
  · rename_i h9
    cases hw : ({ c with log := c.log ++ [.pong req.data] } : Conn).wsWrite 10 req.data with
    | error e => rw [hw] at h; cases h
    | ok d =>
      rw [hw] at h
      cases h
      exact .ping h9 hw
  rename_i h9
  split at h
  · rename_i h10
    cases h
    exact .pong h10
  rename_i h10
  split at h
  · rename_i hfin
    cases h
    exact .message ⟨⟨h8, h9, h10⟩, h0⟩ hfin
  · rename_i hfin
    cases h
    exact .opens ⟨⟨h8, h9, h10⟩, h0⟩ (Bool.eq_false_iff.mpr hfin)

/-- Each outcome of `Handles` is how `onWebsocket` handles the frame, the converse of the inversion
    above. -/
theorem Handles.onWebsocket_eq (hws : c.ws = some ws) (h : Handles env H c ws req c' go) :
    c.onWebsocket env H req = .ok (c', go) := by
  unfold onWebsocket
  split
  · rename_i hnone
    rw [hws] at hnone
    cases hnone
  rename_i ws' hws'
  obtain rfl : ws = ws' := Option.some.inj (hws.symm.trans hws')
  cases h with
  | unexpected hop hcont => rw [if_pos hop, hcont]
  | tooLarge hop hcont hover =>
    rw [if_pos hop, hcont]
    exact if_pos hover
  | grows hop hcont hfits hfin =>
    rw [if_pos hop, hcont]
    simp only [if_neg hfits, hfin, Bool.false_eq_true, if_false]
    rfl
  | finishes hop hcont hfits hfin hd =>
    subst hd
    rw [if_pos hop, hcont]
    simp only [if_neg hfits, hfin, if_true]
    rfl
  | close hop => simp [hop]
  | ping hop hd =>
    rw [if_neg (by rw [hop]; decide), if_neg (by rw [hop]; decide), if_pos hop, hd]
    rfl
  | pong hop => simp [hop]
  | message hstarts hfin =>
    rw [if_neg hstarts.2, if_neg hstarts.1.1, if_neg hstarts.1.2.1,
      if_neg hstarts.1.2.2, if_pos hfin]
  | opens hstarts hfin =>
    rw [if_neg hstarts.2, if_neg hstarts.1.1, if_neg hstarts.1.2.1, if_neg hstarts.1.2.2,
      if_neg (Bool.eq_false_iff.mp hfin)]
    rfl

/-- On an unlocked connection with a websocket it returns. -/
theorem onWebsocket_returns (env : Env) (H : Handlers) (req : WsFrame) (hlock : c.lock = false)
    (hws : c.ws = some ws) : ∃ c' go, c.onWebsocket env H req = .ok (c', go) := by
  suffices h : ∃ c' go, Handles env H c ws req c' go by
    obtain ⟨c', go, h⟩ := h
    exact ⟨c', go, h.onWebsocket_eq hws⟩
  by_cases h0 : req.opcode = 0
  · cases hcont : ws.contFrame with
    | none => exact ⟨_, _, .unexpected h0 hcont⟩
    | some m =>
      by_cases hover : env.requestMaxBytes < (m ++ req.data).length
      · exact ⟨_, _, .tooLarge h0 hcont hover⟩
      · cases hfin : req.fin with
        | false => exact ⟨_, _, .grows h0 hcont hover hfin⟩
        | true => exact ⟨_, _, .finishes h0 hcont hover hfin rfl⟩
  by_cases h8 : req.opcode = 8
  · exact ⟨_, _, .close h8⟩
  by_cases h9 : req.opcode = 9
  · exact ⟨_, _, .ping h9 (write_unlocked (by exact hlock) _)⟩
  by_cases h10 : req.opcode = 10
  · exact ⟨_, _, .pong h10⟩
  have hstarts : req.Starts := ⟨⟨h8, h9, h10⟩, h0⟩
  cases hfin : req.fin with
  | false => exact ⟨_, _, .opens hstarts hfin⟩
  | true => exact ⟨_, _, .message hstarts hfin⟩

end Frame

end Conn

/-! ### Turns -/

/-- A read of some bytes calls the parser once. -/
theorem turn_data {env : Env} {c : Conn} (H : Handlers) (halive : c.closed = false)
    (hlock : c.lock = false) (hws : c.ws = none) {d : Bytes} (hd : d ≠ []) (wr : WriteResult) :
    c.turn env H (.read (.data d) wr)
      = if env.requestMaxBytes < (c.inp ++ d).length then
          .ok (({ c with lock := true, inp := c.inp ++ d } : Conn).closeConnWithError
            (ascii "oversize") (some (.tooLarge (c.inp ++ d).length)))
        else match (process env c.srs (c.inp ++ d)).ret with
          | .more => .ok { c with
              srs := (process env c.srs (c.inp ++ d)).state, inp :=
                (process env c.srs (c.inp ++ d)).buf,
              lock := false }
          | .fail e => .ok (({ c with
              srs := (process env c.srs (c.inp ++ d)).state, inp :=
                (process env c.srs (c.inp ++ d)).buf,
              lock := false } : Conn).closeConnWithError (ascii "read") (some (.process e)))
          | .panic => .error .panic
          | .ok () => ({ c with
              srs := (process env c.srs (c.inp ++ d)).state, inp :=
                (process env c.srs (c.inp ++ d)).buf,
              lock := false } : Conn).onRequest H wr := by
  have hread : c.readConn env H (.data d) wr = c.parseNext env
      H wr (c.inp.length + d.length + 1) d := by
    obtain ⟨x, d, rfl⟩ := List.exists_cons_of_ne_nil hd
    rfl
  rw [Conn.turn, if_neg (by simp [halive])]
  simp only [hread]
  unfold Conn.parseNext
  simp only [Conn.spinLock_eq hlock, bind, Except.bind]
  split
  · rfl
  · simp only [hws]
    rfl

end Resh.Server
