import Resh.Server.Effects

namespace Resh.Server

open Resh.Go

/-!
# WebSocket frames on a connection

`deliver` says what a list of client frames asks for, independently of buffers and reads: the
completed messages, the pongs, and the close.  `Outputs` says what such events add to the output, by
what the handler does and what a client reads, and `Did` that a connection did a list of events.

* `onWebsocket_spec` — one frame in a legal place is handled as it asks;
* `writeConn_spec`, `finishRead_spec` — writes change neither events nor the output as a whole.
-/

/-! ### What a list of frames asks for -/

/-- The stream of a list of frames. -/
def encodeAll (fs : List ClientFrame) : Bytes := fs.flatMap ClientFrame.encode

/-- The opened message after a frame, if `o` was open before. -/
def openNext (o : Option Bytes) (f : ClientFrame) : Option Bytes :=
  if f.opcode = 0 then if f.fin then none else some (o.getD [] ++ f.payload)
  else if f.opcode = 8 ∨ f.opcode = 9 ∨ f.opcode = 10 then o
  else if f.fin then none else some f.payload

/-- A frame that closes the connection. -/
abbrev ClientFrame.IsClose (f : ClientFrame) : Prop := f.opcode = 8

/-- What a frame asks for, if `o` is open. -/
def frameEvents (o : Option Bytes) (f : ClientFrame) : List Event :=
  if f.opcode = 0 then if f.fin then [.wsData (o.getD [] ++ f.payload)] else []
  else if f.opcode = 8 then [.wsClose f.payload, .sysClose]
  else if f.opcode = 9 then [.pong f.payload]
  else if f.opcode = 10 then []
  else if f.fin then [.wsData f.payload] else []

/-- What a list of frames asks for, up to its first close frame. -/
def deliver : Option Bytes → List ClientFrame → List Event
  | _, [] => []
  | o, f :: fs => frameEvents o f ++ if f.opcode = 8 then [] else deliver (openNext o f) fs

/-- Fragments in order: a continuation only while a message is open, a new message only while
    none is.  Control frames may stand anywhere. -/
def Legal : Option Bytes → List ClientFrame → Prop
  | _, [] => True
  | o, f :: fs =>
    (f.opcode = 0 ∧ o.isSome ∨ (f.opcode = 1 ∨ f.opcode = 2) ∧ o.isNone ∨
      f.opcode = 8 ∨ f.opcode = 9 ∨ f.opcode = 10) ∧ Legal (openNext o f) fs

instance instDecidableLegal : (o : Option Bytes) → (fs : List ClientFrame) → Decidable (Legal o fs)
  | _, [] => .isTrue trivial
  | o, f :: fs => @instDecidableAnd _ _ _ (instDecidableLegal (openNext o f) fs)

/-- The handler of messages writes to the connection and does nothing else to it. -/
def Handlers.OnlyWrites (H : Handlers) : Prop :=
  ∀ c m, ∃ w, H.onWSData c m = { c with out := c.out ++ w }

/-- **What events add to the output** of a connection with the log `log` and the output `out`: a
    message what the handler writes when it is called with it on such a connection, a ping one frame
    that a client reads as the pong with its payload, and a close nothing. -/
inductive Outputs (H : Handlers) : List Event → Bytes → List Event → Bytes → Prop where
  | nil {log : List Event} {out : Bytes} : Outputs H log out [] []
  | message {log es : List Event} {out m v w : Bytes} (c : Conn) (hlog : c.log = log ++ [.wsData m])
      (hout : c.sent ++ c.out = out) (hcall : H.onWSData c m = { c with out := c.out ++ v })
      (h : Outputs H (log ++ [.wsData m]) (out ++ v) es w) :
      Outputs H log out (.wsData m :: es) (v ++ w)
  | pong {log es : List Event} {out p v w : Bytes}
      (hread : Rfc6455.frame v = some (⟨true, 10, p⟩, []))
      (h : Outputs H (log ++ [.pong p]) (out ++ v) es w) :
      Outputs H log out (.pong p :: es) (v ++ w)
  | wsClose {log es : List Event} {out d w : Bytes} (h : Outputs H (log ++ [.wsClose d]) out es w) :
      Outputs H log out (.wsClose d :: es) w
  | sysClose {log es : List Event} {out w : Bytes} (h : Outputs H (log ++ [.sysClose]) out es w) :
      Outputs H log out (.sysClose :: es) w

/-- Events and then more events. -/
theorem Outputs.append {H : Handlers} {log es fs : List Event} {out v w : Bytes}
    (h : Outputs H log out es v) (h' : Outputs H (log ++ es) (out ++ v) fs w) :
    Outputs H log out (es ++ fs) (v ++ w) := by
  induction h with
  | nil => simpa using h'
  | message c hlog hout hcall _ ih =>
    rw [List.append_assoc]
    exact .message c hlog hout hcall (ih (by simpa using h'))
  | pong hread _ ih =>
    rw [List.append_assoc]
    exact .pong hread (ih (by simpa using h'))
  | wsClose _ ih => exact .wsClose (ih (by simpa using h'))
  | sysClose _ ih => exact .sysClose (ih (by simpa using h'))

/-- An upgraded connection between two turns. -/
structure Upgraded (o : Option Bytes) (c : Conn) : Prop where
  alive : c.closed = false
  unlocked : c.lock = false
  ws : ∃ ws, c.ws = some ws ∧ ws.closed = false ∧ ws.contFrame = o

/-- The websocket of an upgraded connection is not closed. -/
theorem Upgraded.ws_open {o : Option Bytes} {c : Conn} (h : Upgraded o c) :
    c.ws.any (·.closed) = false := by
  obtain ⟨ws, hws, hclosed, -⟩ := h.ws
  rw [hws]
  exact hclosed

/-- The connection `c` came from `c₀` by the events `es`. -/
structure Did (H : Handlers) (c₀ : Conn) (es : List Event) (c : Conn) : Prop where
  log : c.log = c₀.log ++ es
  output : ∃ w, Outputs H c₀.log (c₀.sent ++ c₀.out) es w ∧ c.sent ++ c.out = c₀.sent ++ c₀.out ++ w

section Did

variable {H : Handlers} {c₀ c₁ c₂ : Conn} {es fs : List Event}

/-- No event, and the output as a whole is as it was. -/
theorem Did.quiet (hlog : c₁.log = c₀.log) (hout : c₁.sent ++ c₁.out = c₀.sent ++ c₀.out) :
    Did H c₀ [] c₁ := ⟨by rw [hlog, List.append_nil], [], .nil, by rw [hout, List.append_nil]⟩

theorem Did.refl (c : Conn) : Did H c [] c := .quiet rfl rfl

theorem Did.trans (h : Did H c₀ es c₁) (h' : Did H c₁ fs c₂) : Did H c₀ (es ++ fs) c₂ := by
  obtain ⟨v, hv, hout⟩ := h.output
  obtain ⟨w, hw, hout'⟩ := h'.output
  rw [h.log, hout] at hw
  exact ⟨by rw [h'.log, h.log, List.append_assoc], v ++ w, hv.append hw,
    by rw [hout', hout, List.append_assoc]⟩

/-- A call of the handler writes something, and that is what it does. -/
theorem onWSData_did (hH : H.OnlyWrites) (c : Conn) (m : Bytes) :
    ∃ w, c.onWSData H m = { c with log := c.log ++ [.wsData m], out := c.out ++ w } ∧
      Did H c [.wsData m] { c with log := c.log ++ [.wsData m], out := c.out ++ w } := by
  obtain ⟨w, hw⟩ := hH { c with log := c.log ++ [.wsData m] } m
  exact ⟨w, hw, rfl, w ++ [], .message { c with log := c.log ++ [.wsData m] }
    rfl rfl hw .nil, by simp⟩

end Did

/-! ### One frame -/

section Frame

variable {env : Env} {H : Handlers} {f : ClientFrame} {o : Option Bytes} {c : Conn}

/-- The frame is handled: the connection does what it asks for, and is closed after a close
    frame. -/
def Handled (env : Env) (H : Handlers) (f : ClientFrame) (o : Option Bytes) (c : Conn) : Prop :=
  ∃ c', Conn.onWebsocket env H f.toWsFrame c = .ok (c', decide (f.opcode ≠ 8)) ∧
    Did H c (frameEvents o f) c' ∧ c'.inp = c.inp ∧
    (f.opcode = 8 → c'.closed = true) ∧ (f.opcode ≠ 8 → Upgraded (openNext o f) c')

/-- The opcode of the frame that `parse` gives. -/
theorem toWsFrame_opcode {k : Fin 16} (h : f.opcode = k) : f.toWsFrame.opcode = UInt8.ofNat k := by
  rw [← h]
  rfl

/-- A frame that leaves the connection open. -/
theorem handled_of_open {ws : Websocket} {c' : Conn} (hws : c.ws = some ws) (hne : f.opcode ≠ 8)
    (h : Conn.Handles env H c ws f.toWsFrame c' true) (hdid : Did H c (frameEvents o f) c')
    (hinp : c'.inp = c.inp) (hup : Upgraded (openNext o f) c') : Handled env H f o c := by
  refine ⟨c', ?_, hdid, hinp, fun h8 => absurd h8 hne, fun _ => hup⟩
  rw [decide_eq_true hne]
  exact h.onWebsocket_eq hws

/-- A continuation: the open message grows, and is delivered with its last fragment. -/
theorem handled_continuation (hH : H.OnlyWrites) {m : Bytes} (hc : Upgraded (some m) c)
    (h0 : f.opcode = 0) (hsize : ((m ++ f.payload).length : ℤ) ≤ env.requestMaxBytes) :
    Handled env H f (some m) c := by
  obtain ⟨ws, hws, hwc, hcont⟩ := hc.ws
  have hop : f.toWsFrame.opcode = 0 := toWsFrame_opcode h0
  have hne : f.opcode ≠ 8 := by rw [h0]; decide
  cases hfin : f.fin with
  | true =>
    have hevents : frameEvents (some m) f = [.wsData (m ++ f.payload)] := by
      simp [frameEvents, h0, hfin]
    have hnext : openNext (some m) f = none := by simp [openNext, h0, hfin]
    obtain ⟨w, hw, hdid⟩ := onWSData_did hH (c.withCont ws (some (m ++ f.payload))) (m ++ f.payload)
    refine handled_of_open hws hne (.finishes hop hcont (not_lt.mpr hsize) hfin hw.symm) ?_ rfl ?_
    · rw [hevents]
      exact ⟨hdid.log, hdid.output⟩
    · rw [hnext]
      exact ⟨hc.alive, hc.unlocked, _, rfl, hwc, rfl⟩
  | false =>
    have hevents : frameEvents (some m) f = [] := by simp [frameEvents, h0, hfin]
    have hnext : openNext (some m) f = some (m ++ f.payload) := by simp [openNext, h0, hfin]
    refine handled_of_open hws hne (.grows hop hcont (not_lt.mpr hsize) hfin) ?_ rfl ?_
    · rw [hevents]
      exact .quiet rfl rfl
    · rw [hnext]
      exact ⟨hc.alive, hc.unlocked, _, rfl, hwc, rfl⟩

/-- A text or binary frame: a whole message, or the first fragment of one. -/
theorem handled_data (hH : H.OnlyWrites) (hc : Upgraded none c)
    (h12 : f.opcode = 1 ∨ f.opcode = 2) : Handled env H f none c := by
  obtain ⟨ws, hws, hwc, hcont⟩ := hc.ws
  have hne : ∀ k : Fin 16, k = 0 ∨ k = 8 ∨ k = 9 ∨ k = 10 → f.opcode ≠ k := by
    rintro k (rfl | rfl | rfl | rfl) <;> rcases h12 with h | h <;> rw [h] <;> decide
  have hstarts : f.toWsFrame.Starts := by
    rcases h12 with h | h
    · have hop : f.toWsFrame.opcode = 1 := toWsFrame_opcode h
      exact ⟨⟨by rw [hop]; decide, by rw [hop]; decide, by rw [hop]; decide⟩, by rw [hop]; decide⟩
    · have hop : f.toWsFrame.opcode = 2 := toWsFrame_opcode h
      exact ⟨⟨by rw [hop]; decide, by rw [hop]; decide, by rw [hop]; decide⟩, by rw [hop]; decide⟩
  have hne0 := hne 0 (by simp)
  have hne8 := hne 8 (by simp)
  have hne9 := hne 9 (by simp)
  have hne10 := hne 10 (by simp)
  cases hfin : f.fin with
  | true =>
    have hevents : frameEvents none f = [.wsData f.payload] := by
      simp [frameEvents, hne0, hne8, hne9, hne10, hfin]
    have hnext : openNext none f = none := by simp [openNext, hne0, hne8, hne9, hne10, hfin]
    obtain ⟨w, hw, hdid⟩ := onWSData_did hH c f.payload
    have hmessage : c.Handles env H ws f.toWsFrame (c.onWSData H f.toWsFrame.data) true :=
      .message hstarts hfin
    rw [show f.toWsFrame.data = f.payload from rfl, hw] at hmessage
    refine handled_of_open hws hne8 hmessage ?_ rfl ?_
    · rw [hevents]
      exact hdid
    · rw [hnext]
      exact ⟨hc.alive, hc.unlocked, ws, hws, hwc, hcont⟩
  | false =>
    have hevents : frameEvents none f = [] := by simp [frameEvents, hne0, hne8, hne9, hne10, hfin]
    have hnext : openNext none f = some f.payload := by
      simp [openNext, hne0, hne8, hne9, hne10, hfin]
    refine handled_of_open hws hne8 (.opens hstarts hfin) ?_ rfl ?_
    · rw [hevents]
      exact .quiet rfl rfl
    · rw [hnext]
      exact ⟨hc.alive, hc.unlocked, _, rfl, hwc, rfl⟩

/-- A close frame. -/
theorem handled_close (hc : Upgraded o c) (h8 : f.opcode = 8) : Handled env H f o c := by
  obtain ⟨ws, hws, hwc, hcont⟩ := hc.ws
  have hop : f.toWsFrame.opcode = 8 := toWsFrame_opcode h8
  have hevents : frameEvents o f = [.wsClose f.payload, .sysClose] := by simp [frameEvents, h8]
  refine ⟨({ c with ws := some { ws with closingData := f.payload } } : Conn).closeConnWithError
    [] none, ?_,
    ⟨?_, [], ?_, ?_⟩, Conn.closeConnWithError_inp .., fun _ => Conn.closeConnWithError_closed ..,
    fun h => absurd h8 h⟩
  · rw [decide_eq_false (not_not.mpr h8)]
    exact Conn.Handles.onWebsocket_eq hws (.close hop)
  · rw [hevents, Conn.closeConnWithError, if_neg (Bool.eq_false_iff.mp hc.alive)]
    simp
  · rw [hevents]
    exact .wsClose (.sysClose .nil)
  · rw [Conn.closeConnWithError_sent, Conn.closeConnWithError_out, List.append_nil]

/-- A ping is answered. -/
theorem handled_ping (hc : Upgraded o c) (h9 : f.opcode = 9) (hsize : f.payload.length < 2 ^ 64) :
    Handled env H f o c := by
  obtain ⟨ws, hws, hwc, hcont⟩ := hc.ws
  have hop : f.toWsFrame.opcode = 9 := toWsFrame_opcode h9
  have hevents : frameEvents o f = [.pong f.payload] := by simp [frameEvents, h9]
  have hnext : openNext o f = o := by simp [openNext, h9]
  have hwrite := Conn.write_eq (c := { c with log := c.log ++ [.pong f.payload] })
    hc.alive hc.unlocked (serverFrame 10 f.payload)
  refine handled_of_open hws (by rw [h9]; decide) (.ping hop hwrite) ?_ rfl ?_
  · rw [hevents]
    exact ⟨rfl, serverFrame 10 f.payload ++ [],
      .pong (frame_serverFrame (by decide) hsize) .nil, by simp⟩
  · rw [hnext]
    exact ⟨hc.alive, hc.unlocked, ws, hws, hwc, hcont⟩

/-- A pong is ignored. -/
theorem handled_pong (hc : Upgraded o c) (h10 : f.opcode = 10) : Handled env H f o c := by
  obtain ⟨ws, hws, -⟩ := hc.ws
  have hop : f.toWsFrame.opcode = 10 := toWsFrame_opcode h10
  have hevents : frameEvents o f = [] := by simp [frameEvents, h10]
  have hnext : openNext o f = o := by simp [openNext, h10]
  refine handled_of_open hws (by rw [h10]; decide) (.pong hop) ?_ rfl (hnext.symm ▸ hc)
  rw [hevents]
  exact .refl c

/-- **One frame**, in a legal place and within the limit. -/
theorem onWebsocket_spec (hH : H.OnlyWrites) (hmax : env.requestMaxBytes < 2 ^ 63)
    (hc : Upgraded o c)
    (hlegal : Legal o [f]) (hsize : ((o.getD [] ++ f.payload).length : ℤ) ≤ env.requestMaxBytes) :
    Handled env H f o c := by
  rcases hlegal.1 with ⟨h0, ho⟩ | ⟨h12, ho⟩ | h8 | h9 | h10
  · obtain ⟨m, rfl⟩ := Option.isSome_iff_exists.mp ho
    exact handled_continuation hH hc h0 hsize
  · rw [Option.isNone_iff_eq_none] at ho
    subst ho
    exact handled_data hH hc h12
  · exact handled_close hc h8
  · refine handled_ping hc h9 ?_
    rw [List.length_append] at hsize
    omega
  · exact handled_pong hc h10

end Frame

/-! ### Writes -/

section Write

variable {H : Handlers} {o : Option Bytes} {c : Conn} {wr : WriteResult}

/-- A write moves bytes to the socket and does nothing else. -/
theorem writeConn_spec (hc : Upgraded o c) (hwr : wr.Sound) :
    ∃ c', c.writeConn wr = .ok c' ∧ Did H c [] c' ∧ Upgraded o c' ∧ c'.inp = c.inp := by
  obtain ⟨c', hc', hw⟩ := Conn.writeConn_written hc.unlocked wr
  obtain rfl := hw.eq_send hwr hc.ws_open
  exact ⟨_, hc', .quiet rfl (c.send_bytes _), ⟨hc.alive, hc.unlocked, hc.ws⟩, rfl⟩

/-- The end of `readConn`. -/
theorem finishRead_spec (hc : Upgraded o c) (hwr : wr.Sound) :
    ∃ c', c.finishRead wr = .ok c' ∧ Did H c [] c' ∧ Upgraded o c' ∧ c'.inp = c.inp := by
  have hc' : Upgraded o { c with srs := {} } := ⟨hc.alive, hc.unlocked, hc.ws⟩
  unfold Conn.finishRead
  simp only
  split
  · obtain ⟨c', h₁, h₂, h₃, h₄⟩ := writeConn_spec (H := H) hc' hwr
    exact ⟨c', h₁, ⟨h₂.log, h₂.output⟩, h₃, h₄⟩
  · exact ⟨_, rfl, .quiet rfl rfl, hc', rfl⟩

end Write

end Resh.Server
