import Resh.Run
import Resh.Server.Websocket

namespace Resh.Server

open Resh.Go

/-!
# Messages and their fragments

`onWebsocket` collects the fragments of a message in `contFrame`.  It refuses a continuation without
a message, but not a new message while one is open: the first fragment of the new one overwrites
what was collected.

Frames are any frames that `parse` can give, in any order.  A frame that is neither a continuation
nor a control frame starts a message, and a continuation belongs to the last message that was
started without `fin`.

* `Grouped` — each payload given to `OnWSData` is made of frames of one message, and `contFrame` of
  those of the last one; no frame is used twice;
* `fragments_kept` — this holds in every run, and if no message is started over another one, every
  payload byte is in one of them, or the connection was closed with an error;
* `fragment_dropped` — two messages, one started over the other.
-/

/-! ### Frames and messages -/

/-- The first frame of a message with more to come. -/
def WsFrame.Opens (f : WsFrame) : Prop := f.Starts ∧ f.fin = false

instance (f : WsFrame) : Decidable f.Opens := inferInstanceAs (Decidable (_ ∧ _))

/-- The number of the last frame that opened a message. -/
def lastOpened : List WsFrame → Option ℕ :=
  List.foldl (fun last p => if p.1.Opens then some p.2 else last) none ∘ List.zipIdx

/-- The message of the frame with the number `i`, by the number of its first frame. -/
def messageOf (fs : List WsFrame) (i : ℕ) : Option ℕ :=
  match fs[i]? with
  | some f => if f.Starts then some i else lastOpened (fs.take i)
  | none => none

/-- The payloads of the frames with the given numbers, one after the other. -/
def payloads (fs : List WsFrame) (is : List ℕ) : Bytes :=
  is.flatMap fun i => (fs[i]?.map WsFrame.data).getD []

section Append

variable {fs : List WsFrame} {f : WsFrame} {i : ℕ}

/-- A frame that opens a message is the last one to do so. -/
theorem lastOpened_append :
    lastOpened (fs ++ [f]) = if f.Opens then some fs.length else lastOpened fs := by
  simp [lastOpened, List.zipIdx_append, List.foldl_append]

/-- The message of a frame does not depend on later frames. -/
theorem messageOf_append (h : i < fs.length) : messageOf (fs ++ [f]) i = messageOf fs i := by
  rw [messageOf, messageOf, List.getElem?_append_left h, List.take_append_of_le_length h.le]

/-- The last frame starts a message, or goes on with the one that was opened last. -/
theorem messageOf_last :
    messageOf (fs ++ [f]) fs.length = if f.Starts then some fs.length else lastOpened fs := by
  rw [messageOf, List.getElem?_concat_length, List.take_left]

/-- The payloads of frames do not depend on later frames. -/
theorem payloads_append {is : List ℕ} (h : ∀ i ∈ is, i < fs.length) :
    payloads (fs ++ [f]) is = payloads fs is := by
  unfold payloads
  rw [List.flatMap_congr]
  intro i hi
  rw [List.getElem?_append_left (h i hi)]

/-- The payload of the last frame. -/
theorem payloads_last : payloads (fs ++ [f]) [fs.length] = f.data := by
  rw [payloads, List.flatMap_singleton, List.getElem?_concat_length]
  rfl

end Append

/-! ### The frames of a connection -/

/-- A connection with the frames it has handled, and whether it goes on. -/
structure FrameReader where
  conn : Conn
  going : Bool := true
  handled : List WsFrame := []

/-- The next frame. -/
def FrameReader.step (env : Env) (H : Handlers) (s : FrameReader) (f : WsFrame) :
    Option FrameReader :=
  if s.going then
    match s.conn.onWebsocket env H f with
    | .ok (c, go) => some { conn := c, going := go, handled := s.handled ++ [f] }
    | .error _ => none
  else none

/-- The handler of messages cannot touch the fragments, nor close the connection. -/
def Handlers.LeavesFragments (H : Handlers) : Prop :=
  ∀ c m, (H.onWSData c m).closed = c.closed ∧ (H.onWSData c m).log = c.log ∧
    (H.onWSData c m).ws.map (·.contFrame) = c.ws.map (·.contFrame)

/-- The payload given to `OnWSData`. -/
def Event.wsData? : Event → Option Bytes
  | wsData m => some m
  | _ => none

/-- The connection was closed with an error. -/
def ClosedWithError (c : Conn) (es : List Event) : Prop :=
  c.closed = true ∧ ∃ errType cause, .error errType cause ∈ es

/-- **The frames in order.**  The payloads given to `OnWSData` are made of the frames `groups`, and
    `contFrame` of the frames `opened`. -/
structure Grouped (fs : List WsFrame) (es : List Event) (cont : Option Bytes)
    (groups : List (List ℕ)) (opened : List ℕ) : Prop where
  passed : es.filterMap Event.wsData? = groups.map (payloads fs)
  kept : cont.getD [] = payloads fs opened
  once : (groups.flatten ++ opened).Nodup
  handled : ∀ i ∈ groups.flatten ++ opened, i < fs.length
  whole : ∀ g ∈ groups, ∀ i ∈ g, ∀ j ∈ g, messageOf fs i = messageOf fs j
  current : ∀ i ∈ opened, messageOf fs i = lastOpened fs
  idle : cont = none → opened = []

/-- Every payload byte is somewhere. -/
def AllKept (fs : List WsFrame) (c : Conn) (es : List Event) (groups : List (List ℕ))
    (opened : List ℕ) : Prop :=
  ∀ i f, fs[i]? = some f → f.IsData → f.data ≠ [] →
    i ∈ groups.flatten ++ opened ∨ ClosedWithError c es

/-- The condition: no message is opened over the fragments of another one. -/
def Separate (s : FrameReader) (f : WsFrame) : Prop :=
  f.Opens → ∀ ws ∈ s.conn.ws, ws.contFrame.getD [] = []

instance (s : FrameReader) (f : WsFrame) : Decidable (Separate s f) :=
  inferInstanceAs (Decidable (_ → ∀ ws ∈ s.conn.ws, _))

/-! ### What a frame does -/

/-- What a frame does to `contFrame`, and what it passes to `OnWSData`. -/
inductive Takes (f : WsFrame) : Option Bytes → List Bytes → Option Bytes → Prop where
  /-- a continuation without a message -/
  | refuse (h0 : f.opcode = 0) : Takes f none [] none
  | grow (h0 : f.opcode = 0) (m : Bytes) : Takes f (some m) [] (some (m ++ f.data))
  | finish (h0 : f.opcode = 0) (m : Bytes) : Takes f (some m) [m ++ f.data] none
  | control (h : ¬ f.IsData) (cont : Option Bytes) : Takes f cont [] cont
  | message (h : f.Starts) (hfin : f.fin = true) (cont : Option Bytes) : Takes f cont [f.data] cont
  | start (h : f.Opens) (cont : Option Bytes) : Takes f cont [] (some f.data)

section Conn

variable {env : Env} {H : Handlers} {c c' : Conn} {ws : Websocket} {f : WsFrame} {go : Bool}

/-- A close adds no message to the events, and with an error it is one. -/
theorem close_events (hopen : c.closed = false) (errType : Bytes) (err : Option Cause) :
    ∃ es, (c.closeConnWithError errType err).log = c.log ++ es ∧ es.filterMap Event.wsData? = [] ∧
      (c.closeConnWithError errType err).ws = c.ws ∧
      (err ≠ none → ClosedWithError (c.closeConnWithError errType err) es) := by
  unfold Conn.closeConnWithError
  rw [if_neg (Bool.eq_false_iff.mp hopen)]
  simp only [List.append_assoc]
  refine ⟨_, rfl, ?_, trivial, fun herr => ⟨rfl, ?_⟩⟩
  · cases c.ws <;> cases err <;> rfl
  · obtain ⟨cause, rfl⟩ := Option.ne_none_iff_exists'.mp herr
    exact ⟨errType, cause, by simp⟩

/-- A frame that closes the connection passes nothing on. -/
theorem takes_of_close (hws : c.ws = some ws) (hopen : c.closed = false)
    (h : Conn.Handles env H c ws f c' false) :
    ∃ es cont, c'.log = c.log ++ es ∧ c'.ws.map (·.contFrame) = some cont ∧
      Takes f ws.contFrame (es.filterMap Event.wsData?) cont ∧
      (f.opcode = 0 → ws.contFrame = none → ClosedWithError c' es) := by
  cases h with
  | unexpected hop hcont =>
    obtain ⟨es, hlog, hnil, hws', herr⟩ := close_events hopen (ascii "websocket")
      (some .unexpectedContinuation)
    refine ⟨es, none, hlog, by rw [hws', hws, Option.map_some, hcont],
      ?_, fun _ _ => herr (by simp)⟩
    rw [hnil, hcont]
    exact .refuse hop
  | @tooLarge m hop hcont =>
    obtain ⟨es, hlog, hnil, hws', -⟩ := close_events (c := c.withCont ws (some (m ++ f.data))) hopen
      (ascii "websocket") (some .continuationTooLarge)
    refine ⟨es, some (m ++ f.data), hlog, by rw [hws']; rfl, ?_,
      fun _ hnone => by simp [hcont] at hnone⟩
    rw [hnil, hcont]
    exact .grow hop m
  | close hop =>
    obtain ⟨es, hlog, hnil, hws', -⟩ := close_events (c := { c with
      ws := some { ws with closingData := f.data } }) hopen [] none
    refine ⟨es, ws.contFrame, hlog, by rw [hws']; rfl, ?_, fun h0 =>
      absurd h0 (by rw [hop]; decide)⟩
    rw [hnil]
    exact .control (fun hd => hd.1 hop) _

/-- A frame that leaves it open does what it says with the fragments. -/
theorem takes_of_open (hH : H.LeavesFragments) (hws : c.ws = some ws) (hopen : c.closed = false)
    (h : Conn.Handles env H c ws f c' true) :
    ∃ es cont, c'.log = c.log ++ es ∧ c'.ws.map (·.contFrame) = some cont ∧ c'.closed = false ∧
      Takes f ws.contFrame (es.filterMap Event.wsData?) cont ∧
      (f.opcode = 0 → ws.contFrame ≠ none) := by
  have hnil : c.log = c.log ++ [] := (List.append_nil _).symm
  have hkept : c.ws.map (·.contFrame) = some ws.contFrame := by rw [hws]; rfl
  cases h with
  | @grows m hop hcont =>
    refine ⟨[], some (m ++ f.data), hnil, rfl, hopen, ?_, fun _ => by simp [hcont]⟩
    rw [hcont]
    exact .grow hop m
  | @finishes m d hop hcont _ _ hd =>
    subst hd
    obtain ⟨hclosed, hlog, hfragments⟩ := hH { c.withCont ws (some (m ++ f.data)) with
      log := c.log ++ [.wsData (m ++ f.data)] } (m ++ f.data)
    refine ⟨[.wsData (m ++ f.data)], none, hlog, ?_, hclosed.trans hopen,
      ?_, fun _ => by simp [hcont]⟩
    · -- whatever else the handler did, there is a websocket to clear
      obtain ⟨ws', hws', -⟩ := Option.map_eq_some_iff.mp hfragments
      show ((Conn.onWSData H _ _).ws.map _).map _ = _
      rw [Conn.onWSData]
      simp only [Conn.withCont] at hws' ⊢
      rw [hws']
      rfl
    · rw [hcont]
      exact .finish hop m
  | ping hop hd =>
    obtain ⟨hlog, hws', hclosed, -⟩ := Conn.write_frame hd
    exact ⟨[.pong f.data], ws.contFrame, hlog, by rw [hws']; exact hkept, hclosed.trans hopen,
      .control (fun hd => hd.2.1 hop) _, fun h0 => absurd h0 (by rw [hop]; decide)⟩
  | pong hop =>
    exact ⟨[], ws.contFrame, hnil, hkept, hopen, .control (fun hd => hd.2.2 hop) _,
      fun h0 => absurd h0 (by rw [hop]; decide)⟩
  | message hstarts hfin =>
    obtain ⟨hclosed, hlog, hfragments⟩ := hH { c with log := c.log ++ [.wsData f.data] } f.data
    exact ⟨[.wsData f.data], ws.contFrame, hlog, hfragments.trans hkept, hclosed.trans hopen,
      .message hstarts hfin _, fun h0 => absurd h0 hstarts.2⟩
  | opens hstarts hfin =>
    exact ⟨[], some f.data, hnil, rfl, hopen, .start ⟨hstarts, hfin⟩ _,
      fun h0 => absurd h0 hstarts.2⟩

/-- **One frame.** -/
theorem onWebsocket_takes (hH : H.LeavesFragments) (hws : c.ws = some ws) (hopen : c.closed = false)
    (h : c.onWebsocket env H f = .ok (c', go)) :
    ∃ es cont, c'.log = c.log ++ es ∧ c'.ws.map (·.contFrame) = some cont ∧
      (go = true → c'.closed = false) ∧ Takes f ws.contFrame (es.filterMap Event.wsData?) cont ∧
      (f.opcode = 0 → ws.contFrame = none → ClosedWithError c' es) := by
  obtain ⟨ws', hws', h⟩ := Conn.handles_of_onWebsocket h
  obtain rfl : ws = ws' := Option.some.inj (hws.symm.trans hws')
  cases go with
  | false =>
    obtain ⟨es, cont, hlog, hcont, htakes, herr⟩ := takes_of_close hws hopen h
    exact ⟨es, cont, hlog, hcont, fun hgo => absurd hgo Bool.false_ne_true, htakes, herr⟩
  | true =>
    obtain ⟨es, cont, hlog, hcont, hopen', htakes, hsome⟩ := takes_of_open hH hws hopen h
    exact ⟨es, cont, hlog, hcont, fun _ => hopen', htakes, fun h0 hnone => absurd hnone (hsome h0)⟩

end Conn

/-! ### The frames of a run -/

namespace Grouped

variable {fs : List WsFrame} {es es' : List Event} {cont : Option Bytes} {groups : List (List ℕ)}
  {opened : List ℕ} {f : WsFrame} {m : Bytes}

/-- The next frame has not been handled. -/
theorem length_not_mem (h : Grouped fs es cont groups opened) :
    fs.length ∉ groups.flatten ++ opened := fun hmem => Nat.lt_irrefl _ (h.handled _ hmem)

/-- Events that pass nothing. -/
theorem quiet (h : Grouped fs es cont groups opened) (hes : es'.filterMap Event.wsData? = []) :
    Grouped fs (es ++ es') cont groups opened :=
  { h with passed := by rw [List.filterMap_append, hes, List.append_nil, h.passed] }

/-- A frame that opens no message, with what it holds left out. -/
theorem keep (h : Grouped fs es cont groups opened) (hf : ¬ f.Opens) :
    Grouped (fs ++ [f]) es cont groups opened := by
  have hgroups : ∀ g ∈ groups, ∀ i ∈ g, i < fs.length := fun g hg i hi =>
    h.handled i (List.mem_append_left _ (List.mem_flatten_of_mem hg hi))
  have hopened : ∀ i ∈ opened, i < fs.length := fun i hi => h.handled i (List.mem_append_right _ hi)
  refine ⟨?_, ?_, h.once, fun i hi => ?_, fun g hg i hi j hj => ?_, fun i hi => ?_, h.idle⟩
  · rw [h.passed]
    exact List.map_congr_left fun g hg => (payloads_append (hgroups g hg)).symm
  · rw [h.kept, payloads_append hopened]
  · rw [List.length_append]
    exact Nat.lt_add_right _ (h.handled i hi)
  · rw [messageOf_append (hgroups g hg i hi), messageOf_append (hgroups g hg j hj)]
    exact h.whole g hg i hi j hj
  · rw [messageOf_append (hopened i hi), lastOpened_append, if_neg hf]
    exact h.current i hi

/-- A continuation is collected. -/
theorem grow (h : Grouped fs es (some m) groups opened) (h0 : f.opcode = 0) :
    Grouped (fs ++ [f]) es (some (m ++ f.data)) groups (opened ++ [fs.length]) := by
  have hstarts : ¬ f.Starts := fun hs => hs.2 h0
  have hopens : ¬ f.Opens := fun ho => hstarts ho.1
  have hkeep := h.keep hopens
  refine ⟨hkeep.passed, ?_, ?_, ?_, hkeep.whole, ?_, fun hnone => by cases hnone⟩
  · have hlast : payloads (fs ++ [f]) [fs.length] = f.data := payloads_last
    have hm : m = payloads (fs ++ [f]) opened := hkeep.kept
    rw [Option.getD_some, hm, ← hlast]
    exact List.flatMap_append.symm
  · rw [← List.append_assoc]
    exact (List.perm_append_singleton _ _).nodup_iff.mpr
      (List.nodup_cons.mpr ⟨h.length_not_mem, h.once⟩)
  · rw [← List.append_assoc]
    refine List.forall_mem_append.mpr ⟨hkeep.handled, List.forall_mem_singleton.mpr ?_⟩
    simp
  · refine List.forall_mem_append.mpr ⟨hkeep.current, List.forall_mem_singleton.mpr ?_⟩
    rw [messageOf_last, if_neg hstarts, lastOpened_append, if_neg hopens]

/-- The collected message is passed. -/
theorem flush (h : Grouped fs es (some m) groups opened) (hes : es'.filterMap Event.wsData? = [m]) :
    Grouped fs (es ++ es') none (groups ++ [opened]) [] := by
  have hm : m = payloads fs opened := h.kept
  have hflat : (groups ++ [opened]).flatten ++ [] = groups.flatten ++ opened := by simp
  refine ⟨?_, rfl, hflat ▸ h.once, hflat ▸ h.handled, ?_, fun i hi => absurd hi List.not_mem_nil,
    fun _ => rfl⟩
  · rw [List.filterMap_append, h.passed, hes, List.map_append, hm]
    rfl
  · refine List.forall_mem_append.mpr ⟨h.whole, List.forall_mem_singleton.mpr fun i hi j hj => ?_⟩
    rw [h.current i hi, h.current j hj]

/-- A message of one frame is passed. -/
theorem single (h : Grouped fs es cont groups opened) (hf : ¬ f.Opens)
    (hes : es'.filterMap Event.wsData? = [f.data]) :
    Grouped (fs ++ [f]) (es ++ es') cont (groups ++ [[fs.length]]) opened := by
  have hkeep := h.keep hf
  have hperm : ((groups ++ [[fs.length]]).flatten ++ opened).Perm
      (fs.length :: (groups.flatten ++ opened)) := by
    simp only [List.flatten_append, List.flatten_singleton, List.append_assoc,
      List.singleton_append]
    exact List.perm_middle
  refine ⟨?_, hkeep.kept, ?_, fun i hi => ?_, ?_, hkeep.current, hkeep.idle⟩
  · have hlast : payloads (fs ++ [f]) [fs.length] = f.data := payloads_last
    rw [List.filterMap_append, hkeep.passed, hes, List.map_append, ← hlast]
    rfl
  · exact hperm.nodup_iff.mpr (List.nodup_cons.mpr ⟨h.length_not_mem, h.once⟩)
  · rcases List.mem_cons.mp (hperm.mem_iff.mp hi) with rfl | hi
    · simp
    · exact hkeep.handled i hi
  · refine List.forall_mem_append.mpr
      ⟨hkeep.whole, List.forall_mem_singleton.mpr fun i hi j hj => ?_⟩
    rw [List.mem_singleton.mp hi, List.mem_singleton.mp hj]

/-- A message is opened, over whatever was collected. -/
theorem start (h : Grouped fs es cont groups opened) (hf : f.Opens) :
    Grouped (fs ++ [f]) es (some f.data) groups [fs.length] := by
  have hgroups : ∀ g ∈ groups, ∀ i ∈ g, i < fs.length := fun g hg i hi =>
    h.handled i (List.mem_append_left _ (List.mem_flatten_of_mem hg hi))
  have hnot : fs.length ∉ groups.flatten := fun hmem =>
    h.length_not_mem (List.mem_append_left _ hmem)
  refine ⟨?_, payloads_last.symm, ?_, ?_, fun g hg i hi j hj => ?_, ?_, fun hnone => by cases hnone⟩
  · rw [h.passed]
    exact List.map_congr_left fun g hg => (payloads_append (hgroups g hg)).symm
  · exact (List.perm_append_singleton _ _).nodup_iff.mpr
      (List.nodup_cons.mpr ⟨hnot, (List.nodup_append.mp h.once).1⟩)
  · refine List.forall_mem_append.mpr ⟨fun i hi => ?_, List.forall_mem_singleton.mpr (by simp)⟩
    rw [List.length_append]
    exact Nat.lt_add_right _ (h.handled i (List.mem_append_left _ hi))
  · rw [messageOf_append (hgroups g hg i hi), messageOf_append (hgroups g hg j hj)]
    exact h.whole g hg i hi j hj
  · refine List.forall_mem_singleton.mpr ?_
    rw [messageOf_last, if_pos hf.1, lastOpened_append, if_pos hf]

/-- **One frame**: the frames stay in order, those in use stay in use unless a message is opened
    over them, and the new one is used unless it is a control frame or refused. -/
theorem takes (h : Grouped fs es cont groups opened) {cont' : Option Bytes}
    (ht : Takes f cont (es'.filterMap Event.wsData?) cont') :
    ∃ groups' opened', Grouped (fs ++ [f]) (es ++ es') cont' groups' opened' ∧
      (∀ i ∈ groups.flatten ++ opened, i ∈ groups'.flatten ++ opened' ∨ f.Opens ∧ i ∈ opened) ∧
      (f.IsData → (f.opcode = 0 → cont ≠ none) → fs.length ∈ groups'.flatten ++ opened') := by
  -- only the messages among the events count
  generalize hes : es'.filterMap Event.wsData? = new at ht
  cases ht with
  | refuse h0 =>
    exact ⟨groups, opened, (h.keep fun ho => ho.1.2 h0).quiet hes, fun _ hi => .inl hi,
      fun _ hcont => absurd rfl (hcont h0)⟩
  | grow h0 m =>
    refine ⟨groups, opened ++ [fs.length], (h.grow h0).quiet hes,
      fun i hi => .inl ?_, fun _ _ => ?_⟩
    · rw [← List.append_assoc]
      exact List.mem_append_left _ hi
    · simp
  | finish h0 m =>
    refine ⟨groups ++ [opened ++ [fs.length]], [], (h.grow h0).flush hes, fun i hi => .inl ?_,
      fun _ _ => by simp⟩
    have hflat : (groups ++ [opened ++ [fs.length]]).flatten ++ []
        = groups.flatten ++ opened ++ [fs.length] := by simp
    rw [hflat]
    exact List.mem_append_left _ hi
  | control hd =>
    exact ⟨groups, opened, (h.keep fun ho => hd ho.1.1).quiet hes, fun _ hi => .inl hi,
      fun hdata => absurd hdata hd⟩
  | message hs hfin =>
    -- a message in one frame goes between the fragments of an open one
    have hopens : ¬ f.Opens := fun ho => Bool.false_ne_true (ho.2.symm.trans hfin)
    refine ⟨groups ++ [[fs.length]], opened, h.single hopens hes, fun i hi => .inl ?_,
      fun _ _ => by simp⟩
    rcases List.mem_append.mp hi with hi | hi
    · rw [List.flatten_append]
      exact List.mem_append_left _ (List.mem_append_left _ hi)
    · exact List.mem_append_right _ hi
  | start hf =>
    refine ⟨groups, [fs.length], (h.start hf).quiet hes, fun i hi => ?_, fun _ _ => by simp⟩
    rcases List.mem_append.mp hi with hi | hi
    · exact .inl (List.mem_append_left _ hi)
    · exact .inr ⟨hf, hi⟩

end Grouped

/-- **Before the next frame**: the connection is open as long as it goes on, and the frames so far
    are in order.  Where `b` holds, all of them are kept. -/
structure Orderly (b : Prop) (log : List Event) (s : FrameReader) : Prop where
  alive : s.going = true → s.conn.closed = false
  frames : ∃ es cont groups opened, s.conn.log = log ++ es ∧
    s.conn.ws.map (·.contFrame) = some cont ∧ Grouped s.handled es cont groups opened ∧
    (b → AllKept s.handled s.conn es groups opened)

/-- One frame keeps the invariant, if it meets the condition where this is assumed. -/
theorem step_orderlyFrames {env : Env} {H : Handlers} {b : Prop}
    {log : List Event} {s s' : FrameReader}
    {f : WsFrame} (hH : H.LeavesFragments) (h : Orderly b log s) (hcond : b → Separate s f)
    (hs : s.step env H f = some s') : Orderly b log s' := by
  obtain ⟨es, cont, groups, opened, hlog, hcont, hgrouped, hkept⟩ := h.frames
  unfold FrameReader.step at hs
  split at hs
  · rename_i hgoing
    split at hs
    · rename_i c go hon
      cases hs
      have hopen := h.alive hgoing
      obtain ⟨ws, hws, rfl⟩ := Option.map_eq_some_iff.mp hcont
      -- what `onWebsocket` does with the frame, and with the groups
      obtain ⟨es', cont', hlog', hcont', halive, htakes, hrefused⟩ :=
        onWebsocket_takes hH hws hopen hon
      obtain ⟨groups', opened', hgrouped', hstay, hnew⟩ := hgrouped.takes htakes
      refine ⟨halive, es ++ es', cont', groups', opened', ?_, hcont',
        hgrouped', fun hb i g hg hd hne => ?_⟩
      · show c.log = _
        rw [hlog', hlog, List.append_assoc]
      · rcases Nat.lt_or_ge i s.handled.length with hi | hi
        · -- an earlier frame: the connection was open, so it was kept, and it still is
          rw [List.getElem?_append_left hi] at hg
          have hmem := (hkept hb i g hg hd hne).resolve_right fun hclosed =>
            Bool.false_ne_true (hopen.symm.trans hclosed.1)
          refine .inl ((hstay i hmem).resolve_right ?_)
          rintro ⟨hopens, hi⟩
          have hnil := hcond hb hopens ws hws
          rw [hgrouped.kept] at hnil
          have hempty := List.flatMap_eq_nil_iff.mp hnil i hi
          rw [hg] at hempty
          exact hne hempty
        · -- the new frame
          have hlt : i < (s.handled ++ [f]).length := (List.getElem?_eq_some_iff.mp hg).1
          obtain rfl : i = s.handled.length := by
            rw [List.length_append, List.length_singleton] at hlt
            omega
          rw [List.getElem?_concat_length, Option.some.injEq] at hg
          subst hg
          by_cases hrefuse : f.opcode = 0 ∧ ws.contFrame = none
          · obtain ⟨hclosed, errType, cause, herr⟩ := hrefused hrefuse.1 hrefuse.2
            exact .inr ⟨hclosed, errType, cause, List.mem_append_right _ herr⟩
          · exact .inl (hnew hd fun h0 hnone => hrefuse ⟨h0, hnone⟩)
    · cases hs
  · cases hs

/-- **Fragments.**  In every run, each payload given to `OnWSData` is made of frames of one message
    and `contFrame` of those of the last one opened, and no frame is used twice.  If no message is
    opened over the fragments of another one, every frame with a payload has been passed or is in
    `contFrame`, or the connection was closed with an error. -/
theorem fragments_kept (env : Env) (H : Handlers) (hH : H.LeavesFragments)
    (c : Conn) (ws : Websocket)
    (hws : c.ws = some ws) (hcont : ws.contFrame = none) (hopen : c.closed = false)
    (fs : List WsFrame) (s : FrameReader)
    (hr : run (FrameReader.step env H) { conn := c } fs = some s) :
    ∃ es cont groups opened, s.conn.log = c.log ++ es ∧ s.conn.ws.map (·.contFrame) = some cont ∧
      Grouped s.handled es cont groups opened ∧
      (Meets (FrameReader.step env H) Separate { conn := c } fs →
        AllKept s.handled s.conn es groups opened) := by
  have hinit : Orderly (Meets (FrameReader.step env H) Separate { conn := c } fs)
    c.log { conn := c } := by
    refine ⟨fun _ => hopen, [], none, [], [], (List.append_nil _).symm, ?_, ?_, fun _ i f hf => ?_⟩
    · rw [hws, Option.map_some, hcont]
    · refine ⟨rfl, rfl, List.nodup_nil, ?_, ?_, ?_, fun _ => rfl⟩
      · exact fun i hi => absurd hi List.not_mem_nil
      · exact fun g hg => absurd hg List.not_mem_nil
      · exact fun i hi => absurd hi List.not_mem_nil
    · rw [List.getElem?_nil] at hf
      cases hf
  exact (run_invariant (fun _ _ _ h hcond hs => step_orderlyFrames hH h hcond hs) hinit
    (Meets.of_imp id) hr).frames

/-- Handlers that leave every request unanswered. -/
def Handlers.silent : Handlers where
  onWSData := fun c _ => c
  onHTTP := fun _ c => (c, true)
  onRedis := fun _ c => (c, true)

/-- A ping and a whole message between two fragments. -/
def interleaved : List WsFrame :=
  [{ data := ascii "a", opcode := 1 }, { opcode := 9, fin := true },
    { data := ascii "x", opcode := 2, fin := true }, { data := ascii "b", fin := true }]

/-- The two fragments are one message, behind the one that came between them. -/
theorem fragments_kept_interleaved :
    Meets (FrameReader.step .plain .silent) Separate { conn := { ws := some {} } } interleaved ∧
    ∃ s, run (FrameReader.step .plain .silent) { conn := { ws := some {} } } interleaved = some s ∧
      s.conn.log.filterMap Event.wsData? = [ascii "x", ascii "ab"] ∧
      ∃ es cont groups opened, s.conn.log = [] ++ es ∧ Grouped s.handled es cont groups opened ∧
        AllKept s.handled s.conn es groups opened := by
  have hm : Meets (FrameReader.step .plain .silent) Separate
      { conn := { ws := some {} } } interleaved := by
    decide +kernel
  have hrun : ∃ s ∈ run (FrameReader.step .plain .silent) { conn := { ws := some {} } } interleaved,
      s.conn.log.filterMap Event.wsData? = [ascii "x", ascii "ab"] := by decide +kernel
  obtain ⟨s, hs, hdata⟩ := hrun
  obtain ⟨es, cont, groups, opened, hlog, -, hgrouped, hkept⟩ :=
    fragments_kept .plain .silent (fun _ _ => ⟨rfl, rfl, rfl⟩)
      { ws := some {} } {} rfl rfl rfl interleaved s hs
  exact ⟨hm, s, hs, hdata, es, cont, groups, opened, hlog, hgrouped, hkept hm⟩

/-- Two messages, the second opened over the first: only the second arrives, and the connection goes
    on. -/
theorem fragment_dropped :
    ∃ s, run (FrameReader.step .plain .silent) { conn := { ws := some {} } }
        [{ data := ascii "a", opcode := 1 }, { data := ascii "b", opcode := 1 },
          { data := ascii "c", fin := true }] = some s ∧
      s.conn.log = [.wsData (ascii "bc")] ∧ s.conn.ws.map (·.contFrame) = some none ∧
      s.going = true ∧ s.conn.closed = false := by
  have hrun : ∃ s ∈ run (FrameReader.step .plain .silent) { conn := { ws := some {} } }
        [{ data := ascii "a", opcode := 1 }, { data := ascii "b", opcode := 1 },
          { data := ascii "c", fin := true }],
      s.conn.log = [.wsData (ascii "bc")] ∧ s.conn.ws.map (·.contFrame) = some none ∧
        s.going = true ∧ s.conn.closed = false := by decide +kernel
  obtain ⟨s, hs, hstate⟩ := hrun
  exact ⟨s, hs, hstate⟩

end Resh.Server
