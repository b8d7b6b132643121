import Resh.Rfc6455
import Resh.Server.Frame
import Resh.Server.Output
import Resh.SpinLock

namespace Resh.Server

open Resh.Go

/-!
# conn.go — goroutines that share a connection

Goroutines write to a connection while the event loop reads and writes it.  Each method takes the
spin lock, loads a buffer, works on what it has loaded and stores the result, so without the lock
one of two writers would undo the other.

* `Section`, `Section.code` — the critical sections, step by step;
* `section_writeConn`, `foldl_whole` — undisturbed they are the methods of the model;
* `writers_serialise` — in every interleaving the buffers are those of the methods one by one, and
  what is sent is made of whole texts, in the order in which the lock was taken;
* `frames_unbroken` — a websocket client reads whole frames, whoever wrote them.
-/

/-- The fields that the lock protects, and the socket behind `out`. -/
structure Buffers where
  inp : Bytes := []
  out : Bytes := []
  sent : Bytes := []
  deriving DecidableEq, Repr

def Conn.buffers (c : Conn) : Buffers := ⟨c.inp, c.out, c.sent⟩

/-- A critical section. -/
inductive Section where
  /-- a method that writes the text `p`; `Write` looks at `closed` before it takes the lock -/
  | append (p : Bytes)
  | writeConn (wr : WriteResult)
  /-- `readConn`, `truncateInputBuffer` and `ReuseInputBuffer` work on the input -/
  | input (f : Bytes → Bytes)

namespace Section

/-- The steps of a section; the own value of the goroutine is the slice that it has loaded. -/
def code : Section → List (SpinLock.Micro Buffers Bytes)
  | append p => [fun x => (x.1, x.1.out), fun x => ({ x.1 with out := x.2 ++ p }, x.2)]
  | writeConn wr => [fun x => (x.1, x.1.out),
      fun x => ({ x.1 with sent := x.1.sent ++ x.2.take (WriteResult.accepted x.2 wr) }, x.2),
      fun x => ({ x.1 with out := x.2.drop (WriteResult.accepted x.2 wr) }, x.2)]
  | input f => [fun x => (x.1, x.1.inp), fun x => ({ x.1 with inp := f x.2 }, x.2)]

/-- The section undisturbed. -/
def whole (k : Section) (x : Buffers) : Buffers :=
  match k with
  | append p => { x with out := x.out ++ p }
  | writeConn wr => { x with
      sent := x.sent ++ x.out.take (WriteResult.accepted x.out wr)
      out := x.out.drop (WriteResult.accepted x.out wr) }
  | input f => { x with inp := f x.inp }

theorem exec_code (k : Section) (x : Buffers) (v : Bytes) :
    (SpinLock.exec k.code (x, v)).1 = k.whole x := by
  cases k with
  | append p => rfl
  | writeConn wr => rfl
  | input f => rfl

/-- The text that a section appends. -/
def text : Section → Option Bytes
  | append p => some p
  | _ => none

/-- What it is in the order of the lock. -/
def outAct : Section → Option OutAct
  | append p => some (.append p)
  | writeConn wr => some (.writeConn wr)
  | input _ => none

end Section

/-! ### The methods of the model -/

section Model

variable {c c' : Conn}

/-- `writeConn` is its section; closing the connection leaves the buffers alone. -/
theorem section_writeConn {wr : WriteResult} (hrun : c.writeConn wr = .ok c') :
    c'.buffers = (Section.writeConn wr).whole c.buffers := by
  obtain ⟨-, hw⟩ := Conn.written_of_writeConn hrun
  obtain ⟨hsent, hout⟩ := hw.accepted
  rw [Conn.buffers, hw.kept.2, hsent, hout]
  rfl

end Model

/-! ### Every interleaving -/

section Serial

variable {ι : Type} [DecidableEq ι]

/-- The sections one by one, as far as the buffers go. -/
theorem replay_buffers (x : Buffers × (ι → Bytes)) (ps : List (ι × Section)) :
    (SpinLock.replay Section.code x ps).1 = (ps.map Prod.snd).foldl (fun b k => k.whole b) x.1 := by
  induction ps generalizing x with
  | nil => rfl
  | cons p ps ih =>
    rw [SpinLock.replay, List.foldl_cons]
    refine (ih _).trans ?_
    rw [List.map_cons, List.foldl_cons, SpinLock.apply, Section.exec_code]

/-- The sections one by one are a run of the model. -/
theorem foldl_whole {r : OutRun} (hlock : r.conn.lock = false) (ks : List Section) :
    ∃ r', (ks.filterMap Section.outAct).foldlM outStep r = .ok r' ∧ r'.conn.lock = false ∧
      r'.appended = r.appended ++ ks.filterMap Section.text ∧
      ∀ x : Buffers, x.out = r.conn.out → x.sent = r.conn.sent →
        (ks.foldl (fun b k => k.whole b) x).out = r'.conn.out ∧
        (ks.foldl (fun b k => k.whole b) x).sent = r'.conn.sent := by
  induction ks generalizing r with
  | nil => exact ⟨r, rfl, hlock, by simp, fun x ho hs => ⟨ho, hs⟩⟩
  | cons k ks ih =>
    cases k with
    | append p =>
      obtain ⟨r', hrun, hlock', happ, hbuf⟩ := ih (r := { r with
        conn := { r.conn with out := r.conn.out ++ p }, appended := r.appended ++ [p] }) hlock
      refine ⟨r', ?_, hlock', by rw [happ, List.append_assoc]; rfl,
        fun x ho hs => hbuf _ (by simp [Section.whole, ho]) hs⟩
      show (OutAct.append p :: ks.filterMap Section.outAct).foldlM outStep r = .ok r'
      rw [List.foldlM_cons, outStep, Redis.appendOut_eq hlock]
      exact hrun
    | writeConn wr =>
      obtain ⟨c₁, hwrite, hlock₁, -⟩ := r.conn.writeConn_unlocked hlock wr
      have hsection := section_writeConn hwrite
      obtain ⟨r', hrun, hlock', happ, hbuf⟩ := ih (r := { r with
        conn := c₁, accepted := r.accepted ++ r.conn.out.take (wr.accepted r.conn.out) }) hlock₁
      refine ⟨r', ?_, hlock', happ, fun x ho hs => hbuf _ ?_ ?_⟩
      · show (OutAct.writeConn wr :: ks.filterMap Section.outAct).foldlM outStep r = _
        rw [List.foldlM_cons, outStep, hwrite]
        exact hrun
      · rw [show c₁.out = c₁.buffers.out from rfl, hsection]
        simp only [Section.whole, ho, Conn.buffers]
      · rw [show c₁.sent = c₁.buffers.sent from rfl, hsection]
        simp only [Section.whole, ho, hs, Conn.buffers]
    | input f =>
      obtain ⟨r', hrun, hlock', happ, hbuf⟩ := ih hlock
      exact ⟨r', hrun, hlock', happ, fun x ho hs => hbuf _ ho hs⟩

/-- In the middle of a section no more is sent than was there. -/
theorem exec_sent {k : Section} {done left : List (SpinLock.Micro Buffers Bytes)}
    (h : k.code = done ++ left)
    (x : Buffers) (v : Bytes) : (SpinLock.exec done (x, v)).1.sent <+: x.sent ++ x.out := by
  have htake : ∀ n, x.sent ++ x.out.take n <+: x.sent ++ x.out := fun n =>
    (List.prefix_append_right_inj _).mpr ( List.take_prefix _ _)
  have hmem : done ∈ k.code.inits := (List.mem_inits _ _).mpr ⟨left, h.symm⟩
  cases k with
  | append p =>
    simp only [Section.code, List.inits, List.map_cons, List.map_nil,
      List.mem_cons, List.not_mem_nil, or_false] at hmem
    rcases hmem with rfl | rfl | rfl
    · exact List.prefix_append _ _
    · exact List.prefix_append _ _
    · exact List.prefix_append _ _
  | writeConn wr =>
    simp only [Section.code, List.inits, List.map_cons, List.map_nil,
      List.mem_cons, List.not_mem_nil, or_false] at hmem
    rcases hmem with rfl | rfl | rfl | rfl
    · exact List.prefix_append _ _
    · exact List.prefix_append _ _
    · exact htake _
    · exact htake _
  | input f =>
    simp only [Section.code, List.inits, List.map_cons, List.map_nil,
      List.mem_cons, List.not_mem_nil, or_false] at hmem
    rcases hmem with rfl | rfl | rfl
    · exact List.prefix_append _ _
    · exact List.prefix_append _ _
    · exact List.prefix_append _ _

/-- The texts behind what was there, in the order of the lock. -/
theorem foldl_whole_bytes (x : Buffers) (ks : List Section) :
    (ks.foldl (fun b k => k.whole b) x).sent ++ (ks.foldl (fun b k => k.whole b) x).out
      = x.sent ++ x.out ++ (ks.filterMap Section.text).flatten := by
  induction ks generalizing x with
  | nil => simp
  | cons k ks ih =>
    rw [List.foldl_cons, ih]
    cases k with
    | append p => simp [Section.whole, Section.text]
    | writeConn wr =>
      rw [List.filterMap_cons_none rfl]
      simp [Section.whole]
    | input f =>
      rw [List.filterMap_cons_none rfl]
      rfl

/-- **What is sent**, at every moment. -/
theorem sent_prefix {x : Buffers × (ι → Bytes)} {s : SpinLock.State Buffers Bytes ι Section}
    (h : SpinLock.Inv Section.code x s) :
    s.shared.sent <+: x.1.sent ++ x.1.out
      ++ ((s.order.map Prod.snd).filterMap Section.text).flatten := by
  cases h with
  | free _ _ replayed =>
    have hshared : s.shared = ((s.order.map Prod.snd).foldl (fun b k => k.whole b) x.1) := by
      rw [← replay_buffers, ← replayed]
    rw [← foldl_whole_bytes, hshared]
    exact List.prefix_append _ _
  | @held t k before done left _ order split _ _ shared _ =>
    -- the section is one of the order, and its text is not sent before it ends
    have hshared : s.shared = (SpinLock.exec done ((SpinLock.replay Section.code x before).1,
        (SpinLock.replay Section.code x before).2 t)).1 := by rw [← shared]
    rw [hshared, order, List.map_append, List.filterMap_append,
      List.flatten_append, ← List.append_assoc, ← foldl_whole_bytes, ← replay_buffers]
    exact (exec_sent split _ _).trans (List.prefix_append _ _)

end Serial

/-- **Writers are serialised.**  Any goroutines, any programs, any interleaving of their steps with
    those of the event loop: one at most is in a critical section; when none is, the buffers are
    what the methods one by one make of them, in the order in which the lock was taken; and what is
    sent, at every moment, begins the texts in this order, none of them torn or lost.  The order is
    that of the program for each goroutine. -/
theorem writers_serialise {ι : Type} [DecidableEq ι] (c : Conn) (hlock : c.lock = false)
    (own : ι → Bytes) (prog : ι → List Section) (acts : List (SpinLock.Act ι))
    (s : SpinLock.State Buffers Bytes ι Section)
    (hr : run (SpinLock.step Section.code) (SpinLock.start (c.buffers, own) prog) acts = some s) :
    (∀ t u, s.inside t ≠ none → s.inside u ≠ none → t = u) ∧
      (∀ t, (s.order.filter (·.1 = t)).map Prod.snd ++ s.todo t = prog t) ∧
      ∃ r, ((s.order.map Prod.snd).filterMap Section.outAct).foldlM outStep { conn := c } = .ok r ∧
        r.appended = (s.order.map Prod.snd).filterMap Section.text ∧
        (s.lock = false → s.shared.out = r.conn.out ∧ s.shared.sent = r.conn.sent) ∧
        s.shared.sent <+: c.sent ++ c.out ++ r.appended.flatten := by
  have hinv := SpinLock.run_inv hr
  obtain ⟨r, hrun, -, happ, hbuf⟩ := foldl_whole (r := { conn := c }) hlock (s.order.map Prod.snd)
  rw [List.nil_append] at happ
  refine ⟨fun t u ht hu => hinv.eq_of_inside ht hu, fun t =>
    SpinLock.program_order hr t, r, hrun, happ, fun hfree => ?_, happ ▸ sent_prefix hinv⟩
  cases hinv with
  | held lock => rw [hfree] at lock; cases lock
  | free _ _ replayed =>
    have hshared : s.shared = ((s.order.map Prod.snd).foldl (fun b k => k.whole b) c.buffers) := by
      rw [← replay_buffers (c.buffers, own), ← replayed]
    rw [hshared]
    exact hbuf c.buffers rfl rfl

/-- Two goroutines and the event loop. -/
def twoWriters : Fin 3 → List Section
  | 0 => [.append (ascii "ab")]
  | 1 => [.append (ascii "cd")]
  | 2 => [.writeConn (.ok 3)]

/-- The second spins while the first is in its section, and the event loop sends a part of what they
    wrote. -/
def twoWritersActs : List (SpinLock.Act (Fin 3)) :=
  [.enter 0, .micro 0, .enter 1, .micro 0, .leave 0, .enter 1,
    .micro 1, .micro 1, .leave 1, .enter 2, .micro 2, .micro 2]

theorem writers_serialise_two :
    ∃ s ∈ run (SpinLock.step Section.code)
    (SpinLock.start (({} : Conn).buffers, fun _ => []) twoWriters)
        twoWritersActs, s.shared.sent <+: ascii "abcd" := by
  obtain ⟨s, hs, htexts⟩ : ∃ s ∈ run (SpinLock.step Section.code)
      (SpinLock.start (({} : Conn).buffers, fun _ => []) twoWriters) twoWritersActs,
      (s.order.map Prod.snd).filterMap Section.text = [ascii "ab", ascii "cd"] := by decide +kernel
  obtain ⟨-, -, r, -, happ, -, hpre⟩ := writers_serialise {} rfl _ _ _ s hs
  rw [happ, htexts] at hpre
  exact ⟨s, hs, hpre⟩

/-! ### Websocket frames -/

/-- A frame that `Websocket.write` makes; the opcodes of its callers are 1, 2, 8 and 10. -/
structure ServerFrame where
  typ : Fin 16
  payload : Bytes
  fits : payload.length < 2 ^ 63

namespace ServerFrame

def bytes (f : ServerFrame) : Bytes := serverFrame (UInt8.ofNat f.typ) f.payload

/-- The frame as the client reads it. -/
def read (f : ServerFrame) : Rfc6455.Frame := ⟨true, UInt8.ofNat f.typ, f.payload⟩

theorem bytes_eq (f : ServerFrame) :
    f.bytes = Rfc6455.encode (0x80 ||| UInt8.ofNat f.typ) f.payload := serverFrame_eq_encode _ _

/-- A client that has received a begin of the frames reads the complete ones. -/
theorem frames_bytes (fs : List ServerFrame) {q : Bytes} (hq : q <+: fs.flatMap bytes) :
    ∃ k tail, Rfc6455.frames q.length q = (fs.take k).map read ∧
      q = (fs.take k).flatMap bytes ++ tail ∧
      ∀ f, fs[k]? = some f → tail <+: f.bytes ∧ tail ≠ f.bytes := by
  have hbytes : ∀ gs : List ServerFrame, gs.flatMap bytes
      = (gs.map fun f => (0x80 ||| UInt8.ofNat f.typ, f.payload)).flatMap
        (fun p : UInt8 × Bytes => Rfc6455.encode p.1 p.2) := fun gs => by
    rw [List.flatMap_map]
    exact List.flatMap_congr fun f _ => f.bytes_eq
  rw [hbytes] at hq
  obtain ⟨k, tail, hframes, hsplit, htail⟩ := Rfc6455.frames_prefix (fun p hp => by
    obtain ⟨f, -, rfl⟩ := List.mem_map.mp hp
    have := f.fits
    simp only
    omega) hq le_rfl
  refine ⟨k, tail, ?_, ?_, fun f hf => ?_⟩
  · rw [hframes, ← List.map_take, List.map_map]
    refine List.map_congr_left fun f _ => ?_
    obtain ⟨h₁, h₂⟩ := firstByte f.typ
    simp only [Function.comp, h₁, h₂, read]
  · rw [hsplit, ← List.map_take, ← hbytes]
  · rw [f.bytes_eq]
    exact htail _ (by rw [List.getElem?_map, hf]; rfl)

end ServerFrame

/-- What `frameOf` says of a section: its text is that of the frame, if there is one. -/
def WritesFrame (frameOf : Section → Option ServerFrame) (k : Section) : Prop :=
  k.text = (frameOf k).map ServerFrame.bytes

/-- **Frames are unbroken.**  However many goroutines write frames to a websocket connection, and
    however the event loop sends what they have written: what the client receives is whole frames,
    in the order in which the writers took the lock, and the begin of the next one. -/
theorem frames_unbroken {ι : Type} [DecidableEq ι] (inp : Bytes) (own : ι → Bytes)
    (prog : ι → List Section) (frameOf : Section → Option ServerFrame)
    (hprog : ∀ t, ∀ k ∈ prog t, WritesFrame frameOf k) (acts : List (SpinLock.Act ι))
    (s : SpinLock.State Buffers Bytes ι Section)
    (hr : run (SpinLock.step Section.code) (SpinLock.start ({ inp := inp }, own) prog) acts
      = some s) : ∃ fs k tail, (s.order.map Prod.snd).filterMap frameOf = fs ∧
      (∀ t, (s.order.filter (·.1 = t)).map Prod.snd ++ s.todo t = prog t) ∧
      Rfc6455.frames s.shared.sent.length s.shared.sent = (fs.take k).map ServerFrame.read ∧
      s.shared.sent = (fs.take k).flatMap ServerFrame.bytes ++ tail ∧
      ∀ f, fs[k]? = some f → tail <+: f.bytes ∧ tail ≠ f.bytes := by
  have horder := fun t => SpinLock.program_order hr t
  have hmem : ∀ p ∈ s.order, WritesFrame frameOf p.2 := by
    intro p hp
    refine hprog p.1 p.2 ?_
    rw [← horder p.1]
    refine List.mem_append_left _ (List.mem_map.mpr ⟨p, List.mem_filter.mpr ⟨hp, by simp⟩, rfl⟩)
  have htexts : (s.order.map Prod.snd).filterMap Section.text
      = ((s.order.map Prod.snd).filterMap frameOf).map ServerFrame.bytes := by
    rw [List.map_filterMap]
    refine List.filterMap_congr fun k hk => ?_
    obtain ⟨p, hp, rfl⟩ := List.mem_map.mp hk
    exact hmem p hp
  have hsent := sent_prefix (SpinLock.run_inv hr)
  rw [htexts, ← List.flatMap_def] at hsent
  obtain ⟨k, tail, hframes, hsplit, htail⟩ := ServerFrame.frames_bytes _ hsent
  exact ⟨_, k, tail, rfl, horder, hframes, hsplit, htail⟩

/-- Goroutines that write a text frame and a binary one, and the event loop. -/
def frameWriters : Fin 3 → List Section
  | 0 => [.append (serverFrame 1 (ascii "hello"))]
  | 1 => [.append (serverFrame 2 [0, 255])]
  | 2 => [.writeConn (.ok 3), .writeConn (.again 5)]

/-- The frame that a section writes, if it is a short one. -/
def frameIn : Section → Option ServerFrame
  | .append (b :: n :: p) =>
    if h : b.toNat - 128 < 16 ∧ p.length < 2 ^ 63 then
      if serverFrame (UInt8.ofNat (b.toNat - 128)) p = b :: n :: p then some
        ⟨⟨b.toNat - 128, h.1⟩, p, h.2⟩
      else none
    else none
  | _ => none

theorem frames_unbroken_two :
    ∃ s ∈ run (SpinLock.step Section.code)
    (SpinLock.start ({ inp := [] }, fun _ => []) frameWriters)
        [.enter 1, .micro 1, .enter 0, .micro 1, .leave 1, .enter 2,
          .micro 2, .micro 2, .micro 2, .leave 2,
          .enter 0, .micro 0, .micro 0, .leave 0, .enter 2, .micro 2, .micro 2],
      ∃ k, Rfc6455.frames s.shared.sent.length s.shared.sent
        = ([⟨true, 2, [0, 255]⟩, ⟨true, 1, ascii "hello"⟩] : List Rfc6455.Frame).take k := by
  obtain ⟨s, hs, hfs⟩ : ∃ s ∈ run (SpinLock.step Section.code)
      (SpinLock.start ({ inp := [] }, fun _ => []) frameWriters)
      [.enter 1, .micro 1, .enter 0, .micro 1, .leave 1, .enter 2,
        .micro 2, .micro 2, .micro 2, .leave 2,
        .enter 0, .micro 0, .micro 0, .leave 0, .enter 2, .micro 2, .micro 2],
      ((s.order.map Prod.snd).filterMap frameIn).map ServerFrame.read
        = [⟨true, 2, [0, 255]⟩, ⟨true, 1, ascii "hello"⟩] := by decide +kernel
  have hprog : ∀ t, ∀ k ∈ frameWriters t, WritesFrame frameIn k := by
    unfold WritesFrame
    decide +kernel
  obtain ⟨fs, k, tail, rfl, -, hframes, -⟩ :=
    frames_unbroken [] (fun _ => []) frameWriters frameIn hprog _ s hs
  exact ⟨s, hs, k, by rw [hframes, List.map_take, hfs]⟩

end Resh.Server
