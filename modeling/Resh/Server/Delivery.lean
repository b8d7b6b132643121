import Resh.Server.Websocket

namespace Resh.Server

open Resh.Go

/-!
# Delivery of a WebSocket stream

A client sends a list of frames; the server sees their encoding in reads of any size.

* `parseNext_spec` — the `PARSE_NEXT` loop handles just the complete frames of its buffer;
* `turn_inStep`, `turns_inStep` — one turn of the event loop, and a run, keep the connection in
  step with the stream;
* `ws_delivery` — after any run of reads and writes, the events, the output and the rest of the
  input are those of the complete frames received so far.
-/

/-! ### The `PARSE_NEXT` loop -/

section Loop

variable {env : Env} {H : Handlers}

/-- The first frame stands in front of the others. -/
theorem encodeAll_cons (f : ClientFrame) (fs : List ClientFrame) :
    encodeAll (f :: fs) = f.encode ++ encodeAll fs := rfl

/-- A frame is longer than its payload by two bytes at least. -/
theorem length_encode_ge (f : ClientFrame) : f.payload.length + 2 ≤ f.encode.length := by
  have hfield : 0 < (f.form.field f.payload.length).length := by
    cases f.form <;> simp [LenForm.field]
  simp [ClientFrame.encode]
  omega

/-- An open message holds no more than was received. -/
theorem length_openNext_le (o : Option Bytes) (f : ClientFrame) :
    ((openNext o f).getD []).length ≤ (o.getD []).length + f.payload.length := by
  unfold openNext
  repeat' split
  all_goals simp

/-- The opened message after a list of frames. -/
def openAfter (o : Option Bytes) (fs : List ClientFrame) : Option Bytes := fs.foldl openNext o

/-- A round without a complete frame keeps the buffer. -/
theorem parseNext_more {wr : WriteResult} {o : Option Bytes} {c : Conn} {buf : Bytes} (n : ℕ)
    (hc : Upgraded o c) (hfit : ((c.inp ++ buf).length : ℤ) ≤ env.requestMaxBytes)
    (hmore : parseFrame (c.inp ++ buf) = .more) :
    ∃ c', Conn.parseNext env H wr (n + 1) buf c = .ok c' ∧ Did H c [] c' ∧ Upgraded o c' ∧
      c'.inp = c.inp ++ buf := by
  obtain ⟨ws, hws, hwc, hcont⟩ := hc.ws
  rw [Conn.parseNext]
  simp only [Conn.spinLock_eq hc.unlocked, bind, Except.bind,
    if_neg (not_lt.mpr hfit), hws, hwc, hmore]
  exact ⟨_, rfl, .quiet rfl rfl, ⟨hc.alive, rfl, ws, rfl, hwc, hcont⟩, rfl⟩

/-- A round with a frame in front takes it off the buffer and handles it. -/
theorem parseNext_frame {wr : WriteResult} {o : Option Bytes} {c : Conn} {buf t : Bytes}
    {f : ClientFrame} (n : ℕ) (hc : Upgraded o c) (htext : c.inp ++ buf = f.encode ++ t)
    (hmax : env.requestMaxBytes < 2 ^ 63)
    (hfit : ((c.inp ++ buf).length : ℤ) ≤ env.requestMaxBytes) :
    ∃ c₁, Did H c [] c₁ ∧ Upgraded o c₁ ∧ c₁.inp = t ∧
      Conn.parseNext env H wr (n + 1) buf c = (do
        let (c₂, go) ← Conn.onWebsocket env H f.toWsFrame c₁
        if go then if t.length > 0 then Conn.parseNext env H wr n [] c₂ else c₂.finishRead wr
        else .ok c₂) := by
  obtain ⟨ws, hws, hwc, hcont⟩ := hc.ws
  have hlen : f.encode.length + t.length < 2 ^ 63 := by
    rw [htext, List.length_append] at hfit; omega
  obtain ⟨b, hb, hblen, hdrop⟩ := parse_encode f t (by omega)
  have hslice : slice? b f.toWsFrame.len b.length = some t := by
    have hle : f.encode.length ≤ b.length := by rw [hblen, List.length_append]; omega
    have h := slice?_eq_some b hle le_rfl
    rw [List.take_length, hdrop] at h
    exact h
  refine ⟨{ c with inp := t, ws := some { ws with parsedFrame := f.toWsFrame }, lock := false },
    .quiet rfl rfl, ⟨hc.alive, rfl, _, rfl, hwc, hcont⟩, rfl, ?_⟩
  have htrunc := Conn.truncateInputBuffer_eq (c := { c with
    inp := b, ws := some { ws with parsedFrame := f.toWsFrame }, lock := false }) rfl hslice
  rw [Conn.parseNext]
  simp only [Conn.spinLock_eq hc.unlocked, bind, Except.bind, if_neg (not_lt.mpr hfit), hws, hwc,
    Bool.false_eq_true, if_false]
  rw [htext, hb]
  rw [hwc] at htrunc
  simp only [Conn.spinUnlock, htrunc]

/-- **The loop handles the complete frames of its buffer** and leaves the rest. -/
theorem parseNext_spec (hH : H.OnlyWrites) (hmax : env.requestMaxBytes < 2 ^ 63) {wr : WriteResult}
    (hwr : wr.Sound) {tail : Bytes} (hmore : parseFrame tail = .more) (now : List ClientFrame)
    (o : Option Bytes) (c : Conn) (buf : Bytes) (n : ℕ) (hc : Upgraded o c)
    (htext : c.inp ++ buf = encodeAll now ++ tail) (hlegal : Legal o now)
    (hsize : ((o.getD []).length + (encodeAll now ++ tail).length : ℤ) ≤ env.requestMaxBytes)
    (hn : now.length < n) :
    ∃ c', Conn.parseNext env H wr n buf c = .ok c' ∧ Did H c (deliver o now) c' ∧
      ((∃ f ∈ now, f.opcode = 8) → c'.closed = true) ∧
      ((∀ f ∈ now, f.opcode ≠ 8) → Upgraded (openAfter o now) c' ∧ c'.inp = tail) := by
  obtain ⟨n, rfl⟩ : ∃ m, n = m + 1 := ⟨n - 1, by omega⟩
  -- by induction over the frames that are complete; every round takes one
  induction now generalizing o c buf n with
  | nil =>
    have hall : c.inp ++ buf = tail := htext
    obtain ⟨c', h₁, h₂, h₃, h₄⟩ := @parseNext_more env H wr o c buf n hc
      (by rw [htext]; omega) (by rw [hall]; exact hmore)
    exact ⟨c', h₁, h₂, by simp, fun _ => ⟨h₃, h₄.trans hall⟩⟩
  | cons f now ih =>
    rw [encodeAll_cons, List.append_assoc] at htext hsize
    obtain ⟨c₁, hd₁, hc₁, hinp₁, hstep⟩ := @parseNext_frame env H wr o c buf _ f n hc
      htext hmax (by rw [htext]; omega)
    have hpay := length_encode_ge f
    rw [List.length_append] at hsize
    have hhandled : Handled env H f o c₁ :=
      onWebsocket_spec hH hmax hc₁ ⟨hlegal.1, trivial⟩ (by rw [List.length_append]; omega)
    obtain ⟨c₂, hon, hd₂, hinp₂, hclose, hopen⟩ := hhandled
    have hd := hd₁.trans hd₂
    rw [List.nil_append] at hd
    rw [hstep, hon]
    simp only [bind, Except.bind]
    by_cases h8 : f.opcode = 8
    · -- The close frame ends the loop.
      refine ⟨c₂, by simp [h8], by simpa [deliver, h8] using hd, fun _ => hclose h8, fun hno => ?_⟩
      exact absurd h8 (hno f (by simp))
    · have hc₂ := hopen h8
      have hgo : decide (f.opcode ≠ 8) = true := by simpa using h8
      have hlen := length_openNext_le o f
      rw [hgo]
      simp only [if_true]
      have hsize' : (((openNext o f).getD []).length + (encodeAll now ++ tail).length : ℤ)
          ≤ env.requestMaxBytes := by omega
      have hdeliver : deliver o (f :: now) = frameEvents o f ++ deliver (openNext o f) now := by
        rw [deliver, if_neg h8]
      have hall : (∀ g ∈ f :: now, g.opcode ≠ 8) ↔ ∀ g ∈ now, g.opcode ≠ 8 := by simp [h8]
      have hex : (∃ g ∈ f :: now, g.opcode = 8) ↔ ∃ g ∈ now, g.opcode = 8 := by simp [h8]
      rw [hdeliver, hall, hex]
      -- the source goes round again only if something is left in the buffer
      by_cases hrem : (encodeAll now ++ tail).length > 0
      · obtain ⟨m, rfl⟩ : ∃ m, n = m + 1 := ⟨n - 1, by simp at hn; omega⟩
        obtain ⟨c', h₁, h₂, h₃, h₄⟩ := ih (openNext o f) c₂ [] hc₂
          (by rw [List.append_nil, hinp₂, hinp₁]) hlegal.2 hsize' m (by simp at hn; omega)
        rw [if_pos hrem]
        exact ⟨c', h₁, hd.trans h₂, h₃, h₄⟩
      · -- Nothing is left in the buffer.
        have hnil : encodeAll now ++ tail = [] := List.length_eq_zero_iff.mp (by omega)
        obtain ⟨hnow, htail⟩ := List.append_eq_nil_iff.mp hnil
        have hnow' : now = [] := by
          cases now with
          | nil => rfl
          | cons g gs =>
            have := length_encode_ge g
            rw [encodeAll_cons] at hnow
            have hg := congrArg List.length (List.append_eq_nil_iff.mp hnow).1
            rw [List.length_nil] at hg
            omega
        subst hnow' htail
        obtain ⟨c', h₁, h₂, h₃, h₄⟩ := finishRead_spec hc₂ hwr
        rw [if_neg hrem]
        refine ⟨c', h₁, by simpa [deliver] using hd.trans h₂, by simp, fun _ => ⟨h₃, ?_⟩⟩
        rw [h₄, hinp₂, hinp₁]
        rfl

end Loop

/-! ### Whole runs -/

/-- What is left of the stream behind its complete frames: a proper cut of the next frame. -/
def Cut (tail : Bytes) : List ClientFrame → Prop
  | [] => tail = []
  | f :: _ => tail <+: f.encode ∧ tail ≠ f.encode

/-- On a cut the parser waits for the rest of the frame. -/
theorem Cut.parse_more {tail : Bytes} {rest : List ClientFrame} (h : Cut tail rest)
    (hlen : (encodeAll rest).length < 2 ^ 63) : parseFrame tail = .more := by
  cases rest with
  | nil => rw [show tail = [] from h]; rfl
  | cons f rest =>
    rw [encodeAll_cons, List.length_append] at hlen
    exact parse_cut f (by omega) h.1 h.2

/-- Every prefix of a stream is its complete frames and a cut. -/
theorem exists_cut (fs : List ClientFrame) {s : Bytes} (h : s <+: encodeAll fs) :
    ∃ now rest tail, fs = now ++ rest ∧ s = encodeAll now ++ tail ∧ Cut tail rest := by
  induction fs generalizing s with
  | nil => exact ⟨[], [], [], rfl, List.prefix_nil.mp h, rfl⟩
  | cons f fs ih =>
    rw [encodeAll_cons] at h
    by_cases hlt : s.length < f.encode.length
    · refine ⟨[], f :: fs, s, rfl, rfl, List.prefix_of_prefix_length_le
        h (List.prefix_append _ _) hlt.le, ?_⟩
      rintro rfl
      omega
    · obtain ⟨s', rfl⟩ := List.prefix_of_prefix_length_le (List.prefix_append _ _) h (not_lt.mp hlt)
      obtain ⟨now, rest, tail, rfl, rfl, hcut⟩ := ih ((List.prefix_append_right_inj _).mp h)
      exact ⟨f :: now, rest, tail, rfl, by rw [encodeAll_cons, List.append_assoc], hcut⟩

/-- A turn without an I/O error. -/
def Turn.Sound : Turn → Prop
  | read (.data d) wr => d ≠ [] ∧ wr.Sound
  | read .again _ => True
  | read (.error _) _ => False
  | write wr => wr.Sound

/-- The bytes that a run reads. -/
def received (ts : List Turn) : Bytes := ts.flatMap Turn.input

/-- **In step with the stream**: of the frames, `r` is received; the connection did what its
    complete frames ask for, and holds what is left. -/
def InStep (H : Handlers) (frames : List ClientFrame) (c₀ : Conn) (r : Bytes) (c : Conn) : Prop :=
  ∃ done rest tail, frames = done ++ rest ∧ r = encodeAll done ++ tail ∧ Cut tail rest ∧
    Did H c₀ (deliver none done) c ∧ ((∃ f ∈ done, f.IsClose) → c.closed = true) ∧
    ((∀ f ∈ done, ¬ f.IsClose) → Upgraded (openAfter none done) c ∧ c.inp = tail)

/-- Nothing is delivered behind a close frame. -/
theorem deliver_append_of_close {fs : List ClientFrame} (h : ∃ f ∈ fs, f.opcode = 8)
    (o : Option Bytes) (gs : List ClientFrame) : deliver o (fs ++ gs) = deliver o fs := by
  induction fs generalizing o with
  | nil => obtain ⟨f, hf, -⟩ := h; exact absurd hf (by simp)
  | cons f fs ih =>
    by_cases h8 : f.opcode = 8
    · simp [deliver, h8]
    · have hrest : ∃ g ∈ fs, g.opcode = 8 := by simpa [h8] using h
      simp only [List.cons_append, deliver, if_neg h8, ih hrest]

/-- Without a close frame the deliveries of the two parts follow one another, and the second part
    starts with the message that the first one left open. -/
theorem deliver_append {fs : List ClientFrame} (h : ∀ f ∈ fs, f.opcode ≠ 8) (o : Option Bytes)
    (gs : List ClientFrame) :
    deliver o (fs ++ gs) = deliver o fs ++ deliver (openAfter o fs) gs := by
  induction fs generalizing o with
  | nil => rfl
  | cons f fs ih =>
    have h8 : f.opcode ≠ 8 := h f (by simp)
    simp only [List.cons_append, deliver, if_neg h8, ih (fun g hg => h g (by simp [hg])),
      List.append_assoc]
    rfl

/-- The rest of a legal stream is legal, from the message that is open there. -/
theorem legal_append {fs gs : List ClientFrame} {o : Option Bytes} (h : Legal o (fs ++ gs)) :
    Legal (openAfter o fs) gs := by
  induction fs generalizing o with
  | nil => exact h
  | cons f fs ih => exact ih h.2

/-- A legal stream is legal up to any point. -/
theorem legal_left {fs gs : List ClientFrame} {o : Option Bytes} (h : Legal o (fs ++ gs)) :
    Legal o fs := by
  induction fs generalizing o with
  | nil => trivial
  | cons f fs ih => exact ⟨h.1, ih h.2⟩

/-- What has been collected of an open message has been received, so it is no longer than the
    stream. -/
theorem length_openAfter_le (fs : List ClientFrame) (o : Option Bytes) :
    ((openAfter o fs).getD []).length ≤ (o.getD []).length + (encodeAll fs).length := by
  induction fs generalizing o with
  | nil => simp [openAfter]
  | cons f fs ih =>
    have h₁ := ih (openNext o f)
    have h₂ := length_openNext_le o f
    have h₃ := length_encode_ge f
    rw [encodeAll_cons, List.length_append]
    show ((openAfter (openNext o f) fs).getD []).length ≤ _
    omega

/-- There are no more frames than bytes. -/
theorem length_le_encodeAll (fs : List ClientFrame) : fs.length ≤ (encodeAll fs).length := by
  induction fs with
  | nil => simp
  | cons f fs ih =>
    have := length_encode_ge f
    rw [encodeAll_cons, List.length_append, List.length_cons]
    omega

section Run

variable {env : Env} {H : Handlers} {frames : List ClientFrame} {c₀ c : Conn} {r : Bytes}

/-- **One turn keeps the connection in step.** -/
theorem turn_inStep (hH : H.OnlyWrites) (hmax : env.requestMaxBytes < 2 ^ 63)
    (hlegal : Legal none frames) (hsize : ((encodeAll frames).length : ℤ) ≤ env.requestMaxBytes)
    (hin : InStep H frames c₀ r c) (t : Turn) (ht : t.Sound)
    (hpre : r ++ t.input <+: encodeAll frames) :
    ∃ c', c.turn env H t = .ok c' ∧ InStep H frames c₀ (r ++ t.input) c' := by
  obtain ⟨done, rest, tail, rfl, rfl, hcut, hdid, hclosed, hopen⟩ := hin
  have hall : encodeAll (done ++ rest) = encodeAll done ++ encodeAll rest := by simp [encodeAll]
  rw [hall, List.append_assoc, List.prefix_append_right_inj] at hpre
  rw [hall, List.length_append] at hsize
  by_cases h8 : ∃ f ∈ done, f.opcode = 8
  · -- A closed connection is not found any more.
    obtain ⟨now, rest', tail', rfl, htail, hcut'⟩ := exists_cut rest hpre
    refine ⟨c, by unfold Conn.turn; rw [if_pos (hclosed h8)], done ++ now,
      rest', tail', by simp, ?_,
      hcut', by rw [deliver_append_of_close h8]; exact hdid, fun _ => hclosed h8, fun hno => ?_⟩
    · rw [List.append_assoc, htail]; simp [encodeAll]
    · obtain ⟨f, hf, hf8⟩ := h8
      exact absurd hf8 (hno f (by simp [hf]))
  have hno : ∀ f ∈ done, f.opcode ≠ 8 := fun f hf hf8 => h8 ⟨f, hf, hf8⟩
  obtain ⟨hc, hinp⟩ := hopen hno
  have hopened := length_openAfter_le done none
  have hlegal' := legal_append hlegal
  -- A turn that reads nothing.
  have hquiet : ∀ c', Did H c [] c' → Upgraded (openAfter none done) c' → c'.inp = c.inp →
      InStep H (done ++ rest) c₀ (encodeAll done ++ tail ++ []) c' := by
    intro c' hd hc' hinp'
    have hd' := hdid.trans hd
    rw [List.append_nil] at hd'
    exact ⟨done, rest, tail, rfl, by rw [List.append_nil], hcut, hd', fun h => absurd h h8,
      fun _ => ⟨hc', hinp'.trans hinp⟩⟩
  unfold Conn.turn
  rw [hc.alive]
  simp only [Bool.false_eq_true, if_false]
  cases t with
  | write wr =>
    obtain ⟨c', h₁, h₂, h₃, h₄⟩ := writeConn_spec hc ht
    exact ⟨c', h₁, hquiet c' h₂ h₃ h₄⟩
  | read rd wr =>
    cases rd with
    | error text => exact absurd ht id
    | again => exact ⟨c, rfl, hquiet c (Did.refl c) hc rfl⟩
    | data d =>
      obtain ⟨hd, hwr⟩ := ht
      obtain ⟨now, rest', tail', rfl, htail, hcut'⟩ := exists_cut rest hpre
      have hread : c.readConn env H (.data d) wr
          = Conn.parseNext env H wr (c.inp.length + d.length + 1) d c := by
        cases d with
        | nil => exact absurd rfl hd
        | cons b d => rfl
      have htext : c.inp ++ d = encodeAll now ++ tail' := by rw [hinp]; exact htail
      have hlen : (encodeAll (now ++ rest')).length = (encodeAll now).length
          + (encodeAll rest').length := by
        simp [encodeAll]
      have hcutlen : tail'.length ≤ (encodeAll rest').length := by
        cases rest' with
        | nil => rw [show tail' = [] from hcut']; simp
        | cons f _ => rw [encodeAll_cons, List.length_append]; have := hcut'.1.length_le; omega
      have hfuel : now.length < c.inp.length + d.length + 1 := by
        have h₁ := length_le_encodeAll now
        have h₂ := congrArg List.length htext
        rw [List.length_append, List.length_append] at h₂
        omega
      simp only [Option.getD_none, List.length_nil] at hopened
      obtain ⟨c', h₁, h₂, h₃, h₄⟩ := parseNext_spec hH hmax hwr (hcut'.parse_more (by omega)) now
        (openAfter none done) c d _ hc htext (legal_left hlegal')
        (by rw [List.length_append]; push_cast; omega) hfuel
      refine ⟨c', hread.trans h₁, done ++ now, rest', tail', by simp, ?_, hcut', ?_, ?_, ?_⟩
      · rw [List.append_assoc, show tail ++ Turn.input (.read (.data d) wr)
          = encodeAll now ++ tail' from htail]
        simp [encodeAll]
      · rw [deliver_append hno]; exact hdid.trans h₂
      · rintro ⟨f, hf, hf8⟩
        rcases List.mem_append.mp hf with hf | hf
        · exact absurd hf8 (hno f hf)
        · exact h₃ ⟨f, hf, hf8⟩
      · intro hall'
        have := h₄ (fun f hf => hall' f (by simp [hf]))
        rwa [openAfter, openAfter, ← List.foldl_append] at this

/-- **A run keeps the connection in step.** -/
theorem turns_inStep (hH : H.OnlyWrites) (hmax : env.requestMaxBytes < 2 ^ 63)
    (hlegal : Legal none frames) (hsize : ((encodeAll frames).length : ℤ) ≤ env.requestMaxBytes)
    (ts : List Turn) (hts : ∀ t ∈ ts, t.Sound) (hin : InStep H frames c₀ r c)
    (hpre : r ++ received ts <+: encodeAll frames) :
    ∃ c', c.turns env H ts = .ok c' ∧ InStep H frames c₀ (r ++ received ts) c' := by
  induction ts generalizing r c with
  | nil => exact ⟨c, rfl, by simpa [received] using hin⟩
  | cons t ts ih =>
    have hsplit : r ++ received (t :: ts) = r ++ t.input ++ received ts := by simp [received]
    rw [hsplit] at hpre ⊢
    obtain ⟨c₁, h₁, hin₁⟩ := turn_inStep hH hmax hlegal hsize hin t (hts t (by simp))
      ((List.prefix_append _ _).trans hpre)
    obtain ⟨c₂, h₂, hin₂⟩ := ih (fun u hu => hts u (by simp [hu])) hin₁ hpre
    refine ⟨c₂, ?_, hin₂⟩
    rw [Conn.turns, List.foldlM_cons, h₁]
    exact h₂

/-- **WebSocket delivery.** Over any run of reads and writes without I/O errors that reads a
    prefix of the stream: the handler is called with the completed messages once each and in order,
    and what it writes is in the output; every ping is answered in its place, with a frame that a
    client reads as the pong; a close frame ends it, and the input buffer holds the rest. -/
theorem ws_delivery (hH : H.OnlyWrites) (hmax : env.requestMaxBytes < 2 ^ 63)
    (hlegal : Legal none frames) (hsize : ((encodeAll frames).length : ℤ) ≤ env.requestMaxBytes)
    (hc₀ : Upgraded none c₀) (hinp : c₀.inp = []) (ts : List Turn) (hts : ∀ t ∈ ts, t.Sound)
    (hpre : received ts <+: encodeAll frames) :
    ∃ c, c₀.turns env H ts = .ok c ∧ ∃ done rest tail, frames = done ++ rest ∧
      received ts = encodeAll done ++ tail ∧ Cut tail rest ∧ c.log = c₀.log ++ deliver none done ∧
      (∃ w, Outputs H c₀.log (c₀.sent ++ c₀.out) (deliver none done) w ∧
        c.sent ++ c.out = c₀.sent ++ c₀.out ++ w) ∧
      ((∃ f ∈ done, f.opcode = 8) → c.closed = true) ∧
      ((∀ f ∈ done, f.opcode ≠ 8) → c.closed = false ∧ c.inp = tail) := by
  have hcut : Cut [] frames := by
    cases frames with
    | nil => rfl
    | cons f fs =>
      refine ⟨List.nil_prefix, fun hnil => ?_⟩
      have := length_encode_ge f
      rw [← hnil, List.length_nil] at this
      omega
  have hstart : InStep H frames c₀ [] c₀ :=
    ⟨[], frames, [], rfl, rfl, hcut, Did.refl c₀, by simp, fun _ => ⟨hc₀, hinp⟩⟩
  obtain ⟨c, hrun, done, rest, tail, h₁, h₂, h₃, h₄, h₅, h₆⟩ :=
    turns_inStep hH hmax hlegal hsize ts hts hstart (by rw [List.nil_append]; exact hpre)
  rw [List.nil_append] at h₂
  exact ⟨c, hrun, done, rest, tail, h₁, h₂, h₃, h₄.log, h₄.output, h₅,
    fun hno => ⟨(h₆ hno).1.alive, (h₆ hno).2⟩⟩

end Run

/-- Every message is answered with the same message, in brackets. -/
def bracketing : Handlers where
  onWSData c m := { c with out := c.out ++ (ascii "<" ++ m ++ ascii ">") }
  onHTTP _ c := (c, true)
  onRedis _ c := (c, true)

/-- A ping with a 16-bit length. -/
def pingFrame : ClientFrame :=
  ⟨true, ⟨9, by decide⟩, .ext16, [9, 8, 7, 6], ascii "p", rfl, by decide⟩

/-- A ping between the two fragments of a message. -/
def pingBetween : List ClientFrame :=
  [⟨false, ⟨1, by decide⟩, .short, [1, 2, 3, 4], ascii "h", rfl, by decide⟩, pingFrame,
    ⟨true, ⟨0, by decide⟩, .short, [0, 0, 0, 1], ascii "i", rfl, by decide⟩]

/-- The stream is read in two pieces, and written in between. -/
def twoReads : List Turn :=
  [.read (.data ((encodeAll pingBetween).take 9)) (.ok 1), .write (.again 0),
    .read (.data ((encodeAll pingBetween).drop 9)) (.ok 1)]

/-- In that run the handler gets the message whole and answers it, behind the pong for the ping that
    came between its fragments. -/
theorem ws_delivery_ping :
    ∃ c, ({ ws := some {} } : Conn).turns .plain bracketing twoReads = .ok c ∧
      c.log = [.pong (ascii "p"), .wsData (ascii "hi")] ∧
      Outputs bracketing [] [] c.log (c.sent ++ c.out) ∧
      c.sent ++ c.out = [138, 1] ++ ascii "p<hi>" ∧ c.closed = false ∧ c.inp = [] := by
  have hrecv : received twoReads = encodeAll pingBetween := by decide +kernel
  obtain ⟨c, hrun, done, rest, tail, hframes, hstream, hcut, hlog, ⟨w, hw, hout⟩, -, hopen⟩ :=
    @ws_delivery .plain bracketing pingBetween { ws := some {} }
      (fun c m => ⟨_, rfl⟩) (by decide) (by decide +kernel) (by decide +kernel)
      ⟨rfl, rfl, {}, rfl, rfl, rfl⟩ rfl twoReads
      (by simp [twoReads, Turn.Sound, WriteResult.Sound]; decide +kernel) (by rw [hrecv])
  have heval : (({ ws := some {} } : Conn).turns .plain bracketing twoReads).map
      (fun c => (c.log, c.sent ++ c.out, c.closed, c.inp))
      = .ok ([.pong (ascii "p"), .wsData (ascii "hi")], [138, 1] ++ ascii "p<hi>", false, []) := by
    decide +kernel
  rw [hrun] at heval
  simp only [Except.map, Except.ok.injEq, Prod.mk.injEq] at heval
  obtain ⟨hlog', hout', hclosed, hinp⟩ := heval
  refine ⟨c, hrun, hlog', ?_, hout', hclosed, hinp⟩
  rw [hout, hlog]
  exact hw

end Resh.Server
