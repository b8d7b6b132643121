import Resh.Server.Lock

namespace Resh.Server

open Resh.Go

/-!
# Frames within the buffer

The extended length of a frame has 64 bits, all of them the choice of the client.  `Websocket.parse`
converts it to an `int` and adds the length of the header before it compares with the buffer, so a
length can be negative, and the sum can wrap.

* `Overlong` — a header with such a length;
* `parseFrame_answers` — where an answer takes its payload from, for every length;
* `parseNext_rounds`, `parseNext_returns` — a round of `PARSE_NEXT` takes six bytes or more, so the
  loop ends, and it ends without a panic as long as it does not come to such a header;
* `frame_bounds` — all of it together.
-/

/-! ### The announced length -/

/-- The `int` that `parse` takes for the length of the payload. -/
def payloadSize (inp : Bytes) : ℤ :=
  let size := (inp.getD 1 0 &&& 0x7f).toNat
  if size = 126 then getBE ((inp.drop 2).take 2)
  else if size = 127 then wrap64 (getBE ((inp.drop 2).take 8))
  else size

/-- A complete header whose extended length is out of reach: with the 14 bytes of the header it does
    not fit into an `int`. -/
def Overlong (inp : Bytes) : Prop :=
  14 ≤ inp.length ∧ (inp.getD 1 0 &&& 0x7f).toNat = 127 ∧
    2 ^ 63 - 14 ≤ getBE ((inp.drop 2).take 8)

instance (inp : Bytes) : Decidable (Overlong inp) := inferInstanceAs (Decidable (_ ∧ _ ∧ _))

/-- `parse` waits, with the buffer left alone, or accepts a frame: its length is at least 6 and at
    most that of the buffer, its payload is `in[len - size : len]` of the buffer after the
    unmasking, and nothing else of the buffer has changed. -/
def InBounds (inp : Bytes) : Prop :=
  parseFrame inp = .more ∨ ∃ f b, parseFrame inp = .ok (f, b) ∧ 6 ≤ f.len ∧ f.len ≤ inp.length ∧
    slice? b (f.len - payloadSize inp) f.len = some f.data ∧
    b = splice inp (f.len - payloadSize inp).toNat f.data ∧ b.length = inp.length

/-! ### One frame -/

/-- The extended length, read as 64 bits. -/
theorem extended_lt (inp : Bytes) : getBE ((inp.drop 2).take 8) < 2 ^ 64 := by
  have hpow : 256 ^ ((inp.drop 2).take 8).length ≤ 256 ^ 8 :=
    Nat.pow_le_pow_right (by omega) (List.length_take_le 8 _)
  exact (getBE_lt _).trans_le (hpow.trans (by norm_num))

section Parse

variable {inp : Bytes} {moff off : ℕ} {size : ℤ} {f : WsFrame}

/-- A sum that is negative or wraps ends in front of the payload. -/
theorem parsePayload_panic (h : wrap64 (off + size) < off) :
    parsePayload inp moff off size f = .panic := by
  unfold parsePayload
  simp only [slice?_eq_none inp h]

/-- Once the payload is there, the parser does not wait. -/
theorem parsePayload_ne_more : parsePayload inp moff off size f ≠ .more := by
  unfold parsePayload
  simp only
  split <;> simp

/-- A payload inside the buffer. -/
theorem parsePayload_ok {n : ℕ} (hn : off + n ≤ inp.length) (hlen : inp.length < 2 ^ 63) (moff : ℕ)
    (f : WsFrame) :
    ∃ data, data.length = n ∧ parsePayload inp moff off n f
      = .ok ({ f with data := data, len := (off + n : ℕ) }, splice inp off data) := by
  have hstop : wrap64 (off + (n : ℤ)) = ((off + n : ℕ) : ℤ) := by
    rw [wrap64_of_inInt64 (by unfold InInt64; omega)]
    omega
  refine ⟨xorMask ((inp.drop moff).take 4) ((inp.take (off + n)).drop off), ?_, ?_⟩
  · rw [xorMask_length, List.length_drop, List.length_take]
    omega
  · have hslice : slice? inp off (off + n : ℕ) = some ((inp.take (off + n)).drop off) :=
      slice?_eq_some inp (by omega) hn
    rw [parsePayload, hstop, hslice]

/-- **Where an answer comes from.**  The payload begins behind a header of at least 6 bytes that is
    there in full.  It lies in the buffer, unless the header is overlong. -/
theorem parseFrame_answers (h : parseFrame inp ≠ .more) :
    ∃ moff off f, 6 ≤ off ∧ off ≤ inp.length ∧
      parseFrame inp = parsePayload inp moff off (payloadSize inp) f ∧
      (Overlong inp → wrap64 (off + payloadSize inp) < off) ∧
      (¬ Overlong inp → 0 ≤ payloadSize inp ∧ off + payloadSize inp ≤ inp.length) := by
  match inp with
  | [] => exact absurd rfl h
  | [_] => exact absurd rfl h
  | b0 :: b1 :: rest =>
    have hget : (b0 :: b1 :: rest).getD 1 0 = b1 := rfl
    simp only [parseFrame] at h
    split at h
    · rename_i h126
      split at h
      · exact absurd rfl h
      split at h
      · exact absurd rfl h
      rename_i h₁ h₂
      -- 16 bits for the length: a header of 8 bytes
      have hsize : payloadSize (b0 :: b1 :: rest) = getBE (((b0 :: b1 :: rest).drop 2).take 2) := by
        simp only [payloadSize, hget]
        rw [if_pos h126]
      refine ⟨4, 8, { opcode := b0 &&& 0xf, fin := b0 >>> 7 > 0 }, by omega, by omega, ?_, ?_, ?_⟩
      · simp only [parseFrame]
        rw [if_pos h126, if_neg h₁, if_neg h₂, hsize]
      · rintro ⟨-, h127, -⟩
        rw [hget, h126] at h127
        cases h127
      · rw [hsize]
        omega
    · rename_i h126
      split at h
      · rename_i h127
        split at h
        · exact absurd rfl h
        split at h
        · exact absurd rfl h
        rename_i h₁ h₂
        have hsize : payloadSize (b0 :: b1 :: rest)
            = wrap64 (getBE (((b0 :: b1 :: rest).drop 2).take 8)) := by
          simp only [payloadSize, hget]
          rw [if_neg h126, if_pos h127]
        -- 64 bits, read as an `int`: a header of 14 bytes, and the sum may wrap
        have hbig := extended_lt (b0 :: b1 :: rest)
        refine ⟨10, 14, { opcode := b0 &&& 0xf, fin := b0 >>> 7 > 0 },
          by omega, by omega, ?_, ?_, ?_⟩
        · simp only [parseFrame]
          rw [if_neg h126, if_pos h127, if_neg h₁, if_neg h₂, hsize]
        · rintro ⟨-, -, hlong⟩
          rw [hsize]
          unfold wrap64
          omega
        · intro hshort
          have hfield : getBE (((b0 :: b1 :: rest).drop 2).take 8) < 2 ^ 63 - 14 := by
            by_contra hge
            exact hshort ⟨by omega, h127, by omega⟩
          rw [hsize]
          unfold wrap64 at h₂ ⊢
          omega
      · rename_i h127
        split at h
        · exact absurd rfl h
        rename_i h₁
        -- the length is in the second byte: a header of 6 bytes
        have hsize : payloadSize (b0 :: b1 :: rest) = (b1 &&& 0x7f).toNat := by
          simp only [payloadSize, hget]
          rw [if_neg h126, if_neg h127]
        refine ⟨2, 6, { opcode := b0 &&& 0xf, fin := b0 >>> 7 > 0 }, by omega, by omega, ?_, ?_, ?_⟩
        · simp only [parseFrame]
          rw [if_neg h126, if_neg h127, if_neg h₁, hsize]
        · rintro ⟨-, h127', -⟩
          exact absurd h127' h127
        · rw [hsize]
          omega

/-- An overlong header is not waited for. -/
theorem parseFrame_ne_more (h : Overlong inp) : parseFrame inp ≠ .more := by
  obtain ⟨hlen, h127, hlong⟩ := h
  match inp with
  | [] => exact absurd hlen (by decide)
  | [_] => exact absurd hlen (by simp)
  | b0 :: b1 :: rest =>
    have hsize : (b1 &&& 0x7f).toNat = 127 := h127
    have hbig := extended_lt (b0 :: b1 :: rest)
    have hsum : ¬ ((b0 :: b1 :: rest).length : ℤ)
        < wrap64 (2 + 2 + 6 + 4 + wrap64 (getBE (((b0 :: b1 :: rest).drop 2).take 8))) := by
      unfold wrap64
      omega
    have h126 : ¬ (b1 &&& 0x7f).toNat = 126 := by omega
    have hfull : ¬ (b0 :: b1 :: rest).length < 2 + 2 + 6 + 4 := by omega
    simp only [parseFrame]
    rw [if_neg h126, if_pos hsize, if_neg hfull, if_neg hsum]
    exact parsePayload_ne_more

/-- A frame whose length is overlong makes the parser panic: a slice expression gets bounds that
    cross, or lie outside. -/
theorem parseFrame_panic (h : Overlong inp) : parseFrame inp = .panic := by
  obtain ⟨moff, off, f, -, -, heq, hover, -⟩ := parseFrame_answers (parseFrame_ne_more h)
  rw [heq]
  exact parsePayload_panic (hover h)

/-- **A frame in bounds.** -/
theorem inBounds_of_not_overlong (hlen : inp.length < 2 ^ 63) (h : ¬ Overlong inp) :
    InBounds inp := by
  by_cases hmore : parseFrame inp = .more
  · exact .inl hmore
  · obtain ⟨moff, off, f, hoff, -, heq, -, hin⟩ := parseFrame_answers hmore
    obtain ⟨hpos, hle⟩ := hin h
    obtain ⟨n, hn⟩ := Int.eq_ofNat_of_zero_le hpos
    rw [hn] at hle heq
    have hle' : off + n ≤ inp.length := by omega
    obtain ⟨data, hdata, hok⟩ := parsePayload_ok hle' hlen moff f
    have hb : (splice inp off data).length = inp.length := splice_length (by omega)
    refine .inr ⟨_, _, heq.trans hok, ?_, ?_, ?_, ?_, hb⟩
    · show (6 : ℤ) ≤ (off + n : ℕ)
      omega
    · show ((off + n : ℕ) : ℤ) ≤ inp.length
      omega
    · show slice? (splice inp off data) ((off + n : ℕ) - payloadSize inp) (off + n : ℕ) = some data
      have hlo : ((off + n : ℕ) : ℤ) - payloadSize inp = (off : ℕ) := by
        rw [hn]
        omega
      have htake : (inp.take off).length = off := by
        rw [List.length_take]
        omega
      rw [hlo, slice?_eq_some _ (by omega) (by omega), splice,
        ← hdata, List.take_left' (by simp [htake]), List.drop_left' htake]
    · show splice inp off data = splice inp (((off + n : ℕ) : ℤ) - payloadSize inp).toNat data
      have hlo : (((off + n : ℕ) : ℤ) - payloadSize inp).toNat = off := by
        rw [hn]
        omega
      rw [hlo]

/-- **The two cases are complementary**: a frame is within its bounds exactly when its length is not
    overlong. -/
theorem inBounds_iff (hlen : inp.length < 2 ^ 63) : InBounds inp ↔ ¬ Overlong inp := by
  refine ⟨fun hin hover => ?_, inBounds_of_not_overlong hlen⟩
  rcases hin with hmore | ⟨f, b, hok, -⟩
  · exact parseFrame_ne_more hover hmore
  · rw [parseFrame_panic hover] at hok
    cases hok

end Parse

/-! ### `PARSE_NEXT` -/

/-- The handler of messages leaves the connection a websocket. -/
def Handlers.KeepsWebsocket (H : Handlers) : Prop :=
  ∀ c m, (H.onWSData c m).ws.isSome = c.ws.isSome

/-- What is left of an input after some of the frames at its front. -/
inductive Remains : Bytes → Bytes → Prop where
  | all (inp : Bytes) : Remains inp inp
  | next {inp b rest : Bytes} {f : WsFrame} (hok : parseFrame inp = .ok (f, b))
      (h : Remains (b.drop f.len.toNat) rest) : Remains inp rest

section Loop

variable {env : Env} {H : Handlers} {wr : WriteResult} {c : Conn} {req : WsFrame}

/-- A frame is handled, and a connection that goes on is a websocket still. -/
theorem onWebsocket_goes_on (env : Env) (req : WsFrame) (hH : H.KeepsWebsocket)
    (hlock : c.lock = false) (hsome : c.ws.isSome = true) :
    ∃ c' go, c.onWebsocket env H req = .ok (c', go) ∧ (go = true → c'.ws.isSome = true) := by
  obtain ⟨ws, hws⟩ := Option.isSome_iff_exists.mp hsome
  obtain ⟨c', go, hon⟩ := Conn.onWebsocket_returns env H req hlock hws
  refine ⟨c', go, hon, fun hgo => ?_⟩
  have hdata : ∀ (d : Conn) (m : Bytes), d.ws.isSome = true → (d.onWSData H m).ws.isSome = true :=
    fun d m hd => (hH { d with log := d.log ++ [.wsData m] } m).trans hd
  obtain ⟨ws', -, h⟩ := Conn.handles_of_onWebsocket hon
  subst hgo
  cases h with
  | grows => rfl
  | finishes _ _ _ _ hd =>
    subst hd
    rw [Option.isSome_map]
    exact hdata _ _ rfl
  | ping _ hd => rw [(Conn.write_frame hd).2.1]; exact hsome
  | pong => exact hsome
  | message => exact hdata c _ hsome
  | opens => rfl

/-- The end of a read event returns whatever the write says. -/
theorem finishRead_returns (wr : WriteResult) (hlock : c.lock = false) :
    ∃ c', c.finishRead wr = .ok c' := by
  unfold Conn.finishRead
  simp only
  split
  · obtain ⟨d, hd, -⟩ := Conn.writeConn_unlocked (c := { c with srs := {} }) hlock wr
    exact ⟨d, hd⟩
  · exact ⟨_, rfl⟩

section Round

variable {ws : Websocket} {buf : Bytes}

/-- A round that finds too much input closes the connection. -/
theorem round_oversize (hlock : c.lock = false)
    (hover : env.requestMaxBytes < (c.inp ++ buf).length) (n : ℕ) : c.parseNext env H wr (n + 1) buf
      = .ok (({ c with lock := true, inp := c.inp ++ buf } : Conn).closeConnWithError
        (ascii "oversize") (some (.tooLarge (c.inp ++ buf).length))) := by
  rw [Conn.parseNext, Conn.spinLock_eq hlock]
  exact if_pos hover

/-- A round without a complete frame, or behind a close frame, keeps the bytes and ends. -/
theorem round_waits (hlock : c.lock = false) (hws : c.ws = some ws)
    (hfits : ¬ env.requestMaxBytes < (c.inp ++ buf).length)
    (hwait : ws.closed = true ∨ parseFrame (c.inp ++ buf) = .more) (n : ℕ) :
    c.parseNext env H wr (n + 1) buf = .ok { c with lock := false, inp := c.inp ++ buf } := by
  rw [Conn.parseNext, Conn.spinLock_eq hlock]
  simp only [bind, Except.bind, hws]
  rw [if_neg hfits]
  split
  · rfl
  · rename_i hopen
    rw [hwait.resolve_left hopen]
    rfl

/-- A round whose frame makes the parser panic ends the loop. -/
theorem round_panics (hlock : c.lock = false) (hws : c.ws = some ws)
    (hfits : ¬ env.requestMaxBytes < (c.inp ++ buf).length) (hopen : ¬ ws.closed = true)
    (hpanic : parseFrame (c.inp ++ buf) = .panic) (n : ℕ) :
    c.parseNext env H wr (n + 1) buf = .error .panic := by
  rw [Conn.parseNext, Conn.spinLock_eq hlock]
  simp only [bind, Except.bind, hws]
  rw [if_neg hfits, if_neg hopen, hpanic]

/-- The frame is taken off the input, and then it is handled. -/
theorem round_takes (wr : WriteResult) {f : WsFrame} {b t : Bytes}
    {c' : Conn} {go : Bool} (hlock : c.lock = false)
    (hws : c.ws = some ws) (hfits : ¬ env.requestMaxBytes < (c.inp ++ buf).length)
    (hopen : ¬ ws.closed = true) (hok : parseFrame (c.inp ++ buf) = .ok (f, b))
    (hslice : slice? b f.len b.length = some t)
    (hon : ({ c with inp := t, ws := some { ws with parsedFrame := f }, lock :=
    false } : Conn).onWebsocket
      env H f = .ok (c', go)) (n : ℕ) :
    c.parseNext env H wr (n + 1) buf
      = if go then if t.length > 0 then c'.parseNext env H wr n [] else c'.finishRead wr
        else .ok c' := by
  have htrunc := Conn.truncateInputBuffer_eq
    (c := { c with inp := b, ws := some { ws with parsedFrame := f }, lock := false }) rfl hslice
  rw [Conn.parseNext, Conn.spinLock_eq hlock]
  simp only [bind, Except.bind, hws]
  rw [if_neg hfits, if_neg hopen, hok]
  simp only [Conn.spinUnlock, htrunc, hon]

end Round

/-- **One round**: the loop ends with it, whatever the rounds that are left, or goes on behind a
    frame of at least six bytes. -/
theorem parseNext_round (env : Env) (wr : WriteResult) (hH : H.Confined) (hkeep : H.KeepsWebsocket)
    (hlock : c.lock = false) (hws : c.ws.isSome = true) (buf : Bytes)
    (hlen : (c.inp ++ buf).length < 2 ^ 63) :
    (∃ res, (∀ n, c.parseNext env H wr (n + 1) buf = res) ∧
      (¬ Overlong (c.inp ++ buf) → ∃ c', res = .ok c')) ∨
    ∃ (c' : Conn) (f : WsFrame) (b : Bytes), parseFrame (c.inp ++ buf) = .ok (f, b) ∧
      c'.inp = b.drop f.len.toNat ∧ c'.inp.length + 6 ≤ (c.inp ++ buf).length ∧ c'.lock = false ∧
      c'.ws.isSome = true ∧ ∀ n, c.parseNext env H wr (n + 1) buf = c'.parseNext env H wr n [] := by
  obtain ⟨ws, hws'⟩ := Option.isSome_iff_exists.mp hws
  -- in the order of the source: too much input, a close frame before, a panic, an incomplete frame
  by_cases hover : env.requestMaxBytes < (c.inp ++ buf).length
  · exact .inl ⟨_, round_oversize hlock hover, fun _ => ⟨_, rfl⟩⟩
  by_cases hopen : ws.closed = true
  · exact .inl ⟨_, round_waits hlock hws' hover (.inl hopen), fun _ => ⟨_, rfl⟩⟩
  by_cases hlong : Overlong (c.inp ++ buf)
  · exact .inl ⟨_, round_panics hlock hws' hover hopen (parseFrame_panic hlong),
      fun h => absurd hlong h⟩
  rcases inBounds_of_not_overlong hlen hlong with hmore | ⟨f, b, hok, h6, hle, -, -, hb⟩
  · exact .inl ⟨_, round_waits hlock hws' hover (.inr hmore), fun _ => ⟨_, rfl⟩⟩
  -- a frame is there: it is cut off, which takes six bytes at least, and handled
  obtain ⟨k, hk⟩ := Int.eq_ofNat_of_zero_le (show 0 ≤ f.len by omega)
  have hslice : slice? b f.len b.length = some (b.drop k) := by
    rw [hk, slice?_eq_some b (by omega) le_rfl, List.take_length]
  obtain ⟨c', go, hon, hgo⟩ := onWebsocket_goes_on env f hkeep
    (c := { c with inp := b.drop k, ws := some { ws with parsedFrame := f }, lock := false })
    rfl rfl
  have hkept := onWebsocket_keeps hH rfl hon
  have hround := round_takes wr hlock hws' hover hopen hok hslice hon
  cases go with
  | false => exact .inl ⟨_, hround, fun _ => ⟨_, rfl⟩⟩
  | true =>
    by_cases hrest : (b.drop k).length > 0
    · refine .inr ⟨c', f, b, hok, ?_, ?_, hkept.1, hgo rfl, fun n =>
        (hround n).trans (if_pos hrest)⟩
      · rw [hkept.2, hk]
        rfl
      · rw [hkept.2]
        show (b.drop k).length + 6 ≤ _
        rw [List.length_drop]
        omega
    · obtain ⟨d, hd⟩ := finishRead_returns wr hkept.1
      exact .inl ⟨_, fun n => (hround n).trans (if_neg hrest), fun _ => ⟨d, hd⟩⟩

/-- **The loop ends.**  Six bytes a round: more rounds than a sixth of the input change nothing. -/
theorem parseNext_rounds (hH : H.Confined) (hkeep : H.KeepsWebsocket) (n : ℕ) (buf : Bytes)
    (hlock : c.lock = false) (hws : c.ws.isSome = true) (hlen : (c.inp ++ buf).length < 2 ^ 63)
    (hn : (c.inp ++ buf).length < 6 * n) (m : ℕ) (hm : n ≤ m) :
    c.parseNext env H wr m buf = c.parseNext env H wr n buf := by
  induction n generalizing c buf m with
  | zero => omega
  | succ n ih =>
    obtain ⟨m, rfl⟩ : ∃ k, m = k + 1 := ⟨m - 1, by omega⟩
    rcases parseNext_round env wr hH hkeep hlock hws buf hlen with
      ⟨res, hres, -⟩ | ⟨c', f, b, -, -, hshort, hlock', hws', hnext⟩
    · rw [hres m, hres n]
    · rw [hnext m, hnext n]
      exact ih [] hlock' hws' (by rw [List.append_nil]; omega) (by rw [List.append_nil]; omega) m
        (by omega)

/-- **The loop returns** if none of the headers that it comes to is overlong. -/
theorem parseNext_returns (hH : H.Confined) (hkeep : H.KeepsWebsocket) (n : ℕ) (buf : Bytes)
    (hlock : c.lock = false) (hws : c.ws.isSome = true) (hlen : (c.inp ++ buf).length < 2 ^ 63)
    (hn : (c.inp ++ buf).length < 6 * n)
    (hshort : ∀ rest, Remains (c.inp ++ buf) rest → ¬ Overlong rest) :
    ∃ c', c.parseNext env H wr n buf = .ok c' := by
  induction n generalizing c buf with
  | zero => omega
  | succ n ih =>
    rcases parseNext_round env wr hH hkeep hlock hws buf hlen with
      ⟨res, hres, hret⟩ | ⟨c', f, b, hok, hinp, hlen', hlock', hws', hnext⟩
    · rw [hres n]
      exact hret (hshort _ (.all _))
    · rw [hnext n]
      refine ih [] hlock' hws' (by rw [List.append_nil]; omega) (by rw [List.append_nil]; omega)
        fun rest hrest => hshort rest (.next hok ?_)
      rwa [List.append_nil, hinp] at hrest

end Loop

/-- **Frames within the buffer.**  `parse` stays in range for exactly the inputs without an overlong
    header.  On an upgraded connection the loop of `readConn` ends, whatever the input: as many
    rounds as a sixth of the input has bytes, and one, are enough; and it returns if none of the
    headers that it comes to is overlong. -/
theorem frame_bounds (inp : Bytes) (hlen : inp.length < 2 ^ 63) :
    (InBounds inp ↔ ¬ Overlong inp) ∧
    ∀ (env : Env) (H : Handlers) (wr : WriteResult) (c : Conn) (buf : Bytes), H.Confined →
      H.KeepsWebsocket → c.lock = false → c.ws.isSome = true → c.inp ++ buf = inp →
      ∀ n, inp.length < 6 * n →
        (∀ m, n ≤ m → c.parseNext env H wr m buf = c.parseNext env H wr n buf) ∧
        ((∀ rest, Remains inp rest → ¬ Overlong rest) →
          ∃ c', c.parseNext env H wr n buf = .ok c') := by
  refine ⟨inBounds_iff hlen, ?_⟩
  intro env H wr c buf hH hkeep hlock hws hinp n hn
  subst hinp
  exact ⟨fun m hm => parseNext_rounds hH hkeep n buf hlock hws hlen hn m hm,
    fun hshort => parseNext_returns hH hkeep n buf hlock hws hlen hn hshort⟩

/-- A text frame with the payload `hi`, masked with `1 2 3 4`. -/
def textFrame : Bytes := [0x81, 0x82, 1, 2, 3, 4, 0x69, 0x6b]

/-- An upgraded connection reads the frame in two rounds at most. -/
theorem frame_bounds_text :
    InBounds textFrame ∧
    ∃ c', ({ ws := some {} } : Conn).parseNext .plain (.ofCalls (fun _ => []) (fun _ => ([], true))
      fun _ => ([], true)) (.ok 0) 2 textFrame = .ok c' := by
  have hframe : parseFrame textFrame
      = .ok ({ data := ascii "hi", opcode := 1, fin := true, len := 8 },
        [0x81, 0x82, 1, 2, 3, 4] ++ ascii "hi") := by decide +kernel
  have hshort : ∀ rest, Remains textFrame rest → ¬ Overlong rest := by
    intro rest hrest
    cases hrest with
    | all => decide
    | next hok h =>
      rw [hframe] at hok
      cases hok
      cases h with
      | all => decide
      | next hok _ => cases hok
  obtain ⟨hparse, hloop⟩ := frame_bounds textFrame (by decide)
  refine ⟨hparse.mpr (by decide), ?_⟩
  exact (hloop .plain _ (.ok 0) { ws := some {} } textFrame (Handlers.ofCalls_confined _ _ _)
    (fun _ _ => rfl) rfl rfl rfl 2 (by decide)).2 hshort

/-- A complete header with an extended length and a mask key of zeros. -/
def longHeader (n : ℕ) : Bytes := [0x82, 0xff] ++ putBE 8 n ++ [0, 0, 0, 0]

/-- With the largest positive length the sum wraps, with the length `2^64 - 1` the payload would end
    in front of its begin: the slice expression panics, and with it the loop of `readConn`. -/
theorem overlong_panics :
    (parseFrame (longHeader (2 ^ 63 - 1)) = .panic ∧ ¬ InBounds (longHeader (2 ^ 63 - 1))) ∧
    (parseFrame (longHeader (2 ^ 64 - 1)) = .panic ∧ ¬ InBounds (longHeader (2 ^ 64 - 1))) ∧
    ({ ws := some {} } : Conn).parseNext .plain (.ofCalls (fun _ => []) (fun _ => ([], true))
      fun _ => ([], true)) (.ok 0) 3 (longHeader (2 ^ 63 - 1)) = .error .panic := by
  have hlong : ∀ n, Overlong (longHeader n) →
      parseFrame (longHeader n) = .panic ∧ ¬ InBounds (longHeader n) := by
    intro n hover
    have hlen : (longHeader n).length < 2 ^ 63 := by simp [longHeader]
    exact ⟨parseFrame_panic hover, fun hin => (inBounds_iff hlen).mp hin hover⟩
  have hmax : Overlong (longHeader (2 ^ 63 - 1)) := by decide +kernel
  have hneg : Overlong (longHeader (2 ^ 64 - 1)) := by decide +kernel
  refine ⟨hlong _ hmax, hlong _ hneg, ?_⟩
  exact round_panics rfl rfl (by decide +kernel) (by decide) (parseFrame_panic hmax) 2

end Resh.Server
