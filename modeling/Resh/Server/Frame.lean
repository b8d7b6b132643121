import Resh.Incremental
import Resh.Go.Binary
import Resh.Go.Text
import Resh.Rfc6455

namespace Resh.Server

open Resh.Go

/-!
# ws.go — WebSocket frames

`Websocket.parse` reads one frame from the front of the input buffer and unmasks its payload in
place; `Websocket.write` makes the frames of the server.  `ClientFrame` is a frame as a client
sends it, in any of the three length forms.

* `parse_encode` — the parser reads a client frame back, whatever follows it;
* `parse_cut` — at every proper cut of the frame it waits and leaves the buffer alone.
-/

/-- `wsFrame`; `len` is a Go `int`. -/
structure WsFrame where
  data : Bytes := []
  opcode : UInt8 := 0
  fin : Bool := false
  len : ℤ := 0
  deriving DecidableEq, Repr

/-- The loop `f.data[i] ^= mask[i%4]`. -/
def xorMask (mask data : Bytes) : Bytes := data.mapIdx fun i b => b ^^^ mask.getD (i % 4) 0

/-- The end of `parse`: the mask key stands at `moff`, the payload of `size` bytes at `off`.  The
    result is the frame and the buffer with the payload unmasked. -/
def parsePayload (inp : Bytes) (moff off : ℕ) (size : ℤ) (f : WsFrame) :
    Ret Unit (WsFrame × Bytes) :=
  let stop := wrap64 (off + size)
  match slice? inp off stop with
  | none => .panic
  | some data =>
    let data := xorMask ((inp.drop moff).take 4) data
    .ok ({ f with data := data, len := stop }, splice inp off data)

/-- `Websocket.parse(in)`. -/
def parseFrame (inp : Bytes) : Ret Unit (WsFrame × Bytes) :=
  match inp with
  | b0 :: b1 :: _ =>
    let f : WsFrame := { opcode := b0 &&& 0xf, fin := b0 >>> 7 > 0 }
    let size := (b1 &&& 0x7f).toNat
    if size = 126 then
      if inp.length < 2 + 2 + 4 then .more
      else
        let size := getBE ((inp.drop 2).take 2)
        if inp.length < 2 + 2 + 4 + size then .more else parsePayload inp 4 8 size f
    else if size = 127 then
      if inp.length < 2 + 2 + 6 + 4 then .more
      else
        let size := wrap64 (getBE ((inp.drop 2).take 8))
        if inp.length < wrap64 (2 + 2 + 6 + 4 + size) then .more else parsePayload inp 10 14 size f
    else if inp.length < 2 + 4 + size then .more
    else parsePayload inp 2 6 size f
  | _ => .more

/-- The frame that `Websocket.write(typ, p)` appends to the output. -/
def serverFrame (typ : UInt8) (p : Bytes) : Bytes :=
  (0x80 ||| typ) ::
    (if p.length < 126 then [UInt8.ofNat p.length]
      else if p.length < 65536 then 126 :: putBE 2 p.length
      else 127 :: putBE 8 p.length) ++ p

/-- The frame is that of RFC 6455 with the final bit set. -/
theorem serverFrame_eq_encode (typ : UInt8) (p : Bytes) :
    serverFrame typ p = Rfc6455.encode (0x80 ||| typ) p := by
  rw [serverFrame, Rfc6455.encode, Rfc6455.lenField, List.cons_append]

/-- The first byte has the final bit and the opcode. -/
theorem firstByte : ∀ n : Fin 16, decide (128 ≤ (0x80 ||| UInt8.ofNat n : UInt8)) = true ∧
    (0x80 ||| UInt8.ofNat n : UInt8) % 16 = UInt8.ofNat n := by
  decide +kernel

/-- **A client reads the frame**: it is final, and has the opcode and the payload. -/
theorem frame_serverFrame {typ : UInt8} (htyp : typ < 16) {p : Bytes} (hp : p.length < 2 ^ 64) :
    Rfc6455.frame (serverFrame typ p) = some (⟨true, typ, p⟩, []) := by
  obtain ⟨hfin, hop⟩ := firstByte ⟨typ.toNat, UInt8.lt_iff_toNat_lt.mp htyp⟩
  simp only [UInt8.ofNat_toNat] at hfin hop
  rw [serverFrame_eq_encode, Rfc6455.frame_encode _ hp, hfin, hop]

/-! ### Frames of a client -/

/-- The three forms of the length field. -/
inductive LenForm where
  | short
  | ext16
  | ext64
  deriving DecidableEq, Repr

/-- The lengths that a form can carry; a 64-bit length has its top bit clear. -/
def LenForm.Fits : LenForm → ℕ → Prop
  | short, n => n < 126
  | ext16, n => n < 2 ^ 16
  | ext64, n => n < 2 ^ 63

instance (form : LenForm) (n : ℕ) : Decidable (form.Fits n) := by
  cases form <;> unfold LenForm.Fits <;> infer_instance

/-- The length field. -/
def LenForm.field : LenForm → ℕ → Bytes
  | short, n => [0x80 ||| UInt8.ofNat n]
  | ext16, n => (0x80 ||| 126) :: putBE 2 n
  | ext64, n => (0x80 ||| 127) :: putBE 8 n

/-- A masked frame of a client. -/
structure ClientFrame where
  fin : Bool
  opcode : Fin 16
  form : LenForm
  key : Bytes
  payload : Bytes
  key_length : key.length = 4
  fits : form.Fits payload.length

/-- The frame on the wire. -/
def ClientFrame.encode (f : ClientFrame) : Bytes :=
  ((if f.fin then 0x80 else 0) ||| UInt8.ofNat f.opcode) :: f.form.field f.payload.length ++ f.key
    ++ xorMask f.key f.payload

/-- What the parser should see. -/
def ClientFrame.toWsFrame (f : ClientFrame) : WsFrame where
  data := f.payload
  opcode := UInt8.ofNat f.opcode
  fin := f.fin
  len := f.encode.length

/-! ### Masks and head bytes -/

@[simp] theorem xorMask_length (mask data : Bytes) : (xorMask mask data).length = data.length := by
  simp [xorMask]

/-- Masking twice gives the payload back. -/
theorem xorMask_xorMask (mask data : Bytes) : xorMask mask (xorMask mask data) = data := by
  apply List.ext_getElem (by simp)
  intro i h₁ h₂
  simp only [xorMask, List.getElem_mapIdx]
  rw [UInt8.xor_assoc, UInt8.xor_self, UInt8.xor_zero]

theorem head_byte (fin : Bool) (op : Fin 16) :
    (((if fin then 0x80 else 0) ||| UInt8.ofNat op : UInt8) &&& 0xf = UInt8.ofNat op) ∧
      (decide (((if fin then 0x80 else 0) ||| UInt8.ofNat op : UInt8) >>> 7 > 0) = fin) := by
  revert op
  cases fin <;> decide

theorem short_byte (n : Fin 126) : ((0x80 ||| UInt8.ofNat n : UInt8) &&& 0x7f).toNat = n := by
  revert n
  decide

/-! ### Reading a frame back -/

section Payload

variable {inp t : Bytes} {moff off : ℕ} {size : ℤ} {f : WsFrame}

/-- The payload behind a header `hdr` and its key. -/
theorem parsePayload_masked (hdr : Bytes) {key : Bytes} (data t : Bytes) (hkey : key.length = 4)
    (hlen : (hdr ++ key ++ data).length < 2 ^ 63) (f : WsFrame) :
    parsePayload (hdr ++ key ++ xorMask key data ++ t) hdr.length (hdr.length + 4) data.length f
      = .ok ({ f with data := data, len := (hdr ++ key ++ data).length },
        hdr ++ key ++ data ++ t) := by
  have hpre : (hdr ++ key).length = hdr.length + 4 := by rw [List.length_append, hkey]
  have hstop : wrap64 ((hdr.length + 4 : ℕ) + data.length)
      = ((hdr.length + 4 + data.length : ℕ) : ℤ) := by
    rw [List.length_append, hpre] at hlen
    rw [wrap64_of_inInt64 (by unfold InInt64; omega)]
    omega
  have hslice : slice? (hdr ++ key ++ xorMask key data ++ t) (hdr.length + 4 : ℕ)
      (hdr.length + 4 + data.length : ℕ) = some (xorMask key data) := by
    rw [slice?_eq_some _ (by omega) (by simp [hkey]; omega), List.drop_take, ← hpre,
      List.append_assoc (hdr ++ key), List.drop_left, Nat.add_sub_cancel_left,
      List.take_left' (by simp)]
  have hmask : ((hdr ++ key ++ xorMask key data ++ t).drop hdr.length).take 4 = key := by
    rw [List.append_assoc, List.append_assoc, List.drop_left, List.take_left' hkey]
  have hsplice : splice (hdr ++ key ++ xorMask key data ++ t) (hdr.length + 4) data
      = hdr ++ key ++ data ++ t := by
    rw [← hpre]; exact splice_middle (by simp)
  have hall : (hdr ++ key ++ data).length = hdr.length + 4 + data.length := by
    rw [List.length_append, hpre]
  rw [parsePayload, hstop, hslice, hall]
  simp only [hmask, xorMask_xorMask, hsplice]

/-- More input does not change the payload. -/
theorem parsePayload_append (t : Bytes) (hmoff : moff + 4 ≤ off) (hoff : off ≤ inp.length)
    (hstop : wrap64 (off + size) ≤ inp.length) :
    parsePayload (inp ++ t) moff off size f
      = match parsePayload inp moff off size f with
        | .ok (f', b) => .ok (f', b ++ t)
        | r => r := by
  by_cases hlt : wrap64 (off + size) < off
  · unfold parsePayload
    simp only [slice?_eq_none _ hlt]
  · obtain ⟨n, hn⟩ := Int.eq_ofNat_of_zero_le (show 0 ≤ wrap64 (off + size) by omega)
    have hmask : ((inp ++ t).drop moff).take 4 = (inp.drop moff).take 4 := by
      rw [List.drop_append_of_le_length (by omega), List.take_append_of_le_length (by
        rw [List.length_drop]; omega)]
    unfold parsePayload
    simp only [hn]
    rw [slice?_eq_some _ (by omega) (by rw [List.length_append]; omega),
      slice?_eq_some _ (by omega) (by omega), hmask, List.take_append_of_le_length (by omega)]
    simp only [Ret.ok.injEq, Prod.mk.injEq, true_and]
    have hend : off + (xorMask ((inp.drop moff).take 4) ((inp.take n).drop off)).length
        ≤ inp.length := by
      rw [xorMask_length, List.length_drop, List.length_take]; omega
    rw [splice, splice, List.take_append_of_le_length hoff, List.drop_append_of_le_length hend,
      ← List.append_assoc]

theorem parsePayload_len_le {f' : WsFrame} {b : Bytes}
    (h : parsePayload inp moff off size f = .ok (f', b)) : f'.len ≤ inp.length := by
  unfold parsePayload at h
  simp only at h
  split at h
  · exact absurd h (by simp)
  · rename_i data hd
    simp only [Ret.ok.injEq, Prod.mk.injEq] at h
    rw [← h.1]
    unfold slice? at hd
    split at hd
    · rename_i hr; exact hr.2.2
    · exact absurd hd (by simp)

/-- The payload is unmasked in place. -/
theorem parsePayload_buf_length {f' : WsFrame} {b : Bytes}
    (h : parsePayload inp moff off size f = .ok (f', b)) : b.length = inp.length := by
  unfold parsePayload at h
  simp only at h
  split at h
  · exact absurd h (by simp)
  · rename_i data hd
    simp only [Ret.ok.injEq, Prod.mk.injEq] at h
    rw [← h.2]
    unfold slice? at hd
    split at hd
    · rename_i hr
      obtain rfl := Option.some.inj hd
      apply splice_length
      rw [xorMask_length, List.length_drop, List.length_take]
      omega
    · exact absurd hd (by simp)

end Payload

/-- A complete length field, in any form: the parser waits for the key and `n` bytes. -/
theorem parseFrame_field (b0 : UInt8) {form : LenForm} {n : ℕ} (hfits : form.Fits n)
    (hn : n + 14 < 2 ^ 63) (rest : Bytes) :
    parseFrame (b0 :: form.field n ++ rest) = if rest.length < 4 + n then .more else
      parsePayload (b0 :: form.field n ++ rest) (b0 :: form.field n).length
        ((b0 :: form.field n).length + 4) n { opcode := b0 &&& 0xf, fin := b0 >>> 7 > 0 } := by
  cases form with
  | short =>
    have hsize : ((0x80 ||| UInt8.ofNat n : UInt8) &&& 0x7f).toNat = n := short_byte ⟨n, hfits⟩
    have hlt : n < 126 := hfits
    simp only [LenForm.field, List.cons_append, List.nil_append, parseFrame, hsize,
      List.length_cons, List.length_nil]
    rw [if_neg (by omega), if_neg (by omega)]
    exact ite_congr (by rw [eq_iff_iff]; omega) (fun _ => rfl) (fun _ => rfl)
  | ext16 =>
    have hsize : ((0x80 ||| 126 : UInt8) &&& 0x7f).toNat = 126 := by decide
    have hget : getBE (putBE 2 n) = n := getBE_putBE (w := 2) hfits
    have htake : ((b0 :: (0x80 ||| 126) :: (putBE 2 n ++ rest)).drop 2).take 2 = putBE 2 n :=
      List.take_left' (putBE_length 2 n)
    simp only [LenForm.field, List.cons_append, parseFrame, hsize, if_true, htake, hget,
      List.length_cons, List.length_append, putBE_length]
    by_cases hlt : rest.length < 4 + n
    · rw [if_pos hlt]
      split
      · rfl
      · rw [if_pos (by omega)]
    · rw [if_neg hlt, if_neg (by omega), if_neg (by omega)]
  | ext64 =>
    have hsize : ((0x80 ||| 127 : UInt8) &&& 0x7f).toNat = 127 := by decide
    have hfits' : n < 2 ^ 63 := hfits
    have hget : getBE (putBE 8 n) = n := getBE_putBE (w := 8) (by omega)
    have htake : ((b0 :: (0x80 ||| 127) :: (putBE 8 n ++ rest)).drop 2).take 8 = putBE 8 n :=
      List.take_left' (putBE_length 8 n)
    -- below `2 ^ 63` neither the length nor the sum wraps
    have hwrap : wrap64 (n : ℤ) = n := wrap64_of_inInt64 (by unfold InInt64; omega)
    have hwrap' : wrap64 (2 + 2 + 6 + 4 + (n : ℤ)) = 2 + 2 + 6 + 4 + (n : ℤ) :=
      wrap64_of_inInt64 (by unfold InInt64; omega)
    simp only [LenForm.field, List.cons_append, parseFrame, hsize,
      if_true, htake, hget, hwrap, hwrap', List.length_cons, List.length_append, putBE_length]
    rw [if_neg (by decide)]
    by_cases hlt : rest.length < 4 + n
    · rw [if_pos hlt]
      split
      · rfl
      · rw [if_pos (by omega)]
    · rw [if_neg hlt, if_neg (by omega), if_neg (by omega)]

/-- **The parser reads a client frame back**, whatever follows it. -/
theorem parse_encode (f : ClientFrame) (t : Bytes) (hlen : f.encode.length < 2 ^ 63) :
    ∃ b, parseFrame (f.encode ++ t) = .ok (f.toWsFrame, b) ∧ b.length = (f.encode ++ t).length ∧
      b.drop f.encode.length = t := by
  obtain ⟨hop, hfin⟩ := head_byte f.fin f.opcode
  obtain ⟨hdr, hhdr⟩ : ∃ hdr, hdr = ((if f.fin then 0x80 else 0) ||| UInt8.ofNat f.opcode : UInt8)
      :: f.form.field f.payload.length := ⟨_, rfl⟩
  have henc : f.encode = hdr ++ f.key ++ xorMask f.key f.payload := by rw [hhdr]; rfl
  have hplain : (hdr ++ f.key ++ f.payload).length = f.encode.length := by simp [henc]
  have hpay := parsePayload_masked hdr f.payload t f.key_length (by rw [hplain]; exact hlen)
    { opcode := UInt8.ofNat f.opcode, fin := f.fin }
  refine ⟨hdr ++ f.key ++ f.payload ++ t, ?_, by simp [henc], by rw [← hplain, List.drop_left]⟩
  have hkey := f.key_length
  have htext : f.encode ++ t = hdr ++ (f.key ++ xorMask f.key f.payload ++ t) := by
    rw [henc]; simp
  have hsize : f.payload.length + 14 < 2 ^ 63 := by
    have hfits := f.fits
    have hfield : hdr.length = (f.form.field f.payload.length).length + 1 := by rw [hhdr]; rfl
    rw [← hplain, List.length_append, List.length_append, hkey, hfield] at hlen
    cases hform : f.form with
    | short => rw [hform] at hfits; have : f.payload.length < 126 := hfits; omega
    | ext16 => rw [hform] at hfits; have : f.payload.length < 2 ^ 16 := hfits; omega
    | ext64 =>
      rw [hform] at hlen
      simp only [LenForm.field, List.length_cons, putBE_length] at hlen
      omega
  have hfield := parseFrame_field ((if f.fin then 0x80 else 0)
    ||| UInt8.ofNat f.opcode) f.fits hsize (f.key ++ xorMask f.key f.payload ++ t)
  rw [hop, hfin, ← hhdr, ← htext, if_neg (by simp [hkey]), henc] at hfield
  rw [henc, hfield, hpay, hplain]
  rfl

/-- What an answer depends on: the first bytes of the buffer fix where key and payload stand. -/
theorem parseFrame_shape {inp : Bytes} (h : parseFrame inp ≠ .more) :
    ∃ moff off size f, moff + 4 ≤ off ∧ off ≤ inp.length ∧ wrap64 (off + size) ≤ inp.length ∧
      ∀ t, parseFrame (inp ++ t) = parsePayload (inp ++ t) moff off size f := by
  match inp with
  | [] => exact absurd rfl h
  | [_] => exact absurd rfl h
  | b0 :: b1 :: rest =>
    have hlen : ∀ t, (b0 :: b1 :: (rest ++ t)).length = (b0 :: b1 :: rest).length + t.length :=
      fun t => by rw [← List.length_append]; rfl
    -- the header is read from bytes that are there, so it does not depend on what follows
    have htake : ∀ k t, k + 2 ≤ (b0 :: b1 :: rest).length →
        ((b0 :: b1 :: (rest ++ t)).drop 2).take k
          = ((b0 :: b1 :: rest).drop 2).take k := fun k t hk => by
      simp only [List.length_cons] at hk
      exact List.take_append_of_le_length (by omega)
    simp only [parseFrame] at h
    split at h
    · rename_i h126
      split at h
      · exact absurd rfl h
      split at h
      · exact absurd rfl h
      rename_i h₁ h₂
      refine ⟨4, 8, getBE (((b0 :: b1 :: rest).drop 2).take 2),
        { opcode := b0 &&& 0xf, fin := b0 >>> 7 > 0 }, by omega, by omega, ?_, fun t => ?_⟩
      · exact (wrap64_le (by omega)).trans (by omega)
      · have := hlen t
        simp only [List.cons_append, parseFrame, if_pos h126, htake 2 t (by omega)]
        rw [if_neg (by omega), if_neg (by omega)]
    · rename_i h126
      split at h
      · rename_i h127
        split at h
        · exact absurd rfl h
        split at h
        · exact absurd rfl h
        rename_i h₁ h₂
        refine ⟨10, 14, wrap64 (getBE (((b0 :: b1 :: rest).drop 2).take 8)),
          { opcode := b0 &&& 0xf, fin := b0 >>> 7 > 0 }, by omega,
          by omega, not_lt.mp h₂, fun t => ?_⟩
        have := hlen t
        simp only [List.cons_append, parseFrame, if_neg h126, if_pos h127, htake 8 t (by omega)]
        rw [if_neg (by omega), if_neg (by omega)]
      · rename_i h127
        split at h
        · exact absurd rfl h
        rename_i h₁
        refine ⟨2, 6, (b1 &&& 0x7f).toNat, { opcode := b0 &&& 0xf, fin := b0 >>> 7 > 0 },
          by omega, by omega, ?_, fun t => ?_⟩
        · exact (wrap64_le (by omega)).trans (by omega)
        · have := hlen t
          simp only [List.cons_append, parseFrame, if_neg h126, if_neg h127]
          rw [if_neg (by omega)]

/-- The frame lies inside the buffer. -/
theorem parseFrame_len_le {inp b : Bytes} {f : WsFrame} (h : parseFrame inp = .ok (f, b)) :
    f.len ≤ inp.length := by
  obtain ⟨moff, off, size, f', -, -, -, hshape⟩ := parseFrame_shape (by rw [h]; simp)
  have hnil := hshape []
  rw [List.append_nil, h] at hnil
  exact parsePayload_len_le hnil.symm

theorem parseFrame_buf_length {inp b : Bytes} {f : WsFrame} (h : parseFrame inp = .ok (f, b)) :
    b.length = inp.length := by
  obtain ⟨moff, off, size, f', -, -, -, hshape⟩ := parseFrame_shape (by rw [h]; simp)
  have hnil := hshape []
  rw [List.append_nil, h] at hnil
  exact parsePayload_buf_length hnil.symm

/-- More input does not change an answer. -/
theorem parseFrame_append {inp : Bytes} (h : parseFrame inp ≠ .more) (t : Bytes) :
    parseFrame (inp ++ t) = match parseFrame inp with
      | .ok (f, b) => .ok (f, b ++ t)
      | r => r := by
  obtain ⟨moff, off, size, f, hmoff, hoff, hstop, hshape⟩ := parseFrame_shape h
  have hnil := hshape []
  rw [List.append_nil] at hnil
  rw [hshape t, hnil, parsePayload_append t hmoff hoff hstop]

/-- **At a proper cut of a frame the parser waits.** -/
theorem parse_cut (f : ClientFrame) (hlen : f.encode.length < 2 ^ 63) {p : Bytes}
    (hp : p <+: f.encode) (hne : p ≠ f.encode) : parseFrame p = .more := by
  obtain ⟨t, ht⟩ := hp
  have htlen := congrArg List.length ht
  rw [List.length_append] at htlen
  have hpos : 0 < t.length := by
    rw [List.length_pos_iff]
    rintro rfl
    exact hne (by rw [← ht, List.append_nil])
  by_contra hmore
  have happ := parseFrame_append hmore t
  obtain ⟨b, hb, -, -⟩ := parse_encode f [] hlen
  rw [List.append_nil] at hb
  rw [ht, hb] at happ
  cases hq : parseFrame p with
  | ok r =>
    obtain ⟨f', b'⟩ := r
    rw [hq] at happ
    simp only [Ret.ok.injEq, Prod.mk.injEq] at happ
    have hle := parseFrame_len_le hq
    rw [← happ.1] at hle
    simp only [ClientFrame.toWsFrame] at hle
    omega
  | more => exact hmore hq
  | fail e => rw [hq] at happ; exact absurd happ (by simp)
  | panic => rw [hq] at happ; exact absurd happ (by simp)

end Resh.Server
