import Resh.Server.Frame

namespace Resh.RoundTrip

open Resh.Go Resh.Server

/-!
# Frames of the writer, read by the parser

`Websocket.write` makes the frames of the server, which are not masked, and `Websocket.parse` reads
those of clients, which are.  `maskFrame` turns the one into the other.

* `formOf` — the length form that the writer chooses;
* `maskFrame_eq` — a masked frame of the writer is a client frame in that form;
* `frame_round_trip` — the parser reads it back, and waits at every proper cut.
-/

/-- The frame that `Websocket.write(typ, p)` emits, with the mask bit set, the key put behind the
    length field and the payload masked with it. -/
def maskFrame (typ : UInt8) (p key : Bytes) : Bytes :=
  let frame := serverFrame typ p
  let hdr := frame.take (frame.length - p.length)
  hdr.modify 1 (0x80 ||| ·) ++ key ++ xorMask key (frame.drop (frame.length - p.length))

/-- The form of the length field that the writer chooses. -/
def formOf (n : ℕ) : LenForm :=
  if n < 126 then .short else if n < 65536 then .ext16 else .ext64

theorem formOf_fits {n : ℕ} (h : n < 2 ^ 63) : (formOf n).Fits n := by
  unfold formOf
  split
  · assumption
  · split
    · assumption
    · exact h

/-- The header of the writer, with the mask bit set. -/
theorem serverFrame_eq (typ : UInt8) (p : Bytes) :
    ∃ hdr, serverFrame typ p = hdr ++ p ∧
      hdr.modify 1 (0x80 ||| ·) = (0x80 ||| typ) :: (formOf p.length).field p.length := by
  unfold serverFrame formOf
  split
  · exact ⟨_, rfl, rfl⟩
  · split
    · exact ⟨_, rfl, rfl⟩
    · exact ⟨_, rfl, rfl⟩

/-- The client frame with the payload `p`. -/
def clientFrame (typ : Fin 16) (p key : Bytes) (hkey : key.length = 4) (hp : p.length < 2 ^ 63) :
    ClientFrame where
  fin := true
  opcode := typ
  form := formOf p.length
  key := key
  payload := p
  key_length := hkey
  fits := formOf_fits hp

/-- **A masked frame of the writer is a client frame.** -/
theorem maskFrame_eq (typ : Fin 16) (p key : Bytes) (hkey : key.length = 4)
    (hp : p.length < 2 ^ 63) :
    maskFrame (UInt8.ofNat typ) p key = (clientFrame typ p key hkey hp).encode := by
  obtain ⟨hdr, hframe, hmask⟩ := serverFrame_eq (UInt8.ofNat typ) p
  have hlen : (hdr ++ p).length - p.length = hdr.length := by
    rw [List.length_append, Nat.add_sub_cancel]
  simp only [maskFrame, hframe, hlen, List.take_left, List.drop_left, hmask]
  rfl

theorem field_length_le (form : LenForm) (n : ℕ) : (form.field n).length ≤ 9 := by
  cases form <;> simp [LenForm.field]

/-- **Writer and parser agree.**  For every opcode below 16, every payload, every mask key and
    whatever follows: the parser reads back the masked frame of the writer and leaves what follows
    alone, and at every proper cut of the frame it waits. -/
theorem frame_round_trip (typ : UInt8) (p key t : Bytes) (htyp : typ < 16) (hkey : key.length = 4)
    (hp : p.length < 2 ^ 63 - 14) :
    (∃ b, parseFrame (maskFrame typ p key ++ t)
        = .ok ({ data := p, opcode := typ, fin := true, len := (maskFrame typ p key).length }, b) ∧
      b.length = (maskFrame typ p key ++ t).length ∧ b.drop (maskFrame typ p key).length = t) ∧
    ∀ q, q <+: maskFrame typ p key → q ≠ maskFrame typ p key → parseFrame q = .more := by
  have hlt : typ.toNat < 16 := by simpa [UInt8.lt_iff_toNat_lt] using htyp
  have hop : UInt8.ofNat (⟨typ.toNat, hlt⟩ : Fin 16) = typ := UInt8.ofNat_toNat
  have hp' : p.length < 2 ^ 63 := by omega
  have heq := maskFrame_eq ⟨typ.toNat, hlt⟩ p key hkey hp'
  rw [hop] at heq
  -- the header has at most 14 bytes
  have hlen : (clientFrame ⟨typ.toNat, hlt⟩ p key hkey hp').encode.length < 2 ^ 63 := by
    have hfield := field_length_le (formOf p.length) p.length
    simp only [ClientFrame.encode, clientFrame, List.length_append,
      List.length_cons, xorMask_length, hkey]
    omega
  rw [heq]
  constructor
  · obtain ⟨b, hb, hblen, hdrop⟩ := parse_encode _ t hlen
    refine ⟨b, ?_, hblen, hdrop⟩
    rw [hb]
    simp only [ClientFrame.toWsFrame, clientFrame, hop]
  · intro q hq hne
    exact parse_cut _ hlen hq hne

/-- A binary frame of 126 bytes, the first length with an extended field. -/
theorem frame_round_trip_extended :
    (∃ b, parseFrame (maskFrame 2 (List.replicate 126 7) [1, 2, 3, 4] ++ [9])
        = .ok ({ data := List.replicate 126 7, opcode := 2, fin := true, len := 134 }, b) ∧
      b.length = 135 ∧ b.drop 134 = [9]) ∧
    parseFrame ((maskFrame 2 (List.replicate 126 7) [1, 2, 3, 4]).take 133) = .more := by
  have hlen : (maskFrame 2 (List.replicate 126 7) [1, 2, 3, 4]).length = 134 := by decide +kernel
  obtain ⟨⟨b, hb, hblen, hdrop⟩, hcut⟩ := frame_round_trip 2 (List.replicate 126 7) [1, 2, 3, 4] [9]
    (by decide) rfl (by simp)
  rw [hlen] at hb hdrop
  rw [List.length_append, hlen] at hblen
  refine ⟨⟨b, hb, hblen, hdrop⟩, hcut _ (List.take_prefix 133 _) fun hall => ?_⟩
  have hshort := congrArg List.length hall
  rw [List.length_take, hlen] at hshort
  cases hshort

end Resh.RoundTrip
