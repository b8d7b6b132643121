import Resh.Go.Binary

namespace Resh.Rfc6455

open Resh.Go

/-!
# Websocket frames as a client reads them

RFC 6455, section 5.2, for the direction from the server to the client, where frames are not masked.

* `frame` — the first frame of the input, once it is there in full;
* `frame_append`, `frame_encode`, `frame_cut` — a frame is read whatever follows it, and never
  before its end;
* `frames_prefix` — of the begin of a sequence of frames, the client reads those that are complete.
-/

structure Frame where
  fin : Bool
  opcode : UInt8
  payload : Bytes
  deriving DecidableEq, Repr

/-- How many bytes behind the first two hold the length. -/
def lenWidth (b : UInt8) : ℕ := if b = 126 then 2 else if b = 127 then 8 else 0

/-- The length of the payload. -/
def payloadLen (b : UInt8) (w : Bytes) : ℕ := if lenWidth b = 0 then b.toNat else getBE w

/-- The first frame and what stands behind it; `none` as long as it is not complete, and for a
    masked frame, which a server does not send. -/
def frame : Bytes → Option (Frame × Bytes)
  | b₀ :: b₁ :: rest =>
    if 128 ≤ b₁ then none
    else if rest.length < lenWidth b₁ then none
    else
      let n := payloadLen b₁ (rest.take (lenWidth b₁))
      if (rest.drop (lenWidth b₁)).length < n then none
      else some (⟨128 ≤ b₀, b₀ % 16, (rest.drop (lenWidth b₁)).take n⟩,
        (rest.drop (lenWidth b₁)).drop n)
  | _ => none

/-- The frames at the begin of the input, `n` at most. -/
def frames : ℕ → Bytes → List Frame
  | 0, _ => []
  | n + 1, inp =>
    match frame inp with
    | none => []
    | some (f, rest) => f :: frames n rest

/-- The shortest length field. -/
def lenField (n : ℕ) : Bytes :=
  if n < 126 then [UInt8.ofNat n] else if n < 65536 then 126 :: putBE 2 n else 127 :: putBE 8 n

/-- A frame in bytes, from its first one on. -/
def encode (b₀ : UInt8) (p : Bytes) : Bytes := b₀ :: lenField p.length ++ p

variable {f : Frame} {inp rest : Bytes}

/-- What follows a frame does not change it. -/
theorem frame_append (h : frame inp = some (f, rest)) (t : Bytes) :
    frame (inp ++ t) = some (f, rest ++ t) := by
  match inp with
  | [] => cases h
  | [_] => cases h
  | b₀ :: b₁ :: inp =>
    rw [List.cons_append, List.cons_append]
    unfold frame at h ⊢
    simp only at h ⊢
    split at h
    · cases h
    · rename_i hmask
      rw [if_neg hmask]
      split at h
      · cases h
      · rename_i hwidth
        have hwidth' : ¬ (inp ++ t).length < lenWidth b₁ := by
          rw [List.length_append]
          omega
        rw [if_neg hwidth', List.take_append_of_le_length (by omega),
          List.drop_append_of_le_length (by omega)]
        split at h
        · cases h
        · rename_i hbody
          rw [if_neg (by rw [List.length_append]; omega), List.take_append_of_le_length (by omega),
            List.drop_append_of_le_length (by omega)]
          cases h
          rfl

theorem lenField_eq (n : ℕ) (hn : n < 2 ^ 64) :
    ∃ b w, lenField n = b :: w ∧ ¬ 128 ≤ b ∧ w.length = lenWidth b ∧
      payloadLen b w = n := by
  unfold lenField payloadLen
  split
  · rename_i hlt
    have hnat : (UInt8.ofNat n).toNat = n := by
      rw [UInt8.toNat_ofNat']
      omega
    have hwidth : lenWidth (UInt8.ofNat n) = 0 := by
      unfold lenWidth
      rw [if_neg, if_neg]
      · intro heq
        rw [heq] at hnat
        exact absurd hnat (by show ¬ (127 = n); omega)
      · intro heq
        rw [heq] at hnat
        exact absurd hnat (by show ¬ (126 = n); omega)
    refine ⟨_, [], rfl, ?_, hwidth.symm, by rw [if_pos hwidth, hnat]⟩
    rw [UInt8.le_iff_toNat_le, hnat]
    show ¬ 128 ≤ n
    omega
  · split
    · exact ⟨126, putBE 2 n, rfl, by decide, rfl,
        by rw [if_neg (by decide), getBE_putBE (by omega)]⟩
    · exact ⟨127, putBE 8 n, rfl, by decide, rfl,
        by rw [if_neg (by decide), getBE_putBE (by omega)]⟩

/-- **A frame is read back.** -/
theorem frame_encode (b₀ : UInt8) {p : Bytes} (hp : p.length < 2 ^ 64) :
    frame (encode b₀ p) = some (⟨128 ≤ b₀, b₀ % 16, p⟩, []) := by
  obtain ⟨b, w, hfield, hmask, hwidth, hlen⟩ := lenField_eq p.length hp
  rw [encode, hfield, List.cons_append, List.cons_append]
  unfold frame
  simp only [if_neg hmask, ← hwidth, List.take_left, List.drop_left]
  rw [if_neg (by rw [List.length_append]; omega), hlen, if_neg (Nat.lt_irrefl _), List.take_length,
    List.drop_length]

/-- **A cut frame is not read.** -/
theorem frame_cut (b₀ : UInt8) {p q t : Bytes} (hp : p.length < 2 ^ 64) (hq : q ++ t = encode b₀ p)
    (ht : t ≠ []) : frame q = none := by
  cases hframe : frame q with
  | none => rfl
  | some r =>
    obtain ⟨f, rest⟩ := r
    have hwhole := frame_append hframe t
    rw [hq, frame_encode b₀ hp, Option.some.injEq, Prod.mk.injEq] at hwhole
    exact absurd (List.append_eq_nil_iff.mp hwhole.2.symm).2 ht

/-- **Frames one behind the other.**  Of any begin of their bytes the client reads the frames that
    are complete in it, and nothing else. -/
theorem frames_prefix {fs : List (UInt8 × Bytes)} (hfs : ∀ f ∈ fs, f.2.length < 2 ^ 64) {q : Bytes}
    (hq : q <+: fs.flatMap fun f => encode f.1 f.2) {n : ℕ} (hn : q.length ≤ n) :
    ∃ k tail, frames n q = (fs.take k).map (fun f => ⟨128 ≤ f.1, f.1 % 16, f.2⟩) ∧
      q = ((fs.take k).flatMap fun f => encode f.1 f.2) ++ tail ∧
      ∀ f, fs[k]? = some f → tail <+: encode f.1 f.2 ∧ tail ≠ encode f.1 f.2 := by
  -- by induction over the frames; `q` ends within the first one, or behind it
  induction fs generalizing q n with
  | nil =>
    obtain rfl : q = [] := List.prefix_nil.mp hq
    refine ⟨0, [], ?_, rfl, fun f hf => absurd hf (by simp)⟩
    cases n with
    | zero => rfl
    | succ n => rfl
  | cons f fs ih =>
    rw [List.flatMap_cons] at hq
    by_cases hlt : q.length < (encode f.1 f.2).length
    · -- within the first frame
      have hcut : q <+: encode f.1 f.2 :=
        List.prefix_of_prefix_length_le hq (List.prefix_append _ _) (by omega)
      have hne : q ≠ encode f.1 f.2 := fun heq => by rw [heq] at hlt; omega
      obtain ⟨t, ht⟩ := hcut
      have hnone : frame q = none := frame_cut f.1 (hfs f List.mem_cons_self) ht fun h0 => by
        rw [h0, List.append_nil] at ht
        exact hne ht
      refine ⟨0, q, ?_, rfl, fun g hg => ?_⟩
      · cases n with
        | zero => rfl
        | succ n => rw [frames, hnone]; rfl
      · rw [List.getElem?_cons_zero, Option.some.injEq] at hg
        exact hg ▸ ⟨⟨t, ht⟩, hne⟩
    · have hsplit : ∃ q', q = encode f.1 f.2 ++ q' := by
        have hpre : encode f.1 f.2 <+: q :=
          List.prefix_of_prefix_length_le (List.prefix_append _ _) hq (by omega)
        obtain ⟨q', hq'⟩ := hpre
        exact ⟨q', hq'.symm⟩
      obtain ⟨q', rfl⟩ := hsplit
      have hread := frame_append (frame_encode f.1 (hfs f List.mem_cons_self)) q'
      rw [List.nil_append] at hread
      have hpos : 0 < (encode f.1 f.2).length := by simp [encode]
      rw [List.length_append] at hn
      obtain ⟨n, rfl⟩ : ∃ m, n = m + 1 := ⟨n - 1, by omega⟩
      obtain ⟨k, tail, hframes, hbytes, htail⟩ := ih (fun g hg => hfs g (List.mem_cons_of_mem f hg))
        ((List.prefix_append_right_inj _).mp hq) (n := n) (by omega)
      refine ⟨k + 1, tail, ?_, ?_, fun g hg => htail g (by simpa using hg)⟩
      · rw [frames, hread]
        simp only [hframes, List.take_succ_cons, List.map_cons]
      · rw [List.take_succ_cons, List.flatMap_cons, List.append_assoc, ← hbytes]

end Resh.Rfc6455
