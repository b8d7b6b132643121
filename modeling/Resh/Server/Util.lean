import Resh.Incremental
import Resh.Go.Strconv

namespace Resh.Server

open Resh.Go

/-!
# util.go — number lines

`readByteAndNumberCrLf` reads one header byte, a decimal number and a line end, as in `*3` or
`$11`.  Its answer is decided by the line alone: more input does not change it
(`readByteAndNumberCrLf_append`), and it is a number exactly for a numeral in the `int64` range
(`readByteAndNumberCrLf_eq_ok`, `readByteAndNumberCrLf_of_numeral`).
-/

/-- The errors of the request parser, each with what its text prints. -/
inductive Err where
  /-- `strconv.ParseInt: parsing %q: ...` -/
  | num (text : Bytes) (e : NumError)
  /-- `too many redis arguments` -/
  | tooManyArgs
  /-- `invalid bulk string head %02x` -/
  | bulkHead (b : UInt8)
  /-- `invalid bulk string length %d` -/
  | bulkLength (n : ℤ)
  /-- `invalid bulk string tail %04x` -/
  | bulkTail (b : Bytes)
  /-- `invalid HTTP/1 first line: %q` -/
  | firstLine (line : Bytes)
  /-- `invalid HTTP/1 path %q: %v` -/
  | path (line cause : Bytes)
  /-- `invalid HTTP/1 header: %q` -/
  | header (line : Bytes)
  /-- `invalid Content-Length %q` -/
  | contentLength (value : Bytes)
  /-- `invalid stage %d` -/
  | invalidStage (n : ℕ)
  deriving DecidableEq, Repr

/-! ### `readByteAndNumberCrLf` -/

/-- `readByteAndNumberCrLf(head, in)`: the number and the length of the line, `(0, 0)` when the
    first byte is another one. -/
def readByteAndNumberCrLf (head : UInt8) (inp : Bytes) : Ret Err (ℤ × ℕ) :=
  if inp.length < 4 then .more
  else if inp.head? ≠ some head then .ok (0, 0)
  else match index? crlf inp with
    | none => .more
    | some idx =>
      match parseInt ((inp.take idx).drop 1) with
      | (v, none) => .ok (v, idx + 2)
      | (_, some e) => .fail (.num ((inp.take idx).drop 1) e)

/-- More input does not change an answer. -/
theorem readByteAndNumberCrLf_append {head : UInt8} {inp : Bytes}
    (h : readByteAndNumberCrLf head inp ≠ .more) (t : Bytes) :
    readByteAndNumberCrLf head (inp ++ t) = readByteAndNumberCrLf head inp := by
  have hlen : ¬ inp.length < 4 := by
    intro hlt; exact h (by rw [readByteAndNumberCrLf, if_pos hlt])
  have hhead : (inp ++ t).head? = inp.head? := by
    cases inp with
    | nil => simp at hlen
    | cons b s => rfl
  have hlen' : ¬ (inp ++ t).length < 4 := by rw [List.length_append]; omega
  simp only [readByteAndNumberCrLf, if_neg hlen, if_neg hlen', hhead] at h ⊢
  split
  · rfl
  · rename_i hb
    cases hi : index? crlf inp with
    | none => rw [if_neg hb, hi] at h; exact absurd rfl h
    | some idx =>
      have hle := index?_le (by simp [crlf]) hi
      rw [index?_append (by simp [crlf]) hi t]
      simp only [List.take_append_of_le_length (show idx ≤ inp.length by omega)]

/-- The answer never panics. -/
theorem readByteAndNumberCrLf_ne_panic (head : UInt8) (inp : Bytes) :
    readByteAndNumberCrLf head inp ≠ .panic := by
  unfold readByteAndNumberCrLf
  repeat' split
  all_goals simp

/-- **What a number line is.** A positive length says that the text begins with the head byte,
    a numeral for the number, and a line end. -/
theorem readByteAndNumberCrLf_eq_ok {head : UInt8} {inp : Bytes} {v : ℤ} {w : ℕ}
    (h : readByteAndNumberCrLf head inp = .ok (v, w)) (hw : w ≠ 0) (hne : head ≠ 13) :
    ∃ text, inp = head :: text ++ crlf ++ inp.drop w ∧ w = text.length + 3 ∧ Numeral text v ∧
      InInt64 v := by
  unfold readByteAndNumberCrLf at h
  split at h
  · exact absurd h (by simp)
  split at h
  · simp only [Ret.ok.injEq, Prod.mk.injEq] at h
    exact absurd h.2.symm hw
  rename_i hlen hhead
  cases hi : index? crlf inp with
  | none => rw [hi] at h; exact absurd h (by simp)
  | some idx =>
    rw [hi] at h
    simp only at h
    split at h
    · rename_i v' hp
      simp only [Ret.ok.injEq, Prod.mk.injEq] at h
      obtain ⟨rfl, rfl⟩ := h
      obtain ⟨hnum, hrange⟩ := (parseInt_eq_iff _ _).mp hp
      cases inp with
      | nil => simp at hlen
      | cons b s =>
        simp only [List.head?_cons, ne_eq, Option.some.injEq, not_not] at hhead
        subst hhead
        cases idx with
        | zero =>
          -- The line end cannot stand at the head byte.
          have hp := ((index?_eq_some_iff _ _ _).mp hi).1
          obtain ⟨t, ht⟩ := hp
          simp only [crlf, List.drop_zero, List.cons_append, List.cons.injEq] at ht
          exact absurd ht.1.symm hne
        | succ k =>
          have hle := index?_le (by simp [crlf]) hi
          simp only [List.length_cons, crlf_length] at hle
          refine ⟨s.take k, ?_, ?_, by simpa using hnum, hrange⟩
          · conv_lhs => rw [index?_split hi]
            simp
          · rw [List.length_take]; omega
    · exact absurd h (by simp)

/-- Conversely such a line is read. -/
theorem readByteAndNumberCrLf_of_numeral {head : UInt8} {text : Bytes} {v : ℤ} (hne : head ≠ 13)
    (hn : Numeral text v) (hv : InInt64 v) (t : Bytes) :
    readByteAndNumberCrLf head (head :: text ++ crlf ++ t) = .ok (v, text.length + 3) := by
  have htext : text ≠ [] := by
    rintro rfl
    exact hn.1 rfl
  have hpos : 0 < text.length := List.length_pos_iff.mpr htext
  have hno : NoCrlf (head :: text) := noCrlf_of_not_mem_cr (by
    simp only [List.mem_cons, not_or]; exact ⟨hne.symm, hn.not_mem_cr⟩)
  have hidx := index?_crlf_append hno t
  unfold readByteAndNumberCrLf
  rw [if_neg (by simp; omega), if_neg (by simp), hidx]
  have htake : ((head :: text ++ crlf ++ t).take (head :: text).length).drop 1 = text := by
    rw [List.append_assoc, List.take_left]; rfl
  simp only [htake, (parseInt_eq_iff _ _).mpr ⟨hn, hv⟩]
  rw [List.length_cons]

/-- The length it reports lies inside the text. -/
theorem readByteAndNumberCrLf_le {head : UInt8} {inp : Bytes} {v : ℤ} {w : ℕ}
    (h : readByteAndNumberCrLf head inp = .ok (v, w)) : w ≤ inp.length := by
  unfold readByteAndNumberCrLf at h
  split at h
  · exact absurd h (by simp)
  split at h
  · simp only [Ret.ok.injEq, Prod.mk.injEq] at h; omega
  cases hi : index? crlf inp with
  | none => rw [hi] at h; exact absurd h (by simp)
  | some idx =>
    have hle := index?_le (by simp [crlf]) hi
    rw [hi] at h
    simp only at h
    split at h
    · simp only [Ret.ok.injEq, Prod.mk.injEq] at h
      simp only [crlf_length] at hle; omega
    · exact absurd h (by simp)

end Resh.Server
