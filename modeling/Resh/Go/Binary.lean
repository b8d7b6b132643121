import Resh.Go.Strconv
import Mathlib.Tactic.Ring

namespace Resh.Go

/-!
# Machine integers and big-endian numbers

`wrap64` is the two's-complement wrap of Go's 64-bit `int`; `getBE` and `putBE` are
`binary.BigEndian` for any number of bytes.
-/

/-- The `int` with the same low 64 bits. -/
def wrap64 (v : ℤ) : ℤ := (v + 2 ^ 63) % 2 ^ 64 - 2 ^ 63

/-- A number that fits into an `int64` does not wrap. -/
theorem wrap64_of_inInt64 {v : ℤ} (h : InInt64 v) : wrap64 v = v := by
  obtain ⟨h₁, h₂⟩ := h
  unfold wrap64
  omega

/-- Wrapping never makes a length larger: what does not fit becomes negative or small. -/
theorem wrap64_le {v : ℤ} (h : 0 ≤ v) : wrap64 v ≤ v := by
  unfold wrap64
  omega

/-- `binary.BigEndian.Uint16`, `Uint64`: the number of the bytes `b`. -/
def getBE (b : Bytes) : ℕ := b.foldl (fun a c => a * 256 + c.toNat) 0

/-- `binary.BigEndian.AppendUint64` and the like: the low `w` bytes of `n`. -/
def putBE : ℕ → ℕ → Bytes
  | 0, _ => []
  | w + 1, n => UInt8.ofNat (n / 256 ^ w) :: putBE w n

/-- `w` bytes are written. -/
@[simp] theorem putBE_length (w n : ℕ) : (putBE w n).length = w := by
  induction w with
  | zero => rfl
  | succ w ih => simp [putBE, ih]

/-- The bytes of `n`, read back behind the value `a`: the induction behind `getBE_putBE`. -/
theorem foldl_putBE (w n a : ℕ) :
    (putBE w n).foldl (fun a c => a * 256 + c.toNat) a = a * 256 ^ w + n % 256 ^ w := by
  induction w generalizing a with
  | zero => simp [putBE, Nat.mod_one]
  | succ w ih =>
    have hmod : n % 256 ^ (w + 1) = n % 256 ^ w + 256 ^ w * (n / 256 ^ w % 256) := by
      rw [Nat.pow_succ, Nat.mod_mul]
    rw [putBE, List.foldl_cons, ih, UInt8.toNat_ofNat', hmod]
    ring

/-- **Big-endian round trip.** -/
theorem getBE_putBE {w n : ℕ} (h : n < 256 ^ w) : getBE (putBE w n) = n := by
  rw [getBE, foldl_putBE, Nat.zero_mul, Nat.zero_add, Nat.mod_eq_of_lt h]

/-- `b.length` bytes behind the value `a` stay below the next value. -/
theorem foldl_be_lt (b : Bytes) (a : ℕ) :
    b.foldl (fun a c => a * 256 + c.toNat) a < (a + 1) * 256 ^ b.length := by
  induction b generalizing a with
  | nil => simp
  | cons c b ih =>
    have hc : c.toNat < 256 := c.toNat_lt
    have hle : a * 256 + c.toNat + 1 ≤ (a + 1) * 256 := by omega
    calc (c :: b).foldl (fun a c => a * 256 + c.toNat) a
        < (a * 256 + c.toNat + 1) * 256 ^ b.length := ih _
      _ ≤ (a + 1) * 256 * 256 ^ b.length := Nat.mul_le_mul_right _ hle
      _ = (a + 1) * 256 ^ (c :: b).length := by rw [List.length_cons, Nat.pow_succ]; ring

/-- A number of `b.length` bytes is below `256 ^ b.length`. -/
theorem getBE_lt (b : Bytes) : getBE b < 256 ^ b.length := by
  have h := foldl_be_lt b 0
  rwa [Nat.zero_add, Nat.one_mul] at h

end Resh.Go
