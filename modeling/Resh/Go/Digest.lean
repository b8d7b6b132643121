import Resh.Go.Binary

namespace Resh.Go

/-!
# crypto/sha1 and encoding/base64

`sha1.Sum` over the padded message, block by block, and `base64.StdEncoding.EncodeToString`.

* `mem_base64` — the text is made of the 64 characters and the padding, so it can stand in a header
  line.
-/

/-! ### SHA-1 -/

/-- The five words of the state. -/
structure Sha1 where
  a : UInt32 := 0x67452301
  b : UInt32 := 0xEFCDAB89
  c : UInt32 := 0x98BADCFE
  d : UInt32 := 0x10325476
  e : UInt32 := 0xC3D2E1F0
  deriving DecidableEq, Repr

namespace Sha1

def rotateLeft (x k : UInt32) : UInt32 := (x <<< k) ||| (x >>> (32 - k))

/-- The message, one set bit, zeros, and the length in bits; 64 bytes for each block. -/
def pad (m : Bytes) : Bytes :=
  m ++ 0x80 :: List.replicate ((119 - m.length % 64) % 64) 0 ++ putBE 8 (8 * m.length)

/-- The words of a padded message. -/
def words : Bytes → List UInt32
  | a :: b :: c :: d :: m => UInt32.ofNat (getBE [a, b, c, d]) :: words m
  | _ => []

/-- The function and the constant of a round. -/
def mix (t : ℕ) (s : Sha1) : UInt32 :=
  if t < 20 then ((s.b &&& s.c) ||| (~~~s.b &&& s.d)) + 0x5A827999
  else if t < 40 then (s.b ^^^ s.c ^^^ s.d) + 0x6ED9EBA1
  else if t < 60 then ((s.b &&& s.c) ||| (s.b &&& s.d) ||| (s.c &&& s.d)) + 0x8F1BBCDC
  else (s.b ^^^ s.c ^^^ s.d) + 0xCA62C1D6

def round (t : ℕ) (w : UInt32) (s : Sha1) : Sha1 :=
  { a := rotateLeft s.a 5 + s.mix t + s.e + w, b := s.a, c := rotateLeft s.b 30,
    d := s.c, e := s.d }

/-- `n` rounds from round `t` on; `ws` are the next 16 words of the schedule. -/
def rounds : ℕ → ℕ → List UInt32 → Sha1 → Sha1
  | 0, _, _, s => s
  | n + 1, t, ws, s =>
    let next := rotateLeft (ws.getD 13 0 ^^^ ws.getD 8 0 ^^^ ws.getD 2 0 ^^^ ws.getD 0 0) 1
    rounds n (t + 1) (ws.tail ++ [next]) (round t (ws.getD 0 0) s)

/-- A block. -/
def block (ws : List UInt32) (s : Sha1) : Sha1 :=
  let s' := rounds 80 0 ws s
  { a := s.a + s'.a, b := s.b + s'.b, c := s.c + s'.c, d := s.d + s'.d, e := s.e + s'.e }

def blocks : ℕ → List UInt32 → Sha1 → Sha1
  | 0, _, s => s
  | n + 1, ws, s => blocks n (ws.drop 16) (block (ws.take 16) s)

/-- `sha1.Sum(m)`. -/
def sum (m : Bytes) : Bytes :=
  let s := blocks ((pad m).length / 64) (words (pad m)) {}
  [s.a, s.b, s.c, s.d, s.e].flatMap fun w => putBE 4 w.toNat

end Sha1

example : Sha1.sum (ascii "abc") = [0xA9, 0x99, 0x3E, 0x36, 0x47,
    0x06, 0x81, 0x6A, 0xBA, 0x3E, 0x25,
    0x71, 0x78, 0x50, 0xC2, 0x6C, 0x9C, 0xD0, 0xD8, 0x9D] := by decide +kernel

/-! ### Base64 -/

/-- The characters of `base64.StdEncoding`. -/
def base64Alphabet : Bytes :=
  ascii "ABCDEFGHIJKLMNOPQRSTUVWXYZabcdefghijklmnopqrstuvwxyz0123456789+/"

/-- The character for six bits. -/
def base64Char (n : ℕ) : UInt8 := base64Alphabet.getD (n % 64) 0

/-- `base64.StdEncoding.EncodeToString(m)`. -/
def base64 : Bytes → Bytes
  | a :: b :: c :: m =>
    let n := getBE [a, b, c]
    [base64Char (n / 2 ^ 18), base64Char (n / 2 ^ 12), base64Char (n / 2 ^ 6),
      base64Char n] ++ base64 m
  | [a, b] =>
    let n := getBE [a, b, 0]
    [base64Char (n / 2 ^ 18), base64Char (n / 2 ^ 12), base64Char (n / 2 ^ 6), ch '=']
  | [a] =>
    let n := getBE [a, 0, 0]
    [base64Char (n / 2 ^ 18), base64Char (n / 2 ^ 12), ch '=', ch '=']
  | [] => []

theorem base64Char_mem (n : ℕ) : base64Char n ∈ base64Alphabet := by
  have hlen : base64Alphabet.length = 64 := by decide +kernel
  have hlt : n % 64 < base64Alphabet.length := by
    rw [hlen]
    exact Nat.mod_lt n (by decide)
  rw [base64Char, List.getD_eq_getElem?_getD, List.getElem?_eq_getElem hlt]
  exact List.getElem_mem hlt

/-- **The characters of the text.** -/
theorem mem_base64 {m : Bytes} {c : UInt8} (h : c ∈ base64 m) : c ∈ base64Alphabet ++ [ch '='] := by
  have hchar : ∀ n, base64Char n ∈ base64Alphabet ++ [ch '='] := fun n =>
    List.mem_append_left _ (base64Char_mem n)
  have hpad : ch '=' ∈ base64Alphabet ++ [ch '='] :=
    List.mem_append_right _ (List.mem_singleton_self _)
  induction m using base64.induct with
  | case1 a b d m ih =>
    rw [base64, List.mem_append] at h
    rcases h with h | h
    · simp only [List.mem_cons, List.not_mem_nil, or_false] at h
      rcases h with rfl | rfl | rfl | rfl
      · exact hchar _
      · exact hchar _
      · exact hchar _
      · exact hchar _
    · exact ih h
  | case2 a b =>
    simp only [base64, List.mem_cons, List.not_mem_nil, or_false] at h
    rcases h with rfl | rfl | rfl | rfl
    · exact hchar _
    · exact hchar _
    · exact hchar _
    · exact hpad
  | case3 a =>
    simp only [base64, List.mem_cons, List.not_mem_nil, or_false] at h
    rcases h with rfl | rfl | rfl | rfl
    · exact hchar _
    · exact hchar _
    · exact hpad
    · exact hpad
  | case4 => cases h

end Resh.Go
