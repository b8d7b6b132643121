import Resh.Incremental
import Resh.Go.Binary

namespace Resh.Client

open Resh.Go

/-!
# redis/parser.go

The client reads replies twice: `readElement` finds out how long the first element of the input
is, and `Reader.readNext` later takes the elements of such a text apart.  Both count with Go's
`int`, so sums with a length from the wire may wrap (`wrap64`).

`readElement` calls itself on the elements of an array.  Its body is `elementStep`, with the
recursive call as a parameter, and `readElement` is the body nested as often as the input is long:
every call is on a shorter input.
-/

/-- The errors of `readElement`, each with what its text prints. -/
inductive RespErr where
  /-- `strconv.Atoi: parsing %q: ...` -/
  | num (text : Bytes) (e : NumError)
  /-- `invalid bulk string length %d` -/
  | bulkLength (sz : ℤ)
  /-- `invalid end of bulk string` -/
  | bulkEnd
  /-- `invalid RESP first byte %x` -/
  | firstByte (b : UInt8)
  deriving DecidableEq, Repr

/-! ### `readElement` -/

/-- A bulk string whose header ends at `idx`, of `sz` bytes. -/
def readBulk (inp : Bytes) (idx : ℕ) (sz : ℤ) : Ret RespErr ℕ :=
  if sz = -1 then .ok (idx + 2)
  else if sz < 0 then .fail (.bulkLength sz)
  else
    let stop := wrap64 (idx + 2 + sz + 2)
    if stop ≤ inp.length then
      match slice? inp 0 stop with
      | none => .panic
      | some buf =>
        match at? buf (buf.length - 2), at? buf (buf.length - 1) with
        | some x, some y => if x = 13 ∧ y = 10 then .ok buf.length else .fail .bulkEnd
        | _, _ => .panic
    else .more

/-- The loop over the elements of an array: `count` rounds from offset `c` on. -/
def readMany (element : Bytes → Ret RespErr ℕ) (inp : Bytes) : ℕ → ℕ → Ret RespErr ℕ
  | 0, c => .ok c
  | count + 1, c =>
    match slice? inp c inp.length with
    | none => .panic
    | some rest =>
      match element rest with
      | .ok x => readMany element inp count (c + x)
      | .more => .more
      | .fail e => .fail e
      | .panic => .panic

/-- The number in the line that ends at `idx`. -/
def lineNumber (inp : Bytes) (idx : ℕ) : Ret RespErr ℤ :=
  match atoi ((inp.take idx).drop 1) with
  | (v, none) => .ok v
  | (_, some e) => .fail (.num ((inp.take idx).drop 1) e)

/-- The body of `readElement(in)`. -/
def elementStep (element : Bytes → Ret RespErr ℕ) (inp : Bytes) : Ret RespErr ℕ :=
  match inp with
  | [] => .more
  | b :: _ =>
    if b = ch '$' then
      match index? crlf inp with
      | some (i + 1) => do
        let sz ← lineNumber inp (i + 1)
        readBulk inp (i + 1) sz
      | _ => .more
    else if b = ch '+' ∨ b = ch '-' ∨ b = ch ':' then
      match index? crlf inp with
      | some (i + 1) => .ok (i + 1 + 2)
      | _ => .more
    else if b = ch '*' then
      match index? crlf inp with
      | some (i + 1) => do
        let count ← lineNumber inp (i + 1)
        readMany element inp count.toNat (i + 1 + 2)
      | _ => .more
    else .fail (.firstByte b)

/-- The body nested `n` times. -/
def readElementN : ℕ → Bytes → Ret RespErr ℕ
  | 0 => fun _ => .panic
  | n + 1 => elementStep (readElementN n)

/-- `readElement(in)`. -/
def readElement (inp : Bytes) : Ret RespErr ℕ := readElementN (inp.length + 1) inp

/-! ### `Reader` -/

/-- What `readNext` returns: `'n'`, `'s'`, `'i'`, `'e'` and `'a'`; an array is the buffer of its
    own reader. -/
inductive Item where
  | nil
  | str (s : Bytes)
  | int (v : ℤ)
  | err (s : Bytes)
  | arr (buf : Bytes)
  deriving DecidableEq, Repr

/-- The loop of `readNext` over the elements of an array, which ignores errors. -/
def skipMany (buf : Bytes) : ℕ → ℕ → Option ℕ
  | 0, c => some c
  | count + 1, c =>
    match slice? buf c buf.length with
    | none => none
    | some rest =>
      match readElement rest with
      | .ok x => skipMany buf count (c + x)
      | .panic => none
      | _ => skipMany buf count c

/-- `Reader.readNext()` on the buffer `buf`: the item and the new buffer; `none` is a panic. -/
def readNext (buf : Bytes) : Option (Item × Bytes) :=
  match buf with
  | [] => some (.nil, [])
  | b :: _ =>
    match index? crlf buf with
    | none => none
    | some idx =>
      if b = ch '$' then do
        let text ← slice? buf 1 idx
        let sz := (atoi text).1
        if sz = -1 then some (.str [], buf.drop (idx + 2))
        else do
          let data ← slice? buf (idx + 2 : ℕ) (wrap64 (idx + 2 + sz))
          let rest ← slice? buf (wrap64 (idx + 2 + sz + 2)) buf.length
          some (.str data, rest)
      else if b = ch '+' ∨ b = ch '-' ∨ b = ch ':' then do
        let data ← slice? buf 1 idx
        let item : Item := if b = ch '+' then .str data else if b = ch '-' then .err data
          else .int (parseInt data).1
        some (item, buf.drop (idx + 2))
      else if b = ch '*' then do
        let text ← slice? buf 1 idx
        let c ← skipMany buf (atoi text).1.toNat (idx + 2)
        let data ← slice? buf (idx + 2 : ℕ) c
        some (.arr data, buf.drop c)
      else none

/-- `Reader.err()`: the error and the new buffer.  Only without an error the element is put
    back. -/
def readerErr (buf : Bytes) : Option (Option Bytes × Bytes) :=
  match readNext buf with
  | none => none
  | some (.err s, rest) => some (some s, rest)
  | some (_, _) => some (none, buf)

/-- What a caller sees of a reader. -/
inductive Seen where
  | str (s : Bytes)
  | int (v : ℤ)
  | err (s : Bytes)
  | arr (xs : List Seen)

/-- `Next()` until it returns nil, and the same in the readers it returns; `n` bounds the number
    of calls one inside the other. -/
def readAll : ℕ → Bytes → Option (List Seen)
  | 0, _ => none
  | n + 1, buf =>
    match readNext buf with
    | none => none
    | some (.nil, _) => some []
    | some (.str s, rest) => (readAll n rest).map (.str s :: ·)
    | some (.int v, rest) => (readAll n rest).map (.int v :: ·)
    | some (.err s, rest) => (readAll n rest).map (.err s :: ·)
    | some (.arr inner, rest) =>
      match readAll n inner with
      | none => none
      | some xs => (readAll n rest).map (.arr xs :: ·)

example : readElement (ascii "*2\r\n$1\r\na\r\n:7\r\n+") = .ok 15 := by decide +kernel

end Resh.Client
