import Resh.Go.Strconv

namespace Resh.Client

open Resh.Go

/-!
# redis/client.go — the commands on the wire

`Client.Exec` hands `activateFreeConn` a closure that appends the command to the output buffer of
whatever connection it gets, and `activateFreeConn` puts an `AUTH` command in front of it on a
fresh connection.
-/

/-- An item of `cmdArgs []any`; `other` stands for a value of any other type, with its text under
    `fmt.Sprint`. -/
inductive Arg where
  | bytes (b : Bytes)
  | string (s : Bytes)
  | int (v : ℤ)
  | int64 (v : ℤ)
  | other (sprint : Bytes)
  deriving DecidableEq, Repr

/-- The text `s` of an argument. -/
def Arg.text : Arg → Bytes
  | bytes b => b
  | string s => s
  | int v => formatInt v
  | int64 v => formatInt v
  | other sprint => sprint

/-- The number of an integer argument. -/
def Arg.value? : Arg → Option ℤ
  | int v => some v
  | int64 v => some v
  | _ => none

/-- One round of the loop over the arguments. -/
def appendArg (out : Bytes) (a : Arg) : Bytes :=
  out ++ [ch '$'] ++ formatInt a.text.length ++ crlf ++ a.text ++ crlf

/-- The closure of `Exec`: the command behind what `c.out` holds. -/
def appendCommand (cmdArgs : List Arg) (out : Bytes) : Bytes :=
  cmdArgs.foldl appendArg (out ++ [ch '*'] ++ formatInt cmdArgs.length ++ crlf)

/-- What `activateFreeConn` puts into `c.out` of a fresh connection before the command. -/
def appendAuth (auth out : Bytes) : Bytes :=
  if auth = [] then out
  else out ++ ascii "*2\r\n$4\r\nAUTH\r\n$" ++ formatInt auth.length ++ crlf ++ auth ++ crlf

/-- The command does not depend on what is in front of it. -/
theorem appendCommand_append (cmdArgs : List Arg) (out : Bytes) :
    appendCommand cmdArgs out = out ++ appendCommand cmdArgs [] := by
  have hfold : ∀ (as : List Arg) (u v : Bytes), as.foldl appendArg (u ++ v)
      = u ++ as.foldl appendArg v := by
    intro as
    induction as with
    | nil => intro u v; rfl
    | cons a as ih =>
      intro u v
      rw [List.foldl_cons, List.foldl_cons, ← ih]
      simp [appendArg]
  have hhead := hfold cmdArgs out ([] ++ [ch '*'] ++ formatInt cmdArgs.length ++ crlf)
  rw [appendCommand, appendCommand, ← hhead]
  simp

/-- `AUTH` is a command of two arguments. -/
theorem appendAuth_eq {auth : Bytes} (h : auth ≠ []) (out : Bytes) :
    appendAuth auth out = appendCommand [.string (ascii "AUTH"), .string auth] out := by
  have h₁ : formatInt ((ascii "AUTH").length : ℤ) = ascii "4" := by decide
  have h₂ : formatInt 2 = ascii "2" := by decide
  have h₃ : ascii "*2\r\n$4\r\nAUTH\r\n$"
      = [ch '*'] ++ ascii "2" ++ crlf ++ [ch '$'] ++ ascii "4" ++ crlf ++ ascii "AUTH" ++ crlf
        ++ [ch '$'] := by decide
  rw [appendAuth, if_neg h, h₃]
  simp only [appendCommand, List.length_cons, List.length_nil, Nat.zero_add, Nat.reduceAdd,
    Nat.cast_ofNat, h₂, List.foldl_cons, List.foldl_nil, appendArg, Arg.text, h₁, List.append_assoc]

end Resh.Client
