import Resh.Go.Bytes

namespace Resh.Go

/-!
# System calls on sockets

What the calls that move bytes can return.  A program is modelled with these results as its
input, so a statement about every run is one about every behaviour of the kernel and the peer.
-/

/-- What `syscall.Read` (or the TLS layer) returns; no bytes is the end of the stream. -/
inductive ReadResult where
  | data (d : Bytes)
  | again
  | error (text : Bytes)
  deriving DecidableEq, Repr

/-- The stream goes on: some bytes, or none yet. -/
def ReadResult.live : ReadResult → Bool
  | data d => d ≠ []
  | again => true
  | error _ => false

/-- What the write call returns: the number of bytes it takes, if there are as many. -/
inductive WriteResult where
  | ok (room : ℕ)
  | again (room : ℕ)
  | error (text : Bytes)
  deriving DecidableEq, Repr

/-- How many of the bytes `v` the write call takes. -/
def WriteResult.accepted (v : Bytes) : WriteResult → ℕ
  | ok room => min room v.length
  | again room => min room v.length
  | error _ => 0

/-- A write call that does not fail. -/
def WriteResult.Sound : WriteResult → Prop
  | error _ => False
  | _ => True

instance (wr : WriteResult) : Decidable wr.Sound :=
  match wr with
  | .error _ => isFalse id
  | .ok _ => isTrue trivial
  | .again _ => isTrue trivial

end Resh.Go
