import Resh.Client.Conn
import Resh.RoundTrip.Reply

namespace Resh.Client

open Resh.Go Resh.Server Resh.RoundTrip

/-!
# The loop of `readConn` at a reply

The event loop finds the replies in its input by their framing (`readElement`), so what counts is
which part of the pending replies the input holds:

* `parseOne_auth`, `parseOne_reply`, `parseOne_more` — one round of the loop at the `AUTH` reply,
  at the reply to the command, and at a part of a reply;
* `parseLoop_auth`, `parseLoop_reply` — the whole loop, in the two phases of a connection.
-/

/-! ### What a callback gets -/

/-- The buffer of the reader: `err()` has taken an error reply out of it. -/
def readerOf (r : Reply) : Bytes :=
  match r with
  | .error _ => []
  | r => r.encode

/-- The error of the callback. -/
def errOf (r : Reply) : Option Cause :=
  match r with
  | .error s => some (.reply s.text)
  | _ => none

/-- `r.err()` on a reply: an error reply is consumed and becomes the error of the call, every other
    one is left to the callback. -/
theorem readerErr_encode (r : Reply) (hlen : r.encode.length < 2 ^ 63) :
    ∃ err, readerErr r.encode = some (err, readerOf r) ∧ err.map Cause.reply = errOf r := by
  have hnext := readNext_encode r hlen []
  rw [List.append_nil] at hnext
  rw [readerErr, hnext]
  cases r with
  | error s => exact ⟨some s.text, rfl, rfl⟩
  | simple s => exact ⟨none, rfl, rfl⟩
  | int v h => exact ⟨none, rfl, rfl⟩
  | bulk s => exact ⟨none, rfl, rfl⟩
  | null => exact ⟨none, rfl, rfl⟩
  | array rs => exact ⟨none, rfl, rfl⟩
  | nullArray => exact ⟨none, rfl, rfl⟩

namespace Conn

variable {cfg : Config} {len : ℤ} {c : Conn} {r : Reply} {k : ℕ}

/-! ### One round of the loop -/

/-- The reply to `AUTH` only changes the state. -/
theorem parseOne_auth {t : Bytes} (hauth : c.authState = 1) (hinp : c.inp = r.encode ++ t)
    (hlen : r.encode.length < 2 ^ 63) :
    parseOne cfg len c = ({ c with authState := 2, inp := t }, [], .parse) := by
  have hel : readElement c.inp = .ok r.encode.length := by rw [hinp, readElement_encode r hlen]
  rw [parseOne, if_pos (by have := readElement_le hel; omega), hel]
  simp only [if_pos hauth, hinp, List.drop_left]

/-- The reply to the command goes to the callback. -/
theorem parseOne_reply (hk : c.callback = some k) (hauth : c.authState ≠ 1)
    (hinp : c.inp = r.encode) (hlen : r.encode.length < 2 ^ 63) :
    parseOne cfg len c = ({ c with authState := 0, inp := [] },
      [.call k (some (readerOf r)) (errOf r)], .parse) := by
  have hel : readElement c.inp = .ok c.inp.length := by
    have h := readElement_encode r hlen []
    rwa [List.append_nil, ← hinp] at h
  obtain ⟨err, hread, herr⟩ := readerErr_encode r hlen
  rw [parseOne, if_pos (by have := readElement_le hel; omega), hel]
  simp only [if_neg hauth, hk, List.take_length, List.drop_length, hinp, hread, herr]

/-- A part of a reply is left for the next read. -/
theorem parseOne_more (hne : c.inp ≠ []) (hmore : readElement c.inp = .more) :
    parseOne cfg len c = (c, [], .wait) := by
  have hpos := List.length_pos_of_ne_nil hne
  have hfin : finish cfg len c = (c, .wait) := by rw [finish, if_neg (by omega)]
  rw [parseOne, if_pos hpos, hmore]
  simp only [hfin]

/-- Without input the loop is at its end. -/
theorem parseOne_end (hinp : c.inp = []) :
    parseOne cfg len c = ((finish cfg len c).1, [], (finish cfg len c).2) := by
  rw [parseOne, if_neg (by simp [hinp])]

/-- The connection as it goes into the pool. -/
def released (cfg : Config) (c : Conn) : Conn :=
  { c with callback := none, death := if cfg.timeout then some { armed := false } else none }

/-- At the end, with a running timer and room in the pool, the connection is released. -/
theorem finish_release (hinp : c.inp = []) (hauth : c.authState = 0) (hlen : len ≤ cfg.poolSize)
    (htimer : c.death = if cfg.timeout then some { armed := true } else none) :
    finish cfg len c = (c.released cfg, .push) := by
  rw [finish, if_pos ⟨by simp [hinp], hauth⟩, if_pos hlen]
  simp only [htimer]
  cases hT : cfg.timeout <;> simp [hT, released, Timer.stop]

/-! ### The loop -/

/-- One round, and the rounds behind it. -/
theorem parseLoop_parse {c' : Conn} {es : List Event}
    (h : parseOne cfg len c = (c', es, .parse)) (n : ℕ) : parseLoop cfg len (n + 1) c
      = ((parseLoop cfg len n c').1, es ++ (parseLoop cfg len n c').2.1,
        (parseLoop cfg len n c').2.2) := by
  rw [parseLoop, h]

/-- The last round. -/
theorem parseLoop_stop {c' : Conn} {es : List Event} {next : Next}
    (h : parseOne cfg len c = (c', es, next)) (hnext : next ≠ .parse) (n : ℕ) :
    parseLoop cfg len (n + 1) c = (c', es, next) := by
  rw [parseLoop, h]
  cases next with
  | parse => exact absurd rfl hnext
  | _ => rfl

/-- The loop when one reply is pending: it is complete and goes to the callback, or it is left. -/
theorem parseLoop_reply {w : Bytes} (hk : c.callback = some k) (hauth : c.authState ≠ 1)
    (hlen : len ≤ cfg.poolSize)
    (htimer : c.death = if cfg.timeout then some { armed := true } else none)
    (hne : c.inp ≠ []) (hr : r.encode = c.inp ++ w) (hsmall : r.encode.length < 2 ^ 63) (n : ℕ) :
    (w = [] ∧ parseLoop cfg len (n + 2) c
        = (({ c with authState := 0, inp := [] } : Conn).released cfg,
            [.call k (some (readerOf r)) (errOf r)], .push)) ∨
      (w ≠ [] ∧ parseLoop cfg len (n + 2) c = (c, [], .wait) ∧ readElement c.inp = .more) := by
  by_cases hw : w = []
  · rw [hw, List.append_nil] at hr
    have hfin : finish cfg len { c with authState := 0, inp := [] }
        = (({ c with authState := 0, inp := [] } : Conn).released cfg, .push) :=
      finish_release rfl rfl hlen htimer
    have hend : parseOne cfg len { c with authState := 0, inp := [] }
        = (({ c with authState := 0, inp := [] } : Conn).released cfg, [], .push) := by
      rw [parseOne_end rfl, hfin]
    rw [parseLoop_parse (parseOne_reply hk hauth hr.symm hsmall), parseLoop_stop hend (by simp)]
    exact .inl ⟨hw, by simp⟩
  · have hmore := readElement_encode_cut r hsmall hr hw
    exact .inr ⟨hw, parseLoop_stop (parseOne_more hne hmore) (by simp) _, hmore⟩

/-- The loop when the `AUTH` reply is pending, and perhaps the reply to the command behind it. -/
theorem parseLoop_auth {rs : List Reply} {w : Bytes} (hk : c.callback = some k)
    (hauth : c.authState = 1) (hlen : len ≤ cfg.poolSize)
    (htimer : c.death = if cfg.timeout then some { armed := true } else none)
    (hne : c.inp ≠ []) (hrs : rs.length ≤ 1)
    (hbytes : Reply.encodeMany (r :: rs) = c.inp ++ w)
    (hsmall : (Reply.encodeMany (r :: rs)).length < 2 ^ 63) :
    (∃ r', rs = [r'] ∧ w = [] ∧ parseLoop cfg len (c.inp.length + 1) c
        = (({ c with authState := 0, inp := [] } : Conn).released cfg,
            [.call k (some (readerOf r')) (errOf r')], .push)) ∨
      (∃ t, Reply.encodeMany rs = t ++ w ∧ (t = [] ∨ readElement t = .more) ∧
        parseLoop cfg len (c.inp.length + 1) c = ({ c with authState := 2, inp := t }, [], .wait)) ∨
      (parseLoop cfg len (c.inp.length + 1) c = (c, [], .wait) ∧ readElement c.inp = .more) := by
  rw [Reply.encodeMany] at hbytes hsmall
  rw [List.length_append] at hsmall
  have hpos := List.length_pos_of_ne_nil r.encode_ne_nil
  by_cases hle : r.encode.length ≤ c.inp.length
  · -- the whole `AUTH` reply is there: what is behind it decides
    obtain ⟨t, ht⟩ : ∃ t, c.inp = r.encode ++ t := by
      obtain ⟨t, ht⟩ := List.prefix_of_prefix_length_le ⟨_, hbytes⟩ ⟨w, rfl⟩ hle
      exact ⟨t, ht.symm⟩
    rw [ht, List.append_assoc, List.append_cancel_left_eq] at hbytes
    have hone : ∀ n, parseLoop cfg len (n + 1) c
        = ((parseLoop cfg len n { c with authState := 2, inp := t }).1,
            (parseLoop cfg len n { c with authState := 2, inp := t }).2.1,
            (parseLoop cfg len n { c with authState := 2, inp := t }).2.2) :=
      parseLoop_parse (parseOne_auth hauth ht (by omega))
    rw [hone, ht, List.length_append]
    -- the reply to the command has not come, or has come in part or whole
    by_cases htne : t = []
    · subst htne
      obtain ⟨n, hn⟩ : ∃ n, r.encode.length + ([] : Bytes).length = n + 1 :=
        ⟨r.encode.length - 1, by simp; omega⟩
      have hend : parseOne cfg len { c with authState := 2, inp := [] }
          = ({ c with authState := 2, inp := [] }, [], .wait) := by
        rw [parseOne_end rfl, finish, if_neg (by simp)]
      rw [hn, parseLoop_stop hend (by simp)]
      exact .inr (.inl ⟨[], hbytes, .inl rfl, rfl⟩)
    · obtain ⟨r', rfl⟩ : ∃ r', rs = [r'] := by
        cases rs with
        | nil => exact absurd (List.append_eq_nil_iff.mp hbytes.symm).1 htne
        | cons r' rs =>
          obtain rfl : rs = [] := List.eq_nil_of_length_eq_zero (by simpa using hrs)
          exact ⟨r', rfl⟩
      have htpos := List.length_pos_of_ne_nil htne
      obtain ⟨n, hn⟩ : ∃ n, r.encode.length + t.length = n + 2 :=
        ⟨r.encode.length + t.length - 2, by omega⟩
      have hr' : r'.encode = t ++ w := by simpa [Reply.encodeMany] using hbytes
      have hsmall' : r'.encode.length < 2 ^ 63 := by
        simp only [Reply.encodeMany, List.append_nil] at hsmall
        omega
      rw [hn]
      rcases parseLoop_reply (c := { c with authState := 2, inp := t })
        hk (by simp) hlen htimer htne hr' hsmall' n with ⟨hw, hrun⟩ | ⟨hw, hrun, hmore⟩
      · rw [hrun]
        exact .inl ⟨r', rfl, hw, rfl⟩
      · rw [hrun]
        exact .inr (.inl ⟨t, hbytes, .inr hmore, rfl⟩)
  · -- the `AUTH` reply itself is cut
    obtain ⟨q, hq⟩ := List.prefix_of_prefix_length_le ⟨w, rfl⟩ ⟨_, hbytes⟩ (by omega)
    have hqne : q ≠ [] := by
      rintro rfl
      rw [List.append_nil] at hq
      rw [hq] at hle
      exact hle le_rfl
    have hmore := readElement_encode_cut r (by omega) hq.symm hqne
    exact .inr (.inr ⟨parseLoop_stop (parseOne_more hne hmore) (by simp) _, hmore⟩)

end Conn

end Resh.Client
