import Resh.Client.Reader
import Resh.Server.Reply

namespace Resh.RoundTrip

open Resh.Go Resh.Client Resh.Server

/-!
# Replies from the server to the client

The writers of the server, the framing of the client (`readElement`) and its reader (`readNext`)
are three pieces of code over one grammar.  Every length is announced in front of the bytes it
counts, so the payload is never searched for a line end:

* `readElement_encode` — the framing finds the end of a reply, whatever follows it;
* `readNext_encode` — the reader takes a reply apart and stops behind it;
* `reply_round_trip` — what the server writes is what the client sees.
-/

/-! ### Framing -/

/-- An array lies around its elements. -/
theorem length_encode_lt_of_mem {r : Reply} {rs : List Reply} (hr : r ∈ rs) :
    r.encode.length < (Reply.array rs).encode.length := by
  have hle : r.encode.length ≤ (Reply.encodeMany rs).length := by
    induction rs with
    | nil => exact absurd hr List.not_mem_nil
    | cons r' rs ih =>
      rw [Reply.encodeMany, List.length_append]
      rcases List.mem_cons.mp hr with rfl | hr
      · omega
      · have := ih hr
        omega
  simp only [Reply.encode, List.length_append, List.length_singleton]
  omega

theorem length_le_encodeMany (rs : List Reply) : rs.length ≤ (Reply.encodeMany rs).length := by
  induction rs with
  | nil => exact Nat.zero_le _
  | cons r rs ih =>
    have := List.length_pos_of_ne_nil r.encode_ne_nil
    rw [Reply.encodeMany, List.length_append, List.length_cons]
    omega

theorem inInt64_count {rs : List Reply} (hlen : (Reply.array rs).encode.length < 2 ^ 63) :
    InInt64 rs.length := by
  have hle := length_le_encodeMany rs
  simp only [Reply.encode, List.length_append] at hlen
  exact ⟨by omega, by omega⟩

/-- Replies one after the other, as texts. -/
theorem encodeMany_eq (rs : List Reply) : Reply.encodeMany rs = (rs.map Reply.encode).flatten := by
  induction rs with
  | nil => rfl
  | cons r rs ih => rw [Reply.encodeMany, ih, List.map_cons, List.flatten_cons]

/-- What the server writes is an element. -/
theorem element_encode (r : Reply) (hlen : r.encode.length < 2 ^ 63) : Element r.encode := by
  induction r with
  | simple s => exact .line (.inl rfl) s.noCrlf
  | error s => exact .line (.inr (.inl rfl)) s.noCrlf
  | int v hv => exact .line (.inr (.inr rfl)) (numeral_formatInt v).noCrlf
  | bulk s =>
    have henc : (Reply.bulk s).encode = ch '$' :: (formatInt s.length ++ crlf ++ (s ++ crlf)) := by
      simp [Reply.encode]
    rw [henc] at hlen ⊢
    refine .bulk (numeral_formatInt s.length) ?_
    simp only [List.length_cons, List.length_append, crlf_length] at hlen
    omega
  | null => exact .null (numeral_formatInt (-1))
  | array rs ih =>
    have henc : (Reply.array rs).encode
        = ch '*' :: (formatInt rs.length ++ crlf ++ (rs.map Reply.encode).flatten) := by
      simp [Reply.encode, encodeMany_eq]
    rw [henc]
    refine .array (numeral_formatInt rs.length) (inInt64_count hlen) (by simp) ?_
    intro p hp
    obtain ⟨r, hr, rfl⟩ := List.mem_map.mp hp
    exact ih r hr ((length_encode_lt_of_mem hr).trans hlen)
  | nullArray =>
    exact @Element.array _ (-1) [] (numeral_formatInt (-1)) (by decide) rfl (List.forall_mem_nil _)

/-- **Framing.** The client finds the end of a reply. -/
theorem readElement_encode (r : Reply) (hlen : r.encode.length < 2 ^ 63) (t : Bytes) :
    readElement (r.encode ++ t) = .ok r.encode.length :=
  readElement_element (element_encode r hlen) t

/-- Every proper part of a reply makes the client wait. -/
theorem readElement_encode_cut (r : Reply) (hlen : r.encode.length < 2 ^ 63) {p q : Bytes}
    (h : r.encode = p ++ q) (hq : q ≠ []) : readElement p = .more := by
  have hall := readElement_encode r hlen []
  rw [List.append_nil, h] at hall
  exact readElement_cut hall hq

/-! ### Reading -/

/-- What `readNext` returns for a reply. -/
def itemOf : Reply → Item
  | .simple s => .str s.text
  | .error s => .err s.text
  | .int v _ => .int v
  | .bulk s => .str s
  | .null => .str []
  | .array rs => .arr (Reply.encodeMany rs)
  | .nullArray => .arr []

mutual
/-- What a caller sees of a reply; a null bulk string reads as the empty string. -/
def seen : Reply → Seen
  | .simple s => .str s.text
  | .error s => .err s.text
  | .int v _ => .int v
  | .bulk s => .str s
  | .null => .str []
  | .array rs => .arr (seenMany rs)
  | .nullArray => .arr []

/-- The same for several replies. -/
def seenMany : List Reply → List Seen
  | [] => []
  | r :: rs => seen r :: seenMany rs
end

/-- **One call of `readNext`** on a text that starts with a reply. -/
theorem readNext_encode (r : Reply) (hlen : r.encode.length < 2 ^ 63) (t : Bytes) :
    readNext (r.encode ++ t) = some (itemOf r, t) := by
  have hframe := readElement_encode r hlen t
  cases r with
  | simple s =>
    have htext : (Reply.simple s).encode ++ t = ch '+' :: (s.text ++ crlf ++ t) := by
      simp [Reply.encode]
    rw [htext, readNext_line (.inl rfl) s.noCrlf]
    rfl
  | error s =>
    have htext : (Reply.error s).encode ++ t = ch '-' :: (s.text ++ crlf ++ t) := by
      simp [Reply.encode]
    rw [htext, readNext_line (.inr (.inl rfl)) s.noCrlf]
    rfl
  | int v hv =>
    have htext : (Reply.int v hv).encode ++ t = ch ':' :: (formatInt v ++ crlf ++ t) := by
      simp [Reply.encode]
    rw [htext, readNext_line (.inr (.inr rfl)) (numeral_formatInt v).noCrlf, parseInt_formatInt hv]
    rfl
  | bulk s =>
    have htext : (Reply.bulk s).encode ++ t
        = ch '$' :: (formatInt s.length ++ crlf ++ (s ++ crlf ++ t)) := by simp [Reply.encode]
    have hsmall : (formatInt s.length).length + 1 + 2 + s.length + 2 < 2 ^ 63 := by
      simp only [Reply.encode, List.length_append, crlf_length, List.length_singleton] at hlen
      omega
    rw [htext, readNext_bulk (numeral_formatInt s.length) hsmall]
    rfl
  | null =>
    have htext : Reply.null.encode ++ t = ch '$' :: (formatInt (-1) ++ crlf ++ t) := by
      simp [Reply.encode]
    rw [htext, readNext_null (numeral_formatInt (-1))]
    rfl
  | array rs =>
    have htext : (Reply.array rs).encode ++ t
        = ch '*' :: (formatInt rs.length ++ crlf ++ (Reply.encodeMany rs ++ t)) := by
      simp [Reply.encode]
    have hn := inInt64_count hlen
    rw [htext] at hframe ⊢
    refine readNext_array (numeral_formatInt rs.length) hn t ?_
    rw [hframe]
    simp [Reply.encode]
    omega
  | nullArray =>
    have htext : Reply.nullArray.encode ++ t = ch '*' :: (formatInt (-1) ++ crlf ++ ([] ++ t)) := by
      simp [Reply.encode]
    rw [htext] at hframe ⊢
    exact readNext_array (numeral_formatInt (-1)) (by decide) t hframe

/-- **Reading to the end.** Replies one after the other are seen one after the other, each with
    its elements, and then the reader returns nil. -/
theorem readAll_encodeMany (n : ℕ) (rs : List Reply) (hlen : (Reply.encodeMany rs).length < 2 ^ 63)
    (hn : (Reply.encodeMany rs).length < n) :
    readAll n (Reply.encodeMany rs) = some (seenMany rs) := by
  induction n generalizing rs with
  | zero => exact absurd hn (by omega)
  | succ n ih =>
    cases rs with
    | nil => rfl
    | cons r rs =>
      rw [Reply.encodeMany, List.length_append] at hlen hn
      have hpos := List.length_pos_of_ne_nil r.encode_ne_nil
      have hrest := ih rs (by omega) (by omega)
      have hnext := readNext_encode r (by omega) (Reply.encodeMany rs)
      rw [Reply.encodeMany, readAll, hnext, seenMany]
      cases r with
      | array rs' =>
        have hin : (Reply.encodeMany rs').length < (Reply.array rs').encode.length := by
          simp only [Reply.encode, List.length_append, List.length_singleton]
          omega
        have hinner := ih rs' (by omega) (by omega)
        simp only [itemOf, hinner, hrest, Option.map_some, seen]
      | nullArray =>
        have hinner := ih [] (by simp [Reply.encodeMany]) (by simp [Reply.encodeMany]; omega)
        rw [Reply.encodeMany] at hinner
        simp only [itemOf, hinner, hrest, Option.map_some, seen, seenMany]
      | simple s => simp only [itemOf, hrest, Option.map_some, seen]
      | error s => simp only [itemOf, hrest, Option.map_some, seen]
      | int v hv => simp only [itemOf, hrest, Option.map_some, seen]
      | bulk s => simp only [itemOf, hrest, Option.map_some, seen]
      | null => simp only [itemOf, hrest, Option.map_some, seen]

/-- **Reply round trip.** The writers append the encoding of the reply to the output; the client
    finds its end whatever follows, and reads it back as the same tree. -/
theorem reply_round_trip (r : Reply) (c : Server.Conn) (hlock : c.lock = false)
    (hclosed : c.closed = false) (hlen : r.encode.length < 2 ^ 63) :
    r.emit c = .ok { c with out := c.out ++ r.encode } ∧
      (∀ t, readElement (r.encode ++ t) = .ok r.encode.length) ∧
      ∀ n, r.encode.length < n → readAll n r.encode = some [seen r] := by
  refine ⟨r.emit_eq hlock hclosed, readElement_encode r hlen, fun n hn => ?_⟩
  have hone : Reply.encodeMany [r] = r.encode := List.append_nil _
  have hall := readAll_encodeMany n [r] (by rw [hone]; exact hlen) (by rw [hone]; exact hn)
  rw [hone] at hall
  exact hall

/-- An array with a payload that looks like a reply, behind other output. -/
theorem reply_round_trip_nested :
    let r := Reply.array [.bulk (ascii "+OK\r\n"), .array [.int (-3) (by decide), .null],
      .error ⟨ascii "ERR", by decide⟩]
    r.emit { out := ascii "+\r\n" } = .ok { out := ascii "+\r\n" ++ r.encode } ∧
      readElement (r.encode ++ ascii "$") = .ok r.encode.length ∧
      readAll 100 r.encode = some [.arr [.str (ascii "+OK\r\n"), .arr [.int (-3), .str []],
        .err (ascii "ERR")]] := by
  intro r
  obtain ⟨h₁, h₂, h₃⟩ := reply_round_trip r { out := ascii "+\r\n" } rfl rfl (by decide +kernel)
  exact ⟨h₁, h₂ _, h₃ 100 (by decide +kernel)⟩

end Resh.RoundTrip
