import Mathlib.Data.List.TakeWhile
import Resh.Go.Strconv
import Resh.Go.Text

namespace Resh.Http1

open Resh.Go

/-!
# HTTP/1.1 message framing

What a client makes of the bytes on a connection: a status line and header lines up to the first
empty line, then a body that is delimited by the chunked transfer coding, else by `Content-Length`,
else by the end of the connection.

* `split` — all messages of a connection that the server has closed behind its output;
* `message_length`, `message_chunked`, `message_close` — the three framings, each for a message with
  anything behind it.
-/

/-- A response as the client sees it. -/
structure Message where
  status : ℤ
  body : Bytes
  deriving DecidableEq, Repr

/-! ### The head -/

/-- The lines up to the first empty one, and what stands behind it. -/
def lines : ℕ → Bytes → Option (List Bytes × Bytes)
  | 0, _ => none
  | n + 1, inp =>
    match index? crlf inp with
    | none => none
    | some 0 => some ([], inp.drop 2)
    | some i =>
      match lines n (inp.drop (i + 2)) with
      | none => none
      | some (ls, rest) => some (inp.take i :: ls, rest)

/-- Optional white space. -/
def isOws (c : UInt8) : Bool := c == 32 || c == 9

/-- A value without the white space around it. -/
def trimOws (s : Bytes) : Bytes := ((s.dropWhile isOws).reverse.dropWhile isOws).reverse

/-- A header line: the name in lower case, and the value. -/
def field (line : Bytes) : Option (Bytes × Bytes) :=
  match indexByte? (ch ':') line with
  | none => none
  | some i => some ((line.take i).map lower, trimOws (line.drop (i + 1)))

/-- The version and the space behind it. -/
def version : Bytes := ascii "HTTP/1.1 "

/-- The status code of a status line. -/
def statusOf (line : Bytes) : Option ℤ :=
  if version <+: line then
    match parseInt ((line.drop version.length).takeWhile (· ≠ 32)) with
    | (v, none) => some v
    | (_, some _) => none
  else none

/-- The last value of a header. -/
def get? (fields : List (Bytes × Bytes)) (name : Bytes) : Option Bytes :=
  ((fields.filter fun f => f.1 == name).getLast?).map Prod.snd

/-- The status, the header and what stands behind them. -/
def head (inp : Bytes) : Option (ℤ × List (Bytes × Bytes) × Bytes) :=
  match lines (inp.length + 1) inp with
  | some (line :: ls, rest) =>
    match statusOf line, ls.mapM field with
    | some status, some fields => some (status, fields, rest)
    | _, _ => none
  | _ => none

/-! ### The body -/

/-- A number of hexadecimal digits. -/
def hexNumber (s : Bytes) : Option ℕ :=
  if s = [] then none
  else s.foldlM (fun n c => (hexVal c).map fun d => n * 16 + d.toNat) 0

/-- The chunked coding: the data, and what stands behind the trailer. -/
def chunks : ℕ → Bytes → Option (Bytes × Bytes)
  | 0, _ => none
  | n + 1, inp =>
    match index? crlf inp with
    | none => none
    | some i =>
      -- a chunk extension is ignored
      match hexNumber ((inp.take i).takeWhile (· ≠ ch ';')) with
      | none => none
      | some 0 => (lines (inp.length + 1) (inp.drop (i + 2))).map fun r => ([], r.2)
      | some size =>
        let rest := inp.drop (i + 2)
        if crlf <+: rest.drop size then
          match chunks n (rest.drop (size + 2)) with
          | none => none
          | some (data, rest') => some (rest.take size ++ data, rest')
        else none

/-- The last transfer coding of a list. -/
def finalCoding (v : Bytes) : Bytes :=
  match lastIndexByte? (ch ',') v with
  | none => (trimOws v).map lower
  | some i => (trimOws (v.drop (i + 1))).map lower

/-- A decimal number. -/
def number (s : Bytes) : Option ℕ :=
  if s ≠ [] ∧ s.all isDigit = true then some (digitsVal s 0) else none

/-- Responses that never have a body. -/
def bodyless (status : ℤ) : Bool := (100 ≤ status && status < 200) || status == 204 || status == 304

/-- One message, and what stands behind it. -/
def message (inp : Bytes) : Option (Message × Bytes) :=
  match head inp with
  | none => none
  | some (status, fields, rest) =>
    if bodyless status then some (⟨status, []⟩, rest)
    else match get? fields (ascii "transfer-encoding") with
      | some v =>
        if finalCoding v = ascii "chunked" then
          (chunks (rest.length + 1) rest).map fun r => (⟨status, r.1⟩, r.2)
        else some (⟨status, rest⟩, [])
      | none =>
        match get? fields (ascii "content-length") with
        | some v =>
          match number v with
          | none => none
          | some n => if n ≤ rest.length then some (⟨status, rest.take n⟩, rest.drop n) else none
        | none => some (⟨status, rest⟩, [])

/-- At most `n` messages. -/
def splitN : ℕ → Bytes → Option (List Message)
  | _, [] => some []
  | 0, _ :: _ => none
  | n + 1, b :: inp =>
    match message (b :: inp) with
    | none => none
    | some (m, rest) => (splitN n rest).map (m :: ·)

/-- The messages of a connection. -/
def split (inp : Bytes) : Option (List Message) := splitN inp.length inp

/-! ### Reading lines -/

/-- A block of lines that ends with an empty one is read back, with what stands behind it. -/
theorem lines_joinLines {ls : List Bytes} (hls : ∀ l ∈ ls, l ≠ [] ∧ NoCrlf l) (rest : Bytes) {n : ℕ}
    (hn : ls.length < n) : lines n (joinLines ls ++ crlf ++ rest) = some (ls, rest) := by
  induction ls generalizing n with
  | nil =>
    obtain ⟨n, rfl⟩ : ∃ k, n = k + 1 := ⟨n - 1, by simp only [List.length_nil] at hn; omega⟩
    have hidx : index? crlf (crlf ++ rest) = some 0 := index?_crlf_append (l := []) (by decide) rest
    simp only [joinLines_nil, List.nil_append, lines, hidx]
    rfl
  | cons l ls ih =>
    obtain ⟨n, rfl⟩ : ∃ k, n = k + 1 := ⟨n - 1, by simp only [List.length_cons] at hn; omega⟩
    obtain ⟨hne, hl⟩ := hls l List.mem_cons_self
    have hsplit : joinLines (l :: ls) ++ crlf ++ rest = l ++ crlf
        ++ (joinLines ls ++ crlf ++ rest) := by
      rw [joinLines_cons]
      simp only [List.append_assoc]
    have hidx := index?_crlf_append hl (joinLines ls ++ crlf ++ rest)
    obtain ⟨k, hk⟩ : ∃ k, l.length = k + 1 := ⟨l.length - 1, by
      have := List.length_pos_iff.mpr hne
      omega⟩
    have htake : (l ++ crlf ++ (joinLines ls ++ crlf ++ rest)).take (k + 1) = l := by
      rw [← hk, List.append_assoc, List.take_left]
    have hdrop : (l ++ crlf ++ (joinLines ls ++ crlf ++ rest)).drop (k + 1 + 2)
        = joinLines ls ++ crlf ++ rest := by
      rw [← hk, ← crlf_length, ← List.length_append, List.drop_left]
    rw [hk] at hidx
    rw [hsplit, lines, hidx]
    simp only [htake, hdrop]
    rw [ih (fun l' h' => hls l' (List.mem_cons_of_mem l h'))
      (by simp only [List.length_cons] at hn; omega)]

/-! ### Reading a head -/

/-- A text without blanks is not trimmed. -/
theorem trimOws_eq {s : Bytes} (h : ∀ c ∈ s, isOws c = false) : trimOws s = s := by
  have hdrop : ∀ t : Bytes, (∀ c ∈ t, isOws c = false) → t.dropWhile isOws = t := by
    intro t ht
    cases t with
    | nil => rfl
    | cons c t => rw [List.dropWhile_cons_of_neg (by simp [ht c List.mem_cons_self])]
  rw [trimOws, hdrop s h, hdrop s.reverse (fun c hc => h c (List.mem_reverse.mp hc)),
    List.reverse_reverse]

/-- A header line. -/
def headerLine (f : Bytes × Bytes) : Bytes := f.1 ++ ascii ": " ++ f.2

/-- A line `name: value` is read as its name in lower case and its value without the blanks around
    it. -/
theorem field_headerLine {f : Bytes × Bytes} (hname : ch ':' ∉ f.1) :
    field (headerLine f) = some (f.1.map lower, trimOws f.2) := by
  obtain ⟨k, v⟩ := f
  have hline : headerLine (k, v) = k ++ ch ':' :: 32 :: v := by
    simp [headerLine, show ascii ": " = [ch ':', 32] by decide]
  have hidx : indexByte? (ch ':') (headerLine (k, v)) = some k.length := by
    rw [hline, indexByte?, List.findIdx?_append, List.findIdx?_eq_none_iff.mpr]
    · simp [List.findIdx?_cons]
    · intro c hc
      exact beq_false_of_ne fun heq => hname (heq ▸ hc)
  have hdrop : (k ++ ch ':' :: 32 :: v).drop (k.length + 1) = 32 :: v := by
    rw [List.drop_append]
    simp
  rw [field, hidx, hline]
  simp only [List.take_left, hdrop]
  rw [trimOws, List.dropWhile_cons_of_pos (by decide)]
  rfl

/-- A status line. -/
def statusLine (status : ℤ) (text : Bytes) : Bytes := version ++ formatInt status ++ [32] ++ text

/-- The status is read back: it stands between the version and the next space. -/
theorem statusOf_statusLine {status : ℤ} (h : InInt64 status) (text : Bytes) :
    statusOf (statusLine status text) = some status := by
  have hline : statusLine status text = version ++ (formatInt status ++ 32 :: text) := by
    simp [statusLine]
  have hcode : (formatInt status ++ 32 :: text).takeWhile (· ≠ 32) = formatInt status := by
    rw [List.takeWhile_append_of_pos, List.takeWhile_cons_of_neg (by simp), List.append_nil]
    intro c hc
    have hmem := (numeral_formatInt status).mem hc
    refine decide_eq_true fun heq => ?_
    rw [heq] at hmem
    exact absurd hmem (by decide)
  rw [statusOf, hline, if_pos (List.prefix_append _ _), List.drop_left, hcode, parseInt_formatInt h]

/-- The bytes of a head. -/
def encodeHead (status : ℤ) (text : Bytes) (fields : List (Bytes × Bytes)) : Bytes :=
  joinLines (statusLine status text :: fields.map headerLine) ++ crlf

/-- The field can be written in a line of its own. -/
def Clean (f : Bytes × Bytes) : Prop := ch ':' ∉ f.1 ∧ (13 : UInt8) ∉ f.1 ∧ (13 : UInt8) ∉ f.2

/-- What is read back of a field. -/
def received (f : Bytes × Bytes) : Bytes × Bytes := (f.1.map lower, trimOws f.2)

/-- All lines of a head are read back. -/
theorem mapM_field {fields : List (Bytes × Bytes)} (h : ∀ f ∈ fields, Clean f) :
    (fields.map headerLine).mapM field = some (fields.map received) := by
  induction fields with
  | nil => rfl
  | cons f fs ih =>
    rw [List.map_cons, List.mapM_cons, field_headerLine (h f List.mem_cons_self).1,
      ih fun f' hf' => h f' (List.mem_cons_of_mem f hf')]
    rfl

/-- **A head is read back.** -/
theorem head_encodeHead {status : ℤ} {text : Bytes} {fields : List (Bytes × Bytes)}
    (hstatus : InInt64 status) (htext : (13 : UInt8) ∉ text) (hfields : ∀ f ∈ fields, Clean f)
    (rest : Bytes) :
    head (encodeHead status text fields ++ rest) = some (status, fields.map received, rest) := by
  have hls : ∀ l ∈ statusLine status text :: fields.map headerLine, l ≠ [] ∧ NoCrlf l := by
    intro l hl
    rcases List.mem_cons.mp hl with rfl | hl
    · refine ⟨by simp [statusLine, version, ascii], noCrlf_of_not_mem_cr ?_⟩
      have hcode := (numeral_formatInt status).not_mem_cr
      have hversion : (13 : UInt8) ∉ version := by decide
      simp [statusLine, hcode, htext, hversion]
    · obtain ⟨f, hf, rfl⟩ := List.mem_map.mp hl
      obtain ⟨-, hk, hv⟩ := hfields f hf
      have hsep : (13 : UInt8) ∉ ascii ": " := by decide
      refine ⟨by simp [headerLine, ascii], noCrlf_of_not_mem_cr ?_⟩
      simp [headerLine, hk, hv, hsep]
  have hlen := length_le_joinLines (statusLine status text :: fields.map headerLine)
  have hread := lines_joinLines hls rest
    (n := (encodeHead status text fields ++ rest).length + 1) (by
      simp only [encodeHead, List.length_append]
      omega)
  rw [head, show encodeHead status text fields ++ rest
    = joinLines (statusLine status text :: fields.map headerLine) ++ crlf ++ rest from rfl] at *
  rw [hread]
  simp only [statusOf_statusLine hstatus, mapM_field hfields]

/-- A name that no field has is not found. -/
theorem get?_eq_none {fields : List (Bytes × Bytes)} {name : Bytes} (h : ∀ f ∈ fields, f.1 ≠ name) :
    get? fields name = none := by
  rw [get?, List.filter_eq_nil_iff.mpr fun f hf => by simpa using h f hf]
  rfl

/-- The last field of a name is the one that is found. -/
theorem get?_concat (fields : List (Bytes × Bytes)) (name v : Bytes) :
    get? (fields ++ [(name, v)]) name = some v := by
  simp [get?]

/-! ### Reading a body -/

/-- A decimal length is read back. -/
theorem number_formatUint (n : ℕ) : number (formatUint 10 n) = some n := by
  obtain ⟨h₁, h₂, h₃⟩ := formatUint_digits n
  rw [number, if_pos ⟨h₁, List.all_eq_true.2 h₂⟩, h₃]

/-- A hexadecimal digit has its value. -/
theorem hexVal_digitChar {d : ℕ} (h : d < 16) :
    (hexVal (ch d.digitChar)).map UInt8.toNat = some d := by
  interval_cases d <;> rfl

/-- Lower-case hexadecimal text is digits, not empty, and has the value it was made from. -/
theorem formatUint_hex (n : ℕ) :
    formatUint 16 n ≠ [] ∧ (∀ c ∈ formatUint 16 n, (hexVal c).isSome = true) ∧
      (formatUint 16 n).foldlM (fun n c => (hexVal c).map fun d => n * 16 + d.toNat) 0
        = some n := by
  have hdigit : ∀ d, d < 16 → ∃ v, hexVal (ch d.digitChar) = some v ∧ v.toNat = d := fun d hd =>
    Option.map_eq_some_iff.mp (hexVal_digitChar hd)
  induction n using Nat.strong_induction_on with
  | _ n ih =>
    by_cases hn : n < 16
    · obtain ⟨v, hv, hval⟩ := hdigit n hn
      simp [formatUint, Nat.toDigits_of_lt_base hn, hv, hval]
    · have heq : formatUint 16 n = formatUint 16 (n / 16) ++ [ch (n % 16).digitChar] := by
        simp [formatUint, Nat.toDigits_of_base_le (by omega : 1 < 16) (by omega : 16 ≤ n)]
      obtain ⟨-, hall, hfold⟩ := ih (n / 16) (by omega)
      obtain ⟨v, hv, hval⟩ := hdigit (n % 16) (Nat.mod_lt n (by omega))
      rw [heq, List.foldlM_append, hfold]
      refine ⟨by simp, fun c hc => ?_, ?_⟩
      · rcases List.mem_append.mp hc with hc | hc
        · exact hall c hc
        · rw [List.mem_singleton] at hc
          rw [hc, hv]
          rfl
      · simp only [Option.bind_eq_bind, Option.bind_some, List.foldlM_cons,
          hv, Option.map_some, hval, List.foldlM_nil]
        exact congrArg some (Nat.div_add_mod' n 16)

/-- A byte that is no hexadecimal digit is not in the size of a chunk, in particular neither CR nor
    `;`. -/
theorem not_mem_formatUint_hex {c : UInt8} (hc : hexVal c = none) (n : ℕ) :
    c ∉ formatUint 16 n := by
  intro hmem
  have h := (formatUint_hex n).2.1 c hmem
  rw [hc] at h
  cases h

/-- The size of a chunk is read back. -/
theorem hexNumber_formatUint (n : ℕ) : hexNumber (formatUint 16 n) = some n := by
  obtain ⟨hne, -, hfold⟩ := formatUint_hex n
  rw [hexNumber, if_neg hne, hfold]

/-- One chunk. -/
def encodeChunk (p : Bytes) : Bytes := formatUint 16 p.length ++ crlf ++ p ++ crlf

/-- The chunked coding of pieces of data. -/
def encodeChunks (ps : List Bytes) : Bytes := ps.flatMap encodeChunk ++ ascii "0\r\n\r\n"

/-- There is at least one byte for each piece. -/
theorem length_le_encodeChunks (ps : List Bytes) : ps.length ≤ (encodeChunks ps).length := by
  have hle : ps.length ≤ (ps.flatMap encodeChunk).length := by
    induction ps with
    | nil => exact Nat.le_refl _
    | cons p ps ih =>
      simp only [List.flatMap_cons, List.length_append, List.length_cons, encodeChunk, crlf_length]
      omega
  rw [encodeChunks, List.length_append]
  omega

/-- The size of a chunk is read back. -/
theorem chunkSize (n : ℕ) (rest : Bytes) :
    index? crlf (formatUint 16 n ++ crlf ++ rest) = some (formatUint 16 n).length ∧
      hexNumber (((formatUint 16 n ++ crlf ++ rest).take (formatUint 16 n).length).takeWhile
        (· ≠ ch ';')) = some n ∧
      (formatUint 16 n ++ crlf ++ rest).drop ((formatUint 16 n).length + 2) = rest := by
  refine ⟨index?_crlf_append (noCrlf_of_not_mem_cr (not_mem_formatUint_hex (by decide) n)) rest,
    ?_, ?_⟩
  · rw [List.append_assoc, List.take_left]
    have hall : (formatUint 16 n).takeWhile (· ≠ ch ';') = formatUint 16 n := by
      refine List.takeWhile_eq_self_iff.mpr fun c hc => decide_eq_true fun heq => ?_
      exact not_mem_formatUint_hex (by decide) n (heq ▸ hc)
    rw [hall, hexNumber_formatUint]
  · rw [← crlf_length, ← List.length_append, List.drop_left]

/-- **Chunked data is read back.** -/
theorem chunks_encodeChunks {ps : List Bytes} (hps : ∀ p ∈ ps, p ≠ []) (rest : Bytes) {n : ℕ}
    (hn : ps.length < n) : chunks n (encodeChunks ps ++ rest) = some (ps.flatten, rest) := by
  induction ps generalizing n with
  | nil =>
    obtain ⟨n, rfl⟩ : ∃ k, n = k + 1 := ⟨n - 1, by simp only [List.length_nil] at hn; omega⟩
    have hend : encodeChunks [] ++ rest = formatUint 16 0 ++ crlf ++ (crlf ++ rest) := by
      rw [encodeChunks, List.flatMap_nil, List.nil_append,
        show ascii "0\r\n\r\n" = formatUint 16 0 ++ crlf ++ crlf by decide,
        List.append_assoc _ crlf rest]
    obtain ⟨hidx, hsize, hdrop⟩ := chunkSize 0 (crlf ++ rest)
    rw [hend, chunks, hidx]
    simp only [hsize, hdrop]
    have hlines : lines ((formatUint 16 0 ++ crlf ++ (crlf ++ rest)).length + 1)
        (joinLines [] ++ crlf ++ rest) = some ([], rest) := lines_joinLines (by simp) rest (by simp)
    rw [joinLines_nil, List.nil_append] at hlines
    rw [hlines]
    rfl
  | cons p ps ih =>
    obtain ⟨n, rfl⟩ : ∃ k, n = k + 1 := ⟨n - 1, by simp only [List.length_cons] at hn; omega⟩
    have hsplit : encodeChunks (p :: ps) ++ rest
        = formatUint 16 p.length ++ crlf ++ (p ++ (crlf ++ (encodeChunks ps ++ rest))) := by
      simp only [encodeChunks, List.flatMap_cons, encodeChunk, List.append_assoc]
    obtain ⟨hidx, hsize, hdrop⟩ := chunkSize p.length (p ++ (crlf ++ (encodeChunks ps ++ rest)))
    obtain ⟨k, hk⟩ : ∃ k, p.length = k + 1 := ⟨p.length - 1, by
      have := List.length_pos_iff.mpr (hps p List.mem_cons_self)
      omega⟩
    rw [hsplit, chunks, hidx]
    simp only [hsize, hdrop]
    rw [hk]
    simp only
    rw [← hk, List.drop_left, if_pos (List.prefix_append _ _)]
    have hnext : (p ++ (crlf ++ (encodeChunks ps ++ rest))).drop (p.length + 2)
        = encodeChunks ps ++ rest := by
      rw [← List.append_assoc, ← crlf_length, ← List.length_append, List.drop_left]
    rw [hnext, ih (fun q hq => hps q (List.mem_cons_of_mem p hq))
      (by simp only [List.length_cons] at hn; omega)]
    simp only [List.take_left, List.flatten_cons]

/-- A body in the chunked coding, and the data that it stands for: chunks that are not empty, each
    with its size in hexadecimal digits, and the last chunk, without a trailer. -/
inductive ChunkedBody : Bytes → Bytes → Prop
  | last : ChunkedBody (ascii "0\r\n\r\n") []
  | chunk {size data body rest : Bytes} (number : hexNumber size = some data.length)
      (nonempty : data ≠ []) (more : ChunkedBody body rest) :
      ChunkedBody (size ++ crlf ++ data ++ crlf ++ body) (data ++ rest)

/-- Chunks that are not empty, with the terminator behind them, are a body in the chunked coding. -/
theorem chunkedBody_encodeChunks {ps : List Bytes} (hps : ∀ p ∈ ps, p ≠ []) :
    ChunkedBody (encodeChunks ps) ps.flatten := by
  induction ps with
  | nil => exact .last
  | cons p ps ih =>
    have hrest := ih fun q hq => hps q (List.mem_cons_of_mem p hq)
    have hsplit : encodeChunks (p :: ps) = formatUint 16 p.length
        ++ crlf ++ p ++ crlf ++ encodeChunks ps := by
      simp only [encodeChunks, List.flatMap_cons, encodeChunk, List.append_assoc]
    rw [hsplit, List.flatten_cons]
    exact .chunk (hexNumber_formatUint p.length) (hps p List.mem_cons_self) hrest

/-! ### Messages -/

section Message

variable {status : ℤ} {text : Bytes} {fields : List (Bytes × Bytes)} (hstatus : InInt64 status)
  (hbody : bodyless status = false) (htext : (13 : UInt8) ∉ text) (hfields : ∀ f ∈ fields, Clean f)

include hstatus hbody htext hfields

/-- **A body with `Content-Length`.** -/
theorem message_length (hcoding : ∀ f ∈ fields, f.1.map lower ≠ ascii "transfer-encoding")
    (body rest : Bytes) :
    message (encodeHead status text
        (fields ++ [(ascii "Content-Length", formatUint 10 body.length)]) ++ (body ++ rest))
      = some (⟨status, body⟩, rest) := by
  have hclean : ∀ f ∈ fields ++ [(ascii "Content-Length", formatUint 10 body.length)], Clean f := by
    intro f hf
    rcases List.mem_append.mp hf with hf | hf
    · exact hfields f hf
    · rw [List.mem_singleton.mp hf]
      exact ⟨show ch ':' ∉ ascii "Content-Length" by decide,
        show (13 : UInt8) ∉ ascii "Content-Length" by decide,
        (numeral_formatUint body.length).not_mem_cr⟩
  have hvalue : received (ascii "Content-Length", formatUint 10 body.length)
      = (ascii "content-length", formatUint 10 body.length) := by
    refine Prod.ext (show (ascii "Content-Length").map lower = ascii "content-length" by decide)
      (trimOws_eq fun c hc => ?_)
    have hdigit := (formatUint_digits body.length).2.1 c hc
    by_contra hows
    rw [Bool.not_eq_false, isOws, Bool.or_eq_true, beq_iff_eq, beq_iff_eq] at hows
    rcases hows with rfl | rfl
    · exact absurd hdigit (by decide)
    · exact absurd hdigit (by decide)
  have hnone : get? (fields.map received ++ [(ascii "content-length", formatUint 10 body.length)])
      (ascii "transfer-encoding") = none := by
    refine get?_eq_none fun f hf => ?_
    rcases List.mem_append.mp hf with hf | hf
    · obtain ⟨g, hg, rfl⟩ := List.mem_map.mp hf
      exact hcoding g hg
    · rw [List.mem_singleton.mp hf]
      exact show ascii "content-length" ≠ ascii "transfer-encoding" by decide
  rw [message, head_encodeHead hstatus htext hclean]
  simp only [hbody, Bool.false_eq_true, if_false, List.map_append,
    List.map_cons, List.map_nil, hvalue, hnone, get?_concat, number_formatUint]
  rw [if_pos (by rw [List.length_append]; omega), List.take_left, List.drop_left]

/-- **A chunked body.** -/
theorem message_chunked {ps : List Bytes} (hps : ∀ p ∈ ps, p ≠ [])
    (rest : Bytes) :
    message (encodeHead status text (fields ++ [(ascii "Transfer-Encoding", ascii "chunked")])
        ++ (encodeChunks ps ++ rest))
      = some (⟨status, ps.flatten⟩, rest) := by
  have hclean : ∀ f ∈ fields ++ [(ascii "Transfer-Encoding", ascii "chunked")], Clean f := by
    intro f hf
    rcases List.mem_append.mp hf with hf | hf
    · exact hfields f hf
    · rw [List.mem_singleton.mp hf]
      exact ⟨by decide, by decide, by decide⟩
  have hvalue : received (ascii "Transfer-Encoding", ascii "chunked")
      = (ascii "transfer-encoding", ascii "chunked") := by decide
  have hlen : ps.length < (encodeChunks ps ++ rest).length + 1 := by
    have hle := length_le_encodeChunks ps
    rw [List.length_append]
    omega
  rw [message, head_encodeHead hstatus htext hclean]
  simp only [hbody, Bool.false_eq_true, if_false, List.map_append,
    List.map_cons, List.map_nil, hvalue, get?_concat]
  rw [if_pos (by decide), chunks_encodeChunks hps rest hlen]
  rfl

/-- **A body up to the end of the connection.** -/
theorem message_close (hcoding : ∀ f ∈ fields, f.1.map lower ≠ ascii "transfer-encoding")
    (hlength : ∀ f ∈ fields, f.1.map lower ≠ ascii "content-length") (rest : Bytes) :
    message (encodeHead status text fields ++ rest) = some (⟨status, rest⟩, []) := by
  have hnone : ∀ name, (∀ f ∈ fields, f.1.map lower ≠ name) →
      get? (fields.map received) name = none := by
    intro name hname
    refine get?_eq_none fun f hf => ?_
    obtain ⟨g, hg, rfl⟩ := List.mem_map.mp hf
    exact hname g hg
  rw [message, head_encodeHead hstatus htext hfields]
  simp only [hbody, hnone _ hcoding, hnone _ hlength]
  rfl

end Message

/-! ### All messages -/

/-- A message in front of the others. -/
theorem splitN_message {bytes rest rest' : Bytes} {m : Message} (hne : bytes ≠ [])
    (h : message (bytes ++ rest) = some (m, rest')) (n : ℕ) :
    splitN (n + 1) (bytes ++ rest) = (splitN n rest').map (m :: ·) := by
  cases bytes with
  | nil => exact absurd rfl hne
  | cons b bytes =>
    rw [List.cons_append] at h ⊢
    rw [splitN, h]

/-- Nothing is no message. -/
theorem splitN_nil (n : ℕ) : splitN n [] = some [] := by
  cases n <;> rfl

end Resh.Http1
