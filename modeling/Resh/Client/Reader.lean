import Resh.Client.Element
import Resh.Run

namespace Resh.Client

open Resh.Go

/-!
# redis/parser.go — readers

`readNext` takes an element apart a second time and ignores every error, on the ground that the
framing has seen it before.  The operations of a `Reader` may be called in any order, also on the
readers that `Next` and `Array` return.

* `readNext_line`, `readNext_null`, `readNext_bulk`, `readNext_array` — one call, for each kind of
  element;
* `Elements buf` — the buffer is made of elements;
* `Readers.step` — an operation on one of the readers that exist;
* `step_sound` — no operation panics, and all buffers stay made of elements;
* `reader_agrees` — so it is for every sequence of operations.
-/

/-! ### One call of `readNext` -/

/-- Where the framing succeeds, the loop of the reader goes the same way. -/
theorem skipMany_of_readMany {buf : Bytes} {count c n : ℕ}
    (h : readMany readElement buf count c = .ok n) : skipMany buf count c = some n := by
  induction count generalizing c with
  | zero => cases h; rfl
  | succ count ih =>
    obtain ⟨hc, x, hx, hrest⟩ := readMany_succ_ok.mp h
    have hs : slice? buf c buf.length = some (buf.drop c) := slice?_tail_eq_some.mpr ⟨hc, rfl⟩
    rw [skipMany, hs]
    simp only [hx]
    exact ih hrest

section ReadNext

variable {b : UInt8} {text data : Bytes}

/-- An element of one line. -/
theorem readNext_line (hb : b = ch '+' ∨ b = ch '-' ∨ b = ch ':') (h : NoCrlf text) (t : Bytes) :
    readNext (b :: (text ++ crlf ++ t)) = some (if b = ch '+' then .str text
      else if b = ch '-' then .err text else .int (parseInt text).1, t) := by
  have hcr : b ≠ 13 := by rcases hb with rfl | rfl | rfl <;> decide
  have hd : b ≠ ch '$' := by rcases hb with rfl | rfl | rfl <;> decide
  rw [readNext, index?_header hcr h t]
  simp only [if_neg hd, if_pos hb, slice?_header, drop_header]
  rfl

theorem readNext_null (hnum : Numeral text (-1)) (t : Bytes) :
    readNext (ch '$' :: (text ++ crlf ++ t)) = some (.str [], t) := by
  have hint : parseInt text = (-1, none) := (parseInt_eq_iff _ _).mpr ⟨hnum, by decide⟩
  rw [readNext, index?_header (by decide) hnum.noCrlf t]
  simp only [if_true, slice?_header, drop_header, atoi, Option.bind_eq_bind, Option.bind_some, hint]

theorem readNext_bulk (hnum : Numeral text data.length)
    (hsmall : text.length + 1 + 2 + data.length + 2 < 2 ^ 63) (t : Bytes) :
    readNext (ch '$' :: (text ++ crlf ++ (data ++ crlf ++ t))) = some (.str data, t) := by
  obtain ⟨buf, hbuf⟩ : ∃ buf, buf = ch '$' :: (text ++ crlf ++ (data ++ crlf ++ t)) := ⟨_, rfl⟩
  have hidx : index? crlf buf = some (text.length + 1) := by
    rw [hbuf]
    exact index?_header (by decide) hnum.noCrlf _
  have hlong : text.length + 1 + 2 + data.length + 2 ≤ buf.length := by
    rw [hbuf]
    simp only [List.length_cons, List.length_append, crlf_length]
    omega
  have hdrop : buf.drop (text.length + 1 + 2) = data ++ crlf ++ t := by rw [hbuf, drop_header]
  have hint : parseInt text = ((data.length : ℤ), none) :=
    (parseInt_eq_iff _ _).mpr ⟨hnum, by omega, by omega⟩
  -- below 2^63 the two sums do not wrap
  have hw₁ : wrap64 ((text.length + 1 : ℕ) + 2 + data.length)
      = ((text.length + 1 + 2 + data.length : ℕ) : ℤ) := by
    rw [wrap64_of_inInt64 ⟨by omega, by omega⟩]
    push_cast
    rfl
  have hw₂ : wrap64 ((text.length + 1 : ℕ) + 2 + data.length + 2)
      = ((text.length + 1 + 2 + data.length + 2 : ℕ) : ℤ) := by
    rw [wrap64_of_inInt64 ⟨by omega, by omega⟩]
    push_cast
    rfl
  have hdata : slice? buf (text.length + 1 + 2 : ℕ)
      (text.length + 1 + 2 + data.length : ℕ) = some data := by
    rw [slice?_eq_some buf (by omega) (by omega), List.drop_take, hdrop, Nat.add_sub_cancel_left,
      List.append_assoc, List.take_left]
  have hrest : slice? buf (text.length + 1 + 2 + data.length + 2 : ℕ) buf.length = some t := by
    refine slice?_tail_eq_some.mpr ⟨hlong, ?_⟩
    rw [show text.length + 1 + 2 + data.length + 2 = text.length + 1 + 2 + (data ++ crlf).length by
      simp; omega, ← List.drop_drop, hdrop, List.drop_left]
  have hline : slice? buf 1 (text.length + 1 : ℕ) = some text := by
    rw [hbuf]
    exact slice?_header _
  rw [← hbuf]
  obtain ⟨l, hl⟩ : ∃ l, buf = ch '$' :: l := ⟨_, hbuf⟩
  rw [hl] at hidx hline hdata hrest ⊢
  rw [readNext, hidx]
  have hnn : ¬ (data.length : ℤ) = -1 := by omega
  simp only [if_true, Option.bind_eq_bind, hline, Option.bind_some,
    atoi, hint, if_neg hnn, hw₁, hw₂, hdata, hrest]

/-- An array around `body`, if the loop over its elements ends behind `body`. -/
theorem readNext_array {v : ℤ} {body : Bytes} (hnum : Numeral text v) (hv : InInt64 v) (t : Bytes)
    (hframe : readElement (ch '*' :: (text ++ crlf ++ (body ++ t)))
      = .ok (text.length + 1 + 2 + body.length)) :
    readNext (ch '*' :: (text ++ crlf ++ (body ++ t))) = some (.arr body, t) := by
  have hidx := index?_header (b := ch '*') (by decide) hnum.noCrlf (body ++ t)
  have htake : ((ch '*' :: (text ++ crlf ++ (body ++ t))).take
      (text.length + 1 + 2 + body.length)).drop (text.length + 1 + 2) = body := by
    rw [List.drop_take, drop_header, Nat.add_sub_cancel_left, List.take_left]
  have hdata := slice?_eq_some (ch '*' :: (text ++ crlf ++ (body ++ t)))
    (Nat.le_add_right (text.length + 1 + 2) body.length) (by simp; omega)
  rw [htake] at hdata
  have hcount := (lineNumber_header (b := ch '*') (body ++ t)).mpr ⟨hnum, hv⟩
  rw [readElement_eq, elementStep_array _ hidx, hcount, Ret.ok_bind] at hframe
  have hskip := skipMany_of_readMany hframe
  have hint : parseInt text = (v, none) := (parseInt_eq_iff _ _).mpr ⟨hnum, hv⟩
  have hd : ch '*' ≠ ch '$' := by decide
  have hl : ¬ (ch '*' = ch '+' ∨ ch '*' = ch '-' ∨ ch '*' = ch ':') := by decide
  rw [readNext, hidx]
  simp only [if_neg hd, if_neg hl, if_true, slice?_header, atoi, hint, Option.bind_eq_bind,
    Option.bind_some, hskip, hdata]
  rw [← List.drop_drop, drop_header, List.drop_left]

end ReadNext

/-! ### Buffers made of elements -/

/-- The buffer of a reader that `readNext` has made. -/
def Item.readers : Item → List Bytes
  | .arr buf => [buf]
  | _ => []

/-- The text `buf` is zero or more elements. -/
def Elements (buf : Bytes) : Prop := ∃ ps : List Bytes, buf = ps.flatten ∧ ∀ p ∈ ps, Element p

theorem Element.elements {p : Bytes} (h : Element p) : Elements p :=
  ⟨[p], List.flatten_singleton.symm, List.forall_mem_singleton.mpr h⟩

/-- **`readNext` agrees with the framing.** It takes the first element, and the reader it makes for
    an array holds elements again. -/
theorem readNext_element {p : Bytes} (h : Element p) (t : Bytes) :
    ∃ item, readNext (p ++ t) = some (item, t) ∧ item ≠ .nil ∧
      ∀ buf ∈ item.readers, Elements buf ∧ buf.length < p.length := by
  cases h with
  | @line b text kind noCrlf =>
    refine ⟨_, readNext_line kind noCrlf t, ?_, ?_⟩
    · split
      · simp
      · split <;> simp
    · split
      · exact List.forall_mem_nil _
      · split <;> exact List.forall_mem_nil _
  | @null text number => exact ⟨_, readNext_null number t, by simp, List.forall_mem_nil _⟩
  | @bulk text data number small =>
    refine ⟨.str data, ?_, by simp, List.forall_mem_nil _⟩
    have htext : ch '$' :: (text ++ crlf ++ (data ++ crlf)) ++ t
        = ch '$' :: (text ++ crlf ++ (data ++ crlf ++ t)) := by simp
    rw [htext, readNext_bulk number small]
  | @array text v ps number range count elements =>
    refine ⟨.arr ps.flatten, ?_, by simp, ?_⟩
    · have htext : ch '*' :: (text ++ crlf ++ ps.flatten) ++ t
          = ch '*' :: (text ++ crlf ++ (ps.flatten ++ t)) := by simp
      have hframe := readElement_element (.array number range count elements) t
      rw [htext] at hframe ⊢
      refine readNext_array number range t (hframe.trans ?_)
      simp
      omega
    · refine List.forall_mem_singleton.mpr ⟨⟨ps, rfl, elements⟩, ?_⟩
      simp
      omega

/-- A buffer made of elements is empty, or `readNext` takes its first element. -/
theorem readNext_elements {buf : Bytes} (h : Elements buf) :
    buf = [] ∨ ∃ p rest item, buf = p ++ rest ∧ Element p ∧ Elements rest ∧
      readNext buf = some (item, rest) ∧ item ≠ .nil ∧
      ∀ b ∈ item.readers, Elements b ∧ b.length < p.length := by
  obtain ⟨ps, rfl, hps⟩ := h
  cases ps with
  | nil => exact .inl rfl
  | cons p ps =>
    obtain ⟨hp, hps⟩ := List.forall_mem_cons.mp hps
    obtain ⟨item, hnext, hne, hin⟩ := readNext_element hp ps.flatten
    exact .inr ⟨p, ps.flatten, item, List.flatten_cons, hp, ⟨ps, rfl, hps⟩, hnext, hne, hin⟩

/-! ### `String` -/

/-- `r.IsNil()`. -/
def readerIsNil (buf : Bytes) : Bool := buf = ascii "$-1\r\n"

section Print

/-! The text of a string is that of `strconv.Quote`, which is left open. -/

variable (quote : Bytes → Bytes)

/-- What is printed for an item; `inner` prints a reader. -/
def Item.text (inner : Bytes → Option Bytes) : Item → Option Bytes
  | .nil => some (ascii "<nil>")
  | .str s => some (quote s)
  | .int v => some (formatInt v)
  | .err s => some s
  | .arr buf => inner buf

/-- The loop of `String()` from its `i`-th round on. -/
def stringLoop (inner : Bytes → Option Bytes) : ℕ → ℕ → Bytes → Option Bytes
  | 0, _, _ => none
  | n + 1, i, buf =>
    match readNext buf with
    | none => none
    | some (.nil, _) => some []
    | some (item, rest) =>
      match item.text quote inner, stringLoop inner n (i + 1) rest with
      | some text, some more => some ((if i > 0 then ascii "," else []) ++ text ++ more)
      | _, _ => none

/-- `String()`, with readers printed at most `n` deep. -/
def readerStringN : ℕ → Bytes → Option Bytes
  | 0, _ => none
  | n + 1, buf =>
    if readerIsNil buf then some (ascii "nil")
    else match stringLoop quote (readerStringN n) (buf.length + 1) 0 buf with
      | none => none
      | some text => some (ascii "(" ++ text ++ ascii ")")

/-- `r.String()`; `none` is a panic. -/
def readerString (buf : Bytes) : Option Bytes := readerStringN quote (buf.length + 1) buf

variable {quote}

theorem Item.text_isSome {inner : Bytes → Option Bytes} {item : Item}
    (h : ∀ buf ∈ item.readers, ∃ text, inner buf = some text) :
    ∃ text, item.text quote inner = some text := by
  cases item with
  | arr buf => exact h buf List.mem_cons_self
  | nil => exact ⟨_, rfl⟩
  | str s => exact ⟨_, rfl⟩
  | int v => exact ⟨_, rfl⟩
  | err s => exact ⟨_, rfl⟩

/-- The loop gets to the end of a buffer made of elements. -/
theorem stringLoop_isSome {inner : Bytes → Option Bytes} {n : ℕ} {buf : Bytes} (h : Elements buf)
    (hinner : ∀ b : Bytes, Elements b → b.length < buf.length → ∃ text, inner b = some text)
    (hn : buf.length < n) (i : ℕ) : ∃ text, stringLoop quote inner n i buf = some text := by
  induction n generalizing buf i with
  | zero => exact absurd hn (by omega)
  | succ n ih =>
    obtain rfl | ⟨p, rest, item, rfl, hp, hrest, hnext, hne, hin⟩ := readNext_elements h
    · exact ⟨[], rfl⟩
    · have hpos := List.length_pos_of_ne_nil hp.ne_nil
      rw [List.length_append] at hn hinner
      obtain ⟨text, htext⟩ : ∃ text, item.text quote inner = some text := by
        apply Item.text_isSome
        intro b hb
        obtain ⟨hel, hlt⟩ := hin b hb
        exact hinner b hel (by omega)
      obtain ⟨more, hmore⟩ := ih hrest (fun b hb hlt => hinner b hb (by omega)) (by omega) (i + 1)
      rw [stringLoop, hnext]
      cases item with
      | nil => exact absurd rfl hne
      | str s => simp only [htext, hmore]; exact ⟨_, rfl⟩
      | int v => simp only [htext, hmore]; exact ⟨_, rfl⟩
      | err s => simp only [htext, hmore]; exact ⟨_, rfl⟩
      | arr b => simp only [htext, hmore]; exact ⟨_, rfl⟩

theorem readerStringN_isSome {n : ℕ} {buf : Bytes} (h : Elements buf) (hn : buf.length < n) :
    ∃ text, readerStringN quote n buf = some text := by
  induction n generalizing buf with
  | zero => exact absurd hn (by omega)
  | succ n ih =>
    rw [readerStringN]
    split
    · exact ⟨_, rfl⟩
    · -- the readers inside are shorter
      have hinner : ∀ b : Bytes, Elements b → b.length < buf.length →
          ∃ text, readerStringN quote n b = some text := fun b hb hlt => ih hb (by omega)
      obtain ⟨text, htext⟩ := stringLoop_isSome h hinner (Nat.lt_succ_self _) 0
      rw [htext]
      exact ⟨_, rfl⟩

/-! ### The operations -/

/-- What an operation returns, a reader by its number.  `Array` returns nil for an element that is
    no array: then there is no reader. -/
inductive Value where
  | nil
  | str (s : Bytes)
  | int (v : ℤ)
  | err (s : Bytes)
  | reader (r : ℕ)
  deriving DecidableEq, Repr

inductive Op where
  | next | str | bytes | int64 | array | err | string
  deriving DecidableEq, Repr

/-- What `Next`, `Int64`, `Array`, `Str` and `Bytes` return for an item; `r` is the number of a new
    reader. -/
def Op.result (r : ℕ) : Op → Item → Value
  | .next, .nil => .nil
  | .next, .str s => .str s
  | .next, .int v => .int v
  | .next, .err s => .err s
  | .next, .arr _ => .reader r
  | .int64, .int v => .int v
  | .int64, _ => .int 0
  | .array, .arr _ => .reader r
  | .array, _ => .nil
  | _, .str s => .str s
  | _, .err s => .str s
  | _, _ => .str []

/-- The readers that exist, each with its buffer, and what the operations have returned. -/
structure Readers where
  bufs : List Bytes
  results : List Value := []
  panicked : Bool := false
  deriving DecidableEq, Repr

variable (quote) in
/-- An operation on the reader with the number `a.1`. -/
def Readers.step (s : Readers) (a : ℕ × Op) : Option Readers :=
  if s.panicked then none
  else match s.bufs[a.1]? with
    | none => none
    | some buf =>
      match a.2 with
      | .err =>
        match readerErr buf with
        | none => some { s with panicked := true }
        | some (err, rest) => some { s with
            bufs := s.bufs.set a.1 rest, results := s.results ++ [err.elim .nil .err] }
      | .string =>
        match readerString quote buf with
        | none => some { s with panicked := true }
        | some text => some { s with results := s.results ++ [.str text] }
      | op =>
        match readNext buf with
        | none => some { s with panicked := true }
        | some (item, rest) => some { s with
            bufs := s.bufs.set a.1 rest ++ item.readers,
            results := s.results ++ [op.result s.bufs.length item] }

/-- No operation has panicked, and the buffers are made of elements. -/
structure Readers.Sound (s : Readers) : Prop where
  running : s.panicked = false
  bufs : ∀ buf ∈ s.bufs, Elements buf

namespace Readers

variable {s s' : Readers} {r : ℕ} {op : Op} {buf : Bytes}

/-- `readNext` on any buffer made of elements. -/
theorem exists_readNext (h : Elements buf) :
    ∃ item rest, readNext buf = some (item, rest) ∧ Elements rest ∧
    ∀ b ∈ item.readers, Elements b := by
  obtain rfl | ⟨p, rest, item, -, -, hrest, hnext, -, hin⟩ := readNext_elements h
  · exact ⟨.nil, [], rfl, h, List.forall_mem_nil _⟩
  · exact ⟨item, rest, hnext, hrest, fun b hb => (hin b hb).1⟩

/-- `err` puts the element back, or takes an error out. -/
theorem exists_readerErr (h : Elements buf) :
    ∃ err rest, readerErr buf = some (err, rest) ∧ Elements rest := by
  obtain ⟨item, rest, hnext, hrest, -⟩ := exists_readNext h
  rw [readerErr, hnext]
  cases item with
  | err s => exact ⟨some s, rest, rfl, hrest⟩
  | nil => exact ⟨none, buf, rfl, h⟩
  | str s => exact ⟨none, buf, rfl, h⟩
  | int v => exact ⟨none, buf, rfl, h⟩
  | arr b => exact ⟨none, buf, rfl, h⟩

theorem Sound.set (h : s.Sound) {rest : Bytes} (hrest : Elements rest) {more : List Bytes}
    (hmore : ∀ b ∈ more, Elements b) {results : List Value} :
    Sound { s with bufs := s.bufs.set r rest ++ more, results := results } := by
  refine ⟨h.running, ?_⟩
  intro b hb
  rcases List.mem_append.mp hb with hb | hb
  · rcases List.mem_or_eq_of_mem_set hb with hb | rfl
    · exact h.bufs b hb
    · exact hrest
  · exact hmore b hb

/-- **One operation** on a reader that exists. -/
theorem step_sound (h : s.Sound) (hr : r < s.bufs.length) (op : Op) :
    ∃ s', s.step quote (r, op) = some s' ∧ s'.Sound := by
  have hget : s.bufs[r]? = some s.bufs[r] := List.getElem?_eq_getElem hr
  have hbuf := h.bufs _ (List.getElem_mem hr)
  obtain ⟨item, rest, hnext, hrest, hin⟩ := exists_readNext hbuf
  rw [step, if_neg (by simp [h.running])]
  simp only [hget]
  cases op with
  | err =>
    obtain ⟨err, rest', herr, hrest'⟩ := exists_readerErr hbuf
    simp only [herr]
    refine ⟨_, rfl, ?_⟩
    rw [← List.append_nil (s.bufs.set r rest')]
    exact h.set hrest' (List.forall_mem_nil _)
  | string =>
    obtain ⟨text, htext⟩ : ∃ text, readerString quote s.bufs[r] = some text :=
      readerStringN_isSome hbuf (Nat.lt_succ_self _)
    simp only [htext]
    exact ⟨_, rfl, h.running, h.bufs⟩
  | next => simp only [hnext]; exact ⟨_, rfl, h.set hrest hin⟩
  | str => simp only [hnext]; exact ⟨_, rfl, h.set hrest hin⟩
  | bytes => simp only [hnext]; exact ⟨_, rfl, h.set hrest hin⟩
  | int64 => simp only [hnext]; exact ⟨_, rfl, h.set hrest hin⟩
  | array => simp only [hnext]; exact ⟨_, rfl, h.set hrest hin⟩

/-- There is a reader for every operation that is made. -/
theorem lt_of_step (hstep : s.step quote (r, op) = some s') : r < s.bufs.length := by
  unfold step at hstep
  split at hstep
  · cases hstep
  · split at hstep
    · cases hstep
    · rename_i hget
      exact (List.getElem?_eq_some_iff.mp hget).1

/-- Every sequence of operations. -/
theorem run_sound {as : List (ℕ × Op)} (h : s.Sound) (hrun : run (step quote) s as = some s') :
    s'.Sound := by
  refine run_induction (P := Sound) ?_ h hrun
  rintro t ⟨r, op⟩ t' ht hstep
  obtain ⟨t'', ht'', hsound⟩ := step_sound ht (lt_of_step hstep) op
  rw [hstep] at ht''
  cases ht''
  exact hsound

end Readers

end Print

/-- **Framer and reader agree.**  From a reader on an element that the framing has found, after any
    operations: nothing has panicked and no operation on any of the readers will; each of the
    buffers is made of texts that the framing accepts in full; and `readNext` takes from it what the
    framing would. -/
theorem reader_agrees (quote : Bytes → Bytes) {inp : Bytes} {n : ℕ} (hlen : inp.length < 2 ^ 63)
    (h : readElement inp = .ok n) (as : List (ℕ × Op)) {s : Readers}
    (hrun : run (Readers.step quote) { bufs := [inp.take n] } as = some s) :
    s.panicked = false ∧
      (∀ r < s.bufs.length, ∀ op, ∃ s', s.step quote (r, op) = some s' ∧ s'.panicked = false) ∧
      ∀ buf ∈ s.bufs,
        (∃ ps : List Bytes, buf = ps.flatten ∧ ∀ p ∈ ps, readElement p = .ok p.length) ∧
        (buf ≠ [] → ∃ m item, readElement buf = .ok m ∧ readNext buf
          = some (item, buf.drop m)) := by
  have hinit : Readers.Sound { bufs := [inp.take n] } :=
    ⟨rfl, List.forall_mem_singleton.mpr (element_of_readElement hlen h).elements⟩
  have hs := Readers.run_sound hinit hrun
  refine ⟨hs.running, ?_, ?_⟩
  · intro r hr op
    obtain ⟨s', hs', hsound⟩ := Readers.step_sound hs hr op
    exact ⟨s', hs', hsound.running⟩
  · intro buf hbuf
    constructor
    · obtain ⟨ps, hflat, hps⟩ := hs.bufs buf hbuf
      refine ⟨ps, hflat, ?_⟩
      intro p hp
      have hown := readElement_element (hps p hp) []
      rwa [List.append_nil] at hown
    · intro hne
      obtain hnil | ⟨p, rest, item, rfl, hp, -, hnext, -, -⟩ := readNext_elements (hs.bufs buf hbuf)
      · exact absurd hnil hne
      · refine ⟨p.length, item, readElement_element hp rest, ?_⟩
        rw [List.drop_left]
        exact hnext

/-- A null array inside an array, read in part, and printed. -/
theorem reader_agrees_nested :
    ∃ s, run (Readers.step id) { bufs := [ascii "*2\r\n*-1\r\n:7\r\n"] }
        [(0, .string), (0, .err), (0, .next), (1, .array), (2, .next),
          (1, .int64), (1, .str)] = some s ∧
      s.results = [.str (ascii "(((),7))"), .nil, .reader 1, .reader 2, .nil, .int 7, .str []] ∧
      s.panicked = false := by
  have hrun : ∃ s ∈ run (Readers.step id) { bufs := [ascii "*2\r\n*-1\r\n:7\r\n"] }
      [(0, .string), (0, .err), (0, .next), (1, .array), (2, .next), (1, .int64), (1, .str)],
      s.results = [.str (ascii "(((),7))"), .nil, .reader 1, .reader 2, .nil, .int 7, .str []] := by
    decide +kernel
  obtain ⟨s, hs, hres⟩ := hrun
  have helement : readElement (ascii "*2\r\n*-1\r\n:7\r\n") = .ok 13 := by decide +kernel
  exact ⟨s, hs, hres, (reader_agrees id (by decide) helement _ hs).1⟩

end Resh.Client
