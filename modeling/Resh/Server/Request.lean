import Resh.Server.Headers

namespace Resh.Server

open Resh.Go Resh.Incremental

/-!
# http.go — the parts of a request

`parse` rewrites the memory in which the body, the raw query and the following request stand as
well.

* `HTTP.method`, `HTTP.body` — the accessors;
* `Rewritable` — the places that `parse` may change: the path of the target and the header names;
* `Accepted.eqOff` — it changes no other;
* `request_framing` — the lengths, the body and the query of an accepted request;
* `request_line_iff` — which accepted requests have a request line, and a method.
-/

/-! ### Method and Body -/

/-- ASCII lower case to upper case, every other byte unchanged. -/
def upper (c : UInt8) : UInt8 := if ch 'a' ≤ c ∧ c ≤ ch 'z' then c - ch 'a' + ch 'A' else c

/-- `HTTP.Method()`: the request, with the method upper-cased where it stands, and the method.
    Without a space (`bytes.IndexByte = -1`) the slice expression panics. -/
def HTTP.method (h : HTTP) : Option (HTTP × Bytes) :=
  match indexByte? (ch ' ') h.data with
  | none => none
  | some i =>
    let method := (h.data.take i).map upper
    some ({ h with data := method ++ h.data.drop i }, method)

/-- `HTTP.Body()`; `none` is a panic. -/
def HTTP.body (h : HTTP) :
    Option Bytes := slice? h.data (h.data.length - h.bodyLen : ℤ) h.data.length

/-! ### The received parts -/

/-- The request target with its offset: what stands between the first and the last space. -/
def target? (line : Bytes) : Option (ℕ × Bytes) :=
  match indexByte? (ch ' ') line, lastIndexByte? (ch ' ') line with
  | some idx0, some idx1 => some (idx0 + 1, (line.take idx1).drop (idx0 + 1))
  | _, _ => none

/-- The length of the path of a target. -/
def pathLength (uri : Bytes) : ℕ := (indexByte? (ch '?') uri).getD uri.length

/-- The received query. -/
def rawQuery? (inp : Bytes) : Option Bytes :=
  (target? (firstLine inp)).bind fun t => (indexByte? (ch '?') t.2).map fun q => t.2.drop (q + 1)

/-- The length of the body that the headers announce. -/
def Announced (headers : List (Bytes × Bytes)) (n : ℕ) : Prop :=
  match contentLength? headers with
  | some v => Numeral v n
  | none => n = 0

/-- A place in the path of the target. -/
def InPath (line : Bytes) (i : ℕ) : Prop :=
  match target? line with
  | some (off, uri) => off ≤ i ∧ i < off + pathLength uri
  | none => False

/-- A place in the name of one of the header lines. -/
def InName : List Bytes → ℕ → Prop
  | [], _ => False
  | l :: ls, i => i < nameLength l ∨ (l.length + 2 ≤ i ∧ InName ls (i - (l.length + 2)))

/-- **The places that `parse` may change.** -/
def Rewritable (inp : Bytes) (i : ℕ) : Prop :=
  InPath (firstLine inp) i ∨
    ((firstLine inp).length + 2 ≤ i ∧ InName (rawLines inp) (i - ((firstLine inp).length + 2)))

/-- The name of a header is within its line. -/
theorem nameLength_le (line : Bytes) : nameLength line ≤ line.length := by
  unfold nameLength
  cases hi : indexByte? (ch ':') line with
  | none => exact le_rfl
  | some i => exact (indexByte?_lt hi).le

/-- The path is within the target. -/
theorem pathLength_le (uri : Bytes) : pathLength uri ≤ uri.length := by
  unfold pathLength
  cases hi : indexByte? (ch '?') uri with
  | none => exact le_rfl
  | some i => exact (indexByte?_lt hi).le

/-- The places in names are within the header lines. -/
theorem inName_lt {ls : List Bytes} {i : ℕ} (h : InName ls i) : i < (joinLines ls).length := by
  induction ls generalizing i with
  | nil => exact absurd h id
  | cons l ls ih =>
    rw [joinLines_cons, List.length_append, List.length_append, crlf_length]
    rcases h with hname | ⟨hge, hrest⟩
    · have := nameLength_le l
      omega
    · have := ih hrest
      omega

section Target

variable {line : Bytes} {off : ℕ} {uri : Bytes}

/-- The target lies within its line. -/
theorem target?_le (h : target? line = some (off, uri)) : off + uri.length ≤ line.length := by
  unfold target? at h
  split at h
  · rename_i idx0 idx1 h₀ h₁
    have hlt₀ := indexByte?_lt h₀
    have hlt₁ := lastIndexByte?_lt h₁
    simp only [Option.some.injEq, Prod.mk.injEq] at h
    rw [← h.1, ← h.2, List.length_drop, List.length_take]
    omega
  · cases h

/-- The places in the path are within the request line. -/
theorem inPath_lt {i : ℕ} (h : InPath line i) : i < line.length := by
  unfold InPath at h
  split at h
  · rename_i off uri ht
    have := target?_le ht
    have := pathLength_le uri
    omega
  · exact absurd h id

/-- The request line is rewritten where the path of its target stands, and nowhere else. -/
theorem decodeTarget_of_target? (h : target? line = some (off, uri)) :
    decodeTarget line = splice line off (unescape (uri.take (pathLength uri)) false) := by
  unfold target? at h
  split at h
  · rename_i idx0 idx1 h₀ h₁
    simp only [Option.some.injEq, Prod.mk.injEq] at h
    obtain ⟨rfl, rfl⟩ := h
    rw [decodeTarget, h₀, h₁]
    rfl
  · cases h

/-- Decoding changes the path only. -/
theorem decodeTarget_eqOff (line : Bytes) : EqOff (InPath line) (decodeTarget line) line := by
  cases ht : target? line with
  | none =>
    have hkeep : decodeTarget line = line := by
      unfold target? at ht
      unfold decodeTarget
      cases h₀ : indexByte? (ch ' ') line with
      | none => rfl
      | some idx0 =>
        cases h₁ : lastIndexByte? (ch ' ') line with
        | none => rfl
        | some idx1 =>
          rw [h₀, h₁] at ht
          cases ht
    rw [hkeep]
    exact .refl _ _
  | some t =>
    obtain ⟨off, uri⟩ := t
    have hle := target?_le ht
    have hpath := pathLength_le uri
    have hdec := unescape_length_le (uri.take (pathLength uri)) false
    rw [List.length_take, Nat.min_eq_left hpath] at hdec
    rw [decodeTarget_of_target? ht]
    refine (EqOff.splice (by omega)).mono fun i hi => ?_
    unfold InPath
    rw [ht]
    exact ⟨hi.1, by omega⟩

end Target

/-! ### What `parse` changes -/

section Parse

variable {env : Env} {h h' : HTTP} {l l' : Bytes}

/-- A header line is changed in its name only. -/
theorem parseHeader_eqOff (he : parseHeader env h l = .ok (h', l')) :
    EqOff (· < nameLength l) l' l := by
  have hlen := parseHeader_length he
  obtain ⟨i, hi, rfl⟩ := parseHeader_eq_ok he
  have hlt := indexByte?_lt hi
  have hname : nameLength l = i + 1 := by rw [nameLength, hi, Option.getD_some]
  have hkey : (lowerKey (l.take (i + 1))).length = i + 1 := by
    rw [lowerKey_length, List.length_take]
    omega
  refine ⟨hlen, fun j hj => ?_⟩
  rw [hname, not_lt] at hj
  rw [List.getElem?_append_right (by omega), hkey, List.getElem?_drop]
  congr 1
  omega

/-- The header lines are changed in their names only. -/
theorem parseHeaders_eqOff {ls ls' : List Bytes} (he : parseHeaders env h ls = .ok (h', ls')) :
    EqOff (InName ls) (joinLines ls') (joinLines ls) := by
  induction ls generalizing h h' ls' with
  | nil =>
    simp only [parseHeaders, Ret.ok.injEq, Prod.mk.injEq] at he
    rw [← he.2]
    exact .refl _ _
  | cons l ls ih =>
    obtain ⟨h₁, l₁, ls₂, he₁, he₂, rfl⟩ := parseHeaders_cons.mp he
    rw [joinLines_cons, joinLines_cons]
    refine (((parseHeader_eqOff he₁).append (.refl (fun _ => False) crlf)).append (ih he₂)).mono ?_
    rintro i ((hname | ⟨-, hfalse⟩) | hrest)
    · exact .inl hname
    · exact absurd hfalse id
    · rw [List.length_append, crlf_length] at hrest
      exact .inr hrest

/-- The fields that the header lines leave alone. -/
theorem parseHeaders_request {ls ls' : List Bytes} (he : parseHeaders env h ls = .ok (h', ls')) :
    h'.path = h.path ∧ h'.qStart = h.qStart ∧ h'.qEnd = h.qEnd := by
  induction ls generalizing h h' ls' with
  | nil =>
    simp only [parseHeaders, Ret.ok.injEq, Prod.mk.injEq] at he
    rw [← he.1]
    exact ⟨rfl, rfl, rfl⟩
  | cons l ls ih =>
    obtain ⟨h₁, l₁, ls₂, he₁, he₂, rfl⟩ := parseHeaders_cons.mp he
    have hrest := ih he₂
    rcases parseHeader_fields he₁ with ⟨-, cl, -, -, -, rfl⟩ | ⟨-, _, _, rfl⟩
    · exact hrest
    · exact hrest

/-- **The fields that the first line sets.**  Its two spaces are different ones, and the offsets fit
    into their 16 bits. -/
theorem parseFirstLine_fields (he : parseFirstLine env h l = .ok (h', l')) :
    ∃ idx0 idx1 uri, indexByte? (ch ' ') l = some idx0 ∧ lastIndexByte? (ch ' ') l = some idx1 ∧
      idx0 < idx1 ∧ idx1 ≤ 0xffff ∧ target? l = some (idx0 + 1, uri) ∧
      uri = (l.take idx1).drop (idx0 + 1) ∧
      (∀ q, indexByte? (ch '?') uri = some q → h'.qStart = idx0 + 1 + q + 1 ∧ h'.qEnd = idx1) ∧
      (indexByte? (ch '?') uri = none → h'.qStart = h.qStart ∧ h'.qEnd = h.qEnd) ∧
      ((unescape (uri.take (pathLength uri)) false).head? = some (ch '/') →
        h'.path = unescape (uri.take (pathLength uri)) false) := by
  obtain ⟨idx0, idx1, h₀, h₁, hlt, hsmall, hcase⟩ := parseFirstLine_inv he
  have hlast := lastIndexByte?_lt h₁
  refine ⟨idx0, idx1, (l.take idx1).drop (idx0 + 1), h₀, h₁, hlt, hsmall, ?_, rfl, ?_⟩
  · rw [target?, h₀, h₁]
  unfold pathLength
  rcases hcase with ⟨q, hq, hpath⟩ | ⟨hq, hpath⟩
  · have hqlt := indexByte?_lt hq
    rw [List.length_drop, List.length_take] at hqlt
    obtain ⟨-, path, host, rfl, hslash⟩ := parsePath_inv hpath
    rw [hq]
    refine ⟨fun q' hq' => ?_, fun hnone => absurd hnone (Option.some_ne_none q), hslash⟩
    rw [← Option.some.inj hq']
    exact ⟨Nat.mod_eq_of_lt (by omega), Nat.mod_eq_of_lt (by omega)⟩
  · obtain ⟨-, path, host, rfl, hslash⟩ := parsePath_inv hpath
    rw [hq, Option.getD_none, List.take_length]
    exact ⟨fun q hq' => (by cases hq'), fun _ => ⟨rfl, rfl⟩, hslash⟩

end Parse

/-! ### An accepted request -/

namespace Accepted

variable {env : Env} {inp : Bytes} {h : HTTP}

/-- Nothing is set behind the header lines but `data`. -/
theorem fields (A : Accepted env inp h) :
    h.hdrLen = A.head.hdrLen ∧ h.bodyLen = A.head.bodyLen ∧ h.path = A.start.path ∧
      h.qStart = A.start.qStart ∧ h.qEnd = A.start.qEnd := by
  obtain ⟨hpath, hstart, hend⟩ := parseHeaders_request A.headers
  rw [← hpath, ← hstart, ← hend]
  have hset : ∀ (g : HTTP) (d : Bytes), g = { A.head with data := d } →
      g.hdrLen = A.head.hdrLen ∧ g.bodyLen = A.head.bodyLen ∧ g.path = A.head.path ∧
        g.qStart = A.head.qStart ∧ g.qEnd = A.head.qEnd := by
    rintro g d rfl
    exact ⟨rfl, rfl, rfl, rfl, rfl⟩
  rcases A.result with ⟨-, hh⟩ | ⟨-, -, hh⟩
  · exact hset h _ hh
  · exact hset h _ hh

/-- The received bytes are the request line, the header lines, the empty line and what is behind. -/
theorem inp_eq (A : Accepted env inp h) :
    firstLine inp ++ crlf ++ joinLines (rawLines inp) ++ crlf ++ inp.drop (A.idx + 4) = inp := by
  rw [← A.block, List.take_append_drop]

/-- **`parse` changes the path and the names only.** -/
theorem eqOff (A : Accepted env inp h) : EqOff (Rewritable inp) (process env {} inp).buf inp := by
  have hall := ((((decodeTarget_eqOff (firstLine inp)).append (.refl (fun _ => False) crlf)).append
    (parseHeaders_eqOff A.headers)).append (.refl (fun _ => False) crlf)).append
    (.refl (fun _ => False) (inp.drop (A.idx + 4)))
  rw [← A.buf, A.inp_eq] at hall
  refine hall.mono ?_
  rintro i ((((hpath | ⟨-, hfalse⟩) | hname) | ⟨-, hfalse⟩) | ⟨-, hfalse⟩)
  · exact .inl hpath
  · exact absurd hfalse id
  · rw [List.length_append, crlf_length] at hname
    exact .inr hname
  · exact absurd hfalse id
  · exact absurd hfalse id

/-- The places that may change are in front of the empty line. -/
theorem rewritable_lt (A : Accepted env inp h) {i : ℕ} (hi : Rewritable inp i) : i < A.idx + 4 := by
  have hlen := congrArg List.length A.block
  have hle := index?_le (by simp [crlf]) A.found
  rw [List.length_append, crlf_length] at hle
  simp only [List.length_take, List.length_append, crlf_length] at hlen
  rcases hi with hpath | ⟨hge, hname⟩
  · have := inPath_lt hpath
    omega
  · have := inName_lt hname
    omega

/-- The request line is within the input. -/
theorem firstLine_le (A : Accepted env inp h) : (firstLine inp).length ≤ inp.length := by
  have hlen := congrArg List.length A.inp_eq
  simp only [List.length_append] at hlen
  omega

/-- A part of the first line that stands in the input as well. -/
theorem take_firstLine (A : Accepted env inp h) {n : ℕ} (hn : n ≤ (firstLine inp).length) :
    inp.take n = (firstLine inp).take n := by
  have hinp := A.inp_eq
  simp only [List.append_assoc] at hinp
  conv_lhs => rw [← hinp]
  exact List.take_append_of_le_length hn

/-- **The received query** is what stands between the two offsets in the memory. -/
theorem query (A : Accepted env inp h) :
    (∀ q, rawQuery? inp = some q → 0 < h.qStart ∧ h.qStart ≤ h.qEnd ∧
      h.qEnd < (firstLine inp).length ∧
      ch ' ' ∈ (process env {} inp).buf.take h.qStart ∧
      ((process env {} inp).buf.take h.qEnd).drop h.qStart = q) ∧
    (rawQuery? inp = none → h.qStart = 0) := by
  obtain ⟨idx0, idx1, uri, h₀, h₁, hlt, -, htarget, huri, hsome, hnone, -⟩ :=
    parseFirstLine_fields A.request
  obtain ⟨-, -, -, hstart, hend⟩ := A.fields
  have hlast := lastIndexByte?_lt h₁
  unfold rawQuery?
  rw [htarget, hstart, hend]
  cases hq : indexByte? (ch '?') uri with
  | none => exact ⟨fun q hq' => (by simp [hq] at hq'), fun _ => (hnone hq).1⟩
  | some q =>
    obtain ⟨hqs, hqe⟩ := hsome q hq
    have hqlt := indexByte?_lt hq
    rw [huri, List.length_drop, List.length_take] at hqlt
    refine ⟨fun text htext => ?_, fun hno => by simp [hq] at hno⟩
    simp only [Option.bind_some, hq, Option.map_some, Option.some.injEq] at htext
    rw [hqs, hqe]
    -- the path stands between the first space and the query, and the header lines behind both
    have hout : ∀ i, (i ≤ idx0 ∨ idx0 + 1 + q + 1 ≤ i) → i < idx1 → ¬ Rewritable inp i := by
      intro i hi hlt₁ hrw
      rcases hrw with hpath | ⟨hge, -⟩
      · unfold InPath at hpath
        rw [htarget] at hpath
        simp only [pathLength, hq, Option.getD_some] at hpath
        omega
      · omega
    refine ⟨by omega, by omega, hlast, ?_, ?_⟩
    · refine List.mem_iff_getElem?.mpr ⟨idx0, ?_⟩
      have hinp := A.inp_eq
      simp only [List.append_assoc] at hinp
      rw [List.getElem?_take_of_lt (by omega), A.eqOff.get_eq idx0
        (hout idx0 (.inl le_rfl) hlt), ← hinp, List.getElem?_append_left (indexByte?_lt h₀)]
      exact indexByte?_get h₀
    · rw [A.eqOff.slice_eq fun i hi => hout i (.inr hi), A.take_firstLine hlast.le, ← htext, huri,
        List.drop_drop, Nat.add_assoc (idx0 + 1)]

end Accepted

/-! ### The frame of a request -/

/-- **The frame of an accepted request**, from the received bytes `inp` and the memory `buf` that
    `process` left. -/
structure Framed (env : Env) (inp buf : Bytes) (h : HTTP) : Prop where
  hdrLen : ∃ idx, index? (crlf ++ crlf) inp = some idx ∧ h.hdrLen = idx + 4
  bodyLen : Announced (rawHeaders inp) h.bodyLen
  bounded : (h.bodyLen : ℤ) ≤ env.requestMaxBytes
  within : h.hdrLen + h.bodyLen ≤ buf.length ∧ buf.length ≤ inp.length
  noWrap : h.hdrLen + h.bodyLen < 2 ^ 32
  data : h.data = buf.take (h.hdrLen + h.bodyLen)
  body : h.body = some ((inp.take (h.hdrLen + h.bodyLen)).drop h.hdrLen)
  kept : ∀ i < buf.length, ¬ Rewritable inp i → buf[i]? = inp[i]?
  /-- the body and what follows the request -/
  behind : buf.drop h.hdrLen = (inp.take buf.length).drop h.hdrLen
  query : ∀ q, rawQuery? inp = some q →
    0 < h.qStart ∧ h.qStart ≤ h.qEnd ∧ slice? h.data h.qStart h.qEnd = some q
  noQuery : rawQuery? inp = none → h.qStart = 0

section Framing

variable {env : Env} {inp : Bytes} {h : HTTP}

/-- Within the limits nothing wraps, and the request is the begin of the memory. -/
theorem Accepted.data_eq (A : Accepted env inp h) (hmax : env.requestMaxBytes < 2 ^ 31)
    (hlen : inp.length < 2 ^ 31) :
    h.hdrLen = A.idx + 4 ∧ h.hdrLen + h.bodyLen ≤ inp.length ∧ h.bodyLen < 2 ^ 31 ∧
      h.data = (process env {} inp).buf.take (h.hdrLen + h.bodyLen) := by
  obtain ⟨hhdr, hbody, -⟩ := A.fields
  obtain ⟨hdata, hfull⟩ := A.memory
  have hwhole := (A.whole hmax hlen).length_eq A.firstLine_ne_nil
  have hidx := A.idx_eq
  have hle := index?_le (by simp [crlf]) A.found
  rw [List.length_append, crlf_length] at hle
  rw [← A.buf_eq, A.eqOff.length_eq] at hfull
  have hsmall : announcedLength inp < 2 ^ 31 := by omega
  rw [hhdr, hbody, A.hdrLen_eq, A.bodyLen_eq, Nat.mod_eq_of_lt (by omega), ← hwhole, A.buf_eq]
  exact ⟨hidx.symm, hfull, hsmall, hdata⟩

/-- Within the limits, an accepted request meets the whole specification `Framed`: assembled from
    the lemmas above about its parts. -/
theorem Accepted.framed (A : Accepted env inp h) (hmax : env.requestMaxBytes < 2 ^ 31)
    (hlen : (inp.length : ℤ) ≤ env.requestMaxBytes) :
    Framed env inp (process env {} inp).buf h := by
  have hbuf := A.eqOff.length_eq
  obtain ⟨hhdr, hle, hsmall, hdata⟩ := A.data_eq hmax (by omega)
  obtain ⟨-, -, -, hb₁⟩ := parseFirstLine_eq_ok A.request
  obtain ⟨-, hcontent, hzero⟩ := parseHeaders_lengths A.headers
  have hb := A.fields.2.1
  -- `parse` changes nothing behind the header block
  have hbehind : ∀ i, h.hdrLen ≤ i → ¬ Rewritable inp i := by
    intro i hi hrw
    have := A.rewritable_lt hrw
    omega
  refine ⟨⟨A.idx, A.found, hhdr⟩, ?_, ?_, ⟨by omega, hbuf.le⟩, by omega, hdata, ?_,
    fun i _ hi => A.eqOff.get_eq i hi, ?_, fun q hq => ?_, A.query.2⟩
  · -- the announced length is the number of the last `content-length`
    unfold Announced
    rw [hb]
    split
    · rename_i v hv
      obtain ⟨cl, hcl, hpos, hcap, hbody⟩ := hcontent v hv
      have hval : ((A.head.bodyLen : ℕ) : ℤ) = cl := by omega
      rw [hval]
      exact ((parseInt_eq_iff _ _).mp hcl).1
    · rw [hzero (by assumption), hb₁]
  · -- and it is within `RequestMaxBytes`
    rw [hb]
    cases hcl : contentLength? ((rawLines inp).map rawHeader) with
    | some v =>
      obtain ⟨cl, -, hpos, hcap, hbody⟩ := hcontent v hcl
      omega
    | none =>
      rw [hzero hcl, hb₁]
      show ((0 : ℕ) : ℤ) ≤ _
      omega
  · -- the body stands at the end of the memory
    have hdlen : h.data.length = h.hdrLen + h.bodyLen := by
      rw [hdata, List.length_take, Nat.min_eq_left (by omega)]
    have hlo : (h.data.length : ℤ) - h.bodyLen = (h.hdrLen : ℕ) := by omega
    unfold HTTP.body
    rw [hlo, slice?_eq_some h.data (by omega) le_rfl, List.take_length, hdata]
    rw [A.eqOff.slice_eq fun i hlo _ => hbehind i hlo]
  · have hslice : ((process env {} inp).buf.take (process env {} inp).buf.length).drop h.hdrLen
        = (inp.take (process env {} inp).buf.length).drop h.hdrLen :=
      A.eqOff.slice_eq fun i hlo _ => hbehind i hlo
    rwa [List.take_length] at hslice
  · obtain ⟨hpos, hlt, hend, -, htext⟩ := A.query.1 q hq
    have hfirst : (firstLine inp).length ≤ h.hdrLen := by
      have hblock := A.length_eq
      rw [hhdr, ← hblock]
      simp only [List.length_append, parseFirstLine_length A.request]
      omega
    refine ⟨hpos, hlt, ?_⟩
    rw [hdata, slice?_eq_some _ hlt (by rw [List.length_take]; omega), List.take_take,
      Nat.min_eq_left (by omega), htext]

/-- The lines of a complete header block are not changed by what follows. -/
theorem lines_append {idx : ℕ} (hfound : index? (crlf ++ crlf) inp = some idx) (t : Bytes) :
    firstLine (inp ++ t) = firstLine inp ∧ rawLines (inp ++ t) = rawLines inp := by
  obtain ⟨l, ls, hblock, hl, hls⟩ := exists_lines_of_index? hfound
  obtain ⟨hf, hraw⟩ := rawLines_eq hl hls (inp.drop (idx + 4))
  obtain ⟨hf', hraw'⟩ := rawLines_eq hl hls (inp.drop (idx + 4) ++ t)
  rw [← hblock, ← List.append_assoc, List.take_append_drop] at hf' hraw'
  rw [← hblock, List.take_append_drop] at hf hraw
  exact ⟨hf'.trans hf.symm, hraw'.trans hraw.symm⟩

/-- What was read behind the accepted request changes nothing. -/
theorem Framed.append {buf : Bytes} (F : Framed env inp buf h) (t : Bytes) :
    Framed env (inp ++ t) buf h := by
  obtain ⟨idx, hfound, hhdr⟩ := F.hdrLen
  obtain ⟨hfirst, hlines⟩ := lines_append hfound t
  have hheaders : rawHeaders (inp ++ t) = rawHeaders inp := by rw [rawHeaders, rawHeaders, hlines]
  have hquery : rawQuery? (inp ++ t) = rawQuery? inp := by rw [rawQuery?, rawQuery?, hfirst]
  have hrw : ∀ i, Rewritable (inp ++ t) i ↔ Rewritable inp i := fun i => by
    unfold Rewritable
    rw [hfirst, hlines]
  obtain ⟨hfull, hbuf⟩ := F.within
  refine ⟨⟨idx, index?_append (by simp [crlf]) hfound t, hhdr⟩,
    ?_, F.bounded, ⟨hfull, ?_⟩, F.noWrap, F.data, ?_, fun i hi hout => ?_, ?_, ?_, ?_⟩
  · rw [hheaders]
    exact F.bodyLen
  · rw [List.length_append]
    omega
  · rw [List.take_append_of_le_length (by omega)]
    exact F.body
  · rw [List.getElem?_append_left (by omega)]
    exact F.kept i hi (mt (hrw i).mpr hout)
  · rw [List.take_append_of_le_length hbuf]
    exact F.behind
  · rw [hquery]
    exact F.query
  · rw [hquery]
    exact F.noQuery

end Framing

/-- The input buffer after the reads. -/
def bufferAfter (env : Env) (reads : List Bytes) : Bytes := (feed (process env) {} [] reads).buf

/-- The calls after each read end with one call on what was read up to there. -/
theorem callReads_eq_callOnce (env : Env) (reads : List Bytes) :
    ∃ p t, reads.flatten = p ++ t ∧ callReads env reads = callOnce env p ∧
      bufferAfter env reads = (process env {} p).buf := by
  obtain ⟨p, ⟨t, ht⟩, hfeed⟩ := feed_eq_call (process_resumable env) reads
  refine ⟨p, t, ht.symm, ?_, ?_⟩
  · unfold callReads callOnce
    rw [hfeed]
  · unfold bufferAfter
    rw [hfeed]

/-- The first line is known when the request is accepted. -/
theorem firstLine_append {env : Env} {p : Bytes} {h : HTTP}
    (hacc : callOnce env p = .http h) (t : Bytes) : firstLine (p ++ t) = firstLine p := by
  obtain ⟨idx, -, hfound, -⟩ := process_eq_http hacc
  exact (lines_append hfound t).1

/-- **The frame of a request.**  For every stream within the limit that is accepted as an HTTP
    request with a non-empty first line, in one call or after any number of reads. -/
theorem request_framing (env : Env) (reads : List Bytes) (h : HTTP)
    (hmax : env.requestMaxBytes < 2 ^ 31) (hlen : (reads.flatten.length : ℤ) ≤ env.requestMaxBytes)
    (hacc : callReads env reads = .http h) (hfirst : firstLine reads.flatten ≠ []) :
    Framed env reads.flatten (bufferAfter env reads) h := by
  obtain ⟨p, t, hsplit, hcall, hbuf⟩ := callReads_eq_callOnce env reads
  rw [hcall] at hacc
  rw [hsplit] at hlen hfirst ⊢
  rw [firstLine_append hacc] at hfirst
  rw [List.length_append] at hlen
  obtain ⟨A⟩ := accepted_of_http hacc hfirst
  rw [hbuf]
  exact (A.framed hmax (by omega)).append t

/-- A request cut in its header and in its body, with the begin of the next one behind it. -/
def postReads : List Bytes :=
  [ascii "POST /a%20b?x=%41 HTTP/1.1\r\nContent-Le", ascii "ngth: 3\r\n\r\nab", ascii "cGET"]

/-- That request comes out of its three reads with its body and its query, and the begin of the next
    one is left alone. -/
theorem request_framing_post :
    ∃ h, callReads .plain postReads = .http h ∧ h.body = some (ascii "abc") ∧
      slice? h.data h.qStart h.qEnd = some (ascii "x=%41") := by
  have hacc : callReads .plain postReads = .http
      { path := ascii "/a b", hdrLen := 49, bodyLen := 3, qStart := 12, qEnd := 17,
        data := ascii "POST /a b0b?x=%41 HTTP/1.1\r\ncontent-length: 3\r\n\r\nabc" } := by
    decide +kernel
  have hframed := request_framing .plain postReads _ (by decide)
    (by decide +kernel) hacc (by decide +kernel)
  refine ⟨_, hacc, ?_, (hframed.query (ascii "x=%41") (by decide +kernel)).2.2⟩
  rw [hframed.body]
  decide +kernel

/-! ### The request line -/

/-- The bytes of a line before its first space. -/
def beforeSpace (line : Bytes) : Bytes := line.takeWhile (· ≠ ch ' ')

/-- A request line with two spaces, and its method from `Method`. -/
def HasRequestLine (inp : Bytes) (h : HTTP) : Prop :=
  firstLine inp ≠ [] ∧ 2 ≤ (firstLine inp).count (ch ' ') ∧
    ∃ h', h.method = some (h', (beforeSpace (firstLine inp)).map upper)

/-- The bytes before the first space, by the index that the source computes. -/
theorem beforeSpace_eq {line : Bytes} {i : ℕ} (hi : indexByte? (ch ' ') line = some i) :
    beforeSpace line = line.take i := by
  have hno := not_mem_take_of_indexByte? hi
  have hpos : ∀ c ∈ line.take i, decide (c ≠ ch ' ') = true := by
    intro c hc
    simpa using fun heq : c = ch ' ' => hno (heq ▸ hc)
  unfold beforeSpace
  conv_lhs => rw [← List.take_append_drop i line, indexByte?_drop hi]
  rw [List.takeWhile_append_of_pos hpos, List.takeWhile_cons_of_neg (by simp), List.append_nil]

/-- `Method` ends at the first space, whatever stands behind it. -/
theorem method_eq {h : HTTP} {pre : Bytes} {i : ℕ} (hi : indexByte? (ch ' ') pre = some i)
    (hpre : pre <+: h.data) : ∃ h', h.method = some (h', (pre.take i).map upper) := by
  obtain ⟨rest, hrest⟩ := hpre
  have hlt := indexByte?_lt hi
  have hlen : (pre.take i).length = i := by rw [List.length_take, Nat.min_eq_left hlt.le]
  have hdata : h.data = pre.take i ++ ch ' ' :: (pre.drop (i + 1) ++ rest) := by
    rw [← List.cons_append, ← indexByte?_drop hi, ← List.append_assoc, List.take_append_drop, hrest]
  have hidx : indexByte? (ch ' ') h.data = some i := by
    rw [hdata, indexByte?_append (not_mem_take_of_indexByte? hi), hlen]
  have htake : h.data.take i = pre.take i := by rw [hdata, List.take_left' hlen]
  unfold HTTP.method
  rw [hidx]
  simp only [htake]
  exact ⟨_, rfl⟩

section RequestLine

variable {env : Env} {inp : Bytes} {h : HTTP}

/-- **`Method` on an accepted request** whose memory reaches the first space. -/
theorem Accepted.hasRequestLine (A : Accepted env inp h) (hfirst : firstLine inp ≠ [])
    (hreach : (beforeSpace (firstLine inp)).length < h.data.length) : HasRequestLine inp h := by
  obtain ⟨idx0, idx1, uri, h₀, h₁, hlt, -, htarget, -⟩ := parseFirstLine_fields A.request
  refine ⟨hfirst, two_le_count hlt (indexByte?_get h₀) (lastIndexByte?_get h₁), ?_⟩
  have hbefore := beforeSpace_eq h₀
  have hlt₀ := indexByte?_lt h₀
  rw [hbefore, List.length_take, Nat.min_eq_left hlt₀.le] at hreach
  -- up to the first space the memory is as it was received
  have hout : ∀ i, 0 ≤ i → i < idx0 + 1 → ¬ Rewritable inp i := by
    intro i _ hi hrw
    rcases hrw with hpath | ⟨hge, -⟩
    · unfold InPath at hpath
      rw [htarget] at hpath
      simp only at hpath
      omega
    · omega
  have hsame : h.data.take (idx0 + 1) = (firstLine inp).take (idx0 + 1) := by
    obtain ⟨rest, hrest⟩ := A.data_prefix
    have hslice := A.eqOff.slice_eq hout
    rw [List.drop_zero, List.drop_zero, A.take_firstLine hlt₀, ← hrest,
      List.take_append_of_le_length hreach] at hslice
    exact hslice
  have hidx : indexByte? (ch ' ') ((firstLine inp).take (idx0 + 1)) = some idx0 := by
    rw [List.take_add_one, indexByte?_get h₀]
    have hlast := indexByte?_append (not_mem_take_of_indexByte? h₀) []
    rwa [List.length_take, Nat.min_eq_left hlt₀.le] at hlast
  obtain ⟨h', hmethod⟩ := method_eq hidx (hsame ▸ List.take_prefix _ h.data)
  rw [List.take_take, Nat.min_eq_left (Nat.le_succ idx0)] at hmethod
  rw [hbefore]
  exact ⟨h', hmethod⟩

/-- Conversely the memory has to reach the space that `Method` finds. -/
theorem HasRequestLine.reaches (H : HasRequestLine inp h) :
    (beforeSpace (firstLine inp)).length < h.data.length := by
  obtain ⟨-, -, h', hmethod⟩ := H
  unfold HTTP.method at hmethod
  split at hmethod
  · cases hmethod
  · rename_i i hi
    have hlt := indexByte?_lt hi
    simp only [Option.some.injEq, Prod.mk.injEq] at hmethod
    have hlen := congrArg List.length hmethod.2
    rw [List.length_map, List.length_map, List.length_take] at hlen
    omega

end RequestLine

/-- **Request lines.**  An accepted request has a request line, and `Method` returns what stands
    before its first space, iff its first line is not empty and its length, as 32 bits hold it,
    reaches that space.  For a stream within the limit the first is enough. -/
theorem request_line_iff (env : Env) (reads : List Bytes) (h : HTTP)
    (hacc : callReads env reads = .http h) :
    (HasRequestLine reads.flatten h ↔ firstLine reads.flatten ≠ [] ∧
      (beforeSpace (firstLine reads.flatten)).length < requestLength reads.flatten) ∧
    (env.requestMaxBytes < 2 ^ 31 → (reads.flatten.length : ℤ) ≤ env.requestMaxBytes →
      (HasRequestLine reads.flatten h ↔ firstLine reads.flatten ≠ [])) := by
  rw [callReads_eq_flatten] at hacc
  have hlength := data_length hacc
  have hiff : HasRequestLine reads.flatten h ↔ firstLine reads.flatten ≠ [] ∧
      (beforeSpace (firstLine reads.flatten)).length < requestLength reads.flatten := by
    rw [← hlength]
    constructor
    · intro H
      exact ⟨H.1, H.reaches⟩
    · rintro ⟨hfirst, hreach⟩
      obtain ⟨A⟩ := accepted_of_http hacc hfirst
      exact A.hasRequestLine hfirst hreach
  refine ⟨hiff, fun hmax hlen => hiff.trans (and_iff_left_of_imp fun hfirst => ?_)⟩
  obtain ⟨A⟩ := accepted_of_http hacc hfirst
  obtain ⟨idx0, -, -, h₀, -⟩ := parseFirstLine_fields A.request
  have hlt := indexByte?_lt h₀
  have hwhole : blockLength reads.flatten ≤ requestLength reads.flatten := A.whole hmax (by omega)
  rw [blockLength] at hwhole
  simp only [List.length_append] at hwhole
  rw [beforeSpace_eq h₀, List.length_take]
  omega

/-- A method in lower case. -/
theorem request_line_iff_get :
    ∃ h, callReads .plain [ascii "get / HT", ascii "TP/1.1\r\n\r\n"] = .http h ∧
      ∃ h', h.method = some (h', ascii "GET") := by
  have hacc : callReads .plain [ascii "get / HT", ascii "TP/1.1\r\n\r\n"] = .http
      { path := ascii "/", hdrLen := 18, data := ascii "get / HTTP/1.1\r\n\r\n" } := by
    decide +kernel
  have hline := ((request_line_iff .plain [ascii "get / HT", ascii "TP/1.1\r\n\r\n"] _ hacc).2
    (by decide) (by decide +kernel)).mpr (by decide +kernel)
  exact ⟨_, hacc, hline.2.2⟩

/-- Two empty lines are an HTTP request without a request line, and `Method` panics. -/
theorem empty_line_accepted :
    callOnce .plain (crlf ++ crlf) = .http { hdrLen := 4, data := crlf ++ crlf } ∧
      firstLine (crlf ++ crlf) = [] ∧
      ({ hdrLen := 4, data := crlf ++ crlf } : HTTP).method = none := by
  decide +kernel

end Resh.Server
