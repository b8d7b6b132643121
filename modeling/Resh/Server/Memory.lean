import Mathlib.Data.List.TakeWhile
import Resh.Server.RequestLines
import Resh.Server.Segmentation

namespace Resh.Server

open Resh.Go Resh.Incremental

/-!
# The memory of an accepted request

`parse` rewrites the header block in the input buffer.  The memory of the request is then the begin
of that buffer: the block alone if no body is announced, or else what the sum of the two lengths
counts, which is a sum of 32 bits.

* `requestLength`, `rewritten`, `requestData` — the length of the memory, the buffer and the memory,
  as functions of the received bytes;
* `Accepted` — what `process` did with an accepted request: the two passes of `parse` and the memory
  that they left;
* `accepted_data` — the memory of an accepted request is `requestData`;
* `Whole` — the memory reaches the end of the header block, as it does within the limits
  (`whole_of_http`).
-/

/-! ### The memory, from the received bytes -/

/-- The length of the name of a header line. -/
def nameLength (line : Bytes) : ℕ := (indexByte? (ch ':') line).getD line.length

/-- A header line with its name lower-cased where it stands. -/
def lowerName (line : Bytes) : Bytes :=
  (line.take (nameLength line)).map lower ++ line.drop (nameLength line)

/-- The value of the last header with the name `content-length`. -/
def contentLength? (headers : List (Bytes × Bytes)) : Option Bytes :=
  (headers.filter (·.1 = ascii "content-length")).getLast?.map (·.2)

/-- The length of the header block, with the empty line that ends it. -/
def blockLength (inp : Bytes) :
    ℕ := (firstLine inp ++ crlf ++ joinLines (rawLines inp) ++ crlf).length

/-- The length of the body that the headers announce, in 32 bits. -/
def announcedLength (inp : Bytes) : ℕ :=
  match contentLength? (rawHeaders inp) with
  | some v => ((atoi v).1 % 2 ^ 32).toNat
  | none => 0

/-- The length of the memory of a request.  Behind an empty first line `parse` reads no headers. -/
def requestLength (inp : Bytes) : ℕ :=
  if firstLine inp = [] ∨ announcedLength inp = 0 then blockLength inp
  else (blockLength inp + announcedLength inp) % 2 ^ 32

/-- The received bytes as `parse` leaves them: with the path of the target decoded and the names of
    the headers lower-cased. -/
def rewritten (inp : Bytes) : Bytes :=
  if firstLine inp = [] then inp
  else decodeTarget (firstLine inp) ++ crlf ++ joinLines ((rawLines inp).map lowerName) ++ crlf
    ++ inp.drop (blockLength inp)

/-- **The memory of a request**, from the received bytes. -/
def requestData (inp : Bytes) : Bytes := (rewritten inp).take (requestLength inp)

/-- The memory reaches the end of the header block: the sum of the two lengths does not wrap. -/
def Whole (inp : Bytes) : Prop := blockLength inp ≤ requestLength inp

instance (inp : Bytes) : Decidable (Whole inp) := inferInstanceAs (Decidable (_ ≤ _))

/-- The announced length is a `uint32`. -/
theorem announcedLength_lt (inp : Bytes) : announcedLength inp < 2 ^ 32 := by
  unfold announcedLength
  split
  · omega
  · omega

/-- The two lengths of a request that is not cut. -/
theorem Whole.length_eq {inp : Bytes} (hw : Whole inp) (hfirst : firstLine inp ≠ []) :
    requestLength inp = blockLength inp + announcedLength inp := by
  have hlt := announcedLength_lt inp
  unfold Whole requestLength at hw
  unfold requestLength
  by_cases hzero : announcedLength inp = 0
  · rw [if_pos (.inr hzero), hzero, Nat.add_zero]
  · rw [if_neg (by simp [hfirst, hzero])] at hw ⊢
    omega

/-! ### What the header lines set -/

section Parse

variable {env : Env} {h h' : HTTP} {l l' : Bytes} {ls ls' : List Bytes}

/-- A header line is written back with its name in lower case, and nothing else of it changes. -/
theorem parseHeader_lowerName (he : parseHeader env h l = .ok (h', l')) : l' = lowerName l := by
  obtain ⟨i, hi, rfl⟩ := parseHeader_eq_ok he
  rw [lowerName, nameLength, hi, Option.getD_some, lowerKey_eq_map (not_mem_take_of_indexByte? hi)]

/-- All header lines are written back with their names in lower case, and nothing else of them
    changes. -/
theorem parseHeaders_lowerName (he : parseHeaders env h ls = .ok (h', ls')) :
    ls' = ls.map lowerName := by
  induction ls generalizing h ls' with
  | nil =>
    simp only [parseHeaders, Ret.ok.injEq, Prod.mk.injEq] at he
    exact he.2.symm
  | cons l ls ih =>
    obtain ⟨h₁, l₁, ls₂, he₁, he₂, rfl⟩ := parseHeaders_cons.mp he
    rw [List.map_cons, parseHeader_lowerName he₁, ih he₂]

/-- The last `content-length` counts, as `parse` overwrites what an earlier one set. -/
theorem contentLength?_cons (kv : Bytes × Bytes) (headers : List (Bytes × Bytes)) :
    contentLength? (kv :: headers)
      = (contentLength? headers).or
      (if kv.1 = ascii "content-length" then some kv.2 else none) := by
  unfold contentLength?
  by_cases hk : kv.1 = ascii "content-length"
  · rw [List.filter_cons_of_pos (by simpa using hk), if_pos hk, List.getLast?_cons]
    cases (headers.filter (·.1 = ascii "content-length")).getLast? with
    | none => rfl
    | some last => rfl
  · rw [List.filter_cons_of_neg (by simpa using hk), if_neg hk, Option.or_none]

/-- **The lengths after the header lines**: the one of the body is what the last header with the
    name announces, the one of the block is as it was. -/
theorem parseHeaders_lengths (he : parseHeaders env h ls = .ok (h', ls')) :
    h'.hdrLen = h.hdrLen ∧
    (∀ v, contentLength? (ls.map rawHeader) = some v → ∃ cl, atoi v = (cl, none) ∧ 0 ≤ cl ∧
      cl ≤ env.requestMaxBytes ∧ h'.bodyLen = (cl % 2 ^ 32).toNat) ∧
    (contentLength? (ls.map rawHeader) = none → h'.bodyLen = h.bodyLen) := by
  induction ls generalizing h ls' with
  | nil =>
    simp only [parseHeaders, Ret.ok.injEq, Prod.mk.injEq] at he
    rw [← he.1]
    exact ⟨rfl, fun v hv => (by cases hv), fun _ => rfl⟩
  | cons l ls ih =>
    obtain ⟨h₁, l₁, ls₂, he₁, he₂, rfl⟩ := parseHeaders_cons.mp he
    obtain ⟨hhdr, hsome, hnone⟩ := ih he₂
    rw [List.map_cons, contentLength?_cons]
    cases hrest : contentLength? (ls.map rawHeader) with
    | some w =>
      rw [Option.some_or]
      have hhdr₁ : h₁.hdrLen = h.hdrLen := by
        rcases parseHeader_fields he₁ with ⟨-, cl, -, -, -, rfl⟩ | ⟨-, _, _, rfl⟩ <;> rfl
      refine ⟨hhdr.trans hhdr₁, fun v hv => ?_, fun hv => by cases hv⟩
      rw [← Option.some.inj hv]
      exact hsome w hrest
    | none =>
      rw [Option.none_or]
      rcases parseHeader_fields he₁ with ⟨hk, cl, hcl, hpos, hle, rfl⟩ | ⟨hk, _, _, rfl⟩
      · rw [if_pos hk]
        refine ⟨hhdr, fun v hv => ?_, fun hv => by cases hv⟩
        rw [← Option.some.inj hv]
        exact ⟨cl, hcl, hpos, hle, hnone hrest⟩
      · rw [if_neg hk]
        exact ⟨hhdr, fun v hv => (by cases hv), fun _ => hnone hrest⟩

end Parse

/-! ### Accepted requests -/

section Accepted

variable {env : Env} {inp : Bytes} {h : HTTP}

/-- The stage of the Redis arguments never returns an HTTP request. -/
theorem outcome_redisStage (st : ServerReadState) (hst : st.http = none) (r : Redis) (inp : Bytes)
    (h : HTTP) : outcome (redisStage st r inp) ≠ .http h := by
  unfold redisStage
  generalize bulkLoop inp (r.nargs - r.ai.length) r = res
  obtain ⟨r₁, ret⟩ := res
  cases ret with
  | ok u =>
    simp only
    split
    · simp [outcome, hst]
    · simp [outcome]
  | more => simp [outcome]
  | fail e => simp [outcome]
  | panic => simp [outcome]

/-- **The call that accepts an HTTP request**: the header block is rewritten in the buffer, and the
    body is there in full. -/
theorem process_eq_http (hacc : callOnce env inp = .http h) :
    ∃ idx h', index? (crlf ++ crlf) inp = some idx ∧
      HTTP.parse env { data := inp.take (idx + 4) } = .ok h' ∧
      (process env {} inp).buf = h'.data ++ inp.drop (idx + 4) ∧
      ((h'.bodyLen = 0 ∧ h = h') ∨
        (h'.bodyLen ≠ 0 ∧ (h'.hdrLen + h'.bodyLen) % 2 ^ 32
          ≤ (h'.data ++ inp.drop (idx + 4)).length ∧ h = { h' with
            data := (h'.data ++ inp.drop (idx + 4)).take
              ((h'.hdrLen + h'.bodyLen) % 2 ^ 32) })) := by
  unfold callOnce at hacc
  unfold process at hacc ⊢
  simp only at hacc ⊢
  split at hacc
  · rename_i num w hq
    split at hacc
    · rename_i hw
      simp only [if_pos hw]
      -- the first byte is no `*`: an HTTP request
      unfold headerStage at hacc ⊢
      cases hi : index? (crlf ++ crlf) inp with
      | none => rw [hi] at hacc; exact absurd hacc (by simp [outcome])
      | some idx =>
        rw [hi] at hacc
        simp only at hacc ⊢
        split at hacc
        · rename_i h' hp
          refine ⟨idx, h', rfl, hp, ?_⟩
          split at hacc
          · rename_i hb
            rw [if_pos hb]
            exact ⟨rfl, Or.inl ⟨hb, by simpa [outcome] using hacc.symm⟩⟩
          · rename_i hb
            rw [if_neg hb]
            -- a body was announced, and all of it is there
            unfold bodyStage at hacc ⊢
            simp only at hacc ⊢
            split at hacc
            · exact absurd hacc (by simp [outcome])
            · rename_i hfull
              rw [if_neg hfull]
              exact ⟨rfl, Or.inr ⟨hb, not_lt.mp hfull, by simpa [outcome] using hacc.symm⟩⟩
        · exact absurd hacc (by simp [outcome])
        · exact absurd hacc (by simp [outcome])
        · exact absurd hacc (by simp [outcome])
    · split at hacc
      · exact absurd hacc (by simp [outcome])
      · exact absurd hacc (outcome_redisStage _ rfl _ _ _)
  · exact absurd hacc (by simp [outcome])
  · exact absurd hacc (by simp [outcome])
  · exact absurd hacc (by simp [outcome])

/-- **An accepted request with a request line**: what `parse` made of the first line and of the
    header lines, and the memory that it left. -/
structure Accepted (env : Env) (inp : Bytes) (h : HTTP) where
  idx : ℕ
  /-- the fields after the first line -/
  start : HTTP
  /-- the fields after the headers -/
  head : HTTP
  /-- the header lines as they are rewritten -/
  lines : List Bytes
  found : index? (crlf ++ crlf) inp = some idx
  block : inp.take (idx + 4) = firstLine inp ++ crlf ++ joinLines (rawLines inp) ++ crlf
  first : NoCrlf (firstLine inp)
  rest : ∀ m ∈ rawLines inp, NoCrlf m ∧ m ≠ []
  request : parseFirstLine env { data := inp.take (idx + 4), hdrLen :=
    (inp.take (idx + 4)).length % 2 ^ 32 }
    (firstLine inp) = .ok (start, decodeTarget (firstLine inp))
  headers : parseHeaders env start (rawLines inp) = .ok (head, lines)
  buf : (process env {} inp).buf
    = decodeTarget (firstLine inp) ++ crlf ++ joinLines lines ++ crlf ++ inp.drop (idx + 4)
  result : (head.bodyLen = 0 ∧
      h = { head with data := decodeTarget (firstLine inp) ++ crlf ++ joinLines lines ++ crlf }) ∨
    (head.bodyLen ≠ 0 ∧ (head.hdrLen + head.bodyLen) % 2 ^ 32 ≤ (process env {} inp).buf.length ∧
      h = { head with data :=
      (process env {} inp).buf.take ((head.hdrLen + head.bodyLen) % 2 ^ 32) })

/-- Acceptance, taken apart: every accepted request with a request line has gone through the first
    line, the header lines and the body. -/
theorem accepted_of_http (hacc : callOnce env inp = .http h) (hfirst : firstLine inp ≠ []) :
    Nonempty (Accepted env inp h) := by
  obtain ⟨idx, h', hi, hp, hbuf, hcase⟩ := process_eq_http hacc
  obtain ⟨l, ls, hblock, hl, hls⟩ := exists_lines_of_index? hi
  have hinp : inp = l ++ crlf ++ joinLines ls ++ crlf ++ inp.drop (idx + 4) := by
    rw [← hblock, List.take_append_drop]
  obtain ⟨hf, hraw⟩ := rawLines_eq hl hls (inp.drop (idx + 4))
  rw [← hinp] at hf hraw
  rw [hf] at hfirst
  rw [parse_eq env _ hl hls hblock, if_neg hfirst, Ret.bind_eq_ok] at hp
  obtain ⟨⟨h₁, l'⟩, he₁, hp⟩ := hp
  rw [Ret.bind_eq_ok] at hp
  obtain ⟨⟨h₂, ls'⟩, he₂, hp⟩ := hp
  simp only [Ret.ok.injEq] at hp
  subst hp
  obtain ⟨rfl, -⟩ := parseFirstLine_eq_ok he₁
  subst hf hraw
  refine ⟨⟨idx, h₁, h₂, ls', hi, hblock, hl, hls, he₁, he₂, hbuf, ?_⟩⟩
  rw [hbuf]
  exact hcase

namespace Accepted

/-- The rewritten block is as long as the received one, so the body stands where it stood. -/
theorem length_eq (A : Accepted env inp h) :
    (decodeTarget (firstLine inp) ++ crlf ++ joinLines A.lines ++ crlf).length = A.idx + 4 := by
  have hlen := congrArg List.length A.block
  have hle := index?_le (by simp [crlf]) A.found
  have hjoin := parseHeaders_length A.headers
  rw [List.length_take, Nat.min_eq_left (by simpa using hle)] at hlen
  rw [hlen]
  simp only [List.length_append, parseFirstLine_length A.request, hjoin]

/-- A request line has a space. -/
theorem firstLine_ne_nil (A : Accepted env inp h) : firstLine inp ≠ [] := by
  obtain ⟨-, ⟨i, hi⟩, -, -⟩ := parseFirstLine_eq_ok A.request
  exact List.ne_nil_of_length_pos (Nat.zero_lt_of_lt (indexByte?_lt hi))

/-- The block ends where it was found to end. -/
theorem idx_eq (A : Accepted env inp h) : A.idx + 4 = blockLength inp := by
  have hle := index?_le (by simp [crlf]) A.found
  rw [List.length_append, crlf_length] at hle
  rw [blockLength, ← A.block, List.length_take, Nat.min_eq_left (by omega)]

/-- The header lines in the memory are the received ones with their names in lower case. -/
theorem lines_eq (A : Accepted env inp h) : A.lines = (rawLines inp).map lowerName :=
  parseHeaders_lowerName A.headers

/-- `hdrLen` is the length of the block in 32 bits. -/
theorem hdrLen_eq (A : Accepted env inp h) : A.head.hdrLen = blockLength inp % 2 ^ 32 := by
  rw [(parseHeaders_lengths A.headers).1, (parseFirstLine_eq_ok A.request).2.2.1,
    blockLength, ← A.block]

/-- `bodyLen` is the announced length. -/
theorem bodyLen_eq (A : Accepted env inp h) : A.head.bodyLen = announcedLength inp := by
  obtain ⟨-, hsome, hnone⟩ := parseHeaders_lengths A.headers
  unfold announcedLength rawHeaders
  split
  · rename_i v hv
    obtain ⟨cl, hcl, -, -, hbody⟩ := hsome v hv
    rw [hbody, hcl]
  · rename_i hv
    rw [hnone hv, (parseFirstLine_eq_ok A.request).2.2.2]

/-- No more than the limit is announced. -/
theorem announced_le (A : Accepted env inp h) (hpos : announcedLength inp ≠ 0) :
    (announcedLength inp : ℤ) ≤ env.requestMaxBytes := by
  obtain ⟨-, hsome, hnone⟩ := parseHeaders_lengths A.headers
  rw [← A.bodyLen_eq] at hpos ⊢
  cases hv : contentLength? ((rawLines inp).map rawHeader) with
  | some v =>
    obtain ⟨cl, -, hcl, hle, hbody⟩ := hsome v hv
    omega
  | none =>
    rw [hnone hv, (parseFirstLine_eq_ok A.request).2.2.2] at hpos
    exact absurd rfl hpos

/-- The buffer behind the call, from the received bytes alone. -/
theorem buf_eq (A : Accepted env inp h) : (process env {} inp).buf = rewritten inp := by
  rw [A.buf, rewritten, if_neg A.firstLine_ne_nil, A.lines_eq, A.idx_eq]

/-- The memory, and that all of it is there. -/
theorem memory (A : Accepted env inp h) :
    h.data = requestData inp ∧ requestLength inp ≤ (rewritten inp).length := by
  have hblock := A.length_eq
  rw [A.idx_eq] at hblock
  unfold requestData requestLength
  rcases A.result with ⟨hzero, hh⟩ | ⟨hpos, hfull, hh⟩
  · have hdata : h.data = _ := congrArg HTTP.data hh
    rw [A.bodyLen_eq] at hzero
    rw [if_pos (.inr hzero), hdata, ← A.buf_eq, A.buf, ← hblock, List.take_left]
    exact ⟨rfl, (List.prefix_append _ _).length_le⟩
  · have hdata : h.data = _ := congrArg HTTP.data hh
    rw [A.hdrLen_eq, A.bodyLen_eq, A.buf_eq, Nat.mod_add_mod] at hdata hfull
    rw [A.bodyLen_eq] at hpos
    rw [if_neg (by simp [A.firstLine_ne_nil, hpos])]
    exact ⟨hdata, hfull⟩

/-- The memory of the request begins where the buffer begins. -/
theorem data_prefix (A : Accepted env inp h) : h.data <+: (process env {} inp).buf := by
  rw [A.memory.1, A.buf_eq]
  exact List.take_prefix _ _

/-- Within the limits the memory is not cut. -/
theorem whole (A : Accepted env inp h) (hmax : env.requestMaxBytes < 2 ^ 31)
    (hlen : inp.length < 2 ^ 31) : Whole inp := by
  have hblock := A.idx_eq
  have hle := index?_le (by simp [crlf]) A.found
  rw [List.length_append, crlf_length] at hle
  unfold Whole requestLength
  split
  · exact le_rfl
  · rename_i hpos
    have hbody := A.announced_le fun hzero => hpos (.inr hzero)
    omega

end Accepted

/-- Behind an empty first line nothing is read. -/
theorem accepted_empty (hacc : callOnce env inp = .http h) (hfirst : firstLine inp = []) :
    h = { data := inp.take (blockLength inp), hdrLen := blockLength inp % 2 ^ 32 } ∧
      (process env {} inp).buf = inp ∧ blockLength inp ≤ inp.length := by
  obtain ⟨idx, h', hi, hp, hbuf, hcase⟩ := process_eq_http hacc
  obtain ⟨l, ls, hblock, hl, hls⟩ := exists_lines_of_index? hi
  have hinp : inp = l ++ crlf ++ joinLines ls ++ crlf ++ inp.drop (idx + 4) := by
    rw [← hblock, List.take_append_drop]
  obtain ⟨hf, hraw⟩ := rawLines_eq hl hls (inp.drop (idx + 4))
  rw [← hinp] at hf hraw
  have hlen : blockLength inp = (inp.take (idx + 4)).length := by rw [blockLength, hf, hraw, hblock]
  have hidx : blockLength inp = idx + 4 := by
    have hle := index?_le (by simp [crlf]) hi
    rw [List.length_append, crlf_length] at hle
    rw [hlen, List.length_take, Nat.min_eq_left (by omega)]
  rw [parse_eq env _ hl hls hblock, if_pos (hf.symm.trans hfirst), Ret.ok.injEq] at hp
  subst hp
  rcases hcase with ⟨-, rfl⟩ | ⟨hpos, -⟩
  · refine ⟨?_, ?_, ?_⟩
    · show ({ data := inp.take (idx + 4),
              hdrLen := (inp.take (idx + 4)).length % 2 ^ 32 } : HTTP) = _
      rw [← hlen, hidx]
    · rw [hbuf, List.take_append_drop]
    · rw [hlen]
      exact (List.take_prefix _ _).length_le
  · exact absurd rfl hpos

/-- **The memory of an accepted request**, and the buffer that it is the begin of. -/
theorem accepted_data (hacc : callOnce env inp = .http h) :
    h.data = requestData inp ∧ (process env {} inp).buf = rewritten inp ∧
      requestLength inp ≤ (rewritten inp).length := by
  by_cases hfirst : firstLine inp = []
  · obtain ⟨rfl, hbuf, hle⟩ := accepted_empty hacc hfirst
    rw [requestData, requestLength, if_pos (.inl hfirst), rewritten, if_pos hfirst]
    exact ⟨rfl, hbuf, hle⟩
  · obtain ⟨A⟩ := accepted_of_http hacc hfirst
    exact ⟨A.memory.1, A.buf_eq, A.memory.2⟩

/-- The length of the memory, from the received bytes alone; where the sum of the two lengths wraps,
    it is shorter than the block. -/
theorem data_length (hacc : callOnce env inp = .http h) : h.data.length = requestLength inp := by
  obtain ⟨hdata, -, hle⟩ := accepted_data hacc
  rw [hdata, requestData, List.length_take, Nat.min_eq_left hle]

/-- **Within the limits** the memory of a request is not cut. -/
theorem whole_of_http (hmax : env.requestMaxBytes < 2 ^ 31) (hlen : inp.length < 2 ^ 31)
    (hacc : callOnce env inp = .http h) : Whole inp := by
  by_cases hfirst : firstLine inp = []
  · exact le_of_eq (if_pos (.inl hfirst)).symm
  · obtain ⟨A⟩ := accepted_of_http hacc hfirst
    exact A.whole hmax hlen

end Accepted

end Resh.Server
