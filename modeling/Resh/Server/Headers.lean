import Resh.Server.Memory

namespace Resh.Server

open Resh.Go Resh.Incremental

/-!
# The headers of an accepted request

`parse` decodes the path of the request target in the memory that `ForeachHeader` scans again.
Percent escapes can put CR LF there, and the scan then takes a part of the first line for header
lines, or stops in it at an empty one.

* `reported` — the headers that the scan hands out behind a given first line;
* `scan_accepted` — so it does on every accepted request that is not cut;
* `HeadersKept` — the lines that decoding adds behind the request line leave the headers as they
  are; and for a request that is cut, so do the lines that are left;
* `headers_iff` — the scan reports the received headers exactly then.
-/

/-- The lines that decoding adds behind the request line. -/
def addedLines (inp : Bytes) : List Bytes := (splitCrlf (decodeTarget (firstLine inp))).drop 1

/-- The added lines leave the headers as they are: they hold no empty line and no header, or,
    up to their first empty line, just the received headers. -/
def HeadersIntact (inp : Bytes) : Prop :=
  if [] ∈ addedLines inp then
    ((addedLines inp).takeWhile (· ≠ [])).filterMap headerOf = rawHeaders inp
  else (addedLines inp).filterMap headerOf = []

instance (inp : Bytes) : Decidable (HeadersIntact inp) :=
  inferInstanceAs (Decidable (if [] ∈ addedLines inp then
    ((addedLines inp).takeWhile (· ≠ [])).filterMap headerOf = rawHeaders inp
    else (addedLines inp).filterMap headerOf = []))

/-- The lines behind the first one that are left of a request. -/
def cutLines (inp : Bytes) : List Bytes := (splitCrlf (requestData inp)).drop 1

/-- **The headers are kept**: the added lines leave them as they are; or, where the sum of the two
    lengths wraps and cuts the header block, the lines that are left hold an empty one, and in front
    of it just the received headers. -/
def HeadersKept (inp : Bytes) : Prop :=
  if Whole inp then HeadersIntact inp
  else [] ∈ cutLines inp ∧ ((cutLines inp).takeWhile (· ≠ [])).filterMap headerOf = rawHeaders inp

instance (inp : Bytes) : Decidable (HeadersKept inp) :=
  inferInstanceAs (Decidable (if Whole inp then HeadersIntact inp
    else [] ∈ cutLines inp ∧ ((cutLines inp).takeWhile (· ≠ [])).filterMap headerOf
      = rawHeaders inp))

/-! ### The scan of a header block -/

/-- The headers that the scan reports behind the first line `line`: those of the lines behind its
    first piece up to an empty one, and if there is none, the headers of the block as well. -/
def reported (line : Bytes) (headers : List (Bytes × Bytes)) : List (Bytes × Bytes) :=
  let added := (splitCrlf line).drop 1
  if [] ∈ added then (added.takeWhile (· ≠ [])).filterMap headerOf
  else added.filterMap headerOf ++ headers

theorem headersIntact_iff (inp : Bytes) :
    HeadersIntact inp ↔ reported (decodeTarget (firstLine inp)) (rawHeaders inp)
      = rawHeaders inp := by
  show (if [] ∈ addedLines inp then _ else _) ↔ (if [] ∈ addedLines inp then _ else _) = _
  split
  · rfl
  · exact List.append_left_eq_self.symm

/-- A text that begins as a received line, up to its first space, does not begin with a line end. -/
theorem not_crlf_start {l u : Bytes} {i : ℕ} (hl : NoCrlf l) (hi : indexByte? (ch ' ') l = some i)
    (hkeep : u.take (i + 1) = l.take (i + 1)) : u ≠ [] ∧ ¬ crlf <+: u := by
  have hlt := indexByte?_lt hi
  have hget : ∀ j < i + 1, u[j]? = l[j]? := by
    intro j hj
    rw [← List.getElem?_take_of_lt hj, hkeep, List.getElem?_take_of_lt hj]
  constructor
  · rintro rfl
    have hlen := congrArg List.length hkeep
    rw [List.take_nil, List.length_nil, List.length_take] at hlen
    omega
  · intro hpre
    obtain ⟨hcr, hlf⟩ := (crlf_prefix_drop_iff u 0).mp hpre
    rw [hget 0 (by omega)] at hcr
    cases i with
    | zero =>
      -- the line begins with the space itself
      rw [indexByte?_get hi] at hcr
      exact absurd hcr (by decide)
    | succ k =>
      rw [hget 1 (by omega)] at hlf
      exact hl ((crlf_infix_iff l).mpr ⟨0, hcr, hlf⟩)

/-- The first piece of a text is empty only if the text is, or begins with a line end. -/
theorem splitCrlf_first {u : Bytes} (hne : u ≠ []) (hstart : ¬ crlf <+: u) :
    ∃ p, p ≠ [] ∧ splitCrlf u = p :: (splitCrlf u).drop 1 := by
  cases hi : index? crlf u with
  | none => exact ⟨u, hne, by rw [splitCrlf_of_noCrlf ((noCrlf_iff _).mpr hi)]; rfl⟩
  | some j =>
    refine ⟨u.take j, ?_, by rw [splitCrlf_of_index? hi]; rfl⟩
    cases j with
    | zero => exact absurd (by simpa using ((index?_eq_some_iff _ _ _).mp hi).1) hstart
    | succ j => simpa using hne

/-- **The scan of a header block**, whatever its first line holds. -/
theorem scan_block {u p : Bytes} {ls : List Bytes} (hls : ∀ m ∈ ls, NoCrlf m ∧ m ≠ []) (hp : p ≠ [])
    (hsplit : splitCrlf u = p :: (splitCrlf u).drop 1) (body : Bytes) :
    scan (u ++ crlf ++ joinLines ls ++ crlf ++ body)
      = (reported u (ls.filterMap headerOf), true) := by
  rw [scan, splitCrlf_block u (fun m hm => (hls m hm).1), hsplit, List.cons_append]
  simp only [if_neg hp]
  rw [if_neg (by simp), scanLines_eq (by simp)]
  congr 1
  show _ = if [] ∈ (splitCrlf u).drop 1 then _ else _
  split
  · rename_i hmem
    rw [List.takeWhile_append, if_neg]
    intro hall
    have heq : ((splitCrlf u).drop 1).takeWhile (· ≠ []) = (splitCrlf u).drop 1 :=
      (List.takeWhile_prefix _).eq_of_length hall
    rw [← heq] at hmem
    exact absurd (List.mem_takeWhile_imp hmem) (by simp)
  · rename_i hmem
    have hpos : ∀ m ∈ (splitCrlf u).drop 1, decide (m ≠ []) = true := fun m hm => by
      simpa using fun hnil : m = [] => hmem (hnil ▸ hm)
    rw [List.takeWhile_append_of_pos hpos,
      List.takeWhile_append_of_pos fun m hm => by simpa using (hls m hm).2]
    simp

/-! ### The scan of an accepted request -/

section Accepted

variable {env : Env} {inp : Bytes} {h : HTTP}

namespace Accepted

/-- The header lines as they stand in the memory. -/
theorem lines_spec (A : Accepted env inp h) :
    ((rawLines inp).map lowerName).filterMap headerOf = rawHeaders inp ∧
      ∀ m ∈ (rawLines inp).map lowerName, NoCrlf m ∧ m ≠ [] := by
  rw [← A.lines_eq]
  exact parseHeaders_headerOf A.headers fun m hm => (A.rest m hm).1

/-- Up to its first space the first line is as it was received. -/
theorem take_decodeTarget (A : Accepted env inp h) :
    ∃ i, indexByte? (ch ' ') (firstLine inp) = some i ∧
    (decodeTarget (firstLine inp)).take (i + 1) = (firstLine inp).take (i + 1) := by
  obtain ⟨-, ⟨i, hi⟩, -, -⟩ := parseFirstLine_eq_ok A.request
  have hlt := indexByte?_lt hi
  refine ⟨i, hi, ?_⟩
  unfold decodeTarget
  rw [hi]
  split
  · rename_i i₀ i₁ hi₀ _
    obtain rfl : i = i₀ := by simpa using hi₀
    rw [splice, List.append_assoc, List.take_append_of_le_length (by rw [List.length_take]; omega),
      List.take_take, Nat.min_self]
  · rfl

end Accepted

/-- The memory of a request that is not cut: the decoded first line, the header lines with their
    names lower-cased, the empty line and the body. -/
theorem requestData_whole (hw : Whole inp) (hfirst : firstLine inp ≠ [])
    (hlen : (decodeTarget (firstLine inp) ++ crlf
      ++ joinLines ((rawLines inp).map lowerName) ++ crlf).length = blockLength inp) :
    requestData inp = decodeTarget (firstLine inp) ++ crlf
      ++ joinLines ((rawLines inp).map lowerName) ++ crlf
      ++ (inp.drop (blockLength inp)).take (announcedLength inp) := by
  rw [requestData, rewritten, if_neg hfirst, hw.length_eq hfirst,
    ← hlen, List.take_length_add_append]

/-- **The scan of an accepted request** that is not cut. -/
theorem scan_accepted (hw : Whole inp) (hacc : callOnce env inp = .http h)
    (hfirst : firstLine inp ≠ []) :
    scan h.data = (reported (decodeTarget (firstLine inp)) (rawHeaders inp), true) := by
  obtain ⟨A⟩ := accepted_of_http hacc hfirst
  obtain ⟨i, hi, hkeep⟩ := A.take_decodeTarget
  obtain ⟨hne, hstart⟩ := not_crlf_start A.first hi hkeep
  obtain ⟨p, hp, hsplit⟩ := splitCrlf_first hne hstart
  obtain ⟨hheads, hall⟩ := A.lines_spec
  have hlen := A.length_eq
  rw [A.lines_eq, A.idx_eq] at hlen
  rw [A.memory.1, requestData_whole hw hfirst hlen, scan_block hall hp hsplit, hheads]

/-- The memory of an accepted request does not begin with a line end. -/
theorem Accepted.not_crlf_start (A : Accepted env inp h) : ¬ crlf <+: requestData inp := by
  obtain ⟨i, hi, hkeep⟩ := A.take_decodeTarget
  have hlt : i + 1 ≤ (decodeTarget (firstLine inp)).length := by
    have := indexByte?_lt hi
    rw [parseFirstLine_length A.request]
    omega
  have hrew : (rewritten inp).take (i + 1) = (firstLine inp).take (i + 1) := by
    rw [rewritten, if_neg A.firstLine_ne_nil]
    simp only [List.append_assoc]
    rw [List.take_append_of_le_length hlt, hkeep]
  exact fun hpre => (Server.not_crlf_start A.first hi hrew).2 (hpre.trans (List.take_prefix _ _))

/-- **The scan of a request that is cut** ends within its headers, or finds no line end. -/
theorem headers_cut (hw : ¬ Whole inp) (hacc : callOnce env inp = .http h)
    (hfirst : firstLine inp ≠ []) : scan h.data = (rawHeaders inp, true) ↔
      [] ∈ cutLines inp ∧ ((cutLines inp).takeWhile (· ≠ [])).filterMap headerOf
        = rawHeaders inp := by
  obtain ⟨A⟩ := accepted_of_http hacc hfirst
  -- a body is announced, so there is a header
  have hraw : rawHeaders inp ≠ [] := by
    intro hnil
    refine hw (le_of_eq ?_)
    rw [requestLength, announcedLength, hnil]
    exact (if_pos (.inr rfl)).symm
  rw [A.memory.1, cutLines, scan]
  cases hsplit : splitCrlf (requestData inp) with
  | nil => exact absurd hsplit (splitCrlf_ne_nil _)
  | cons p ps =>
    rw [List.drop_succ_cons, List.drop_zero]
    by_cases hp : p = []
    · -- it does not begin with a line end, so nothing is left of it
      have hnil : requestData inp = [] := by
        by_contra hne
        obtain ⟨p', hp', hfirst'⟩ := splitCrlf_first hne A.not_crlf_start
        rw [hsplit, List.cons.injEq] at hfirst'
        exact hp' (hfirst'.1 ▸ hp)
      rw [hnil] at hsplit
      have hps : ps = [] := (List.cons.inj hsplit).2.symm
      simp [hp, hps, hraw.symm]
    · by_cases hps : ps = []
      · simp [hp, hps, hraw.symm]
      · simp only [if_neg hp, if_neg hps]
        constructor
        · intro heq
          have hmem : [] ∈ ps := by simpa [scanLines] using congrArg Prod.snd heq
          rw [scanLines_eq hmem] at heq
          exact ⟨hmem, congrArg Prod.fst heq⟩
        · rintro ⟨hmem, heq⟩
          rw [scanLines_eq hmem, heq]

end Accepted

/-! ### When the headers are reported as received -/

/-- **Headers as received.** For every accepted stream, however it was cut into reads: the scan
    reports exactly the received headers, and `GetHeader` looks them up, iff the decoded target, and
    the cut of a request that is too long for its lengths, leave them as they are.  Within the
    limits no request is cut. -/
theorem headers_iff (env : Env) (reads : List Bytes) (h : HTTP)
    (hacc : callReads env reads = .http h) (hfirst : firstLine reads.flatten ≠ []) :
    ((h.headers = some (rawHeaders reads.flatten) ∧
      ∀ key, h.getHeader key
        = some ((((rawHeaders reads.flatten).find? (·.1 = key)).map (·.2)).getD [])) ↔
      HeadersKept reads.flatten) ∧
    (env.requestMaxBytes < 2 ^ 31 → (reads.flatten.length : ℤ) ≤ env.requestMaxBytes →
      (HeadersKept reads.flatten ↔ HeadersIntact reads.flatten)) := by
  rw [callReads_eq_flatten] at hacc
  constructor
  · have hkept : HeadersKept reads.flatten ↔ scan h.data = (rawHeaders reads.flatten, true) := by
      unfold HeadersKept
      split
      · rename_i hw
        rw [scan_accepted hw hacc hfirst, headersIntact_iff, Prod.mk.injEq, and_iff_left rfl]
      · rename_i hw
        exact (headers_cut hw hacc hfirst).symm
    rw [hkept]
    constructor
    · rintro ⟨hheaders, -⟩
      rw [headers_eq] at hheaders
      split at hheaders
      · exact Prod.ext (Option.some.inj hheaders) (by assumption)
      · cases hheaders
    · intro hscan
      rw [headers_eq, hscan]
      refine ⟨rfl, fun key => ?_⟩
      rw [HTTP.getHeader, foreachHeader_eq, hscan, replay_true, visit_lookup]
  · intro hmax hlen
    have hw : Whole reads.flatten := whole_of_http hmax (by omega) hacc
    unfold HeadersKept
    rw [if_pos hw]

/-- An ordinary request with an escape in its target. -/
theorem headers_iff_get :
    ∃ h, callReads .plain [ascii "GET /%20 HTTP/1.1\r\nHo", ascii "st: x \r\n\r\n"] = .http h ∧
      h.headers = some [(ascii "host", ascii "x")] := by
  have hacc : callReads .plain [ascii "GET /%20 HTTP/1.1\r\nHo", ascii "st: x \r\n\r\n"] = .http
      { host := ascii "x", path := ascii "/ ", hdrLen := 31,
        data := ascii "GET / 20 HTTP/1.1\r\nhost: x \r\n\r\n" } := by decide +kernel
  have hraw : rawHeaders [ascii "GET /%20 HTTP/1.1\r\nHo", ascii "st: x \r\n\r\n"].flatten
      = [(ascii "host", ascii "x")] := by decide +kernel
  refine ⟨_, hacc, ?_⟩
  rw [← hraw]
  exact ((headers_iff .plain [ascii "GET /%20 HTTP/1.1\r\nHo", ascii "st: x \r\n\r\n"] _ hacc
    (by decide +kernel)).1.mpr (by decide +kernel)).1

/-- One escaped CR LF in the target gives the request a header that was not sent; two of them
    hide the one that was. -/
theorem target_forges_header :
    (∃ h, callOnce .plain (ascii "GET /%0d%0aX:1 HTTP/1.1\r\nHost: a\r\n\r\n") = .http h ∧
      rawHeaders (ascii "GET /%0d%0aX:1 HTTP/1.1\r\nHost: a\r\n\r\n")
        = [(ascii "host", ascii "a")] ∧
      h.headers = some [(ascii "X", ascii "1aX:1 HTTP/1.1"), (ascii "host", ascii "a")]) ∧
    ∃ h, callOnce .plain (ascii "GET /%0d%0a%0d%0a HTTP/1.1\r\nHost: a\r\n\r\n") = .http h ∧
      rawHeaders (ascii "GET /%0d%0a%0d%0a HTTP/1.1\r\nHost: a\r\n\r\n")
        = [(ascii "host", ascii "a")] ∧
      h.headers = some [] ∧ h.getHeader (ascii "host") = some [] := by
  constructor
  · exact ⟨{ host := ascii "a", path := ascii "/\r\nX:1", hdrLen := 36,
             data := ascii "GET /\r\nX:1aX:1 HTTP/1.1\r\nhost: a\r\n\r\n" },
      by decide +kernel, by decide +kernel, by decide +kernel⟩
  · exact ⟨{ host := ascii "a", path := ascii "/\r\n\r\n", hdrLen := 39,
             data := ascii "GET /\r\n\r\n0a%0d%0a HTTP/1.1\r\nhost: a\r\n\r\n" },
      by decide +kernel, by decide +kernel, by decide +kernel, by decide +kernel⟩

end Resh.Server
