import Resh.Server.Unescape
import Resh.Server.Util

namespace Resh.Server

open Resh.Go

/-!
# http.go — the request head

`HTTP.parse` scans the header block line by line and rewrites it in place: the path part of the
request target is percent-decoded inside the first line, the header names are lower-cased.

* `parseLoop` — the loop by offset into the memory, as in the source.  A missing CR LF
  (`bytes.Index = -1`) makes its slice expression panic;
* `parseHeaders` — the same loop by recursion on the list of lines;
* `parse_eq` — on a header block the loop is that recursion: each line is rewritten where it
  stands, with its length kept, and nothing else is touched.

`url.Parse` and the variable `RequestMaxBytes` are parameters (`Env`).
-/

/-- What the parser takes from outside: `RequestMaxBytes`, and `url.Parse` as the pair
    `(u.Path, u.Host)` or the text of its error. -/
structure Env where
  requestMaxBytes : ℤ
  urlParse : Bytes → Except Bytes (Bytes × Bytes)

/-- The default limit; for inputs on which `url.Parse` is not called. -/
def Env.plain : Env := { requestMaxBytes := 1 * 1024 * 1024, urlParse := fun _ => .error [] }

/-- The fields of `HTTP` that the parser fills.  `hdrLen` and `bodyLen` are `uint32`, `qStart`
    and `qEnd` are `uint16`. -/
structure HTTP where
  host : Bytes := []
  path : Bytes := []
  data : Bytes := []
  qStart : ℕ := 0
  qEnd : ℕ := 0
  hdrLen : ℕ := 0
  bodyLen : ℕ := 0
  wsUpgrade : Bool := false
  deriving DecidableEq, Repr

/-! ### The lines of `parse` -/

/-- The end of the first-line case: decode the path, which stands at `off` in the line. -/
def parsePath (env : Env) (h : HTTP) (line : Bytes) (off : ℕ) (uri : Bytes) :
    Ret Err (HTTP × Bytes) := do
  let (s, x) ← .ofOption (unescapeInplace uri false)
  let line := splice line off s
  let path := s.take x
  if path.head? = some (ch '/') then .ok ({ h with path := path }, line)
  else match env.urlParse path with
    | .error cause => .fail (.path line cause)
    | .ok (uPath, uHost) => .ok ({ h with path := uPath, host := uHost }, line)

/-- `<Method><WS><Path><WS><Version>`: the new fields and the rewritten line. -/
def parseFirstLine (env : Env) (h : HTTP) (line : Bytes) : Ret Err (HTTP × Bytes) :=
  match indexByte? (ch ' ') line, lastIndexByte? (ch ' ') line with
  | some idx0, some idx1 =>
    if idx0 = idx1 ∨ idx1 > 0xffff then .fail (.firstLine line)
    else do
      let uri ← .ofOption (slice? line (idx0 + 1 : ℕ) idx1)
      match indexByte? (ch '?') uri with
      | some q =>
        parsePath env { h with qStart := (idx0 + 1 + q + 1) % 2 ^ 16, qEnd := idx1 % 2 ^ 16 }
          line (idx0 + 1) (uri.take q)
      | none => parsePath env h line (idx0 + 1) uri
  | _, _ => .fail (.firstLine line)

/-- The loop that lower-cases a header name, up to a colon. -/
def lowerKey : Bytes → Bytes
  | [] => []
  | c :: s => if c = ch ':' then c :: s else lower c :: lowerKey s

/-- A header line: the new fields and the rewritten line. -/
def parseHeader (env : Env) (h : HTTP) (line : Bytes) : Ret Err (HTTP × Bytes) :=
  match indexByte? (ch ':') line with
  | none | some 0 => .fail (.header line)
  | some (i + 1) =>
    let idx := i + 1
    let key := lowerKey (line.take idx)
    let value := trimSpace (line.drop (idx + 1))
    let line := key ++ line.drop idx
    if key = ascii "upgrade" then
      .ok ({ h with wsUpgrade := equalFold value (ascii "websocket") }, line)
    else if key = ascii "host" then .ok ({ h with host := value }, line)
    else if key = ascii "content-length" then
      let (cl, err) := atoi value
      if cl > env.requestMaxBytes ∨ cl < 0 ∨ err ≠ none then .fail (.contentLength value)
      else .ok ({ h with bodyLen := (cl % 2 ^ 32).toNat }, line)
    else .ok (h, line)

/-- One line: the first one is the request line. -/
def parseLine (env : Env) (start : ℕ) (h : HTTP) (line : Bytes) : Ret Err (HTTP × Bytes) :=
  if start = 0 then parseFirstLine env h line else parseHeader env h line

/-! ### `HTTP.parse` -/

/-- The loop of `parse` at offset `start` of the memory `data`; `n` bounds the rounds. -/
def parseLoop (env : Env) : ℕ → ℕ → Bytes → HTTP → Ret Err (HTTP × Bytes)
  | 0, _, _, _ => .panic
  | n + 1, start, data, h =>
    if start < data.length then
      match index? crlf (data.drop start) with
      | none => .panic
      | some 0 => .ok (h, data)
      | some (i + 1) => do
        let idx := i + 1
        let (h, line) ← parseLine env start h ((data.drop start).take idx)
        parseLoop env n (start + idx + 2) (splice data start line) h
    else .ok (h, data)

/-- `HTTP.parse`. -/
def HTTP.parse (env : Env) (h : HTTP) : Ret Err HTTP := do
  let (h', data) ← parseLoop env (h.data.length + 1) 0 h.data
    { h with hdrLen := h.data.length % 2 ^ 32 }
  .ok { h' with data := data }

/-! ### The loop by lines -/

/-- `parseHeader` down a list of lines. -/
def parseHeaders (env : Env) (h : HTTP) : List Bytes → Ret Err (HTTP × List Bytes)
  | [] => .ok (h, [])
  | l :: ls => do
    let (h₁, l') ← parseHeader env h l
    let (h₂, ls') ← parseHeaders env h₁ ls
    .ok (h₂, l' :: ls')

/-- The first header line and the ones behind it. -/
theorem parseHeaders_cons {env : Env} {h h' : HTTP} {l : Bytes} {ls ls' : List Bytes} :
    parseHeaders env h (l :: ls) = .ok (h', ls') ↔ ∃ h₁ l₁ ls₂, parseHeader env h l = .ok (h₁, l₁) ∧
      parseHeaders env h₁ ls = .ok (h', ls₂) ∧ ls' = l₁ :: ls₂ := by
  simp only [parseHeaders, Ret.bind_eq_ok, Prod.exists, Ret.ok.injEq, Prod.mk.injEq]
  constructor
  · rintro ⟨h₁, l₁, he₁, h₂, ls₂, he₂, rfl, rfl⟩
    exact ⟨h₁, l₁, ls₂, he₁, he₂, rfl⟩
  · rintro ⟨h₁, l₁, ls₂, he₁, he₂, rfl⟩
    exact ⟨h₁, l₁, he₁, h', ls₂, he₂, rfl, rfl⟩

/-- A name keeps its length. -/
theorem lowerKey_length (s : Bytes) : (lowerKey s).length = s.length := by
  induction s with
  | nil => rfl
  | cons c s ih =>
    rw [lowerKey]
    split
    · rfl
    · simp [ih]

/-- **A rewritten header line** keeps its length; it is the line with the name lower-cased. -/
theorem parseHeader_eq_ok {env : Env} {h h' : HTTP} {l l' : Bytes}
    (he : parseHeader env h l = .ok (h', l')) :
    ∃ i, indexByte? (ch ':') l = some (i + 1) ∧ l' = lowerKey (l.take (i + 1))
      ++ l.drop (i + 1) := by
  unfold parseHeader at he
  split at he
  · exact absurd he (by simp)
  · exact absurd he (by simp)
  · rename_i i hi
    refine ⟨i, hi, ?_⟩
    simp only at he
    split at he
    · simp only [Ret.ok.injEq, Prod.mk.injEq] at he; exact he.2.symm
    split at he
    · simp only [Ret.ok.injEq, Prod.mk.injEq] at he; exact he.2.symm
    split at he
    · split at he
      · exact absurd he (by simp)
      · simp only [Ret.ok.injEq, Prod.mk.injEq] at he; exact he.2.symm
    · simp only [Ret.ok.injEq, Prod.mk.injEq] at he; exact he.2.symm

/-- A header line keeps its length. -/
theorem parseHeader_length {env : Env} {h h' : HTTP} {l l' : Bytes}
    (he : parseHeader env h l = .ok (h', l')) : l'.length = l.length := by
  obtain ⟨i, hi, rfl⟩ := parseHeader_eq_ok he
  have hlt := indexByte?_lt hi
  rw [List.length_append, lowerKey_length, List.length_take, List.length_drop]
  omega

/-- **The end of the first-line case**: the decoded path stands over the begin of the URI, and the
    path and the host are set. -/
theorem parsePath_inv {env : Env} {h h' : HTTP} {l l' uri : Bytes} {off : ℕ}
    (he : parsePath env h l off uri = .ok (h', l')) :
    l' = splice l off (unescape uri false ++ uri.drop (unescape uri false).length) ∧
      ∃ path host, h' = { h with path := path, host := host } ∧
        ((unescape uri false).head? = some (ch '/') → path = unescape uri false) := by
  unfold parsePath at he
  simp only [unescapeInplace_eq, Ret.ofOption_some, Ret.ok_bind, List.take_left'] at he
  split at he
  · simp only [Ret.ok.injEq, Prod.mk.injEq] at he
    exact ⟨he.2.symm, _, _, he.1.symm, fun _ => rfl⟩
  · rename_i hhead
    split at he
    · exact absurd he (by simp)
    · simp only [Ret.ok.injEq, Prod.mk.injEq] at he
      exact ⟨he.2.symm, _, _, he.1.symm, fun hslash => absurd hslash hhead⟩

/-- The request line keeps its length: the decoded path is no longer than the path, and the old
    bytes stay behind it. -/
theorem parsePath_length {env : Env} {h h' : HTTP} {l l' uri : Bytes} {off : ℕ}
    (hoff : off + uri.length ≤ l.length) (he : parsePath env h l off uri = .ok (h', l')) :
    l'.length = l.length := by
  rw [(parsePath_inv he).1]
  apply splice_length
  rw [overwritten_length (unescape_length_le uri false)]
  exact hoff

/-- **The first-line case**: two spaces, and the URI between them up to its `?`. -/
theorem parseFirstLine_inv {env : Env} {h h' : HTTP} {l l' : Bytes}
    (he : parseFirstLine env h l = .ok (h', l')) :
    ∃ idx0 idx1, indexByte? (ch ' ') l = some idx0 ∧ lastIndexByte? (ch ' ') l = some idx1 ∧
      idx0 < idx1 ∧ idx1 ≤ 0xffff ∧
      ((∃ q, indexByte? (ch '?') ((l.take idx1).drop (idx0 + 1)) = some q ∧
          parsePath env { h with qStart := (idx0 + 1 + q + 1) % 2 ^ 16, qEnd :=
          idx1 % 2 ^ 16 } l (idx0 + 1)
            (((l.take idx1).drop (idx0 + 1)).take q) = .ok (h', l')) ∨
        (indexByte? (ch '?') ((l.take idx1).drop (idx0 + 1)) = none ∧
          parsePath env h l (idx0 + 1) ((l.take idx1).drop (idx0 + 1)) = .ok (h', l'))) := by
  unfold parseFirstLine at he
  split at he
  · rename_i idx0 idx1 h₀ h₁
    split at he
    · exact absurd he (by simp)
    · rename_i hcond
      rw [not_or, not_lt] at hcond
      have hlt := lastIndexByte?_lt h₁
      have hle := indexByte?_le_lastIndexByte? h₀ h₁
      rw [slice?_eq_some l (by omega) (by omega)] at he
      simp only [Ret.ofOption_some, Ret.ok_bind] at he
      refine ⟨idx0, idx1, h₀, h₁, by omega, hcond.2, ?_⟩
      split at he
      · rename_i q hq
        exact .inl ⟨q, hq, he⟩
      · rename_i hq
        exact .inr ⟨hq, he⟩
  · exact absurd he (by simp)

/-- The first line keeps its length, whichever branch it is parsed by. -/
theorem parseFirstLine_length {env : Env} {h h' : HTTP} {l l' : Bytes}
    (he : parseFirstLine env h l = .ok (h', l')) : l'.length = l.length := by
  obtain ⟨idx0, idx1, h₀, h₁, hlt, -, hcase⟩ := parseFirstLine_inv he
  have hlast := lastIndexByte?_lt h₁
  rcases hcase with ⟨q, -, hpath⟩ | ⟨-, hpath⟩
  · refine parsePath_length ?_ hpath
    simp only [List.length_take, List.length_drop]
    omega
  · refine parsePath_length ?_ hpath
    simp only [List.length_take, List.length_drop]
    omega

/-! ### The loop is the recursion on lines -/

/-- One round of the loop on a line of the block. -/
theorem parseLoop_line (env : Env) {l : Bytes} (hno : NoCrlf l) (hne : l ≠ []) (pre rest : Bytes)
    (h : HTTP) (n : ℕ) :
    parseLoop env (n + 1) pre.length (pre ++ l ++ crlf ++ rest) h
      = (parseLine env pre.length h l >>= fun r =>
          parseLoop env n (pre.length + l.length + 2)
            (splice (pre ++ l ++ crlf ++ rest) pre.length r.2) r.1) := by
  obtain ⟨k, hk⟩ : ∃ k, l.length = k + 1 :=
    ⟨l.length - 1, by have := List.length_pos_iff.mpr hne; omega⟩
  have hdrop : (pre ++ l ++ crlf ++ rest).drop pre.length = l ++ crlf ++ rest := by
    rw [List.append_assoc, List.append_assoc, List.drop_left, List.append_assoc]
  rw [parseLoop, if_pos (by simp), hdrop, index?_crlf_append hno, hk]
  simp only
  rw [← hk, List.append_assoc, List.take_left]

/-- **The header lines.** From the start of a line on, the loop rewrites the lines one by one
    and ends at the empty one. -/
theorem parseLoop_headers (env : Env) (ls : List Bytes) (hls : ∀ l ∈ ls, NoCrlf l ∧ l ≠ [])
    (pre : Bytes) (hpre : pre ≠ []) (h : HTTP) (n : ℕ) (hn : ls.length < n) :
    parseLoop env n pre.length (pre ++ joinLines ls ++ crlf) h
      = (parseHeaders env h ls >>= fun r => .ok (r.1, pre ++ joinLines r.2 ++ crlf)) := by
  obtain ⟨n, rfl⟩ : ∃ m, n = m + 1 := ⟨n - 1, by omega⟩
  induction ls generalizing pre h n with
  | nil =>
    have hempty : index? crlf crlf = some 0 := by decide
    rw [parseLoop, if_pos (by simp), joinLines_nil, List.append_nil, List.drop_left, hempty]
    simp [parseHeaders]
  | cons l ls ih =>
    obtain ⟨hno, hne⟩ := hls l (by simp)
    have hpos := List.length_pos_iff.mpr hpre
    have hassoc : pre ++ joinLines (l :: ls) ++ crlf = pre ++ l
        ++ crlf ++ (joinLines ls ++ crlf) := by
      simp
    rw [hassoc, parseLoop_line env hno hne, parseLine, if_neg (by omega), parseHeaders]
    cases hp : parseHeader env h l with
    | more => rfl
    | fail e => rfl
    | panic => rfl
    | ok r =>
      obtain ⟨h₁, l'⟩ := r
      have hlen := parseHeader_length hp
      have hsplice : splice (pre ++ l ++ crlf ++ (joinLines ls ++ crlf)) pre.length l'
          = pre ++ l' ++ crlf ++ joinLines ls ++ crlf := by
        rw [List.append_assoc, splice_middle hlen]; simp
      have hstart : pre.length + l.length + 2 = (pre ++ l' ++ crlf).length := by
        simp [hlen]; omega
      obtain ⟨n, rfl⟩ : ∃ m, n = m + 1 := ⟨n - 1, by simp at hn; omega⟩
      simp only [Ret.ok_bind, hsplice, hstart]
      rw [ih (fun m hm => hls m (by simp [hm])) (pre ++ l' ++ crlf) (by simp [crlf]) h₁ n
        (by simp at hn; omega)]
      cases parseHeaders env h₁ ls with
      | more => rfl
      | fail e => rfl
      | panic => rfl
      | ok r => simp

/-- **`HTTP.parse` on a header block.** The first line and the header lines are rewritten where
    they stand; a block that begins with an empty line is accepted as it is. -/
theorem parse_eq (env : Env) (h : HTTP) {l : Bytes} {ls : List Bytes} (hl : NoCrlf l)
    (hls : ∀ m ∈ ls, NoCrlf m ∧ m ≠ []) (hdata : h.data = l ++ crlf ++ joinLines ls ++ crlf) :
    h.parse env = if l = [] then .ok { h with hdrLen := h.data.length % 2 ^ 32 } else
      (parseFirstLine env { h with hdrLen := h.data.length % 2 ^ 32 } l >>= fun r =>
        parseHeaders env r.1 ls >>= fun q =>
          .ok { q.1 with data := r.2 ++ crlf ++ joinLines q.2 ++ crlf }) := by
  -- enough rounds: every line has two bytes at least
  have hbig : ls.length < h.data.length := by
    have := length_le_joinLines ls
    rw [hdata]; simp; omega
  unfold HTTP.parse
  by_cases hnil : l = []
  · subst hnil
    have hidx : index? crlf (h.data.drop 0) = some 0 := by
      rw [List.drop_zero, hdata, List.append_assoc]
      exact index?_crlf_append hl _
    rw [parseLoop, if_pos (by omega), hidx]
    simp
  · have hassoc : h.data = [] ++ l ++ crlf ++ (joinLines ls ++ crlf) := by rw [hdata]; simp
    have hstep := parseLoop_line env hl hnil [] (joinLines ls ++ crlf)
      { h with hdrLen := h.data.length % 2 ^ 32 } h.data.length
    rw [← hassoc, List.length_nil, parseLine, if_pos rfl] at hstep
    rw [hstep, if_neg hnil]
    cases hp : parseFirstLine env { h with hdrLen := h.data.length % 2 ^ 32 } l with
    | more => rfl
    | fail e => rfl
    | panic => rfl
    | ok r =>
      obtain ⟨h₁, l'⟩ := r
      have hlen := parseFirstLine_length hp
      -- the rewritten line takes the place of the old one, so the next line starts where it started
      have hsplice : splice h.data 0 l' = l' ++ crlf ++ joinLines ls ++ crlf := by
        have : splice ([] ++ l ++ (crlf ++ (joinLines ls ++ crlf))) ([] : Bytes).length l' = _ :=
          splice_middle hlen
        rw [hassoc]; simpa using this
      have hstart : 0 + l.length + 2 = (l' ++ crlf).length := by simp [hlen]
      simp only [Ret.ok_bind, hsplice, hstart]
      rw [parseLoop_headers env ls hls (l' ++ crlf) (by simp [crlf]) h₁ _ hbig]
      cases parseHeaders env h₁ ls with
      | more => rfl
      | fail e => rfl
      | panic => rfl
      | ok q => simp

/-! ### How `parse` can end -/

/-- A value or an error about the request: no panic, no request for more input, and not the
    error about the stage of the parser itself. -/
def Settled {ρ : Type} (r : Ret Err ρ) : Prop :=
  r ≠ .panic ∧ r ≠ .more ∧ ∀ n, r ≠ .fail (.invalidStage n)

/-- A value is settled. -/
theorem settled_ok {ρ : Type} (a : ρ) : Settled (.ok a : Ret Err ρ) :=
  ⟨by simp, by simp, by simp⟩

/-- An error other than `invalid stage` is settled. -/
theorem settled_fail {ρ : Type} {e : Err} (h : ∀ n, e ≠ .invalidStage n) :
    Settled (.fail e : Ret Err ρ) :=
  ⟨by simp, by simp, fun n hn => h n (by simpa using hn)⟩

/-- Two settled parts make a settled whole. -/
theorem Settled.bind {ρ τ : Type} {r : Ret Err ρ} {f : ρ → Ret Err τ} (hr : Settled r)
    (hf : ∀ a, Settled (f a)) : Settled (r >>= f) := by
  cases r with
  | ok a => exact hf a
  | more => exact absurd rfl hr.2.1
  | fail e => exact settled_fail fun n hn => hr.2.2 n (by rw [hn])
  | panic => exact absurd rfl hr.1

/-- The path is decoded or refused, without waiting. -/
theorem parsePath_settled (env : Env) (h : HTTP) (l : Bytes) (off : ℕ) (uri : Bytes) :
    Settled (parsePath env h l off uri) := by
  obtain ⟨s, k, hs, -, -⟩ := unescapeInplace_spec uri false
  unfold parsePath
  simp only [hs, Ret.ofOption_some, Ret.ok_bind]
  split
  · exact settled_ok _
  · split
    · exact settled_fail (by simp)
    · exact settled_ok _

/-- The first line is parsed or refused. -/
theorem parseFirstLine_settled (env : Env) (h : HTTP) (l : Bytes) :
    Settled (parseFirstLine env h l) := by
  unfold parseFirstLine
  split
  · rename_i idx0 idx1 h₀ h₁
    split
    · exact settled_fail (by simp)
    · rename_i hcond
      have hlt := lastIndexByte?_lt h₁
      have hle := indexByte?_le_lastIndexByte? h₀ h₁
      rw [slice?_eq_some l (by omega) (by omega)]
      simp only [Ret.ofOption_some, Ret.ok_bind]
      split
      · exact parsePath_settled _ _ _ _ _
      · exact parsePath_settled _ _ _ _ _
  · exact settled_fail (by simp)

/-- A header line is parsed or refused. -/
theorem parseHeader_settled (env : Env) (h : HTTP) (l : Bytes) : Settled (parseHeader env h l) := by
  unfold parseHeader
  split
  · exact settled_fail (by simp)
  · exact settled_fail (by simp)
  · simp only
    repeat' split
    all_goals first | exact settled_ok _ | exact settled_fail (by simp)

/-- All header lines are: so `parse`, which has the block up to its terminator, never asks for more.
    -/
theorem parseHeaders_settled (env : Env) (ls : List Bytes) (h : HTTP) :
    Settled (parseHeaders env h ls) := by
  induction ls generalizing h with
  | nil => exact settled_ok _
  | cons l ls ih =>
    exact (parseHeader_settled env h l).bind fun r => (ih r.1).bind fun q => settled_ok _

/-- **`parse` never panics on a header block.** Its loop finds a line end in every round. -/
theorem parse_settled (env : Env) (h : HTTP) {s : Bytes} {i : ℕ}
    (hi : index? (crlf ++ crlf) s = some i) (hdata : h.data = s.take (i + 4)) :
    Settled (h.parse env) := by
  obtain ⟨l, ls, hblock, hl, hls⟩ := exists_lines_of_index? hi
  rw [parse_eq env h hl hls (hdata.trans hblock)]
  split
  · exact settled_ok _
  · exact (parseFirstLine_settled env _ l).bind fun r =>
      (parseHeaders_settled env ls r.1).bind fun q => settled_ok _

end Resh.Server
