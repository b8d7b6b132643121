import Resh.Server.Accessors

namespace Resh.Server

open Resh.Go Resh.Incremental

/-!
# The scans for line ends

`parse` and `ForeachHeader` look for one CR LF after the other, and both would slice backwards if
there were none.  The first runs over a block that it decodes on the way, the second over the same
memory at any later time, when more of it may be decoded: a CR LF can have come into the first line.

* `ParseRound`, `HeaderRound` — the rounds of the two loops;
* `Terminated` — the CR LF CR LF that ended the block stands where it stood, so that every round of
  `parse` finds a line end;
* `headersInRange_iff` — every round of `ForeachHeader` finds one, and it ends, exactly on a memory
  with an empty piece;
* `Touch` — a call that rewrites the first line where it stands, or scans it;
* `Anchored` — an empty piece that no call can remove, for its two line ends are not in the query;
* `scans_in_range` — both loops are in range and end, and which requests this needs;
* `scans_out_of_range` — a memory that is cut in front of the terminator, at the `uint32` sum of the
  lengths.

For `parse` nothing but the four bytes matters.  A scan that stands in front of them finds a CR LF
no later than there, and cannot step over the second one, for a CR LF does not begin one byte before
a CR.
-/

/-! ### The rounds -/

/-- The round at `start` finds a line end, and both ends of the line are in range. -/
def FindsLine (data : Bytes) (start : ℕ) : Prop :=
  ∃ i, index? crlf (data.drop start) = some i ∧ start + i + 2 ≤ data.length

/-- The rounds of the loop of `parse`: the offset, the memory and the fields at the begin of
    each. -/
inductive ParseRound (env : Env) (h : HTTP) : ℕ → Bytes → HTTP → Prop
  | first : ParseRound env h 0 h.data { h with hdrLen := h.data.length % 2 ^ 32 }
  | next {start i : ℕ} {data line : Bytes} {g g' : HTTP} (round : ParseRound env h start data g)
      (hlt : start < data.length) (hi : index? crlf (data.drop start) = some (i + 1))
      (hline : parseLine env start g ((data.drop start).take (i + 1)) = .ok (g', line)) :
      ParseRound env h (start + (i + 1) + 2) (splice data start line) g'

/-- The rounds of the loop of `ForeachHeader`, if no callback stops it. -/
inductive HeaderRound (data : Bytes) : ℕ → Prop
  | first : HeaderRound data 0
  | next {start i : ℕ} (round : HeaderRound data start) (hlt : start < data.length)
      (hi : index? crlf (data.drop start) = some (i + 1)) : HeaderRound data (start + (i + 1) + 2)

/-- **`parse` in range**, on a block whose last four bytes begin at `idx`: it returns an error, or
    ends at an empty line, which is the last one exactly if the block does not begin with one. -/
structure ParseInRange (env : Env) (idx : ℕ) (h : HTTP) : Prop where
  finds : ∀ start data g, ParseRound env h start data g → FindsLine data start
  ends : (∃ e, h.parse env = .fail e) ∨ ∃ start data g, ParseRound env h start data g ∧
    index? crlf (data.drop start) = some 0 ∧ h.parse env = .ok { g with data := data } ∧
    (start = idx + 2 ↔ ¬ crlf <+: h.data)

/-- **`ForeachHeader` in range**, with any callback. -/
structure HeadersInRange (h : HTTP) : Prop where
  finds : ∀ start < h.data.length, HeaderRound h.data start → FindsLine h.data start
  ends : ∀ (τ : Type) (f : τ → Bytes → Bytes → τ × Bool) (a : τ), ∃ b, h.foreachHeader f a = some b

/-- A call of `Method`, of one of the accessors of the query, or of `ForeachHeader`. -/
inductive Touch where
  | method
  | access (a : Access)
  | foreachHeader
  deriving DecidableEq, Repr

/-- The request after a call. -/
def Mapped.touch {M : Type} (ops : MapOps M) (r : Mapped M) : Touch → Option (Mapped M)
  | .method =>
    r.request.http.method.map fun s => { r with request := { r.request with http := s.1 } }
  | .access a => r.access ops a
  | .foreachHeader => r.request.http.headers.map fun _ => r

/-- **The condition** on the received bytes: the memory reaches the end of the header block; or
    where it is cut, what is left has an empty piece, at its end or between two decoded line
    ends. -/
def ScanEnds (inp : Bytes) : Prop := Whole inp ∨ [] ∈ splitCrlf (requestData inp)

instance (inp : Bytes) : Decidable (ScanEnds inp) := inferInstanceAs (Decidable (_ ∨ _))

/-! ### The terminator -/

/-- CR LF CR LF stands at `idx`. -/
def Terminated (idx : ℕ) (data : Bytes) :
    Prop := crlf <+: data.drop idx ∧ crlf <+: data.drop (idx + 2)

/-- An offset from which a scan goes on: in front of the terminator, or at the empty line. -/
def OnLine (idx start : ℕ) : Prop := start ≤ idx ∨ start = idx + 2

/-- Where the search for CR LF CR LF succeeds there is a terminator. -/
theorem terminated_of_index? {s : Bytes} {idx : ℕ} (h : index? (crlf ++ crlf) s = some idx) :
    Terminated idx s := by
  have hpre := ((index?_eq_some_iff _ _ _).mp h).1
  refine ⟨(List.prefix_append _ _).trans hpre, ?_⟩
  obtain ⟨t, ht⟩ := hpre
  rw [← List.drop_drop, ← ht]
  exact ⟨t, rfl⟩

section Terminated

variable {idx start : ℕ} {data data' : Bytes}

/-- The terminator is within the memory. -/
theorem Terminated.le_length (h : Terminated idx data) : idx + 4 ≤ data.length := by
  have hlen := h.2.length_le
  rw [List.length_drop, crlf_length] at hlen
  omega

/-- The terminator stays if its bytes do. -/
theorem Terminated.of_getElem? (h : Terminated idx data)
    (hkeep : ∀ (j : ℕ) (c : UInt8), idx ≤ j → c = 13 ∨ c = 10 →
      data[j]? = some c → data'[j]? = some c) : Terminated idx data' := by
  unfold Terminated at h ⊢
  simp only [crlf_prefix_drop_iff] at h ⊢
  obtain ⟨⟨h₀, h₁⟩, h₂, h₃⟩ := h
  exact ⟨⟨hkeep _ _ le_rfl (.inl rfl) h₀, hkeep _ _ (by omega) (.inr rfl) h₁⟩,
    hkeep _ _ (by omega) (.inl rfl) h₂, hkeep _ _ (by omega) (.inr rfl) h₃⟩

/-- Changes in front of the terminator leave it there. -/
theorem Terminated.of_eqOff {P : ℕ → Prop} (h : Terminated idx data) (hoff : EqOff P data' data)
    (hP : ∀ i, P i → i < idx) : Terminated idx data' := by
  apply h.of_getElem?
  intro j c hj _ hget
  rw [hoff.get_eq j fun hp => absurd (hP j hp) (by omega), hget]

/-- The terminator stays in a part of the memory that reaches it. -/
theorem Terminated.cut (h : Terminated idx data) (hpre : data' <+: data)
    (hlen : idx + 4 ≤ data'.length) : Terminated idx data' := by
  obtain ⟨t, rfl⟩ := hpre
  obtain ⟨h₀, h₁⟩ := h
  rw [List.drop_append_of_le_length (by omega)] at h₀ h₁
  constructor
  · refine List.prefix_of_prefix_length_le h₀ (List.prefix_append _ _) ?_
    rw [List.length_drop, crlf_length]
    omega
  · refine List.prefix_of_prefix_length_le h₁ (List.prefix_append _ _) ?_
    rw [List.length_drop, crlf_length]
    omega

/-- **One round of a scan.** It finds a line end, and either stops or goes on from the next line. -/
theorem Terminated.round (h : Terminated idx data) (hs : OnLine idx start) :
    ∃ i, index? crlf (data.drop start) = some i ∧ start + i + 2 ≤ data.length ∧
      (i = 0 ∨ (start + i ≤ idx ∧ OnLine idx (start + i + 2))) := by
  have hlen := h.le_length
  -- there is a line end at the terminator, so the first one stands no further
  have hfound : ∀ k, start ≤ k → crlf <+: data.drop k →
      ∃ i, index? crlf (data.drop start) = some i ∧ start + i ≤ k := by
    intro k hk hcrlf
    have hthere : crlf <+: (data.drop start).drop (k - start) := by
      rwa [List.drop_drop, Nat.add_sub_cancel' hk]
    cases hi : index? crlf (data.drop start) with
    | none =>
      refine absurd ?_ ((index?_eq_none_iff _ _).mp hi)
      exact hthere.isInfix.trans (List.drop_suffix _ _).isInfix
    | some i =>
      refine ⟨i, rfl, ?_⟩
      by_contra hgt
      exact ((index?_eq_some_iff _ _ _).mp hi).2 (k - start) (by omega) hthere
  rcases hs with hle | rfl
  · obtain ⟨i, hi, hik⟩ := hfound idx hle h.1
    refine ⟨i, hi, by omega, .inr ⟨hik, ?_⟩⟩
    -- a line end does not begin one byte in front of the terminator
    have hne : start + i + 1 ≠ idx := by
      intro heq
      have hhere := ((index?_eq_some_iff _ _ _).mp hi).1
      rw [List.drop_drop, crlf_prefix_drop_iff] at hhere
      have hcr := ((crlf_prefix_drop_iff _ _).mp h.1).1
      rw [← heq, hhere.2] at hcr
      exact absurd hcr (by decide)
    unfold OnLine
    omega
  · obtain ⟨i, hi, hik⟩ := hfound (idx + 2) le_rfl h.2
    exact ⟨i, hi, by omega, .inl (by omega)⟩

/-- A scan that is in front of the terminator, or at it, finds a line end. -/
theorem Terminated.findsLine (h : Terminated idx data) (hs : OnLine idx start) :
    FindsLine data start := by
  obtain ⟨i, hi, hle, -⟩ := h.round hs
  exact ⟨i, hi, hle⟩

end Terminated

/-! ### `ForeachHeader` -/

section Headers

variable {data : Bytes}

/-- A round starts at one of the pieces: if one of them is empty, one of those from there on is. -/
theorem HeaderRound.nil_mem (hnil : [] ∈ splitCrlf data) {start : ℕ} (hr : HeaderRound data start) :
    [] ∈ splitCrlf (data.drop start) := by
  induction hr with
  | first => exact hnil
  | @next start i _ hlt hi ih =>
    rw [splitCrlf_of_index? hi, List.drop_drop] at ih
    have hline : (data.drop start).take (i + 1) ≠ [] := by simpa using hlt
    exact (List.mem_cons.mp ih).resolve_left (Ne.symm hline)

/-- Without an empty piece some round finds no line end. -/
theorem exists_last_piece (n start : ℕ) (hn : data.length - start < n) (hr : HeaderRound data start)
    (hnil : [] ∉ splitCrlf (data.drop start)) :
    ∃ last < data.length, HeaderRound data last ∧ index? crlf (data.drop last) = none := by
  induction n generalizing start with
  | zero => exact absurd hn (Nat.not_lt_zero _)
  | succ n ih =>
    have hlt : start < data.length := by
      by_contra hge
      rw [List.drop_eq_nil_of_le (not_lt.mp hge)] at hnil
      exact hnil (List.mem_singleton_self _)
    cases hi : index? crlf (data.drop start) with
    | none => exact ⟨start, hlt, hr, hi⟩
    | some i =>
      rw [splitCrlf_of_index? hi, List.drop_drop, List.mem_cons, not_or] at hnil
      cases i with
      | zero => exact absurd rfl hnil.1
      | succ i => exact ih (start + (i + 1) + 2) (by omega) (.next hr hlt hi) hnil.2

/-- **`ForeachHeader` is in range** exactly on a memory with an empty piece. -/
theorem headersInRange_iff (h : HTTP) : HeadersInRange h ↔ [] ∈ splitCrlf h.data := by
  constructor
  · intro H
    by_contra hnil
    obtain ⟨last, hlt, hr, hnone⟩ := exists_last_piece (h.data.length + 1) 0 (by omega) .first hnil
    obtain ⟨i, hi, -⟩ := H.finds last hlt hr
    rw [hnone] at hi
    cases hi
  · intro hnil
    refine ⟨fun start hlt hr => ?_, fun τ f a => ?_⟩
    · have hhere := hr.nil_mem hnil
      cases hi : index? crlf (h.data.drop start) with
      | none =>
        rw [splitCrlf_of_noCrlf ((noCrlf_iff _).mpr hi), List.mem_singleton] at hhere
        exact absurd hhere.symm (by simpa using hlt)
      | some i =>
        have hle := index?_le (by simp [crlf]) hi
        rw [List.length_drop, crlf_length] at hle
        exact ⟨i, hi, by omega⟩
    · have hends : (scan h.data).2 = true := by
        unfold scan
        cases hsplit : splitCrlf h.data with
        | nil => rfl
        | cons p ps =>
          rw [hsplit] at hnil
          simp only
          split
          · rfl
          · rename_i hp
            have hmem : [] ∈ ps := (List.mem_cons.mp hnil).resolve_left (Ne.symm hp)
            rw [if_neg (List.ne_nil_of_mem hmem), scanLines_eq hmem]
      rw [foreachHeader_eq, hends, replay_true]
      exact ⟨_, rfl⟩

end Headers

/-! ### `parse` -/

section Parse

variable {env : Env} {h : HTTP} {idx : ℕ}

/-- A line is rewritten in place: its length stays. -/
theorem parseLine_length {start : ℕ} {g g' : HTTP} {l l' : Bytes}
    (he : parseLine env start g l = .ok (g', l')) : l'.length = l.length := by
  unfold parseLine at he
  split at he
  · exact parseFirstLine_length he
  · exact parseHeader_length he

/-- **A round of `parse`**: the lines that it has left are as they were received, and the one before
    them ended with a CR LF. -/
structure Rounding (h : HTTP) (idx start : ℕ) (data : Bytes) : Prop where
  terminated : Terminated idx data
  length : data.length = h.data.length
  line : OnLine idx start
  rest : data.drop start = h.data.drop start
  before : start = 0 ∨ ∃ k, start = k + 2 ∧ crlf <+: h.data.drop k

/-- Every round of `parse` is such a round: by induction over the rounds, each of which only
    rewrites the line it has found. -/
theorem ParseRound.rounding (ht : Terminated idx h.data) {start : ℕ} {data : Bytes} {g : HTTP}
    (hr : ParseRound env h start data g) : Rounding h idx start data := by
  induction hr with
  | first => exact ⟨ht, rfl, .inl (Nat.zero_le _), rfl, .inl rfl⟩
  | @next start i data line g g' _ _ hi hline ih =>
    obtain ⟨j, hj, hle, hnext⟩ := ih.terminated.round ih.line
    rw [hi, Option.some.injEq] at hj
    subst hj
    obtain ⟨hidx, hon⟩ := hnext.resolve_left (Nat.succ_ne_zero _)
    have hlen : line.length = i + 1 := by
      rw [parseLine_length hline, List.length_take, List.length_drop]
      omega
    -- the line is rewritten where it stands, in front of the terminator
    have hoff := EqOff.splice (b := data) (s := line) (by omega : start + line.length ≤ data.length)
    have hrest : ∀ k, start ≤ k → data.drop k = h.data.drop k := by
      intro k hk
      have := congrArg (List.drop (k - start)) ih.rest
      rwa [List.drop_drop, List.drop_drop, Nat.add_sub_cancel' hk] at this
    refine ⟨ih.terminated.of_eqOff hoff fun k hk => by omega,
      hoff.length_eq.trans ih.length, hon, ?_, .inr ?_⟩
    · rw [hoff.drop_eq fun k hk hin => by omega, hrest _ (by omega)]
    · refine ⟨start + (i + 1), rfl, ?_⟩
      have hcrlf := ((index?_eq_some_iff _ _ _).mp hi).1
      rwa [List.drop_drop, hrest _ (by omega)] at hcrlf

/-- The loop returns from a round at an empty line, or from one behind the memory. -/
theorem exists_last_round (n start : ℕ) (data : Bytes) (g : HTTP) {g' : HTTP} {data' : Bytes}
    (hr : ParseRound env h start data g) (he : parseLoop env n start data g = .ok (g', data')) :
    ∃ last, ParseRound env h last data' g' ∧
      (index? crlf (data'.drop last) = some 0 ∨ data'.length ≤ last) := by
  induction n generalizing start data g with
  | zero => cases he
  | succ n ih =>
    rw [parseLoop] at he
    split at he
    · rename_i hlt
      cases hi : index? crlf (data.drop start) with
      | none => rw [hi] at he; cases he
      | some i =>
        rw [hi] at he
        cases i with
        | zero =>
          cases he
          exact ⟨start, hr, .inl hi⟩
        | succ i =>
          obtain ⟨⟨g₁, line⟩, hline, he⟩ := Ret.bind_eq_ok.mp he
          exact ih _ _ _ (.next hr hlt hi hline) he
    · rename_i hge
      cases he
      exact ⟨start, hr, .inr (not_lt.mp hge)⟩

/-- The empty line that ends the loop is the last one, or stands in front of everything. -/
theorem Rounding.eq_of_empty {inp : Bytes} {start : ℕ} {data : Bytes}
    (R : Rounding h idx start data)
    (hi : index? (crlf ++ crlf) inp = some idx) (hdata : h.data = inp.take (idx + 4))
    (hempty : crlf <+: data.drop start) (hfirst : ¬ crlf <+: h.data) : start = idx + 2 := by
  refine R.line.resolve_left fun hle => ?_
  rw [R.rest] at hempty
  rcases R.before with rfl | ⟨k, rfl, hk⟩
  · exact hfirst hempty
  · -- otherwise the two line ends were an earlier terminator
    have hearly : crlf ++ crlf <+: h.data.drop k := by
      obtain ⟨t, ht⟩ := hk
      rw [← List.drop_drop, ← ht, show (crlf ++ t).drop 2 = t from rfl] at hempty
      rw [← ht]
      exact (List.prefix_append_right_inj crlf).mpr hempty
    refine ((index?_eq_some_iff _ _ _).mp hi).2 k (by omega) (hearly.trans ?_)
    rw [hdata]
    exact (List.take_prefix _ _).drop k

/-- A block that begins with a line end is left in the first round. -/
theorem ParseRound.start_eq_zero (ht : Terminated idx h.data) (hcrlf : crlf <+: h.data) {start : ℕ}
    {data : Bytes} {g : HTTP} (hr : ParseRound env h start data g) : start = 0 := by
  induction hr with
  | first => rfl
  | @next start i data line g g' hr _ hi _ ih =>
    subst ih
    have hhere : index? crlf (data.drop 0) = some 0 := by
      rw [(hr.rounding ht).rest]
      exact (index?_eq_some_iff _ _ _).mpr ⟨hcrlf, fun j hj => absurd hj (Nat.not_lt_zero _)⟩
    rw [hi] at hhere
    cases hhere

/-- **`parse` on a header block.** -/
theorem parse_inRange (env : Env) {inp : Bytes} (hi : index? (crlf ++ crlf) inp = some idx)
    (hdata : h.data = inp.take (idx + 4)) : ParseInRange env idx h := by
  have ht : Terminated idx h.data := by
    have hinp := terminated_of_index? hi
    refine hinp.cut (hdata ▸ List.take_prefix _ _) ?_
    rw [hdata, List.length_take, Nat.min_eq_left hinp.le_length]
  refine ⟨fun start data g hr => ?_, ?_⟩
  · have R := hr.rounding ht
    exact R.terminated.findsLine R.line
  obtain ⟨hpanic, hmore, -⟩ := parse_settled env h hi hdata
  cases hp : h.parse env with
  | panic => exact absurd hp hpanic
  | more => exact absurd hp hmore
  | fail e => exact .inl ⟨e, rfl⟩
  | ok g =>
    obtain ⟨⟨g', data'⟩, hloop, hg⟩ := Ret.bind_eq_ok.mp hp
    obtain ⟨last, hr, hend⟩ := exists_last_round _ _ _ _ .first hloop
    have R := hr.rounding ht
    have hle := ht.le_length
    have hempty := hend.resolve_right fun hout => by
      have := R.line
      have := R.length
      unfold OnLine at *
      omega
    refine .inr ⟨last, data', g', hr, hempty, ?_, ?_, fun hfirst => ?_⟩
    · exact (Ret.ok.inj hg).symm ▸ rfl
    · intro hlast hcrlf
      have := hr.start_eq_zero ht hcrlf
      omega
    · exact R.eq_of_empty hi hdata ((index?_eq_some_iff _ _ _).mp hempty).1 hfirst

end Parse

/-! ### The calls -/

/-- The two bytes at `k` are not in the query. -/
def HTTP.Off (h : HTTP) (k : ℕ) : Prop := h.qStart = 0 ∨ k + 2 ≤ h.qStart ∨ h.qEnd ≤ k

/-- A line end that no call removes. -/
def HTTP.LineEnd (h : HTTP) (k : ℕ) : Prop := h.Off k ∧ crlf <+: h.data.drop k

/-- **An empty piece that no call removes**: it stands between two such line ends, or between one
    and an end of the memory. -/
def HTTP.Anchored (h : HTTP) : Prop :=
  ∃ j ≤ h.data.length, (j = 0 ∨ ∃ k, j = k + 2 ∧ h.LineEnd k) ∧ (j = h.data.length ∨ h.LineEnd j)

section Calls

variable {h h' : HTTP}

/-- An anchored empty piece is an empty piece, the one on which a scan ends. -/
theorem HTTP.Anchored.nil_mem (S : h.Anchored) : [] ∈ splitCrlf h.data := by
  obtain ⟨j, hj, hbefore, hbehind⟩ := S
  refine (nil_mem_splitCrlf_iff _).mpr ⟨j, hj, ?_, hbehind.imp_right And.right⟩
  exact hbefore.imp_right fun ⟨k, hk, hend⟩ => ⟨k, hk, hend.2⟩

/-- An anchored empty piece stays if the CR and LF outside the query do. -/
theorem HTTP.Anchored.of_getElem? (S : h.Anchored) (hhttp : h' = { h with data := h'.data })
    (hlen : h'.data.length = h.data.length)
    (hkeep : ∀ (j : ℕ) (c : UInt8), (h.qStart = 0 ∨ j < h.qStart ∨ h.qEnd ≤ j) → c = 13 ∨ c = 10 →
      h.data[j]? = some c → h'.data[j]? = some c) : h'.Anchored := by
  have hline : ∀ k, h.LineEnd k → h'.LineEnd k := by
    rintro k ⟨hoff, hcrlf⟩
    rw [crlf_prefix_drop_iff] at hcrlf
    refine ⟨?_, (crlf_prefix_drop_iff _ _).mpr
      ⟨hkeep _ _ ?_ (.inl rfl) hcrlf.1, hkeep _ _ ?_ (.inr rfl) hcrlf.2⟩⟩
    · rw [hhttp]
      exact hoff
    · unfold HTTP.Off at hoff
      omega
    · unfold HTTP.Off at hoff
      omega
  obtain ⟨j, hj, hbefore, hbehind⟩ := S
  refine ⟨j, hlen ▸ hj, ?_, ?_⟩
  · exact hbefore.imp_right fun ⟨k, hk, hend⟩ => ⟨k, hk, hline k hend⟩
  · rw [hlen]
    exact hbehind.imp_right (hline j)

/-- Upper case does not touch CR and LF. -/
theorem upper_of_lineEnd {c : UInt8} (hc : c = 13 ∨ c = 10) : upper c = c := by
  rcases hc with rfl | rfl <;> rfl

/-- `Method` changes no line end. -/
theorem HTTP.Anchored.method (S : h.Anchored) {m : Bytes} (he : h.method = some (h', m)) :
    h'.Anchored := by
  unfold HTTP.method at he
  split at he
  · cases he
  · rename_i i hi
    have hlen : ((h.data.take i).map upper).length = i := by
      rw [List.length_map, List.length_take, Nat.min_eq_left (indexByte?_lt hi).le]
    cases he
    refine S.of_getElem? rfl ?_ fun j c _ hc hget => ?_
    · show ((h.data.take i).map upper ++ h.data.drop i).length = _
      rw [List.length_append, hlen, List.length_drop]
      have := indexByte?_lt hi
      omega
    show ((h.data.take i).map upper ++ h.data.drop i)[j]? = some c
    by_cases hj : j < i
    · rw [List.getElem?_append_left (by omega), List.getElem?_map,
        List.getElem?_take_of_lt hj, hget, Option.map_some, upper_of_lineEnd hc]
    · rw [List.getElem?_append_right (by omega), hlen, List.getElem?_drop,
        Nat.add_sub_cancel' (by omega), hget]

/-- A pass over the query writes within the query only, where the anchors are not. -/
theorem HTTP.Anchored.foreachQuery {r r' : Request} (S : r.http.Anchored) {ps : List Param}
    (he : r.foreachQuery = some (r', ps)) : r'.http.Anchored := by
  obtain ⟨hhttp, hoff⟩ := foreachQuery_eqOff he
  refine S.of_getElem? hhttp hoff.length_eq fun j c hj _ hget => ?_
  rw [hoff.get_eq j fun hin => by omega, hget]

variable {M : Type} {ops : MapOps M} {r r' : Mapped M}

/-- `Query` is at most one such pass. -/
theorem HTTP.Anchored.query (S : r.request.http.Anchored) {m : Option M}
    (he : r.query ops = some (r', m)) : r'.request.http.Anchored := by
  unfold Mapped.query at he
  split at he
  · cases he
    exact S
  · split at he
    · obtain ⟨⟨r₁, ps⟩, hpass, heq⟩ := Option.map_eq_some_iff.mp he
      cases heq
      exact S.foreachQuery hpass
    · cases he
      exact S

/-- **One call.** -/
theorem HTTP.Anchored.touch (S : r.request.http.Anchored) {t : Touch}
    (he : r.touch ops t = some r') : r'.request.http.Anchored := by
  cases t with
  | method =>
    obtain ⟨⟨h, m⟩, hm, rfl⟩ := Option.map_eq_some_iff.mp he
    exact S.method hm
  | foreachHeader =>
    obtain ⟨-, -, rfl⟩ := Option.map_eq_some_iff.mp he
    exact S
  | access a =>
    cases a with
    | foreachQuery =>
      obtain ⟨⟨r₁, ps⟩, hpass, rfl⟩ := Option.map_eq_some_iff.mp he
      exact S.foreachQuery hpass
    | query =>
      obtain ⟨⟨r₁, m⟩, hquery, rfl⟩ := Option.map_eq_some_iff.mp he
      exact S.query hquery
    | getQuery k =>
      obtain ⟨⟨r₁, v⟩, hget, rfl⟩ := Option.map_eq_some_iff.mp he
      obtain ⟨⟨r₂, m⟩, hquery, heq⟩ := Option.map_eq_some_iff.mp hget
      cases heq
      exact S.query hquery
    | url =>
      obtain ⟨⟨r₁, u⟩, hurl, rfl⟩ := Option.map_eq_some_iff.mp he
      obtain ⟨⟨r₂, ps⟩, hpass, heq⟩ := Option.map_eq_some_iff.mp hurl
      cases heq
      exact S.foreachQuery hpass

end Calls

/-! ### Accepted requests -/

section Accepted

variable {env : Env} {p : Bytes} {h : HTTP}

/-- **No line end of an accepted request meets its query**, for the query and the bytes around it
    stand in the first line as they were received. -/
theorem Accepted.off_of_crlf (A : Accepted env p h) {k : ℕ} (hk : crlf <+: h.data.drop k) :
    h.Off k := by
  cases hq : rawQuery? p with
  | none => exact .inl (A.query.2 hq)
  | some q =>
    obtain ⟨-, -, hend, -, -⟩ := A.query.1 q hq
    obtain ⟨hstart, -, -⟩ := A.queryOffset_eq hq
    refine or_iff_not_imp_left.mpr fun h0 => ?_
    by_contra hmeets
    have hreceived : ∀ i c, k ≤ i → i ≤ k + 1 → h.data[i]? = some c →
        (firstLine p)[i]? = some c := by
      intro i c hlo hhi hget
      obtain ⟨rest, hrest⟩ := A.data_prefix
      have hbuf : (process env {} p).buf[i]? = some c := by
        rw [← hrest, List.getElem?_append_left (List.getElem?_eq_some_iff.mp hget).1, hget]
      rw [A.buf] at hbuf
      simp only [List.append_assoc] at hbuf
      rw [List.getElem?_append_left (by rw [parseFirstLine_length A.request]; omega)] at hbuf
      rwa [(decodeTarget_eqOff (firstLine p)).get_eq i] at hbuf
      unfold InPath
      unfold queryOffset at hstart
      split
      · rename_i off uri htarget
        rw [htarget] at hstart
        simp only at hstart
        omega
      · exact fun hfalse => hfalse
    obtain ⟨hcr, hlf⟩ := (crlf_prefix_drop_iff _ _).mp hk
    have hline : crlf <+: (firstLine p).drop k :=
      (crlf_prefix_drop_iff _ _).mpr ⟨hreceived k 13 le_rfl (by omega) hcr,
        hreceived (k + 1) 10 (by omega) le_rfl hlf⟩
    exact A.first (hline.isInfix.trans (List.drop_suffix k _).isInfix)

/-- The line ends of an accepted request that are not in its query are out of reach of every call,
    so an empty piece of its memory is anchored. -/
theorem anchored_of_http (hacc : callOnce env p = .http h) (hnil : [] ∈ splitCrlf h.data) :
    h.Anchored := by
  have hoff : ∀ k, crlf <+: h.data.drop k → h.Off k := by
    intro k hk
    by_cases hfirst : firstLine p = []
    · exact .inl (qStart_of_firstLine_nil hacc hfirst)
    · obtain ⟨A⟩ := accepted_of_http hacc hfirst
      exact A.off_of_crlf hk
  obtain ⟨j, hj, hbefore, hbehind⟩ := (nil_mem_splitCrlf_iff _).mp hnil
  refine ⟨j, hj, ?_, hbehind.imp_right fun hcrlf => ⟨hoff j hcrlf, hcrlf⟩⟩
  exact hbefore.imp_right fun ⟨k, hk, hcrlf⟩ => ⟨k, hk, hoff k hcrlf, hcrlf⟩

/-- A request that is not cut has an empty piece, the empty line behind its headers. -/
theorem nil_mem_of_whole (hw : Whole p) (hacc : callOnce env p = .http h) :
    [] ∈ splitCrlf (requestData p) := by
  by_cases hfirst : firstLine p = []
  · -- the block begins with a line end
    have hpos : 2 ≤ requestLength p := by
      refine le_trans ?_ hw
      rw [blockLength]
      simp only [List.length_append, crlf_length]
      omega
    have hle := (accepted_data hacc).2.2
    rw [requestData]
    rw [rewritten, if_pos hfirst] at hle ⊢
    have hcrlf : crlf <+: p := by
      by_contra hstart
      obtain ⟨l, hl, hsplit⟩ := splitCrlf_first (List.ne_nil_of_length_pos (by omega)) hstart
      rw [firstLine, hsplit] at hfirst
      exact hl hfirst
    refine (nil_mem_splitCrlf_iff _).mpr ⟨0, Nat.zero_le _, .inl rfl, .inr ?_⟩
    refine List.prefix_of_prefix_length_le hcrlf (List.take_prefix _ _) ?_
    rw [List.drop_zero, List.length_take, crlf_length]
    omega
  · obtain ⟨A⟩ := accepted_of_http hacc hfirst
    have hlen := A.length_eq
    rw [A.lines_eq, A.idx_eq] at hlen
    rw [requestData_whole hw hfirst hlen, splitCrlf_block _ fun m hm => (A.lines_spec.2 m hm).1]
    simp

/-- The condition on the received bytes says of the memory that it has an empty piece: a memory that
    is not cut has its terminator. -/
theorem scanEnds_iff (hacc : callOnce env p = .http h) : ScanEnds p ↔ [] ∈ splitCrlf h.data := by
  rw [(accepted_data hacc).1]
  exact ⟨fun hends => hends.elim (nil_mem_of_whole · hacc) id, .inr⟩

end Accepted

/-- **The header scans are in range and end.**  On every block up to its first CR LF CR LF, `parse`
    finds a line end in every round, and returns an error or ends at an empty line, which is the
    last one exactly if the block does not begin with one.  On every accepted request
    `ForeachHeader` is in range and ends after any calls that rewrite it, exactly if the received
    bytes meet the condition; within the limits no request is cut, so they meet it. -/
theorem scans_in_range {M : Type} (ops : MapOps M) (env : Env) :
    (∀ inp idx h, index? (crlf ++ crlf) inp = some idx → h.data = inp.take (idx + 4) →
      ParseInRange env idx h) ∧
    ∀ reads h, callReads env reads = .http h →
      ((∀ ts r, run (Mapped.touch ops) ⟨requestAfter env reads h, none⟩ ts = some r →
        HeadersInRange r.request.http) ↔ ScanEnds reads.flatten) ∧
      (env.requestMaxBytes < 2 ^ 31 → (reads.flatten.length : ℤ) ≤ env.requestMaxBytes →
        Whole reads.flatten) := by
  refine ⟨fun inp idx h hi hdata => parse_inRange env hi hdata, fun reads h hacc => ?_⟩
  rw [callReads_eq_flatten] at hacc
  refine ⟨?_, fun hmax hlen => whole_of_http hmax (by omega) hacc⟩
  rw [scanEnds_iff hacc]
  constructor
  · intro hall
    exact (headersInRange_iff h).mp (hall [] _ rfl)
  · intro hnil ts r hrun
    have hstart : (requestAfter env reads h).http.Anchored := anchored_of_http hacc hnil
    have hend := run_induction (P := fun r : Mapped M => r.request.http.Anchored)
      (fun s a s' S he => S.touch he) hstart hrun
    exact (headersInRange_iff _).mpr hend.nil_mem

/-- A request with an escaped CR LF in its path and in its query, cut in its first line. -/
def escapedReads : List Bytes :=
  [ascii "get /%0d%0a?b=%0d%0a HT", ascii "TP/1.1\r\nHost: x\r\n\r\n"]

/-- After decoding, `Method` and `Query`, with line ends in the path and in the query, every scan
    still finds its line ends and stops. -/
theorem scans_in_range_escaped :
    ParseInRange .plain 38 { data := escapedReads.flatten } ∧
    ∃ h, callReads .plain escapedReads = .http h ∧
      ∃ r, run (Mapped.touch listMap) ⟨requestAfter .plain escapedReads h, none⟩
          [.foreachHeader, .access .foreachQuery, .method, .access .query] = some r ∧
        r.request.http.data = ascii "GET /\r\nd%0a?b=\r\nd\n0a HTTP/1.1\r\nhost: x\r\n\r\n" ∧
        HeadersInRange r.request.http := by
  have hi : index? (crlf ++ crlf) escapedReads.flatten = some 38 := by decide +kernel
  have hacc : callReads .plain escapedReads = .http
      { host := ascii "x", path := ascii "/\r\n", qStart := 12, qEnd := 20, hdrLen := 42,
        data := ascii "get /\r\nd%0a?b=%0d%0a HTTP/1.1\r\nhost: x\r\n\r\n" } := by decide +kernel
  obtain ⟨hparse, hheaders⟩ := scans_in_range listMap .plain
  refine ⟨hparse escapedReads.flatten 38 _ hi (by decide +kernel), _, hacc, ?_⟩
  have hrun : ∃ r ∈ run (Mapped.touch listMap) ⟨requestAfter .plain escapedReads
      { host := ascii "x", path := ascii "/\r\n", qStart := 12, qEnd := 20, hdrLen := 42,
        data := ascii "get /\r\nd%0a?b=%0d%0a HTTP/1.1\r\nhost: x\r\n\r\n" }, none⟩
      [.foreachHeader, .access .foreachQuery, .method, .access .query],
      r.request.http.data = ascii "GET /\r\nd%0a?b=\r\nd\n0a HTTP/1.1\r\nhost: x\r\n\r\n" := by
    decide +kernel
  obtain ⟨r, hr, hdata⟩ := hrun
  exact ⟨r, hr, hdata, (hheaders _ _ hacc).1.mpr (.inl (by decide +kernel)) _ r hr⟩

/-- The sum of the two lengths wraps to 45, one byte short of the header block: `ForeachHeader`
    finds no line end at byte 44, and panics.  And a block that begins with an empty line is not
    read to its end. -/
theorem scans_out_of_range :
    (∃ h, callOnce { Env.plain with requestMaxBytes := 2 ^ 32 - 1 }
        (ascii "GET / HTTP/1.1\r\nContent-Length: 4294967295\r\n\r\n") = .http h ∧
      h.data.length = 45 ∧ index? crlf (h.data.drop 44) = none ∧ h.headers = none) ∧
    HTTP.parse .plain { data := ascii "\r\nHost: a\r\n\r\n" }
      = .ok { data := ascii "\r\nHost: a\r\n\r\n", hdrLen := 13 } := by
  constructor
  · exact ⟨{ path := ascii "/", hdrLen := 46, bodyLen := 2 ^ 32 - 1,
             data := ascii "GET / HTTP/1.1\r\ncontent-length: 4294967295\r\n\r" },
      by decide +kernel, by decide +kernel, by decide +kernel, by decide +kernel⟩
  · decide +kernel

end Resh.Server
