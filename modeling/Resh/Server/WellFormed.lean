import Resh.Server.Requests

namespace Resh.Server

open Resh.Go Resh.Incremental

/-!
# Negative counts and lengths

`process` checks a count with `num > 65535` and a length with `length > math.MaxUint32`.  Numbers
come from `strconv.ParseInt` and carry a sign, so both checks let negative ones through: a
negative count becomes some `uint16`, a negative length moves the place where the tail is looked
for before the end of its own header.

* `callReads_wellFormed_iff` — an accepted request has the form of the protocol exactly when
  neither its count nor the first length out of order is negative;
* `noCrash_iff` — the parser and the accessors of the request stay inside their slices exactly
  when no negative length leads them outside.
-/

variable {inp behind : Bytes} {r : Redis}

/-! ### The form of an accepted request -/

/-- The consumed bytes are a count and that many groups, and the arguments of the request are
    the strings of the groups, whatever stands `behind` them. -/
def WellFormed (behind inp : Bytes) (r : Redis) : Prop :=
  r.read ≤ inp.length ∧ r.len ≤ 65535 ∧
    ∃ (count : Bytes) (groups : List (Bytes × Bytes)),
      inp.take r.read = encodeRequest count groups ∧ Numeral count r.len ∧ groups.length = r.len ∧
        (∀ g ∈ groups, Numeral g.1 g.2.length) ∧
        ∀ (i : ℕ) (g : Bytes × Bytes), groups[i]? = some g → r.get behind i = some g.2

/-- The input announces a negative count, or a negative length behind a count and fewer groups
    than the count asks for. -/
def NegativeHeader (inp : Bytes) : Prop :=
  (∃ num w, CountHead inp num w ∧ num < 0) ∨
    ∃ (count : Bytes) (num : ℤ) (groups : List (Bytes × Bytes)) (length : ℤ) (v : ℕ),
      encodeRequest count groups <+: inp ∧ Numeral count num ∧ num ≤ 65535 ∧ groups.length < num ∧
        (∀ g ∈ groups, Numeral g.1 g.2.length) ∧
        BulkHead inp (encodeRequest count groups).length length v ∧ length < 0

/-- A well-formed request has no negative header: the walk over its groups passes every header
    that the parser came to. -/
theorem WellFormed.not_negativeHeader (hlen : inp.length < 2 ^ 32) (h : WellFormed behind inp r) :
    ¬ NegativeHeader inp := by
  obtain ⟨hread, hsmall, count, groups, htake, hcount, hn, hg, -⟩ := h
  have hinp : encodeRequest count groups ++ inp.drop r.read = inp := by
    rw [← htake, List.take_append_drop]
  have henc : (encodeRequest count groups).length < 2 ^ 32 := by
    rw [← htake, List.length_take]; omega
  have hwalk := walk_of_groups (inp.drop r.read) hcount (by omega) (by omega) hg henc
  rw [hinp] at hwalk
  rintro (⟨num, w, hc, hneg⟩ | ⟨count', num, groups', length, v,
    ⟨t, ht⟩, hcount', hle, hlt, hg', hhead, hneg⟩)
  · have := (hwalk.count.unique (by decide) hc).1
    omega
  · have henc' : (encodeRequest count' groups').length < 2 ^ 32 := by
      have := congrArg List.length ht
      rw [List.length_append] at this
      omega
    have hwalk' := walk_of_groups t hcount' hle (by omega) hg' henc'
    rw [ht] at hwalk'
    obtain ⟨hnum, hw⟩ := hwalk.count.unique (by decide) hwalk'.count
    have hpart := hwalk'.chain
    rw [← hw] at hpart
    obtain ⟨ks, hks, hrest⟩ := hpart.exists_append hwalk.chain (by
      rw [offsets_length, offsets_length]; omega)
    generalize (encodeRequest count groups).length = e at hrest
    cases hrest with
    | nil =>
      have := congrArg List.length hks
      simp only [List.append_nil, offsets_length] at this
      omega
    | @cons _ w' _ length' ks head small nonneg fits cr lf rest =>
      obtain ⟨rfl, -⟩ := head.unique (by decide) hhead
      have hmem : ((encodeRequest count' groups').length + w', length') ∈
          offsets (count.length + 3) groups := by rw [hks]; simp
      have := offsets_nonneg hmem
      simp only at this
      omega

/-- Without a negative header no length of the walk is negative: the first one would be. -/
theorem Walk.nonneg {num : ℤ} {w q : ℕ} {gs : List (ℕ × ℤ)} (h : Walk inp num w gs q)
    (hnum : 0 ≤ num) (hno : ¬ NegativeHeader inp) : ∀ g ∈ gs, 0 ≤ g.2 := by
  -- From the right: the lengths before the last one are the text in front of its header.
  induction gs using List.reverseRecOn generalizing q with
  | nil => simp
  | append_singleton gs g ih =>
    obtain ⟨m, h₁, h₂⟩ := h.chain.split
    have hlen := h.length_le
    rw [List.length_append, List.length_singleton] at hlen
    have hwalk : Walk inp num w gs m := ⟨h.count, h.small, h₁, by omega⟩
    have hnn := ih hwalk
    obtain ⟨count, groups, hgs, htake, -, hcount, hg⟩ := hwalk.exists_text hnn
    have hm : (encodeRequest count groups).length = m := by
      rw [← htake, List.length_take, Nat.min_eq_left hwalk.end_le]
    have hcard : gs.length = groups.length := by rw [hgs, offsets_length]
    have hpre : encodeRequest count groups <+: inp := htake ▸ List.take_prefix _ _
    have hsmall := h.small
    cases h₂ with
    | @cons _ v _ length _ head small nonneg fits cr lf rest =>
      have hlast : 0 ≤ length := by
        by_contra hneg
        exact hno (Or.inr ⟨count, num, groups, length, v, hpre, hcount, hsmall, by omega, hg,
          hm.symm ▸ head, by omega⟩)
      intro g' hg'
      rcases List.mem_append.mp hg' with hg' | hg'
      · exact hnn g' hg'
      · rw [List.mem_singleton.mp hg']; exact hlast

/-- An accepted request without a negative header is well formed. -/
theorem wellFormed_of_accepted (env : Env) (hlen : inp.length < 2 ^ 32)
    (h : callOnce env inp = .redis r) (hno : ¬ NegativeHeader inp) : WellFormed behind inp r := by
  obtain ⟨num, w, gs, q, hwalk, hn, rfl⟩ := (callOnce_eq_redis_iff env hlen).mp h
  have hnum : 0 ≤ num := by
    by_contra hneg
    exact hno (Or.inl ⟨num, w, hwalk.count, by omega⟩)
  have hsmall := hwalk.small
  have hnn := hwalk.nonneg hnum hno
  obtain ⟨count, groups, rfl, htake, hdrop, hcount, hg⟩ := hwalk.exists_text hnn
  rw [offsets_length] at hn
  have hcard : (requestOf inp num (offsets w groups) q).len = groups.length := by
    rw [Redis.len, requestOf, List.length_map, offsets_length]
  refine ⟨hwalk.end_le, by omega, count, groups, htake, ?_, hcard.symm, hg, ?_⟩
  · have hval : ((requestOf inp num (offsets w groups) q).len : ℤ) = num := by omega
    rw [hval]
    exact hcount
  · intro i g hi
    exact hwalk.get_of_groups hlen hdrop hi behind

/-- **When accepted requests are well formed.** Whatever the segmentation, an accepted request
    has the form of the protocol iff no count and no length is negative. -/
theorem callReads_wellFormed_iff (env : Env) (reads : List Bytes) (r : Redis) (behind : Bytes)
    (hmax : env.requestMaxBytes < 2 ^ 32) (hlen : (reads.flatten.length : ℤ) ≤ env.requestMaxBytes)
    (h : callReads env reads = .redis r) :
    WellFormed behind reads.flatten r ↔ ¬ NegativeHeader reads.flatten := by
  have hlen' : reads.flatten.length < 2 ^ 32 := by omega
  rw [callReads_eq_flatten] at h
  exact ⟨fun hw => hw.not_negativeHeader hlen', wellFormed_of_accepted env hlen' h⟩

/-- A plain `GET k`, read in two pieces. -/
theorem callReads_wellFormed_iff_get :
    ¬ NegativeHeader [ascii "*2\r\n$3\r\nGE", ascii "T\r\n$1\r\nk\r\n"].flatten := by
  refine (callReads_wellFormed_iff .plain [ascii "*2\r\n$3\r\nGE", ascii "T\r\n$1\r\nk\r\n"]
    { data := ascii "*2\r\n$3\r\nGET\r\n$1\r\nk\r\n", read := 20,
      nargs := 2, ai := [(8, 3), (17, 1)] }
    (ascii "*1") (by decide) (by decide) (by decide +kernel)).mp ⟨by decide, by decide, ascii "2",
      [(ascii "3", ascii "GET"), (ascii "1", ascii "k")], by decide +kernel, by decide +kernel,
      by decide +kernel, by decide +kernel, ?_⟩
  intro i g hg
  match i with
  | 0 => obtain rfl : _ = g := by simpa using hg
         decide
  | 1 => obtain rfl : _ = g := by simpa using hg
         decide
  | i + 2 => exact absurd hg (by simp)

/-- The request of the length `-2`, whose only argument ends in front of its begin. -/
def backwardRequest : Redis :=
  { data := ascii "*1\r\n$-2\r\n", read := 9, nargs := 1, ai := [(9, 2 ^ 32 - 2)] }

theorem backwardRequest_get (behind : Bytes) : backwardRequest.get behind 0 = none :=
  slice?_eq_none (ascii "*1\r\n$-2\r\n" ++ behind) (by decide : (7 : ℤ) < 9)

/-- The length `-2` is accepted: its tail is the line end of its own header.  The argument then
    cannot be read. -/
theorem negative_length_accepted :
    ∃ r, callOnce .plain (ascii "*1\r\n$-2\r\n") = .redis r ∧
      ∀ behind, ¬ WellFormed behind (ascii "*1\r\n$-2\r\n") r := by
  refine ⟨backwardRequest, by decide, ?_⟩
  rintro behind ⟨-, -, count, groups, -, -, hn, -, hget⟩
  obtain ⟨g, rfl⟩ : ∃ g, groups = [g] := List.length_eq_one_iff.mp hn
  have hnone : some g.2 = none := (hget 0 g rfl).symm.trans (backwardRequest_get behind)
  exact absurd hnone (by simp)

/-! ### Panics -/

/-- The walk comes to a header that leads before the begin of the input, or is complete with a
    negative length among its strings. -/
def Crash (inp : Bytes) : Prop :=
  ∃ num w gs q, Walk inp num w gs q ∧
    ((gs.length < (num % 2 ^ 16).toNat ∧
        ∃ length v, BulkHead inp q length v ∧ (q + v + length : ℤ) < 0) ∨
      (gs.length = (num % 2 ^ 16).toNat ∧ ∃ g ∈ gs, g.2 < 0))

/-- No index or slice goes out of range: not in `process`, and not in the accessors of the
    request it accepts, with `behind` between the length and the capacity of its memory. -/
def NoPanic (behind : Bytes) (o : Outcome) : Prop :=
  o ≠ .panic ∧ ∀ r, o = .redis r → ∀ i : ℤ, 0 ≤ i → i < r.len →
    r.get behind i ≠ none ∧ r.str behind i ≠ none

/-- A request whose arguments have non-negative lengths can be read everywhere. -/
theorem Walk.get_ne_none {num i : ℤ} {w q : ℕ} {gs : List (ℕ × ℤ)} (hlen : inp.length < 2 ^ 32)
    (h : Walk inp num w gs q) (hnn : ∀ g ∈ gs, 0 ≤ g.2) (h0 : 0 ≤ i)
    (hi : i < (requestOf inp num gs q).len) : (requestOf inp num gs q).get behind i ≠ none := by
  obtain ⟨n, rfl⟩ := Int.eq_ofNat_of_zero_le h0
  have hn : n < gs.length := by simpa [Redis.len, requestOf] using hi
  rw [h.get_of_nonneg hlen hnn (List.getElem?_eq_getElem hn)]
  simp

theorem callOnce_noPanic_iff (env : Env) (hlen : inp.length < 2 ^ 32) :
    NoPanic behind (callOnce env inp) ↔ ¬ Crash inp := by
  constructor
  · rintro ⟨hp, hget⟩ ⟨num, w, gs, q, hwalk, ⟨hn, length, v, hhead, hneg⟩ | ⟨hn, g, hg, hneg⟩⟩
    · exact hp ((callOnce_eq_panic_iff env hlen).mpr
        ⟨num, w, gs, q, length, v, hwalk, hn, hhead, hneg⟩)
    · obtain ⟨i, hi⟩ := List.getElem?_of_mem hg
      have hlt : i < gs.length := (List.getElem?_eq_some_iff.mp hi).1
      have hsome := (hget _ ((callOnce_eq_redis_iff env hlen).mpr ⟨num, w, gs, q, hwalk, hn, rfl⟩) i
        (by omega) (by simpa [Redis.len, requestOf] using hlt)).1
      exact hsome (hwalk.get_of_neg hlen hi hneg behind)
  · intro hno
    refine ⟨fun hp => ?_, fun r hr i h0 hi => ?_⟩
    · obtain ⟨num, w, gs, q, length, v, hwalk, hn, hhead, hneg⟩ :=
        (callOnce_eq_panic_iff env hlen).mp hp
      exact hno ⟨num, w, gs, q, hwalk, Or.inl ⟨hn, length, v, hhead, hneg⟩⟩
    · obtain ⟨num, w, gs, q, hwalk, hn, rfl⟩ := (callOnce_eq_redis_iff env hlen).mp hr
      have hnn : ∀ g ∈ gs, 0 ≤ g.2 := fun g hg => by
        by_contra hneg
        exact hno ⟨num, w, gs, q, hwalk, Or.inr ⟨hn, g, hg, by omega⟩⟩
      exact ⟨hwalk.get_ne_none hlen hnn h0 hi, hwalk.get_ne_none hlen hnn h0 hi⟩

/-- **When no byte stream crashes the parser.** For every input and every segmentation of it. -/
theorem noCrash_iff (env : Env) (inp behind : Bytes) (hmax : env.requestMaxBytes < 2 ^ 31)
    (hlen : (inp.length : ℤ) ≤ env.requestMaxBytes) :
    (∀ reads : List Bytes, reads.flatten = inp → NoPanic behind (callReads env reads))
    ↔ ¬ Crash inp := by
  rw [← @callOnce_noPanic_iff inp behind env (show inp.length < 2 ^ 32 by omega)]
  constructor
  · intro h
    have := h [inp] (by simp)
    rwa [callReads_eq_flatten, List.flatten_cons, List.flatten_nil, List.append_nil] at this
  · rintro h reads rfl
    rwa [callReads_eq_flatten]

/-- `PING`, in two pieces. -/
theorem noCrash_iff_ping : ¬ Crash (ascii "*1\r\n$4\r\nPING\r\n") ∧
    NoPanic (ascii "*1") (callReads .plain [ascii "*1\r\n$4\r\nPI", ascii "NG\r\n"]) := by
  have hacc : callOnce .plain (ascii "*1\r\n$4\r\nPING\r\n") = .redis
      { data := ascii "*1\r\n$4\r\nPING\r\n", read := 14, nargs := 1, ai := [(8, 4)] } := by
    decide +kernel
  have hcrash : ¬ Crash (ascii "*1\r\n$4\r\nPING\r\n") := by
    refine (@callOnce_noPanic_iff _ (ascii "*1") .plain (by decide)).mp ?_
    rw [hacc]
    refine ⟨by simp, fun r hr i h0 hi => ?_⟩
    obtain rfl := Outcome.redis.inj hr
    obtain rfl : i = 0 := by simp [Redis.len] at hi; omega
    exact ⟨by decide, by decide⟩
  exact ⟨hcrash, (noCrash_iff .plain (ascii "*1\r\n$4\r\nPING\r\n")
    (ascii "*1") (by decide) (by decide)).mpr hcrash
    [ascii "*1\r\n$4\r\nPI", ascii "NG\r\n"] (by decide)⟩

/-- A length of `-200` makes `process` read before the begin of its input, and a length of `-2`
    makes `Get(0)` slice backwards. -/
theorem negative_length_crashes :
    callReads .plain [ascii "*1\r\n$-200\r\n"] = .panic ∧
      ∃ r, callReads .plain [ascii "*1\r\n$-2\r\n"] = .redis r ∧
      0 < r.len ∧ ∀ behind, r.get behind 0 = none :=
  ⟨by decide, backwardRequest, by decide, by decide, backwardRequest_get⟩

end Resh.Server
