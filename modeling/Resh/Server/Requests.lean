import Resh.Server.Bulk

namespace Resh.Server

open Resh.Go Resh.Incremental

/-!
# Which inputs are Redis requests

`callOnce` accepts a Redis request exactly after a count and a complete walk of bulk strings
(`callOnce_eq_redis_iff`), and panics exactly when the walk is led before the begin of the input
(`callOnce_eq_panic_iff`).  A walk may contain negative lengths, since the source bounds the count
and the lengths from above only; a text in the form of the protocol is walked group by group
(`walk_of_groups`, `Walk.exists_text`).
-/

variable {inp : Bytes} {r : Redis}

/-- A count `*num` of `w` bytes and the walk over `gs`, at most as many strings as the `uint16`
    counter asks for. -/
structure Walk (inp : Bytes) (num : ℤ) (w : ℕ) (gs : List (ℕ × ℤ)) (q : ℕ) : Prop where
  count : CountHead inp num w
  small : num ≤ 65535
  chain : Chain inp w gs q
  length_le : gs.length ≤ (num % 2 ^ 16).toNat

/-- The request that a complete walk fills. -/
def requestOf (inp : Bytes) (num : ℤ) (gs : List (ℕ × ℤ)) (q : ℕ) : Redis where
  data := inp.take q
  read := q
  nargs := (num % 2 ^ 16).toNat
  ai := gs.map fun g => (g.1, (g.2 % 2 ^ 32).toNat)

theorem Walk.end_le {num : ℤ} {w q : ℕ} {gs : List (ℕ × ℤ)} (h : Walk inp num w gs q) :
    q ≤ inp.length :=
  h.chain.end_le (by have := h.count.le; omega)

/-! ### The outcome behind a count -/

/-- An HTTP request, or an error of its header: the other branch of stage 0. -/
theorem outcome_headerStage (env : Env) (st : ServerReadState) (h : HTTP) (inp : Bytes) :
    outcome (headerStage env st h inp) ≠ .panic ∧
    ∀ r, outcome (headerStage env st h inp) ≠ .redis r := by
  unfold headerStage
  cases hi : index? (crlf ++ crlf) inp with
  | none => simp [outcome]
  | some idx =>
    have hset := parse_settled env { h with data := inp.take (idx + 4) } hi rfl
    simp only
    split
    · split
      · simp [outcome]
      · unfold bodyStage
        simp only
        split <;> simp [outcome]
    · simp [outcome]
    · simp [outcome]
    · rename_i hp; exact absurd hp hset.1

/-- Behind a count the outcome is that of the loop over the bulk strings. -/
theorem callOnce_of_countHead (env : Env) {num : ℤ} {w : ℕ} (hlen : inp.length < 2 ^ 32)
    (hc : CountHead inp num w) (hsmall : num ≤ 65535) :
    callOnce env inp
      = match bulkLoop inp (num % 2 ^ 16).toNat { read := w, nargs := (num % 2 ^ 16).toNat } with
        | (r, .ok ()) => .redis { r with data := inp.take r.read }
        | (_, .more) => .more
        | (_, .fail e) => .fail e
        | (_, .panic) => .panic := by
  obtain ⟨hq, hw⟩ := countHead_iff.mp hc
  have hle := hc.le.2
  have hstart : startRedis num w = { read := w, nargs := (num % 2 ^ 16).toNat } := by
    rw [startRedis, Nat.mod_eq_of_lt (by omega)]
  have hread : (bulkLoop inp (num % 2 ^ 16).toNat
      { read := w, nargs := (num % 2 ^ 16).toNat }).1.read ≤ inp.length :=
    bulkLoop_read_le _ (show w ≤ inp.length by omega)
  unfold callOnce process
  simp only [hq, if_neg hw, if_neg (show ¬ num > 65535 by omega), hstart]
  unfold redisStage
  simp only [List.length_nil, Nat.sub_zero]
  generalize bulkLoop inp (num % 2 ^ 16).toNat { read := w, nargs := (num % 2 ^ 16).toNat } = res
    at hread ⊢
  obtain ⟨r₁, ret⟩ := res
  cases ret with
  | ok u =>
    have hslice := slice?_eq_some inp (Nat.zero_le r₁.read) hread
    simp only [Nat.cast_zero, List.drop_zero] at hslice
    simp only [hslice, outcome]
  | more => rfl
  | fail e => rfl
  | panic => rfl

/-- Without a count in range the input is neither a Redis request nor a panic. -/
theorem callOnce_of_no_countHead (env : Env) (hc : ∀ num w, CountHead inp num w → 65535 < num) :
    callOnce env inp ≠ .panic ∧ ∀ r, callOnce env inp ≠ .redis r := by
  unfold callOnce process
  simp only
  split
  · rename_i num w hq
    by_cases hw : w = 0
    · rw [if_pos hw]; exact outcome_headerStage _ _ _ _
    · have hbig := hc num w (countHead_iff.mpr ⟨hq, hw⟩)
      rw [if_neg hw, if_pos (by omega)]
      simp [outcome]
  · simp [outcome]
  · simp [outcome]
  · rename_i hq; exact absurd hq (readByteAndNumberCrLf_ne_panic _ _)

/-- A round panics exactly when its header leads before the begin of the input. -/
theorem bulkStep_eq_panic_iff (hread : r.read ≤ inp.length) :
    bulkStep inp r = .panic ↔
      ∃ length w, BulkHead inp r.read length w ∧ (r.read + w + length : ℤ) < 0 := by
  constructor
  · intro h
    unfold bulkStep at h
    rw [slice?_rest hread] at h
    simp only at h
    split at h
    · rename_i length w hq
      by_cases hw : w = 0
      · -- The head byte exists: the number line reader saw four bytes.
        rw [if_pos hw] at h
        have hlt : (inp.drop r.read).length ≥ 4 := by
          by_contra hlt
          rw [readByteAndNumberCrLf, if_pos (by omega)] at hq
          exact absurd hq (by simp)
        rw [List.length_drop] at hlt
        obtain ⟨b, hb⟩ := at?_isSome inp (i := r.read) (by omega) (by omega)
        rw [hb] at h
        exact absurd h (by simp)
      · rw [if_neg hw] at h
        refine ⟨length, w, bulkHead_iff.mpr ⟨hq, hw⟩, ?_⟩
        -- with a place that is not negative both bytes of the line end are within the input
        by_contra hneg
        split at h
        · exact absurd h (by simp)
        unfold bulkBody at h
        simp only at h
        split at h
        · exact absurd h (by simp)
        rename_i hfit
        obtain ⟨a, ha⟩ := at?_isSome inp (i := r.read + w + length) (by omega) (by omega)
        obtain ⟨b, hb⟩ :=
          at?_isSome inp (i := r.read + w + length + 1) (by omega) (by omega)
        rw [ha, hb] at h
        simp only at h
        split at h <;> exact absurd h (by simp)
    · exact absurd h (by simp)
    · exact absurd h (by simp)
    · rename_i hq; exact absurd hq (readByteAndNumberCrLf_ne_panic _ _)
  · rintro ⟨length, w, hhead, hneg⟩
    obtain ⟨hq, hw⟩ := bulkHead_iff.mp hhead
    have hle := hhead.le
    unfold bulkStep
    rw [slice?_rest hread]
    simp only [hq, if_neg hw, if_neg (show ¬ length > 2 ^ 32 - 1 by omega)]
    unfold bulkBody
    rw [if_neg (by omega), at?_neg inp hneg]

/-! ### Accepted and crashing inputs -/

/-- **The three cases.** No Redis request and no panic; a complete walk, which is a request; or
    a walk that stops at a header which leads before the begin of the input. -/
theorem callOnce_cases (env : Env) (hlen : inp.length < 2 ^ 32) :
    (callOnce env inp ≠ .panic ∧ ∀ r, callOnce env inp ≠ .redis r) ∨
      ∃ num w gs q, Walk inp num w gs q ∧
        ((gs.length = (num % 2 ^ 16).toNat ∧ callOnce env inp = .redis (requestOf inp num gs q)) ∨
          (gs.length < (num % 2 ^ 16).toNat ∧ callOnce env inp = .panic ∧
            ∃ length v, BulkHead inp q length v ∧ (q + v + length : ℤ) < 0)) := by
  by_cases hc : ∃ num w, CountHead inp num w ∧ num ≤ 65535
  · obtain ⟨num, w, hc, hsmall⟩ := hc
    have hle : w ≤ inp.length := by have := hc.le; omega
    rw [callOnce_of_countHead env hlen hc hsmall]
    obtain ⟨gs, q, hchain, hcase⟩ := bulkLoop_cases hlen (num % 2 ^ 16).toNat
      { read := w, nargs := (num % 2 ^ 16).toNat } hle
    rcases hcase with ⟨hn, hloop⟩ | ⟨hn, hstop, hloop⟩
    · refine Or.inr ⟨num, w, gs, q, ⟨hc, hsmall, hchain, hn.le⟩, Or.inl ⟨hn, ?_⟩⟩
      rw [hloop]
      rfl
    · rw [hloop, bulkLoop]
      cases hs : bulkStep inp (Redis.push { read := w, nargs := (num % 2 ^ 16).toNat } gs q) with
      | ok r₁ => exact absurd hs (hstop r₁)
      | more => exact Or.inl (by simp)
      | fail e => exact Or.inl (by simp)
      | panic =>
        exact Or.inr ⟨num, w, gs, q, ⟨hc, hsmall, hchain, hn.le⟩, Or.inr ⟨hn, rfl,
          (bulkStep_eq_panic_iff (hchain.end_le hle)).mp hs⟩⟩
  · refine Or.inl (callOnce_of_no_countHead env fun num w hn => ?_)
    by_contra hsmall
    exact hc ⟨num, w, hn, by omega⟩

/-- **Accepted requests.** A count and a complete walk, and nothing else, is a Redis request. -/
theorem callOnce_eq_redis_iff (env : Env) (hlen : inp.length < 2 ^ 32) :
    callOnce env inp = .redis r ↔ ∃ num w gs q, Walk inp num w gs q ∧
      gs.length = (num % 2 ^ 16).toNat ∧ r = requestOf inp num gs q := by
  constructor
  · intro h
    rcases callOnce_cases env hlen with ⟨-, hno⟩ | ⟨num, w, gs, q, hwalk, ⟨hn, hr⟩ | ⟨-, hp, -⟩⟩
    · exact absurd h (hno r)
    · rw [h, Outcome.redis.injEq] at hr
      exact ⟨num, w, gs, q, hwalk, hn, hr⟩
    · rw [h] at hp; exact absurd hp (by simp)
  · rintro ⟨num, w, gs, q, hwalk, hn, rfl⟩
    have hle := hwalk.count.le.2
    rw [callOnce_of_countHead env hlen hwalk.count hwalk.small, ← hn, ← Nat.add_zero gs.length,
      bulkLoop_of_chain hlen hwalk.chain (by omega) 0 _ rfl, Nat.add_zero, hn]
    rfl

/-- **Crashing inputs.** `process` indexes out of range exactly when the walk comes to a header
    that leads before the begin of the input. -/
theorem callOnce_eq_panic_iff (env : Env) (hlen : inp.length < 2 ^ 32) :
    callOnce env inp = .panic ↔ ∃ num w gs q length v, Walk inp num w gs q ∧
      gs.length < (num % 2 ^ 16).toNat ∧ BulkHead inp q length v ∧ (q + v + length : ℤ) < 0 := by
  constructor
  · intro h
    rcases callOnce_cases env hlen with ⟨hno, -⟩ | ⟨num, w, gs, q, hwalk, ⟨-, hr⟩ | ⟨hn, -, hhead⟩⟩
    · exact absurd h hno
    · rw [h] at hr; exact absurd hr (by simp)
    · obtain ⟨length, v, hhead, hneg⟩ := hhead
      exact ⟨num, w, gs, q, length, v, hwalk, hn, hhead, hneg⟩
  · rintro ⟨num, w, gs, q, length, v, hwalk, hn, hhead, hneg⟩
    have hle := hwalk.count.le.2
    obtain ⟨k, hk⟩ : ∃ k, (num % 2 ^ 16).toNat = gs.length + (k + 1) :=
      ⟨(num % 2 ^ 16).toNat - gs.length - 1, by omega⟩
    have hstep : bulkStep inp (Redis.push { read := w, nargs := (num % 2 ^ 16).toNat } gs q)
      = .panic :=
      (bulkStep_eq_panic_iff hwalk.end_le).mpr ⟨length, v, hhead, hneg⟩
    have hloop := bulkLoop_of_chain hlen hwalk.chain (by omega) (k + 1)
      { read := w, nargs := (num % 2 ^ 16).toNat } rfl
    rw [← hk, bulkLoop, hstep] at hloop
    rw [callOnce_of_countHead env hlen hwalk.count hwalk.small, hloop]

/-! ### The accessors of a request -/

section Accessors

variable {num : ℤ} {w q i : ℕ} {gs : List (ℕ × ℤ)} {g : ℕ × ℤ}

/-- The `uint32` sums of `Get` do not wrap around the length of the input. -/
theorem Walk.get_eq (hlen : inp.length < 2 ^ 32) (h : Walk inp num w gs q) (hg : gs[i]? = some g)
    (behind : Bytes) :
    (requestOf inp num gs q).get behind i = slice? (inp.take q ++ behind)
    g.1 (g.1 + g.2).toNat := by
  have hmem := List.mem_of_getElem? hg
  obtain ⟨h0, hle, -, -⟩ := h.chain.mem_bounds hmem
  have hi : i < gs.length := (List.getElem?_eq_some_iff.mp hg).1
  unfold Redis.get requestOf
  rw [if_pos (by simpa using hi), if_pos (by omega)]
  simp only [Int.toNat_natCast, List.getElem?_map, hg, Option.map_some]
  congr 1
  omega

/-- A string of non-negative length is read from its place. -/
theorem Walk.get_of_nonneg (hlen : inp.length < 2 ^ 32) (h : Walk inp num w gs q)
    (hnn : ∀ g ∈ gs, 0 ≤ g.2) (hg : gs[i]? = some g) (behind : Bytes) :
    (requestOf inp num gs q).get behind i = some ((inp.drop g.1).take g.2.toNat) := by
  have hmem := List.mem_of_getElem? hg
  have h0 := hnn g hmem
  have hq := (h.chain.forward hnn).2 g hmem
  have hend := h.end_le
  have hin : (g.1 + g.2).toNat ≤ (inp.take q).length := by
    rw [List.length_take]
    omega
  rw [h.get_eq hlen hg, slice?_eq_some _ (by omega) (by rw [List.length_append]; omega),
    List.take_append_of_le_length hin, List.take_take, Nat.min_eq_left (by omega), List.drop_take,
    show (g.1 + g.2).toNat - g.1 = g.2.toNat by omega]

/-- A negative length cuts the slice the wrong way round. -/
theorem Walk.get_of_neg (hlen : inp.length < 2 ^ 32) (h : Walk inp num w gs q)
    (hg : gs[i]? = some g) (hneg : g.2 < 0) (behind : Bytes) :
    (requestOf inp num gs q).get behind i = none := by
  have h0 := (h.chain.mem_bounds (List.mem_of_getElem? hg)).1
  rw [h.get_eq hlen hg]
  exact slice?_eq_none _ (by omega)

end Accessors

/-! ### Requests in the form of the protocol -/

/-- `*N` and the arguments, the numerals as they are written. -/
def encodeRequest (count : Bytes) (groups : List (Bytes × Bytes)) : Bytes :=
  ch '*' :: count ++ crlf ++ groups.flatMap encodeGroup

section Groups

variable {count t : Bytes} {groups : List (Bytes × Bytes)} {g : Bytes × Bytes}

theorem length_le_encodeRequest (hg : g ∈ groups) :
    g.2.length ≤ (encodeRequest count groups).length := by
  obtain ⟨l₁, l₂, rfl⟩ := List.append_of_mem hg
  simp [encodeRequest, encodeGroup_length]
  omega

/-- A text of the right form is walked from its begin to its end. -/
theorem walk_of_groups {num : ℤ} (t : Bytes) (hcount : Numeral count num) (hsmall : num ≤ 65535)
    (hle : groups.length ≤ num) (hg : ∀ g ∈ groups, Numeral g.1 g.2.length)
    (hlen : (encodeRequest count groups).length < 2 ^ 32) :
    Walk (encodeRequest count groups ++ t) num (count.length + 3)
      (offsets (count.length + 3) groups) (encodeRequest count groups).length := by
  have hpre : (ch '*' :: count ++ crlf).length = count.length + 3 := by simp
  refine ⟨⟨count, groups.flatMap encodeGroup ++ t, ?_, hcount, ⟨by omega, by omega⟩, rfl⟩, by omega,
    ?_, by rw [offsets_length]; omega⟩
  · rw [List.drop_zero, encodeRequest, List.append_assoc]
  · rw [← hpre]
    exact chain_of_groups _ t groups fun g hm =>
      ⟨hg g hm, lt_of_le_of_lt (length_le_encodeRequest hm) hlen⟩

/-- A walk of non-negative lengths is a text of the right form. -/
theorem Walk.exists_text {num : ℤ} {w q : ℕ} {gs : List (ℕ × ℤ)} (h : Walk inp num w gs q)
    (hnn : ∀ g ∈ gs, 0 ≤ g.2) :
    ∃ count groups, gs = offsets w groups ∧ inp.take q = encodeRequest count groups ∧
      inp.drop w = groups.flatMap encodeGroup ++ inp.drop q ∧ Numeral count num ∧
      ∀ g ∈ groups, Numeral g.1 g.2.length := by
  obtain ⟨groups, hgs, hdrop, hnum⟩ := h.chain.exists_groups hnn
  obtain ⟨count, rest, hcount, hn, -, hw⟩ := h.count
  have hinp : inp = encodeRequest count groups ++ inp.drop q := by
    have hrest : rest = inp.drop w := by
      rw [← Nat.zero_add w, ← List.drop_drop, hcount, hw, List.drop_left' (by simp)]
    rw [List.drop_zero, hrest, hdrop, ← List.append_assoc] at hcount
    exact hcount
  refine ⟨count, groups, hgs, ?_, hdrop, hn, hnum⟩
  have hcut : inp.take q ++ inp.drop q = encodeRequest count groups ++ inp.drop q := by
    rw [List.take_append_drop]; exact hinp
  exact List.append_cancel_right hcut

/-- The arguments of the request are the strings of its groups. -/
theorem Walk.get_of_groups {num : ℤ} {w q i : ℕ} (hlen : inp.length < 2 ^ 32)
    (h : Walk inp num w (offsets w groups) q) (hdrop : inp.drop w = groups.flatMap encodeGroup ++ t)
    (hg : groups[i]? = some g) (behind : Bytes) :
    (requestOf inp num (offsets w groups) q).get behind i = some g.2 := by
  obtain ⟨s, rest, hoff, htext⟩ := offsets_getElem? hdrop hg
  rw [h.get_of_nonneg hlen (fun m hm => offsets_nonneg hm) hoff]
  simp [htext]

end Groups

end Resh.Server
