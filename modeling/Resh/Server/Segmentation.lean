import Resh.Server.State

namespace Resh.Server

open Resh.Go Resh.Incremental

/-!
# The request parser does not see the cuts between reads

`process` is a resumable consumer (`process_resumable`): a call that asked for more input is
continued by the next one exactly as if all the bytes had been there at once, and a call that
did not is unchanged by more bytes.  The parser suspends at three places, and each has its own
reason to resume:

* in the argument count nothing is kept;
* between two bulk strings the request holds the offsets read so far, and `bulkLoop` goes on
  from there (`bulkLoop_append`);
* in the body the header block is already rewritten in the buffer, in place and with its length
  kept, and stage 7 only measures.

The offset `read` stays inside the buffer (`bulkStep_read_le`), so no slice that panics on a
short buffer could succeed on a longer one.
-/

variable {inp t : Bytes} {r r' : Redis}

/-! ### One bulk string -/

/-- The rest of the input behind what is read. -/
theorem slice?_rest (h : r.read ≤ inp.length) :
    slice? inp r.read inp.length = some (inp.drop r.read) := by
  rw [slice?_eq_some inp h le_rfl, List.take_length]

/-- The tail of a bulk string, once there, is the same in a longer buffer. -/
theorem bulkBody_append {length : ℤ} {w : ℕ} (h : bulkBody inp r length w ≠ .more) :
    bulkBody (inp ++ t) r length w = bulkBody inp r length w := by
  unfold bulkBody at h ⊢
  by_cases hlt : (inp.length : ℤ) < r.read + w + length + 2
  · rw [if_pos hlt] at h; exact absurd rfl h
  · have hlt' : ¬ ((inp ++ t).length : ℤ) < r.read + w + length + 2 := by
      rw [List.length_append]; push_cast; omega
    rw [if_neg hlt, if_neg hlt', at?_append inp t (by omega), at?_append inp t (by omega)]

/-- A bulk string that is complete lies within the input with its CR LF, and its place is recorded
    in `uint32`s. -/
theorem bulkBody_eq_ok {length : ℤ} {w : ℕ} (h : bulkBody inp r length w = .ok r') :
    0 ≤ r.read + w + length ∧ (r.read + w + length + 2 : ℤ) ≤ inp.length ∧
      at? inp (r.read + w + length) = some 13 ∧ at? inp (r.read + w + length + 1) = some 10 ∧
      r' = { r with
        ai := r.ai ++ [((r.read + w) % 2 ^ 32, (length % 2 ^ 32).toNat)]
        read := ((r.read + w + length + 2) % 2 ^ 32).toNat } := by
  unfold bulkBody at h
  by_cases hlt : (inp.length : ℤ) < r.read + w + length + 2
  · rw [if_pos hlt] at h; exact absurd h (by simp)
  rw [if_neg hlt] at h
  by_cases h0 : 0 ≤ (r.read + w + length : ℤ)
  · obtain ⟨a, ha⟩ := at?_isSome inp h0 (by omega)
    obtain ⟨b, hb⟩ := at?_isSome inp (i := r.read + w + length + 1) (by omega) (by omega)
    simp only [ha, hb] at h
    split at h
    · exact absurd h (by simp)
    · rename_i hab
      simp only [not_or, not_not] at hab
      obtain ⟨rfl, rfl⟩ := hab
      simp only [Ret.ok.injEq] at h
      refine ⟨h0, by omega, ha, hb, ?_⟩
      rw [← h, show (r.read + (w + length + 2) : ℤ) = r.read + w + length + 2 by omega]
  · simp only [at?_neg inp (show r.read + w + length < 0 by omega)] at h
    exact absurd h (by simp)

/-- One round does not look behind its input. -/
theorem bulkStep_append (hread : r.read ≤ inp.length) (h : bulkStep inp r ≠ .more) :
    bulkStep (inp ++ t) r = bulkStep inp r := by
  have hread' : r.read ≤ (inp ++ t).length := by rw [List.length_append]; omega
  have hdrop : (inp ++ t).drop r.read = inp.drop r.read ++ t :=
    List.drop_append_of_le_length hread
  unfold bulkStep at h ⊢
  rw [slice?_rest hread] at h ⊢
  rw [slice?_rest hread', hdrop]
  simp only at h ⊢
  cases hq : readByteAndNumberCrLf (ch '$') (inp.drop r.read) with
  | more => rw [hq] at h; exact absurd rfl h
  | fail e => rw [readByteAndNumberCrLf_append (by simp [hq]), hq]
  | panic => rw [readByteAndNumberCrLf_append (by simp [hq]), hq]
  | ok p =>
    obtain ⟨length, w⟩ := p
    rw [readByteAndNumberCrLf_append (by simp [hq]), hq]
    rw [hq] at h
    simp only at h ⊢
    by_cases hw : w = 0
    · have hlt : (r.read : ℤ) < inp.length := by
        unfold readByteAndNumberCrLf at hq
        split at hq
        · exact absurd hq (by simp)
        · rename_i h4; rw [List.length_drop] at h4; omega
      rw [if_pos hw, if_pos hw, at?_append inp t hlt]
    · rw [if_neg hw] at h
      rw [if_neg hw, if_neg hw]
      by_cases hbig : length > 2 ^ 32 - 1
      · rw [if_pos hbig, if_pos hbig]
      · rw [if_neg hbig] at h
        rw [if_neg hbig, if_neg hbig, bulkBody_append h]

/-- What a completed round did: the header at `read`, the tail behind the string. -/
theorem bulkStep_eq_ok (hread : r.read ≤ inp.length) (h : bulkStep inp r = .ok r') :
    ∃ length w, readByteAndNumberCrLf (ch '$') (inp.drop r.read) = .ok (length, w) ∧ w ≠ 0 ∧
      length ≤ 2 ^ 32 - 1 ∧ bulkBody inp r length w = .ok r' := by
  unfold bulkStep at h
  rw [slice?_rest hread] at h
  simp only at h
  split at h
  · rename_i length w hq
    split at h
    · split at h <;> exact absurd h (by simp)
    · rename_i hw
      split at h
      · exact absurd h (by simp)
      · rename_i hbig
        exact ⟨length, w, hq, hw, by omega, h⟩
  · exact absurd h (by simp)
  · exact absurd h (by simp)
  · exact absurd h (by simp)

/-- **The read offset stays inside the buffer**, also where it wraps. -/
theorem bulkStep_read_le (hread : r.read ≤ inp.length) (h : bulkStep inp r = .ok r') :
    r'.read ≤ inp.length ∧ r'.ai.length = r.ai.length + 1 ∧ r'.nargs = r.nargs := by
  obtain ⟨length, w, -, -, -, hb⟩ := bulkStep_eq_ok hread h
  obtain ⟨h0, hle, -, -, rfl⟩ := bulkBody_eq_ok hb
  refine ⟨?_, by simp, rfl⟩
  show ((r.read + w + length + 2 : ℤ) % 2 ^ 32).toNat ≤ inp.length
  omega

/-! ### The loop over the bulk strings -/

/-- A loop that came to a result comes to it on a longer buffer too. -/
theorem bulkLoop_append_stop (n : ℕ) (hread : r.read ≤ inp.length)
    (h : (bulkLoop inp n r).2 ≠ .more) : bulkLoop (inp ++ t) n r = bulkLoop inp n r := by
  induction n generalizing r with
  | zero => rfl
  | succ n ih =>
    rw [bulkLoop, bulkLoop]
    rw [bulkLoop] at h
    cases hs : bulkStep inp r with
    | more => rw [hs] at h; exact absurd rfl h
    | fail e => rw [bulkStep_append hread (by simp [hs]), hs]
    | panic => rw [bulkStep_append hread (by simp [hs]), hs]
    | ok r₁ =>
      rw [hs] at h
      rw [bulkStep_append hread (by simp [hs]), hs]
      exact ih (bulkStep_read_le hread hs).1 h

/-- **The loop resumes.** Where it asked for more, the request it kept is the one the loop over
    the longer buffer passes through. -/
theorem bulkLoop_append_more (n : ℕ) (hread : r.read ≤ inp.length)
    (h : bulkLoop inp n r = (r', .more)) :
    r'.read ≤ inp.length ∧ r'.nargs = r.nargs ∧ r.ai.length ≤ r'.ai.length ∧
      bulkLoop (inp ++ t) n r = bulkLoop (inp ++ t) (n - (r'.ai.length - r.ai.length)) r' := by
  induction n generalizing r with
  | zero => exact absurd h (by simp [bulkLoop])
  | succ n ih =>
    rw [bulkLoop] at h
    cases hs : bulkStep inp r with
    | more =>
      simp only [hs, Prod.mk.injEq, and_true] at h
      subst h
      exact ⟨hread, rfl, le_rfl, by simp⟩
    | fail e => simp [hs] at h
    | panic => simp [hs] at h
    | ok r₁ =>
      rw [hs] at h
      obtain ⟨hread₁, hlen₁, hnargs₁⟩ := bulkStep_read_le hread hs
      obtain ⟨h₁, h₂, h₃, h₄⟩ := ih hread₁ h
      refine ⟨h₁, h₂.trans hnargs₁, by omega, ?_⟩
      rw [bulkLoop, bulkStep_append hread (by simp [hs]), hs]
      simp only [h₄, show n + 1 - (r'.ai.length - r.ai.length)
        = n - (r'.ai.length - r₁.ai.length) by omega]

/-- The parser does not read behind the input. -/
theorem bulkLoop_read_le (n : ℕ) (hread : r.read ≤ inp.length) :
    (bulkLoop inp n r).1.read ≤ inp.length := by
  induction n generalizing r with
  | zero => exact hread
  | succ n ih =>
    rw [bulkLoop]
    cases hs : bulkStep inp r with
    | more => exact hread
    | fail e => exact hread
    | panic => exact hread
    | ok r₁ => exact ih (bulkStep_read_le hread hs).1

/-! ### The stages -/

variable {st : ServerReadState} {h : HTTP}

/-- Stage 1, with the loop that came to a result. -/
theorem redisStage_append_stop (hread : r.read ≤ inp.length)
    (hs : (redisStage st r inp).ret ≠ .more) :
    redisStage st r (inp ++ t)
      = ⟨(redisStage st r inp).state, (redisStage st r inp).buf ++ t,
        (redisStage st r inp).ret⟩ := by
  have hle := bulkLoop_read_le (r.nargs - r.ai.length) hread
  have hmore : (bulkLoop inp (r.nargs - r.ai.length) r).2 ≠ .more := by
    intro hm
    refine hs ?_
    unfold redisStage
    rw [show bulkLoop inp (r.nargs - r.ai.length) r
      = ((bulkLoop inp (r.nargs - r.ai.length) r).1, .more) by rw [← hm]]
  unfold redisStage
  rw [bulkLoop_append_stop _ hread hmore]
  rcases hl : bulkLoop inp (r.nargs - r.ai.length) r with ⟨r₁, ret⟩
  simp only [hl] at hle hmore
  cases ret with
  | more => exact absurd rfl hmore
  | fail e => rfl
  | panic => rfl
  | ok u =>
    have h₁ : slice? inp (0 : ℕ) r₁.read = _ := slice?_eq_some inp (Nat.zero_le _) hle
    have h₂ : slice? (inp ++ t) (0 : ℕ) r₁.read = _ :=
      slice?_eq_some (inp ++ t) (Nat.zero_le _) (by rw [List.length_append]; omega)
    simp only [Nat.cast_zero] at h₁ h₂
    simp only [h₁, h₂, List.take_append_of_le_length hle]

/-- Stage 1 resumed. -/
theorem redisStage_append_more {b : Bytes} {st' : ServerReadState} (hread : r.read ≤ inp.length)
    (hstage : st.stage = 1) (hs : redisStage st r inp = ⟨st', b, .more⟩) :
    b = inp ∧ st'.stage = 1 ∧ ∃ r', st'.redis = some r' ∧
      redisStage st' r' (inp ++ t) = redisStage st r (inp ++ t) := by
  unfold redisStage at hs
  cases hl : bulkLoop inp (r.nargs - r.ai.length) r with
  | mk r₁ ret =>
    rw [hl] at hs
    cases ret with
    | ok u =>
      simp only at hs
      split at hs <;> simp at hs
    | fail e => simp at hs
    | panic => simp at hs
    | more =>
      simp only [Call.mk.injEq, and_true] at hs
      obtain ⟨rfl, rfl⟩ := hs
      obtain ⟨-, h₂, h₃, h₄⟩ := bulkLoop_append_more (t := t) _ hread hl
      refine ⟨rfl, hstage, r₁, rfl, ?_⟩
      unfold redisStage
      rw [h₄, h₂, show r.nargs - r₁.ai.length
        = r.nargs - r.ai.length - (r₁.ai.length - r.ai.length) by omega]

/-- Stage 7 only measures the buffer. -/
theorem bodyStage_append_stop (hs : (bodyStage st h inp).ret ≠ .more) :
    bodyStage st h (inp ++ t)
      = ⟨(bodyStage st h inp).state, (bodyStage st h inp).buf ++ t, (bodyStage st h inp).ret⟩ := by
  unfold bodyStage at hs ⊢
  by_cases hlt : inp.length < (h.hdrLen + h.bodyLen) % 2 ^ 32
  · simp only [if_pos hlt] at hs; exact absurd rfl hs
  · have hlt' : ¬ (inp ++ t).length < (h.hdrLen + h.bodyLen) % 2 ^ 32 := by
      rw [List.length_append]; omega
    simp only [if_neg hlt, if_neg hlt', List.take_append_of_le_length (Nat.le_of_not_lt hlt)]

/-- Waiting for a body changes neither the state nor the buffer. -/
theorem bodyStage_more {st' : ServerReadState} {b : Bytes}
    (hs : bodyStage st h inp = ⟨st', b, .more⟩) : st' = st ∧ b = inp := by
  unfold bodyStage at hs
  simp only at hs
  split at hs
  · simp only [Call.mk.injEq, and_true] at hs; exact ⟨hs.1.symm, hs.2.symm⟩
  · simp at hs

/-- Stage 6 on a buffer that holds the header block: `parse` sees only the block. -/
theorem headerStage_append (env : Env) {idx : ℕ} (hi : index? (crlf ++ crlf) inp = some idx) :
    headerStage env st h (inp ++ t)
      = match ({ h with data := inp.take (idx + 4) } : HTTP).parse env with
        | .ok h' =>
          if h'.bodyLen = 0 then
            ⟨{ st with stage := 8, http := some h' }, h'.data ++ inp.drop (idx + 4) ++ t, .ok ()⟩
          else bodyStage { st with stage := 7, http := some h' } h'
            (h'.data ++ inp.drop (idx + 4) ++ t)
        | .more => ⟨st, inp ++ t, .more⟩
        | .fail e => ⟨st, inp ++ t, .fail e⟩
        | .panic => ⟨st, inp ++ t, .panic⟩ := by
  have hle : idx + 4 ≤ inp.length := index?_le (by simp [crlf]) hi
  have htake : (inp ++ t).take (idx + 4) = inp.take (idx + 4) := List.take_append_of_le_length hle
  have hdrop : (inp ++ t).drop (idx + 4) = inp.drop (idx + 4) ++ t :=
    List.drop_append_of_le_length hle
  unfold headerStage
  rw [index?_append (by simp [crlf]) hi t]
  cases hp : ({ h with data := inp.take (idx + 4) } : HTTP).parse env with
  | ok h' => simp only [htake, hdrop, hp, List.append_assoc]
  | more => simp only [htake, hp]
  | fail e => simp only [htake, hp]
  | panic => simp only [htake, hp]

/-- Stage 6, come to a result. -/
theorem headerStage_append_stop (env : Env) (hs : (headerStage env st h inp).ret ≠ .more) :
    headerStage env st h (inp ++ t)
      = ⟨(headerStage env st h inp).state, (headerStage env st h inp).buf ++ t,
          (headerStage env st h inp).ret⟩ := by
  cases hi : index? (crlf ++ crlf) inp with
  | none => simp only [headerStage, hi] at hs; exact absurd rfl hs
  | some idx =>
    have h₀ : headerStage env st h (inp ++ []) = _ := headerStage_append env hi
    simp only [List.append_nil] at h₀
    rw [h₀] at hs ⊢
    rw [headerStage_append env hi]
    cases hp : ({ h with data := inp.take (idx + 4) } : HTTP).parse env with
    | more => simp [hp] at hs
    | fail e => rfl
    | panic => rfl
    | ok h' =>
      simp only [hp] at hs ⊢
      by_cases hb : h'.bodyLen = 0
      · simp only [if_pos hb]
      · simp only [if_neg hb] at hs ⊢
        exact bodyStage_append_stop hs

/-- Stage 6 suspended: before the header block is complete nothing is kept, behind it the
    rewritten buffer and stage 7 are. -/
theorem headerStage_more (env : Env) {st' : ServerReadState} {b : Bytes} (hstage : st.stage = 6)
    (hhttp : st.http = some h) (hs : headerStage env st h inp = ⟨st', b, .more⟩) :
    process env st' (b ++ t) = headerStage env st h (inp ++ t) := by
  cases hi : index? (crlf ++ crlf) inp with
  | none =>
    simp only [headerStage, hi, Call.mk.injEq, and_true] at hs
    obtain ⟨rfl, rfl⟩ := hs
    simp only [process, hstage, hhttp]
  | some idx =>
    have h₀ : headerStage env st h (inp ++ []) = _ := headerStage_append env hi
    simp only [List.append_nil] at h₀
    rw [h₀] at hs
    rw [headerStage_append env hi]
    cases hp : ({ h with data := inp.take (idx + 4) } : HTTP).parse env with
    | more => exact absurd hp (parse_settled env _ hi rfl).2.1
    | fail e => simp [hp] at hs
    | panic => simp [hp] at hs
    | ok h' =>
      simp only [hp] at hs ⊢
      by_cases hb : h'.bodyLen = 0
      · simp [if_pos hb] at hs
      · rw [if_neg hb] at hs ⊢
        obtain ⟨rfl, rfl⟩ := bodyStage_more hs
        simp only [process]

/-! ### `process` -/

/-- The length of the count line wraps into the buffer. -/
theorem startRedis_read_le {num : ℤ} {w : ℕ}
    (hq : readByteAndNumberCrLf (ch '*') inp = .ok (num, w)) :
    (startRedis num w).read ≤ inp.length :=
  le_trans (Nat.mod_le _ _) (readByteAndNumberCrLf_le hq)

/-- **`process` is resumable.** -/
theorem process_resumable (env : Env) : Resumable (process env) {} where
  start := rfl
  resume := by
    intro p d s b hs
    unfold process at hs
    simp only at hs
    cases hq : readByteAndNumberCrLf (ch '*') p with
    | more =>
      simp only [hq, Call.mk.injEq, and_true] at hs
      obtain ⟨rfl, rfl⟩ := hs
      rfl
    | fail e => simp [hq] at hs
    | panic => simp [hq] at hs
    | ok q =>
      obtain ⟨num, w⟩ := q
      have hq' := readByteAndNumberCrLf_append (t := d)
        (by simp [hq] : readByteAndNumberCrLf (ch '*') p ≠ .more)
      rw [hq] at hq'
      -- the second call starts in a later stage, the call on everything in stage 0: they meet
      -- behind the header
      have hrhs : process env {} (p ++ d)
          = if w = 0 then headerStage env { stage := 6, http := some {} } {} (p ++ d)
            else if num > 65535 then ⟨{}, p ++ d, .fail .tooManyArgs⟩
            else redisStage { stage := 1, redis := some (startRedis num w) }
            (startRedis num w) (p ++ d) := by
        simp only [process, hq']
      rw [hrhs]
      simp only [hq] at hs
      by_cases hw : w = 0
      · rw [if_pos hw] at hs ⊢
        exact headerStage_more env rfl rfl hs
      · rw [if_neg hw] at hs ⊢
        by_cases hbig : num > 65535
        · simp [if_pos hbig] at hs
        · rw [if_neg hbig] at hs ⊢
          -- the arguments that were read are in the state
          obtain ⟨rfl, hst, r', hr', heq⟩ :=
            redisStage_append_more (t := d) (startRedis_read_le hq) rfl hs
          rw [← heq]
          simp only [process, hst, hr']
  stable := by
    intro p d hs
    cases hq : readByteAndNumberCrLf (ch '*') p with
    | more => simp [process, hq] at hs
    | fail e =>
      have hq' := readByteAndNumberCrLf_append (t := d)
        (by simp [hq] : readByteAndNumberCrLf (ch '*') p ≠ .more)
      simp only [process, hq', hq]
    | panic => exact absurd hq (readByteAndNumberCrLf_ne_panic _ _)
    | ok q =>
      obtain ⟨num, w⟩ := q
      have hq' := readByteAndNumberCrLf_append (t := d)
        (by simp [hq] : readByteAndNumberCrLf (ch '*') p ≠ .more)
      simp only [process, hq', hq] at hs ⊢
      by_cases hw : w = 0
      · simp only [if_pos hw] at hs ⊢
        exact headerStage_append_stop env hs
      · simp only [if_neg hw] at hs ⊢
        by_cases hbig : num > 65535
        · simp only [if_pos hbig]
        · simp only [if_neg hbig] at hs ⊢
          exact redisStage_append_stop (startRedis_read_le hq) hs

/-! ### No call reports its own stage -/

/-- Reading a header of RESP never fails with `invalid stage`: this error is that of the last branch
    of `process` only. -/
theorem readByteAndNumberCrLf_ne_invalidStage (head : UInt8) (n : ℕ) :
    readByteAndNumberCrLf head inp ≠ .fail (.invalidStage n) := by
  unfold readByteAndNumberCrLf
  repeat' split
  all_goals simp

/-- Reading the body of a bulk string never fails with `invalid stage`. -/
theorem bulkBody_ne_invalidStage {length : ℤ} {w : ℕ} (n : ℕ) :
    bulkBody inp r length w ≠ .fail (.invalidStage n) := by
  unfold bulkBody
  simp only
  repeat' split
  all_goals simp

/-- Reading one argument never fails with `invalid stage`. -/
theorem bulkStep_ne_invalidStage (n : ℕ) : bulkStep inp r ≠ .fail (.invalidStage n) := by
  unfold bulkStep
  split
  · simp
  · split
    · split
      · split <;> simp
      · split
        · simp
        · exact bulkBody_ne_invalidStage n
    · simp
    · rename_i e hq
      intro hn
      simp only [Ret.fail.injEq] at hn
      exact readByteAndNumberCrLf_ne_invalidStage _ n (hn ▸ hq)
    · simp

/-- Reading all arguments never fails with `invalid stage`, by induction over the rounds of the
    loop. -/
theorem bulkLoop_ne_invalidStage (k n : ℕ) : (bulkLoop inp k r).2 ≠ .fail (.invalidStage n) := by
  induction k generalizing r with
  | zero => simp [bulkLoop]
  | succ k ih =>
    rw [bulkLoop]
    cases hs : bulkStep inp r with
    | ok r₁ => exact ih
    | more => simp
    | panic => simp
    | fail e =>
      rintro he
      simp only [Ret.fail.injEq] at he
      exact bulkStep_ne_invalidStage n (he ▸ hs)

/-- The stage of the arguments never fails with `invalid stage`. -/
theorem redisStage_ne_invalidStage (n : ℕ) :
    (redisStage st r inp).ret ≠ .fail (.invalidStage n) := by
  have hl : (bulkLoop inp (r.nargs - r.ai.length) r).2 ≠ .fail (.invalidStage n) :=
    bulkLoop_ne_invalidStage _ n
  unfold redisStage
  split
  · split <;> simp
  · rename_i r₁ ret heq
    rw [heq] at hl
    exact hl

/-- The stage of the HTTP headers never fails with `invalid stage`: its errors come from `parse`,
    which has none of this kind. -/
theorem headerStage_ne_invalidStage (env : Env) (n : ℕ) :
    (headerStage env st h inp).ret ≠ .fail (.invalidStage n) := by
  unfold headerStage
  cases hi : index? (crlf ++ crlf) inp with
  | none => simp
  | some idx =>
    have hset := parse_settled env { h with data := inp.take (idx + 4) } hi rfl
    simp only
    split
    · split
      · simp
      · unfold bodyStage; simp only; split <;> simp
    · simp
    · rename_i e he
      intro hn
      simp only [Ret.fail.injEq] at hn
      exact hset.2.2 n (hn ▸ he)
    · simp

/-- From the initial state no call comes to the last branch of the switch. -/
theorem process_ne_invalidStage (env : Env) (n : ℕ) :
    (process env {} inp).ret ≠ .fail (.invalidStage n) := by
  unfold process
  simp only
  split
  · split
    · exact headerStage_ne_invalidStage env n
    · split
      · simp
      · exact redisStage_ne_invalidStage n
  · simp
  · rename_i e hq
    intro hn
    simp only [Ret.fail.injEq] at hn
    exact readByteAndNumberCrLf_ne_invalidStage _ n (hn ▸ hq)
  · simp

/-! ### The result -/

/-- The calls after each read come to the outcome of one call on everything read. -/
theorem callReads_eq_flatten (env : Env) (reads : List Bytes) :
    callReads env reads = callOnce env reads.flatten := by
  have hret := feed_ret (process_resumable env) reads
  have hstate := feed_state (process_resumable env) reads
  unfold callReads callOnce outcome
  rw [hret, hstate]

/-- A decisive outcome is never changed by the bytes that follow. -/
theorem callOnce_append (env : Env) {p : Bytes} (h : callOnce env p ≠ .more) (t : Bytes) :
    callOnce env (p ++ t) = callOnce env p := by
  have hret : (process env {} p).ret ≠ .more := by
    intro hm; exact h (by simp [callOnce, outcome, hm])
  unfold callOnce
  rw [(process_resumable env).stable p t hret]
  rfl

/-- The outcome of a call from the initial state is never the error `invalid stage`. -/
theorem callOnce_ne_invalidStage (env : Env) (p : Bytes) (n : ℕ) :
    callOnce env p ≠ .fail (.invalidStage n) := by
  have h : (process env {} p).ret ≠ .fail (.invalidStage n) := process_ne_invalidStage env n
  unfold callOnce outcome
  split
  · simp
  · rename_i e he
    intro hn
    simp only [Outcome.fail.injEq] at hn
    exact h (hn ▸ he)
  · simp
  · split <;> simp

/-- **Segmentation independence.** However a prefix of a stream is cut into reads, the calls
    either all ask for more, as one call on that prefix does, or come to the outcome of one call
    on any longer prefix `q`; and none of them reports an invalid stage. -/
theorem callReads_segmentation (env : Env) (reads : List Bytes) (q : Bytes)
    (hq : reads.flatten <+: q) :
    ((callReads env reads = .more ∧ callOnce env reads.flatten = .more) ∨
      (callReads env reads ≠ .more ∧ callOnce env q = callReads env reads)) ∧
      ∀ n, callReads env reads ≠ .fail (.invalidStage n) := by
  obtain ⟨t, rfl⟩ := hq
  refine ⟨?_, fun n => ?_⟩
  · by_cases hm : callReads env reads = .more
    · exact Or.inl ⟨hm, by rw [← callReads_eq_flatten, hm]⟩
    · refine Or.inr ⟨hm, ?_⟩
      rw [callReads_eq_flatten] at hm ⊢
      exact callOnce_append env hm t
  · rw [callReads_eq_flatten]
    exact callOnce_ne_invalidStage env _ n

/-- A command cut inside its argument, and the same bytes with more behind them in one call. -/
theorem callReads_segmentation_cut :
    callOnce .plain (ascii "*1\r\n$3\r\nabc\r\n*1")
      = callReads .plain [ascii "*1\r\n$3\r\na", ascii "bc\r", ascii "\n"] := by
  have h := (callReads_segmentation .plain [ascii "*1\r\n$3\r\na", ascii "bc\r", ascii "\n"]
    (ascii "*1\r\n$3\r\nabc\r\n*1") (by decide)).1
  rcases h with ⟨hm, -⟩ | ⟨-, h⟩
  · exact absurd hm (by decide)
  · exact h

end Resh.Server
