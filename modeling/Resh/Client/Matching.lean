import Resh.Client.ReadLoop
import Resh.Client.Session

namespace Resh.Client

open Resh.Go Resh.Server Resh.RoundTrip

/-!
# Replies and their callbacks

* `Session.Inv` — what holds between the steps: the replies are those the client has taken, in
  order, and those whose bytes are in the input buffer and on the wire;
* `Session.step_inv` — every step keeps it;
* `reply_matching` — in every run the callbacks get the replies to their own commands, once each
  and in order, and the connection goes back to the pool after each.
-/

namespace Session

variable {cfg : Config} {s s' : Session} {c : Conn} {cs ps : List Reply}

/-! ### The server -/

/-- No more commands are complete than there are. -/
theorem complete_le (es : List Bytes) (len : ℕ) : complete es len ≤ es.length := by
  induction es generalizing len with
  | nil => exact Nat.zero_le _
  | cons e es ih =>
    rw [complete]
    split
    · exact Nat.succ_le_succ (ih _)
    · exact Nat.zero_le _

/-- More bytes, and more commands behind, do not make fewer of them complete. -/
theorem complete_mono (es fs : List Bytes) {len len' : ℕ} (h : len ≤ len') :
    complete es len ≤ complete (es ++ fs) len' := by
  induction es generalizing len len' with
  | nil => exact Nat.zero_le _
  | cons e es ih =>
    rw [List.cons_append, complete, complete]
    by_cases he : e.length ≤ len
    · rw [if_pos he, if_pos (he.trans h)]
      exact Nat.succ_le_succ (ih (by omega))
    · rw [if_neg he]
      exact Nat.zero_le _

/-- All commands are complete only if all their bytes are there. -/
theorem le_of_complete {es : List Bytes} {len : ℕ} (h : es.length ≤ complete es len) :
    es.flatten.length ≤ len := by
  induction es generalizing len with
  | nil => exact Nat.zero_le _
  | cons e es ih =>
    rw [complete] at h
    split at h
    · have := ih (Nat.le_of_succ_le_succ h)
      rw [List.flatten_cons, List.length_append]
      omega
    · rw [List.length_cons] at h
      omega

/-- How many commands the client sends on its own. -/
def authCount (cfg : Config) : ℕ := if cfg.auth = [] then 0 else 1

/-- AUTH counts as a command. -/
theorem commands_length (issued : List (List Arg)) :
    (commands cfg issued).length = authCount cfg + issued.length := by
  rw [commands, authCount, List.length_append, List.length_map]
  split <;> rfl

/-- A further call of `Exec` adds its command at the end. -/
theorem commands_snoc (issued : List (List Arg)) (cmdArgs : List Arg) :
    commands cfg (issued ++ [cmdArgs]) = commands cfg issued ++ [appendCommand cmdArgs []] := by
  simp [commands]

/-! ### The invariant -/

/-- What is called for the replies `cs`, in order. -/
def expected (cfg : Config) (cs : List Reply) : List Event :=
  (cs.drop (authCount cfg)).zipIdx.flatMap fun p =>
    [.call p.2 (some (readerOf p.1)) (errOf p.1), .idle [] none 0]

/-- A further reply, behind that to AUTH, calls one callback more and idles the connection again. -/
theorem expected_snoc {r : Reply} (h : authCount cfg ≤ cs.length) :
    expected cfg (cs ++ [r]) = expected cfg cs
      ++ [.call (cs.length - authCount cfg) (some (readerOf r)) (errOf r), .idle [] none 0] := by
  rw [expected, expected, List.drop_append_of_le_length h, List.zipIdx_append, List.flatMap_append]
  simp

/-- Every reply fits into the buffer of the client, and so does the `AUTH` reply with the first
    other one behind it. -/
def Fits (cfg : Config) (rs : List Reply) : Prop :=
  (∀ r ∈ rs, r.encode.length ≤ cfg.responseMaxBytes) ∧
    (cfg.auth ≠ [] → (Reply.encodeMany (rs.take 2)).length ≤ cfg.responseMaxBytes)

instance (cfg : Config) (rs : List Reply) : Decidable (Fits cfg rs) :=
  inferInstanceAs (Decidable ((∀ r ∈ rs, r.encode.length ≤ cfg.responseMaxBytes) ∧
    (cfg.auth ≠ [] → (Reply.encodeMany (rs.take 2)).length ≤ cfg.responseMaxBytes)))

/-- Where a connection stands after `n` commands, when the client has taken the replies `cs`. -/
inductive Phase (cfg : Config) (n : ℕ) (cs : List Reply) (pooled : Bool) (c : Conn) : Prop
  | pooled (h : pooled = true) (taken : cs.length = authCount cfg + n)
      (callback : c.callback = none) (inp : c.inp = []) (auth : c.authState = 0)
  | auth (h : pooled = false) (taken : cs = []) (issued : n = 1) (needed : cfg.auth ≠ [])
      (callback : c.callback = some 0) (auth : c.authState = 1)
  | command (h : pooled = false) (taken : cs.length + 1 = authCount cfg + n) (issued : 0 < n)
      (callback : c.callback = some (n - 1)) (auth : c.authState ≠ 1)

/-- The output is not part of it. -/
theorem Phase.withOut {n : ℕ} {p : Bool} (h : Phase cfg n cs p c) (out : Bytes) :
    Phase cfg n cs p { c with out := out } := by
  cases h with
  | pooled h₁ h₂ h₃ h₄ h₅ => exact .pooled h₁ h₂ h₃ h₄ h₅
  | auth h₁ h₂ h₃ h₄ h₅ h₆ => exact .auth h₁ h₂ h₃ h₄ h₅ h₆
  | command h₁ h₂ h₃ h₄ h₅ => exact .command h₁ h₂ h₃ h₄ h₅

/-- What holds between the steps: `cs` are the replies that the client has taken, `ps` the
    others. -/
structure Inv (cfg : Config) (s : Session) (c : Conn) (cs ps : List Reply) : Prop where
  up : s.down = false
  conn : s.conn = some c
  replies : s.replies = cs ++ ps
  bytes : Reply.encodeMany ps = c.inp ++ s.wire
  waiting : c.inp = [] ∨ readElement c.inp = .more
  log : s.log = expected cfg cs
  output : s.sent ++ c.out = (commands cfg s.issued).flatten
  answered : s.replies.length ≤ complete (commands cfg s.issued) s.sent.length
  fits : Fits cfg s.replies
  timer : c.death = if cfg.timeout then some { armed := !s.pooled } else none
  phase : Phase cfg s.issued.length cs s.pooled c

/-- The assumptions on a step: no I/O error, replies that fit, a pool that is not too large. -/
def Orderly (cfg : Config) (s : Session) : Action → Prop
  | .exec _ => True
  | .write wr => wr.Sound
  | .serve r => Fits cfg (s.replies ++ [r])
  | .read _ len => len ≤ cfg.poolSize

instance (cfg : Config) (s : Session) (a : Action) : Decidable (Orderly cfg s a) :=
  match a with
  | .exec _ => isTrue trivial
  | .write wr => inferInstanceAs (Decidable wr.Sound)
  | .serve r => inferInstanceAs (Decidable (Fits cfg (s.replies ++ [r])))
  | .read _ len => inferInstanceAs (Decidable (len ≤ cfg.poolSize))

/-- There are no more replies, read or on the way, than commands. -/
theorem Inv.replies_le (h : Inv cfg s c cs ps) :
    cs.length + ps.length ≤ authCount cfg + s.issued.length := by
  have := h.answered.trans (complete_le _ _)
  rwa [h.replies, List.length_append, commands_length] at this

/-! ### The steps -/

/-- `Exec` on a fresh connection. -/
theorem exec_fresh (cmdArgs : List Arg) :
    Inv cfg { conn := some ((Conn.fresh cfg 0 0 cmdArgs).arm cfg), issued := [cmdArgs] }
      ((Conn.fresh cfg 0 0 cmdArgs).arm cfg) [] [] := by
  have hconn : (Conn.fresh cfg 0 0 cmdArgs).arm cfg = { Conn.fresh cfg 0 0 cmdArgs with
      death := if cfg.timeout then some { armed := true } else none } := by
    rw [Conn.arm]
    split <;> rfl
  rw [hconn]
  refine ⟨rfl, rfl, rfl, rfl, .inl rfl, ?_, ?_, Nat.zero_le _, ?_, rfl, ?_⟩
  · simp [expected]
  · by_cases hauth : cfg.auth = []
    · simp [commands, Conn.fresh, hauth, appendAuth]
    · simp only [commands, Conn.fresh, if_neg hauth, List.nil_append]
      rw [appendCommand_append]
      simp
  · exact ⟨by simp, fun _ => by simp [Reply.encodeMany]⟩
  · by_cases hauth : cfg.auth = []
    · exact .command rfl (by simp [authCount, hauth]) (by simp) rfl (by simp [Conn.fresh, hauth])
    · exact .auth rfl rfl rfl hauth rfl (by simp [Conn.fresh, hauth])

/-- In the pool everything is answered, so there is nothing left to write. -/
theorem Inv.out_eq_nil (h : Inv cfg s c cs ps)
    (htaken : cs.length = authCount cfg + s.issued.length) : c.out = [] := by
  have hall : (commands cfg s.issued).length ≤ complete (commands cfg s.issued) s.sent.length := by
    have := h.answered
    rw [h.replies, List.length_append] at this
    rw [commands_length]
    omega
  have hlen := le_of_complete hall
  rw [← h.output, List.length_append] at hlen
  exact List.length_eq_zero_iff.mp (by omega)

/-- `Exec` on the connection in the pool. -/
theorem exec_pooled (h : Inv cfg s c cs ps) (hpool : s.pooled = true) (cmdArgs : List Arg) :
    ∃ c', c.fill cfg s.issued.length cmdArgs = some c' ∧
      Inv cfg { s with conn := some c', pooled := false, issued :=
      s.issued ++ [cmdArgs] } c' cs ps := by
  cases h.phase with
  | auth hp => exact absurd hp (by simp [hpool])
  | command hp => exact absurd hp (by simp [hpool])
  | pooled _ htaken hcb hinp hauth =>
    have hout := h.out_eq_nil htaken
    have hsent := h.output
    rw [hout, List.append_nil] at hsent
    have htimer := h.timer
    rw [hpool] at htimer
    refine ⟨{ c with callback := some s.issued.length, out := appendCommand cmdArgs [],
                     death := if cfg.timeout then some { armed := true } else none }, ?_, ?_⟩
    · rw [Conn.fill, if_neg (by simp [hout])]
      cases hT : cfg.timeout <;> simp [hT, htimer, Timer.reset]
    · refine ⟨h.up, rfl, h.replies, h.bytes, h.waiting, h.log, ?_, ?_, h.fits, rfl, ?_⟩
      · simp only [commands_snoc, List.flatten_append, List.flatten_singleton, hsent]
      · simp only [commands_snoc]
        exact h.answered.trans (complete_mono _ _ le_rfl)
      · exact .command rfl (by simp [htaken]; omega) (by simp) (by simp) (by simp [hauth])

/-- The timer of an active connection is running. -/
theorem Inv.touch (h : Inv cfg s c cs ps) : c.touch cfg = some (c, true) := by
  have hactive : s.pooled = false → c.touch cfg = some (c, true) := fun hp => by
    have htimer := h.timer
    rw [hp] at htimer
    rw [Conn.touch]
    split
    · rename_i hcond
      rw [hcond.2] at htimer
      obtain ⟨fd, callback, inp, out, death, authState⟩ := c
      simp only at htimer
      subst htimer
      rfl
    · rfl
  cases h.phase with
  | pooled _ _ hcb => rw [Conn.touch, if_neg (by simp [hcb])]
  | auth hp => exact hactive hp
  | command hp => exact hactive hp

/-- A write event. -/
theorem write_inv (h : Inv cfg s c cs ps) (hne : c.out ≠ []) {wr : WriteResult} (hwr : wr.Sound) :
    ∃ n, n ≤ c.out.length ∧ c.writePart wr = ({ c with out := c.out.drop n }, .wait) ∧
      Inv cfg { s with conn := some { c with out := c.out.drop n }, sent := s.sent ++ c.out.take n }
        { c with out := c.out.drop n } cs ps := by
  have hcb : c.callback.isNone = false := by
    cases h.phase with
    | pooled _ htaken => exact absurd (h.out_eq_nil htaken) hne
    | auth _ _ _ _ hcb => simp [hcb]
    | command _ _ _ hcb => simp [hcb]
  have hpos := List.length_pos_of_ne_nil hne
  obtain ⟨n, hn, hpart⟩ : ∃ n, n ≤ c.out.length ∧
      c.writePart wr = ({ c with out := c.out.drop n }, .wait) := by
    cases wr with
    | error text => exact absurd hwr (by simp [WriteResult.Sound])
    | ok room => exact ⟨min room c.out.length, by omega, by
        rw [Conn.writePart, hcb]; simp only [if_neg (Nat.pos_iff_ne_zero.mp hpos)]; rfl⟩
    | again room => exact ⟨min room c.out.length, by omega, by
        rw [Conn.writePart, hcb]; simp only [if_neg (Nat.pos_iff_ne_zero.mp hpos)]; rfl⟩
  refine ⟨n, hn, hpart, h.up, rfl, h.replies, h.bytes, h.waiting, h.log, ?_, ?_, h.fits, h.timer,
    h.phase.withOut _⟩
  · simp only [List.append_assoc, List.take_append_drop]
    exact h.output
  · have := complete_mono (commands cfg s.issued) []
      (Nat.le_add_right s.sent.length (c.out.take n).length)
    rw [List.append_nil, ← List.length_append] at this
    exact h.answered.trans this

/-- The bytes of a further reply stand behind the others. -/
theorem encodeMany_snoc (rs : List Reply) (r : Reply) :
    Reply.encodeMany (rs ++ [r]) = Reply.encodeMany rs ++ r.encode := by
  induction rs with
  | nil => simp [Reply.encodeMany]
  | cons r' rs ih =>
    rw [List.cons_append, Reply.encodeMany, ih, Reply.encodeMany, List.append_assoc]

/-- An answer of the server. -/
theorem serve_inv (h : Inv cfg s c cs ps) {r : Reply}
    (hlt : s.replies.length < complete (commands cfg s.issued) s.sent.length)
    (hfits : Fits cfg (s.replies ++ [r])) :
    Inv cfg { s with replies := s.replies ++ [r], wire := s.wire ++ r.encode }
    c cs (ps ++ [r]) := by
  refine ⟨h.up, h.conn, ?_, ?_, h.waiting, h.log, h.output, ?_, hfits, h.timer, h.phase⟩
  · simp only [h.replies, List.append_assoc]
  · rw [encodeMany_snoc, h.bytes, List.append_assoc]
  · simp only [List.length_append, List.length_singleton]
    exact hlt

/-- A read of an active connection is the loop on the longer input. -/
theorem readConn_data {len : ℤ} {d : Bytes} (hcb : c.callback ≠ none) (hd : d ≠ [])
    (hfit : (c.inp ++ d).length ≤ cfg.responseMaxBytes) :
    c.readConn cfg len (.data d)
      = ({ c with inp := c.inp ++ d } : Conn).parseLoop cfg len ((c.inp ++ d).length + 1) := by
  have hhead : c.readHead cfg (.data d) = ({ c with inp := c.inp ++ d }, [], .parse) := by
    obtain ⟨b, d, rfl⟩ := List.exists_cons_of_ne_nil hd
    rw [Conn.readHead]
    · simp only [Option.isNone_iff_eq_none, if_neg hcb, gt_iff_lt, if_neg (not_lt.mpr hfit)]
    · simp
  rw [Conn.readConn, hhead]
  simp only [List.nil_append]

/-- After the last pending reply the connection is in the pool. -/
theorem inv_push (h : Inv cfg s c cs ps) {es : List Event}
    (hall : s.replies.length = authCount cfg + s.issued.length)
    (hlog : s.log ++ es ++ [.idle [] none 0] = expected cfg s.replies) :
    Inv cfg (({ s with wire := [] }).after
      (({ c with authState := 0, inp := [] } : Conn).released cfg) es
      .push) (({ c with authState := 0, inp := [] } : Conn).released cfg) s.replies [] :=
  ⟨h.up, rfl, (List.append_nil _).symm, rfl, .inl rfl, hlog, h.output, h.answered, h.fits, rfl,
    .pooled rfl hall rfl rfl rfl⟩

/-- Otherwise only the input and the state of `AUTH` have changed. -/
theorem inv_wait (h : Inv cfg s c cs ps) {inp w : Bytes} {authState : ℕ} {cs' ps' : List Reply}
    (hreplies : s.replies = cs' ++ ps') (hbytes : Reply.encodeMany ps' = inp ++ w)
    (hwait : inp = [] ∨ readElement inp = .more) (hlog : expected cfg cs = expected cfg cs')
    (hphase : Phase cfg s.issued.length cs' s.pooled
      { c with inp := inp, authState := authState }) :
    Inv cfg (({ s with wire := w }).after { c with inp := inp, authState := authState } [] .wait)
      { c with inp := inp, authState := authState } cs' ps' :=
  ⟨h.up, rfl, hreplies, hbytes, hwait, by simp only [after, List.append_nil, h.log, hlog], h.output,
    h.answered, h.fits, h.timer, hphase⟩

/-- A read event that brings the bytes `d`. -/
theorem read_inv (hmax : cfg.responseMaxBytes < 2 ^ 63) (h : Inv cfg s c cs ps) {len : ℤ}
    (hlen : len ≤ cfg.poolSize) {d w : Bytes} (hw : s.wire = d ++ w) (hd : d ≠ []) :
    ∃ c' es next cs' ps', c.readConn cfg len (.data d) = (c', es, next) ∧
      Inv cfg (({ s with wire := w }).after c' es next) c' cs' ps' := by
  have hle := h.replies_le
  have hbytes := h.bytes
  rw [hw, ← List.append_assoc] at hbytes
  have hne : c.inp ++ d ≠ [] := by simp [hd]
  have hps : ps ≠ [] := by
    rintro rfl
    exact hne (List.append_eq_nil_iff.mp hbytes.symm).1
  obtain ⟨r, rs, rfl⟩ := List.exists_cons_of_ne_nil hps
  have hmem : r ∈ s.replies := by simp [h.replies]
  rw [List.length_cons] at hle
  have htimer := h.timer
  cases h.phase with
  | pooled _ htaken => omega
  | command hp htaken hn hcb hauth =>
    -- one reply is pending
    obtain rfl : rs = [] := List.length_eq_zero_iff.mp (by omega)
    rw [hp] at htimer
    have hr : r.encode = (c.inp ++ d) ++ w := by simpa [Reply.encodeMany] using hbytes
    have hfit := h.fits.1 r hmem
    have hshort : (c.inp ++ d).length ≤ r.encode.length := by
      rw [hr]
      exact (List.prefix_append (c.inp ++ d) w).length_le
    have hloop := Conn.parseLoop_reply (c := { c with inp := c.inp ++ d })
      hcb hauth hlen htimer hne hr (by omega) ((c.inp ++ d).length - 1)
    have hpos := List.length_pos_of_ne_nil hne
    rw [show (c.inp ++ d).length - 1 + 2 = (c.inp ++ d).length + 1 by omega,
      ← readConn_data (by simp [hcb]) hd (by omega)] at hloop
    rcases hloop with ⟨rfl, hrun⟩ | ⟨-, hrun, hmore⟩
    · refine ⟨_, _, _, s.replies, [], hrun, inv_push h ?_ ?_⟩
      · rw [h.replies, List.length_append, List.length_singleton]
        exact htaken
      · rw [h.replies, expected_snoc (by omega), h.log,
          show cs.length - authCount cfg = s.issued.length - 1 by omega]
        simp
    · exact ⟨_, _, _, cs, [r], hrun,
        inv_wait h h.replies hbytes (.inr hmore) rfl (.command hp htaken hn hcb hauth)⟩
  | auth hp htaken hn hneed hcb hauth =>
    subst htaken
    have ha : authCount cfg = 1 := if_neg hneed
    rw [hp] at htimer
    have hreplies : s.replies = r :: rs := h.replies
    have hfit := h.fits.2 hneed
    have hrs : rs.length ≤ 1 := by
      simp only [List.length_nil] at hle
      omega
    rw [hreplies, List.take_of_length_le (by simp only [List.length_cons]; omega)] at hfit
    have hshort : (c.inp ++ d).length ≤ (Reply.encodeMany (r :: rs)).length := by
      rw [hbytes]
      exact (List.prefix_append (c.inp ++ d) w).length_le
    have hloop := Conn.parseLoop_auth (c := { c with inp := c.inp ++ d })
      hcb hauth hlen htimer hne hrs hbytes (by omega)
    rw [← readConn_data (by simp [hcb]) hd (by omega)] at hloop
    rcases hloop with ⟨r', rfl, rfl, hrun⟩ | ⟨t, ht, htwait, hrun⟩ | ⟨hrun, hmore⟩
    · refine ⟨_, _, _, s.replies, [], hrun, inv_push h ?_ ?_⟩
      · rw [hreplies, ha, hn]
        rfl
      · rw [hreplies, h.log]
        simp [expected, ha]
    · exact ⟨_, _, _, [r], rs, hrun, inv_wait h hreplies ht htwait (by simp [expected, ha])
        (.command hp (by simp [ha, hn]) (by omega) (by simp [hcb, hn]) (by simp))⟩
    · exact ⟨_, _, _, [], r :: rs, hrun,
        inv_wait h h.replies hbytes (.inr hmore) rfl (.auth hp rfl hn hneed hcb hauth)⟩

/-- **One step.** -/
theorem step_inv (hmax : cfg.responseMaxBytes < 2 ^ 63) {a : Action} (h : Inv cfg s c cs ps)
    (ha : Orderly cfg s a) (hstep : step cfg s a = some s') :
    ∃ c' cs' ps', Inv cfg s' c' cs' ps' := by
  unfold step at hstep
  rw [if_neg (by simp [h.up])] at hstep
  cases a with
  | exec cmdArgs =>
    simp only [h.conn] at hstep
    -- the session has one connection: `Exec` takes it out of the pool
    by_cases hpool : s.pooled = true
    · obtain ⟨c', hfill, hinv⟩ := exec_pooled h hpool cmdArgs
      simp only [if_pos hpool, hfill, Option.some.injEq] at hstep
      exact ⟨c', cs, ps, hstep ▸ hinv⟩
    · simp only [if_neg hpool] at hstep
      cases hstep
  | write wr =>
    simp only [h.conn] at hstep
    by_cases hne : c.out = []
    · simp only [if_pos hne] at hstep
      cases hstep
    · obtain ⟨n, hn, hpart, hinv⟩ := write_inv h hne ha
      simp only [if_neg hne, h.touch, hpart, List.length_drop, Option.some.injEq,
        show c.out.length - (c.out.length - n) = n by omega, after, List.append_nil] at hstep
      exact ⟨_, cs, ps, hstep ▸ hinv⟩
  | serve r =>
    simp only at hstep
    by_cases hlt : s.replies.length < complete (commands cfg s.issued) s.sent.length
    · rw [if_pos hlt, Option.some.injEq] at hstep
      exact ⟨c, cs, ps ++ [r], hstep ▸ serve_inv h hlt ha⟩
    · rw [if_neg hlt] at hstep
      cases hstep
  | read n len =>
    simp only [h.conn, h.touch] at hstep
    obtain ⟨d, hd⟩ : ∃ d, d = s.wire.take (min n 0xFFFF) := ⟨_, rfl⟩
    rw [← hd] at hstep
    -- a read takes a part of what is on the wire, at most 64 KiB
    have hw : s.wire = d ++ s.wire.drop d.length := by
      have hpre : d <+: s.wire := by rw [hd]; exact List.take_prefix _ _
      exact List.prefix_iff_eq_append.mp hpre |>.symm
    by_cases hne : d = []
    · have hread : c.readConn cfg len .again = (c, [], .wait) := rfl
      simp only [if_pos hne, hread, Option.some.injEq] at hstep
      have hsame : s' = s := by
        rw [← hstep, hne]
        simp only [after, List.length_nil, List.drop_zero, List.append_nil, ← h.conn]
      exact ⟨c, cs, ps, hsame ▸ h⟩
    · obtain ⟨c', es, next, cs', ps', hread, hinv⟩ := read_inv hmax h ha hw hne
      simp only [if_neg hne, hread, Option.some.injEq] at hstep
      exact ⟨c', cs', ps', hstep ▸ hinv⟩

/-- **One step before the first `Exec`.** -/
theorem step_start {a : Action} (hstep : step cfg {} a = some s') :
    ∃ c' cs' ps', Inv cfg s' c' cs' ps' := by
  unfold step at hstep
  cases a with
  | exec cmdArgs =>
    simp only [Bool.false_eq_true, if_false, Option.some.injEq] at hstep
    exact ⟨_, [], [], hstep ▸ exec_fresh cmdArgs⟩
  | write wr => cases hstep
  | read n len => cases hstep
  | serve r =>
    -- no command is empty, so none is complete
    have hzero : complete (commands cfg []) 0 = 0 := by
      by_cases hauth : cfg.auth = []
      · simp [commands, hauth, complete]
      · simp [commands, hauth, complete, appendAuth]
    simp [hzero] at hstep

/-- In a run the session has not started, or it keeps the invariant. -/
theorem run_inv (hmax : cfg.responseMaxBytes < 2 ^ 63) {acts : List Action}
    (hm : Meets (step cfg) (Orderly cfg) {} acts) (hr : run (step cfg) {} acts = some s) :
    s = {} ∨ ∃ c cs ps, Inv cfg s c cs ps := by
  refine run_invariant (P := fun s => s = {} ∨ ∃ c cs ps, Inv cfg s c cs ps) ?_ (.inl rfl) hm hr
  intro s a s' hs ha hstep
  rcases hs with rfl | ⟨c, cs, ps, h⟩
  · exact .inr (step_start hstep)
  · exact .inr (step_inv hmax h ha hstep)

/-- With nothing on the wire no reply is pending: the input would be one. -/
theorem Inv.pending_eq_nil (hmax : cfg.responseMaxBytes < 2 ^ 63) (h : Inv cfg s c cs ps)
    (hw : s.wire = []) : ps = [] := by
  by_contra hps
  obtain ⟨r, rs, rfl⟩ := List.exists_cons_of_ne_nil hps
  have hbytes := h.bytes
  rw [hw, List.append_nil, Reply.encodeMany] at hbytes
  have hsmall : r.encode.length ≤ cfg.responseMaxBytes := h.fits.1 r (by simp [h.replies])
  have hel := readElement_encode r (by omega) (Reply.encodeMany rs)
  rcases h.waiting with hnil | hmore
  · rw [hnil] at hbytes
    exact r.encode_ne_nil (List.append_eq_nil_iff.mp hbytes).1
  · rw [hbytes, hmore] at hel
    cases hel

/-- **Reply matching.** In every run the connection stays up, and what is called is, for the
    replies that the client has taken, one callback each, the `k`-th with the reply to the `k`-th
    command (the `AUTH` reply is not among them), each followed by one return to the pool; a reply
    that has been read to its end has been taken. -/
theorem reply_matching (hmax : cfg.responseMaxBytes < 2 ^ 63) (acts : List Action)
    (hm : Meets (step cfg) (Orderly cfg) {} acts) (hr : run (step cfg) {} acts = some s) :
    s.down = false ∧ ∃ taken pending, s.replies = taken ++ pending ∧ s.log = expected cfg taken ∧
      (s.wire = [] → pending = []) ∧
      (s.pooled = true → taken.length = authCount cfg + s.issued.length) ∧
      s.issued.length ≤ (taken.drop (authCount cfg)).length + 1 := by
  rcases run_inv hmax hm hr with rfl | ⟨c, cs, ps, h⟩
  · exact ⟨rfl, [], [], rfl, by simp [expected], fun _ => rfl,
      fun hp => absurd hp (by simp), by simp⟩
  · refine ⟨h.up, cs, ps, h.replies, h.log, h.pending_eq_nil hmax, fun hp => ?_, ?_⟩
    · cases h.phase with
      | pooled _ htaken => exact htaken
      | auth hp' => exact absurd hp (by simp [hp'])
      | command hp' => exact absurd hp (by simp [hp'])
    · rw [List.length_drop]
      cases h.phase with
      | pooled _ htaken => omega
      | auth _ _ hn => omega
      | command _ htaken => omega

/-- A client with a password: both replies come in one read that ends within the second one. -/
theorem reply_matching_auth :
    let cfg : Config := { auth := ascii "pw", poolSize := 1 }
    let acts : List Action :=
    [.exec [.string (ascii "GET"), .int 1], .write (.ok 30), .write (.ok 99),
      .serve (.simple ⟨ascii "OK", by decide⟩), .serve (.bulk (ascii "+\r\n")),
      .read 8 1, .read 99 1, .exec [.string (ascii "PING")], .write (.again 0), .write (.ok 99),
      .serve (.error ⟨ascii "ERR", by decide⟩), .read 99 1]
    ∃ s, run (step cfg) {} acts = some s ∧ s.down = false ∧ s.log = expected cfg s.replies := by
  intro cfg acts
  obtain ⟨s, hs⟩ : ∃ s, run (step cfg) {} acts = some s :=
    Option.isSome_iff_exists.mp (by decide +kernel)
  obtain ⟨hdown, taken, pending, hreplies, hlog, hwire, -⟩ :=
    @reply_matching cfg s (by decide) acts (by decide +kernel) hs
  have hw : (run (step cfg) {} acts).map (fun s => s.wire) = some [] := by decide +kernel
  rw [hs, Option.map_some, Option.some.injEq] at hw
  rw [hwire hw, List.append_nil] at hreplies
  exact ⟨s, hs, hdown, hreplies ▸ hlog⟩

/-- An error reply does not reach the callback: its reader is already behind it. -/
theorem error_reply_empties_reader :
    let cfg : Config := { poolSize := 1 }
    let acts : List Action := [.exec [.string (ascii "PING")], .write (.ok 99),
      .serve (.error ⟨ascii "ERR", by decide⟩), .read 99 1]
    Meets (step cfg) (Orderly cfg) {} acts ∧
      (run (step cfg) {} acts).map (fun s => (s.replies.map Reply.encode, s.log))
        = some ([ascii "-ERR\r\n"],
            [.call 0 (some []) (some (.reply (ascii "ERR"))), .idle [] none 0]) := by
  decide +kernel

end Session

end Resh.Client
