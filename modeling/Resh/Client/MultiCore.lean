import Resh.Client.Counting
import Resh.RoundRobin
import Resh.Simulation

namespace Resh.Client

open Resh.Go Resh.RoundRobin

/-!
# redis/multi_clients.go — several clients

`MultiCoreClients` has a number of clients, each with its own event loop and its own pool, and a
counter that says whose turn it is.  Between the counter and the call of the client another
goroutine can come in, so the calls need not come to a client in the order in which the counter gave
it to them.

* `MultiCoreClients.step` — `Exec` in its two parts, and the steps of the clients;
* `Dealt`, `step_dealt` — who has got which call;
* `multi_round_robin` — every run.
-/

/-- What the clients are made with. -/
structure MultiConfig where
  n : ℕ
  poolSize : ℕ
  auth : Bytes := []
  responseMaxBytes : ℕ := 1024 * 1024
  deriving DecidableEq, Repr

/-- The clients of `NewMultiCoreClients`; nobody sets their `Timeout`. -/
def MultiConfig.client (cfg : MultiConfig) : Config where
  auth := cfg.auth
  poolSize := cfg.poolSize / cfg.n + 1
  timeout := false
  responseMaxBytes := cfg.responseMaxBytes

/-- `MultiCoreClients`, and the calls of `Exec` that know their client and have not called it
    yet. -/
structure MultiCoreClients where
  clients : ℕ → State := fun _ => {}
  ctr : ℤ := 0
  taken : List (ℕ × List Arg) := []
  /-- a goroutine has panicked -/
  crashed : Bool := false

inductive MultiAct where
  /-- `i := c.ctr.Add(1) % int64(len(c.clients)); cc := c.clients[i]` -/
  | take (args : List Arg)
  /-- `cc.Exec(args, f)`, for one of the calls that are so far -/
  | enter (j : ℕ)
  /-- any other step of a client -/
  | client (i : ℕ) (a : Action)

def Action.isExec : Action → Bool
  | .exec _ => true
  | _ => false

namespace MultiCoreClients

/-- The counter after `Add(1)`, as an `int64`. -/
def next (m : MultiCoreClients) : ℤ := (m.ctr + 1).bmod (2 ^ 64)

/-- A client makes a step. -/
def move (cfg : MultiConfig) (m : MultiCoreClients) (i : ℕ) (a : Action) :
    Option MultiCoreClients :=
  (Client.step cfg.client (m.clients i) a).map fun s =>
    { m with clients := Function.update m.clients i s, crashed := s.crashed }

/-- **One step.**  Without clients the division panics, and behind the last `int64` the index
    does. -/
def step (cfg : MultiConfig) (m : MultiCoreClients) (a : MultiAct) : Option MultiCoreClients :=
  if m.crashed then none
  else match a with
    | .take args =>
      if cfg.n = 0 ∨ m.next.tmod cfg.n < 0 then some { m with ctr := m.next, crashed := true }
      else some { m with ctr := m.next, taken := m.taken ++ [((m.next.tmod cfg.n).toNat, args)] }
    | .enter j =>
      match m.taken[j]? with
      | none => none
      | some (i, args) => ({ m with taken := m.taken.eraseIdx j }).move cfg i (.exec args)
    | .client i a => if a.isExec ∨ cfg.n ≤ i then none else m.move cfg i a

end MultiCoreClients

/-- The arguments of the calls, in the order of the counter. -/
def MultiAct.call? : MultiAct → Option (List Arg)
  | .take args => some args
  | _ => none

/-! ### The calls of a client -/

/-- The arguments of the calls that a client has got. -/
def State.entered (s : State) : List (List Arg) :=
  (List.range s.called).filterMap fun k => (s.execs k).map (·.cmdArgs)

/-- A call that goes on has its arguments still. -/
theorem entered_setPc {s s' : State} {k : ℕ} {pc : Pc} (hexecs : s'.execs = (s.setPc k pc).execs)
    (hcalled : s'.called = s.called) : s'.entered = s.entered := by
  unfold State.entered
  rw [hexecs, hcalled]
  congr 1
  funext i
  by_cases hi : i = k
  · subst hi
    cases h : s.execs i <;> simp [State.setPc, h]
  · simp [State.setPc, Function.update_of_ne hi]

/-- **The calls of a client**: only `Exec` adds one. -/
theorem step_entered {cfg : Config} {s s' : State} {a : Action} (hstep : step cfg s a = some s') :
    (∃ args, a = .exec args ∧ s'.entered = s.entered ++ [args]) ∨
      (a.isExec = false ∧ s'.entered = s.entered) := by
  cases step_calls hstep with
  | same other execs called =>
    refine .inr ⟨?_, ?_⟩
    · cases a with
      | exec cmdArgs => exact absurd rfl (other cmdArgs)
      | _ => rfl
    · rw [State.entered, State.entered, execs, called]
  | @enter cmdArgs _ pc execs called map goes =>
    refine .inl ⟨cmdArgs, rfl, ?_⟩
    have hold : ∀ k ∈ List.range s.called, (s'.execs k).map (·.cmdArgs)
        = (s.execs k).map (·.cmdArgs) := by
      intro k hk
      have hne : k ≠ s.called := Nat.ne_of_lt (List.mem_range.mp hk)
      rw [execs, Function.update_of_ne hne]
    rw [State.entered, State.entered, called, List.range_succ, List.filterMap_append,
      List.filterMap_congr hold]
    simp [execs]
  | goes caller execs called =>
    refine .inr ⟨?_, entered_setPc execs called⟩
    cases a with
    | exec cmdArgs => cases caller
    | _ => rfl

/-! ### Who has got which call -/

/-- **The calls `xs` have been dealt**: each client has got its share, but for the calls on their
    way to it, and is where its own steps have brought it. -/
structure Dealt (cfg : MultiConfig) (xs : List (List Arg)) (m : MultiCoreClients) : Prop where
  ctr : m.ctr = xs.length
  range : ∀ p ∈ m.taken, p.1 < cfg.n
  dealt : ∀ i < cfg.n, ((m.clients i).entered ++ (m.taken.filter (·.1 = i)).map Prod.snd).Perm
    (deal cfg.n i xs)
  alone : ∀ i, ∃ as, run (Client.step cfg.client) {} as = some (m.clients i)

section Steps

variable {cfg : MultiConfig} {xs : List (List Arg)} {m m' : MultiCoreClients}

theorem Dealt.init (cfg : MultiConfig) : Dealt cfg [] {} where
  ctr := rfl
  range := fun _ h => absurd h List.not_mem_nil
  dealt := fun i _ => by rw [deal_nil]; rfl
  alone := fun _ => ⟨[], rfl⟩

/-- The counter stays in range. -/
theorem Dealt.next_eq (h : Dealt cfg xs m) (hfew : xs.length + 1 < 2 ^ 63) :
    m.next = (xs.length + 1 : ℕ) := by
  rw [MultiCoreClients.next, h.ctr, Int.bmod_eq_of_le (by omega) (by omega)]
  rfl

/-- The next call gets its client. -/
theorem Dealt.take (h : Dealt cfg xs m) (hn : 0 < cfg.n) (hfew : xs.length + 1 < 2 ^ 63)
    (hup : m.crashed = false) (args : List Arg) :
    ∃ m', m.step cfg (.take args) = some m' ∧ m'.crashed = false ∧ Dealt cfg (xs ++ [args]) m' ∧
      m'.taken = m.taken ++ [((xs.length + 1) % cfg.n, args)] := by
  have hrest : m.next.tmod cfg.n = ((xs.length + 1) % cfg.n : ℕ) := by
    rw [h.next_eq hfew]
    exact (Int.ofNat_tmod _ _).symm
  have hstep : m.step cfg (.take args)
      = some { m with ctr := m.next, taken := m.taken ++ [((xs.length + 1) % cfg.n, args)] } := by
    rw [MultiCoreClients.step, if_neg (by simp [hup]), hrest, if_neg (by omega), Int.toNat_natCast]
  refine ⟨_, hstep, hup, ⟨?_, ?_, fun i hi => ?_, h.alone⟩, rfl⟩
  · show m.next = _
    rw [h.next_eq hfew, List.length_append, List.length_singleton]
  · intro p hp
    rcases List.mem_append.mp hp with hp | hp
    · exact h.range p hp
    · rw [List.mem_singleton.mp hp]
      exact Nat.mod_lt _ hn
  · rw [deal_concat]
    show (_ ++ ((m.taken ++ [_]).filter _).map _).Perm _
    rw [List.filter_append, List.map_append, ← List.append_assoc]
    refine (h.dealt i hi).append (.of_eq ?_)
    by_cases heq : (xs.length + 1) % cfg.n = i
    · simp [heq]
    · simp [heq]

/-- A call that comes to its client is taken off the list. -/
theorem filter_eraseIdx_perm {taken : List (ℕ × List Arg)} {j i : ℕ} {args : List Arg}
    (hj : taken[j]? = some (i, args)) (k : ℕ) :
    ((taken.filter (·.1 = k)).map Prod.snd).Perm
      ((if i = k then [args] else []) ++ ((taken.eraseIdx j).filter (·.1 = k)).map Prod.snd) := by
  obtain ⟨hlt, hget⟩ := List.getElem?_eq_some_iff.mp hj
  have hperm : taken.Perm ((i, args) :: taken.eraseIdx j) := by
    rw [← hget]
    exact (List.getElem_cons_eraseIdx_perm hlt).symm
  refine ((hperm.filter (·.1 = k)).map Prod.snd).trans (.of_eq ?_)
  by_cases hik : i = k
  · simp [hik]
  · simp [hik]

/-- A client makes a step of its own. -/
theorem alone_update (h : ∀ i, ∃ as, run (Client.step cfg.client) {} as = some (m.clients i))
    {i : ℕ} {a : Action} {s : State} (hs : Client.step cfg.client (m.clients i) a = some s)
    (k : ℕ) :
    ∃ as, run (Client.step cfg.client) {} as = some (Function.update m.clients i s k) := by
  by_cases hk : k = i
  · subst hk
    obtain ⟨as, has⟩ := h k
    rw [Function.update_self]
    exact ⟨as ++ [a], (run_append has).trans (run_single hs)⟩
  · rw [Function.update_of_ne hk]
    exact h k

/-- A client makes a step in which the calls `came` come to it, which are then no longer on their
    way. -/
theorem Dealt.move (h : Dealt cfg xs m) {i : ℕ} {a : Action} {taken : List (ℕ × List Arg)}
    (came : List (List Arg)) (hrange : ∀ p ∈ taken, p.1 < cfg.n)
    (hway : ∀ k, ((m.taken.filter (·.1 = k)).map Prod.snd).Perm
      ((if i = k then came else []) ++ (taken.filter (·.1 = k)).map Prod.snd))
    (hcame : ∀ s, Client.step cfg.client (m.clients i) a = some s →
      s.entered = (m.clients i).entered ++ came)
    (hs : ({ m with taken := taken } : MultiCoreClients).move cfg i a = some m') :
    Dealt cfg xs m' := by
  obtain ⟨s, hstep, rfl⟩ := Option.map_eq_some_iff.mp hs
  refine ⟨h.ctr, hrange, fun k hk => ?_, alone_update h.alone hstep⟩
  refine List.Perm.trans ?_ (((List.Perm.refl _).append (hway k).symm).trans (h.dealt k hk))
  show ((Function.update m.clients i s k).entered ++ _).Perm _
  by_cases hik : k = i
  · subst hik
    rw [Function.update_self, hcame s hstep, if_pos rfl, List.append_assoc]
  · rw [Function.update_of_ne hik, if_neg (Ne.symm hik), List.nil_append]

/-- **One step.** -/
theorem step_dealt (h : Dealt cfg xs m) (hn : 0 < cfg.n) {a : MultiAct}
    (hfew : (xs ++ a.call?.toList).length < 2 ^ 63) (hs : m.step cfg a = some m') :
    Dealt cfg (xs ++ a.call?.toList) m' := by
  have hup : m.crashed = false := by
    by_contra hc
    rw [MultiCoreClients.step.eq_def, if_pos (by simpa using hc)] at hs
    cases hs
  cases a with
  | take args =>
    obtain ⟨m₁, hm₁, -, hdealt, -⟩ := h.take hn (by simpa [MultiAct.call?] using hfew) hup args
    rw [hm₁] at hs
    obtain rfl := Option.some.inj hs
    exact hdealt
  | enter j =>
    rw [MultiCoreClients.step, if_neg (by simp [hup])] at hs
    simp only [MultiAct.call?, Option.toList_none, List.append_nil]
    split at hs
    · cases hs
    · rename_i i args hj
      -- one call less on its way, and one more that has come
      refine h.move [args] (fun p hp => h.range p (List.mem_of_mem_eraseIdx hp))
        (filter_eraseIdx_perm hj) ?_ hs
      intro s hstep
      rcases step_entered hstep with ⟨args', heq, hent⟩ | ⟨hno, -⟩
      · cases heq
        exact hent
      · cases hno
  | client i a =>
    rw [MultiCoreClients.step, if_neg (by simp [hup])] at hs
    simp only [MultiAct.call?, Option.toList_none, List.append_nil]
    split at hs
    · cases hs
    · rename_i hno
      refine h.move [] h.range (fun k => by rw [ite_self, List.nil_append]) ?_ hs
      intro s hstep
      rcases step_entered hstep with ⟨args, rfl, -⟩ | ⟨-, hent⟩
      · exact absurd (Or.inl rfl) hno
      · rw [hent, List.append_nil]

/-- **Every run.** -/
theorem run_dealt (hn : 0 < cfg.n) (as : List MultiAct) (h : Dealt cfg xs m)
    (hfew : (xs ++ as.filterMap MultiAct.call?).length < 2 ^ 63)
    (hr : run (MultiCoreClients.step cfg) m as = some m') :
    Dealt cfg (xs ++ as.filterMap MultiAct.call?) m' := by
  induction as generalizing xs m with
  | nil =>
    rw [run, Option.some.injEq] at hr
    rw [List.filterMap_nil, List.append_nil, ← hr]
    exact h
  | cons a as ih =>
    have hcalls : xs ++ (a :: as).filterMap MultiAct.call?
        = (xs ++ a.call?.toList) ++ as.filterMap MultiAct.call? := by
      rw [List.append_assoc]
      cases hc : a.call? with
      | none => rw [List.filterMap_cons_none hc, Option.toList_none, List.nil_append]
      | some args => rw [List.filterMap_cons_some hc, Option.toList_some, List.singleton_append]
    rw [hcalls] at hfew ⊢
    rw [run] at hr
    cases hs : m.step cfg a with
    | none => rw [hs] at hr; cases hr
    | some m₁ =>
      rw [hs] at hr
      refine ih (step_dealt h hn ?_ hs) hfew hr
      rw [List.length_append] at hfew
      omega

end Steps

/-- **Round robin.**  However the goroutines that call `Exec` and the steps of the clients come in
    between each other, for fewer than `2^63` calls: each client is where its own steps alone would
    have brought it; the calls that it has got, with those on their way to it, are those whose
    number leaves its index as the rest, none lost and none twice, as many as for any other client
    or one more; and the next call finds its client. -/
theorem multi_round_robin (cfg : MultiConfig) (hn : 0 < cfg.n)
    (as : List MultiAct) (m : MultiCoreClients)
    (hr : run (MultiCoreClients.step cfg) {} as = some m)
    (hfew : (as.filterMap MultiAct.call?).length + 1 < 2 ^ 63) :
    (∀ i, ∃ bs, run (Client.step cfg.client) {} bs = some (m.clients i)) ∧
      (∀ i < cfg.n, ((m.clients i).entered ++ (m.taken.filter (·.1 = i)).map Prod.snd).Perm
        (deal cfg.n i (as.filterMap MultiAct.call?))) ∧
      (∀ i < cfg.n, ∀ j < cfg.n,
        (m.clients i).entered.length + (m.taken.filter (·.1 = i)).length
          ≤ (m.clients j).entered.length + (m.taken.filter (·.1 = j)).length + 1) ∧
      ∀ args, m.crashed = false → ∃ m', m.step cfg (.take args) = some m' ∧ m'.crashed = false ∧
        m'.taken = m.taken ++ [(((as.filterMap MultiAct.call?).length + 1) % cfg.n, args)] := by
  have h := run_dealt hn as (Dealt.init cfg) (by rw [List.nil_append]; omega) hr
  rw [List.nil_append] at h
  -- the length of a share
  have hshare : ∀ i < cfg.n, (m.clients i).entered.length + (m.taken.filter (·.1 = i)).length
      = (deal cfg.n i (as.filterMap MultiAct.call?)).length := by
    intro i hi
    rw [← (h.dealt i hi).length_eq, List.length_append, List.length_map]
  refine ⟨h.alone, h.dealt, fun i hi j hj => ?_, fun args hup => ?_⟩
  · rw [hshare i hi, hshare j hj, length_deal hi, length_deal hj]
    split <;> omega
  · obtain ⟨m', hstep, hup', -, htaken⟩ := h.take hn hfew hup args
    exact ⟨m', hstep, hup', htaken⟩

/-- Three calls for two clients; the third one overtakes the first one. -/
def overtaking : List MultiAct :=
  [.take [.string (ascii "A")], .take [.string (ascii "B")], .take [.string (ascii "C")], .enter 2,
    .client 1 (.decide 0), .enter 0]

theorem multi_round_robin_overtaking :
    ∃ m ∈ run (MultiCoreClients.step ⟨2, 5, [], 1024⟩) {} overtaking,
      (m.clients 1).entered = [[.string (ascii "C")], [.string (ascii "A")]] ∧
      ((m.clients 1).entered ++ (m.taken.filter (·.1 = 1)).map Prod.snd).Perm
        (deal 2 1 [[.string (ascii "A")], [.string (ascii "B")], [.string (ascii "C")]]) := by
  obtain ⟨m, hm, hentered⟩ : ∃ m ∈ run (MultiCoreClients.step ⟨2, 5, [], 1024⟩) {} overtaking,
      (m.clients 1).entered = [[.string (ascii "C")], [.string (ascii "A")]] := by
    decide +kernel
  obtain ⟨-, hdealt, -⟩ := multi_round_robin ⟨2, 5, [], 1024⟩ (by decide)
    overtaking m hm (by decide)
  exact ⟨m, hm, hentered, hdealt 1 (by decide)⟩

end Resh.Client
