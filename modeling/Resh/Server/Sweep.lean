import Resh.Server.Bookkeeping

namespace Resh.Server.Listener

open Resh.Go

/-!
# The timeout sweep

`Serve` keeps the connections in the order of their last events, so the sweep may start at `fdtail`
and stop at the first connection that is young enough.

* `Ordered` — the list runs from young to old, and no time in it lies in the future;
* `run_ordered` — so it is in every run whose clock readings do not decrease;
* `Sweeping` — what holds in the middle of a sweep;
* `sweep_exact` — the sweep closes exactly the expired connections, ends, and keeps the order of the
  rest.
-/

variable {cfg : Config} {l l' : Listener} {a : Act} {ids : List ℕ} {id : ℕ}

/-! ### The order -/

/-- The readings of the clock in a list of actions. -/
def readings (as : List Act) : List ℤ := as.filterMap readingOf

/-- The connections `ids` run from young to old, and the clock will not show less than their
    times. -/
structure Ordered (l : Listener) (ids : List ℕ) (future : List ℤ) : Prop where
  pairwise : ids.Pairwise fun i j => (l.conns j).ts ≤ (l.conns i).ts
  past : ∀ i ∈ ids, ∀ now ∈ future, (l.conns i).ts ≤ now

/-- Fewer connections with the same times. -/
theorem Ordered.sublist {ids' : List ℕ} {future future' : List ℤ} (h : Ordered l ids future)
    (hsub : ids'.Sublist ids) (hfuture : ∀ now ∈ future', now ∈ future)
    (hts : ∀ i ∈ ids', (l'.conns i).ts = (l.conns i).ts) : Ordered l' ids' future' := by
  refine ⟨?_, ?_⟩
  · refine (h.pairwise.sublist hsub).imp_of_mem ?_
    intro i j hi hj hij
    rw [hts i hi, hts j hj]
    exact hij
  · intro i hi now hnow
    rw [hts i hi]
    exact h.past i (hsub.subset hi) now (hfuture now hnow)

/-- **One step** keeps the order: what comes to the front has the latest time. -/
theorem Ordered.step {as : List Act} {ids' : List ℕ} (h : Ordered l ids (readings (a :: as)))
    (hnodup : ids.Nodup) (hclock : (readings (a :: as)).Pairwise (· ≤ ·))
    (hstep : Relists a l l' ids ids') : Ordered l' ids' (readings as) := by
  have hlater : ∀ now ∈ readings as, now ∈ readings (a :: as) := by
    intro now hnow
    exact ((List.sublist_cons_self a as).filterMap readingOf).subset hnow
  cases hstep with
  | same ts => exact h.sublist (List.Sublist.refl ids) hlater fun i _ => ts i
  | erase id ts => exact h.sublist List.erase_sublist hlater fun i _ => ts i
  | front id now reading own ts =>
    have hread : readings (a :: as) = now :: readings as := List.filterMap_cons_some reading
    rw [hread, List.pairwise_cons] at hclock
    have hpast : ∀ i ∈ ids, (l.conns i).ts ≤ now := by
      intro i hi
      apply h.past i hi
      rw [hread]
      exact List.mem_cons_self
    -- the connections behind the new first one are the others, with their old times
    have hts : ∀ i ∈ ids.erase id, (l'.conns i).ts = (l.conns i).ts := by
      intro i hi
      exact ts i (hnodup.mem_erase_iff.mp hi).1
    have hrest : Ordered l' (ids.erase id) (readings as) := h.sublist List.erase_sublist hlater hts
    refine ⟨List.pairwise_cons.mpr ⟨?_, hrest.pairwise⟩, List.forall_mem_cons.mpr ⟨?_, hrest.past⟩⟩
    · intro i hi
      rw [own, hts i hi]
      exact hpast i (List.mem_of_mem_erase hi)
    · rw [own]
      exact hclock.1

/-- **A whole run** keeps the order. -/
theorem run_ordered {as : List Act} (hb : Balanced cfg l ids) (hw : Within l.made ids l.loop)
    (ho : Ordered l ids (readings as)) (hclock : (readings as).Pairwise (· ≤ ·))
    (hr : run (step cfg) l as = some l') :
    ∃ ids', Balanced cfg l' ids' ∧ ids'.Pairwise fun i j => (l'.conns j).ts ≤ (l'.conns i).ts := by
  induction as generalizing l ids with
  | nil =>
    cases hr
    exact ⟨ids, hb, ho.pairwise⟩
  | cons a as ih =>
    rw [run] at hr
    cases hs : step cfg l a with
    | none =>
      rw [hs] at hr
      cases hr
    | some l₁ =>
      rw [hs] at hr
      obtain ⟨ids₁, hb₁, hw₁, hstep⟩ := step_relists hb hw hs
      have hlater : (readings as).Sublist (readings (a :: as)) :=
        (List.sublist_cons_self a as).filterMap readingOf
      exact ih hb₁ hw₁ (ho.step hb.nodup hclock hstep) (hclock.sublist hlater) hr

/-! ### The end of the list -/

/-- The node in front of `fdtail`. -/
def lastPtr (ids : List ℕ) : Ptr :=
  match ids.getLast? with
  | none => .head
  | some id => .conn id

theorem lastPtr_concat (ids : List ℕ) (id : ℕ) : lastPtr (ids ++ [id]) = .conn id := by
  rw [lastPtr, List.getLast?_concat]

/-- The nodes from `fdhead` to the last connection. -/
theorem exists_dropLast (ids : List ℕ) : ∃ k, Ptr.head :: ids.map .conn = k ++ [lastPtr ids] := by
  obtain rfl | ⟨ids, id, rfl⟩ := List.eq_nil_or_concat' ids
  · exact ⟨[], rfl⟩
  · refine ⟨.head :: ids.map .conn, ?_⟩
    rw [lastPtr_concat]
    simp

/-- `prev` leads from the node behind the connections `ids` to the last of them. -/
theorem prev_eq_lastPtr {next prev : Ptr → Ptr} {p : Ptr} {m : List Ptr}
    (h : Joined next prev (Ptr.head :: ids.map .conn ++ p :: m)) : prev p = lastPtr ids := by
  obtain ⟨k, hk⟩ := exists_dropLast ids
  rw [hk, List.append_assoc, List.singleton_append] at h
  exact (List.isChain_append_cons_cons.1 h).2.1.2

theorem prev_tail (h : Balanced cfg l ids) : l.prev .tail = lastPtr ids := by
  have hjoined := h.joined
  rw [chain, ← List.cons_append] at hjoined
  exact prev_eq_lastPtr hjoined

theorem prev_last (h : Balanced cfg l (ids ++ [id])) : l.prev (.conn id) = lastPtr ids := by
  have hjoined := h.joined
  have hchain : chain (ids ++ [id]) = Ptr.head :: ids.map .conn ++ .conn id :: [.tail] := by
    simp [chain]
  rw [hchain] at hjoined
  exact prev_eq_lastPtr hjoined

/-! ### The sweep -/

/-- The connection has not been used for longer than `Timeout`. -/
def expired (cfg : Config) (l : Listener) (now : ℤ) (id : ℕ) :
    Bool := (l.conns id).ts < now - cfg.timeout

/-- In an ordered list the expired connections are the last ones. -/
theorem eq_filter_append (cfg : Config) (now : ℤ)
    (h : ids.Pairwise fun i j => (l.conns j).ts ≤ (l.conns i).ts) :
    ids = ids.filter (fun i => ¬ expired cfg l now i) ++ ids.filter (expired cfg l now) := by
  induction ids with
  | nil => rfl
  | cons i ids ih =>
    obtain ⟨hi, hrest⟩ := List.pairwise_cons.mp h
    by_cases hexp : expired cfg l now i = true
    · -- everything behind an expired connection is expired
      have hall : ∀ j ∈ ids, expired cfg l now j = true := by
        intro j hj
        have hle := hi j hj
        simp only [expired, decide_eq_true_eq] at hexp ⊢
        omega
      have hyoung : ids.filter (fun i => ¬ expired cfg l now i) = [] := by
        rw [List.filter_eq_nil_iff]
        intro j hj
        simp [hall j hj]
      rw [List.filter_cons_of_neg (by simp [hexp]), hyoung, List.filter_cons_of_pos hexp,
        List.filter_eq_self.mpr hall, List.nil_append]
    · rw [List.filter_cons_of_pos (by simp [hexp]), List.filter_cons_of_neg hexp,
        List.cons_append, ← ih hrest]

/-- What a sweep over `l` has made of it: the last ones of the expired connections `old` are closed,
    the others of them and the `young` ones are in the list, and the walk is at its end. -/
structure Swept (cfg : Config) (l l' : Listener) (young old : List ℕ) : Prop where
  books : Balanced cfg l' (young ++ old)
  made : l'.made = l.made
  ts : ∀ i, (l'.conns i).ts = (l.conns i).ts
  closed : ∀ i, (l'.conns i).closed = true ↔
    (l.conns i).closed = true ∨ (i < l.made ∧ i ∉ young ++ old)

/-- Handlers and goroutines. -/
theorem Swept.uses {l'' : Listener} {young old : List ℕ} (h : Swept cfg l l' young old)
    (hu : Uses l' l'') : Swept cfg l l'' young old := by
  obtain ⟨hsame, hmade, -, -⟩ := hu.same
  refine ⟨h.books.uses hu, hmade.trans h.made, fun i => (hu.ts i).trans (h.ts i), ?_⟩
  intro i
  rw [(hsame i).1]
  exact h.closed i

/-- The last of the expired connections is closed. -/
theorem Swept.close {young old : List ℕ} (h : Swept cfg l l' young (old ++ [id])) :
    Swept cfg l (l'.closeConnWithError id) young old := by
  have hbooks := h.books
  rw [← List.append_assoc] at hbooks
  have hid : id ∈ young ++ old ++ [id] := List.mem_append_right _ (List.mem_singleton_self id)
  have hnot : id ∉ young ++ old := fun hmem =>
    (List.nodup_append.mp hbooks.nodup).2.2 id hmem id (List.mem_singleton_self id) rfl
  obtain ⟨hlt, hopen⟩ := (hbooks.mem_iff id).1 hid
  have herase : (young ++ old ++ [id]).erase id = young ++ old := by
    rw [List.erase_append_right _ hnot, List.erase_cons_head, List.append_nil]
  have hclose := hbooks.close hid
  rw [herase] at hclose
  refine ⟨hclose, (closeConnWithError_made l' id).trans h.made,
    fun i => (ts_closeConnWithError l' id i).trans (h.ts i), ?_⟩
  intro i
  rw [h.made] at hlt
  have hmem : ∀ j, ((l'.closeConnWithError id).conns j).closed = true ↔
      (l'.conns j).closed = true ∨ j = id := by
    intro j
    rw [closeConnWithError_of_open hopen]
    show (Function.update l'.conns id _ j).closed = true ↔ _
    by_cases hj : j = id
    · rw [hj, Function.update_self]
      simp
    · rw [Function.update_of_ne hj]
      simp [hj]
  rw [hmem, h.closed]
  by_cases hi : i = id
  · rw [hi]
    simp [hlt, hnot]
  · simp [hi]

/-- In the middle of a sweep with the clock reading `now`. -/
structure Sweeping (cfg : Config) (l l' : Listener) (now : ℤ) (todo : List PollEvent)
    (young old : List ℕ) : Prop extends Swept cfg l l' young old where
  loop : l'.loop = .sweep (lastPtr (young ++ old)) now todo
  fresh : ∀ i ∈ young, expired cfg l now i = false
  stale : ∀ i ∈ old, expired cfg l now i = true

/-- **One round of the sweep** closes the last connection if that is expired, and else it is the
    last. -/
theorem Sweeping.sweep {now : ℤ} {todo : List PollEvent} {young old : List ℕ}
    (h : Sweeping cfg l l' now todo young old) :
    ∃ l'', step cfg l' .sweep = some l'' ∧
      ((old = [] ∧ Swept cfg l l'' young [] ∧ l''.loop = .between todo) ∨
        ∃ old' id, old = old' ++ [id] ∧ Sweeping cfg l l'' now todo young old') := by
  have hstep : step cfg l' .sweep = some (sweepConn cfg l' now todo (lastPtr (young ++ old))) := by
    simp only [step, h.loop]
  refine ⟨_, hstep, ?_⟩
  -- the sweep is at the last connection that is left: there is an expired one, or it stops here
  obtain rfl | ⟨old', id, rfl⟩ := List.eq_nil_or_concat' old
  · left
    have hswept := h.toSwept
    refine ⟨rfl, ?_⟩
    rw [List.append_nil]
    obtain rfl | ⟨young, id, rfl⟩ := List.eq_nil_or_concat' young
    · exact ⟨⟨hswept.books, hswept.made, hswept.ts, hswept.closed⟩, rfl⟩
    · -- the last connection is young enough
      have hfresh := h.fresh id (by simp)
      have hts : ¬ (l'.conns id).ts < now - cfg.timeout := by
        rw [h.ts]
        simpa [expired] using hfresh
      rw [lastPtr_concat, sweepConn, if_neg hts]
      exact ⟨⟨hswept.books, hswept.made, hswept.ts, hswept.closed⟩, rfl⟩
  · right
    refine ⟨old', id, rfl, ?_⟩
    have hstale := h.stale id (by simp)
    have hts : (l'.conns id).ts < now - cfg.timeout := by
      rw [h.ts]
      simpa [expired] using hstale
    have hbooks := h.books
    rw [← List.append_assoc] at hbooks
    have hopen := ((hbooks.mem_iff id).1 (by simp)).2
    -- the pointer that the source saved before the close still leads to the one before
    have hprev : (l'.closeConnWithError id).prev (.conn id) = lastPtr (young ++ old') :=
      (prev_closeConnWithError hopen).trans (prev_last hbooks)
    rw [← List.append_assoc, lastPtr_concat, sweepConn, if_pos hts]
    have hclose := h.toSwept.close
    refine { books := hclose.books, made := hclose.made, ts := hclose.ts, closed := hclose.closed,
             loop := ?_, fresh := h.fresh, stale := ?_ }
    · show Loop.sweep ((l'.closeConnWithError id).prev (.conn id)) now todo = _
      rw [hprev]
    · intro i hi
      exact h.stale i (List.mem_append_left _ hi)

/-- During a sweep: another round of it, or a step of a handler or goroutine. -/
def ofSweep : Act → Bool
  | .sweep => true
  | .user _ => true
  | _ => false

theorem Sweeping.user {now : ℤ} {todo : List PollEvent} {young old : List ℕ} {l'' : Listener}
    (h : Sweeping cfg l l' now todo young old) (hu : Uses l' l'') :
    Sweeping cfg l l'' now todo young old := by
  have hswept := h.toSwept.uses hu
  exact { books := hswept.books, made := hswept.made, ts := hswept.ts, closed := hswept.closed,
          loop := hu.same.2.2.2.trans h.loop, fresh := h.fresh, stale := h.stale }

/-- Behind the sweep there is no further round. -/
theorem run_swept {l₂ : Listener} {todo : List PollEvent} {young : List ℕ} {bs : List Act}
    (h : Swept cfg l l' young []) (hloop : l'.loop = .between todo)
    (hbs : ∀ b ∈ bs, ofSweep b = true) (hr : run (step cfg) l' bs = some l₂) :
    bs.count .sweep = 0 ∧ Swept cfg l l₂ young [] ∧ l₂.loop = .between todo := by
  induction bs generalizing l' with
  | nil =>
    cases hr
    exact ⟨rfl, h, hloop⟩
  | cons b bs ih =>
    obtain ⟨hb, hrest⟩ := List.forall_mem_cons.mp hbs
    rw [run] at hr
    cases b with
    | sweep =>
      simp only [step, hloop] at hr
      cases hr
    | user op =>
      cases hs : step cfg l' (.user op) with
      | none =>
        rw [hs] at hr
        cases hr
      | some l₁ =>
        rw [hs] at hr
        have hu : Uses l' l₁ := useConn_uses hs
        rw [List.count_cons_of_ne (by simp)]
        exact ih (h.uses hu) (hu.same.2.2.2.trans hloop) hrest hr
    | _ => cases hb

/-- **The whole sweep.**  After `k` rounds the last `k` of the expired connections are closed, and
    with one round more the loop has ended. -/
theorem Sweeping.run {now : ℤ} {todo : List PollEvent} {young old : List ℕ}
    {l₂ : Listener} {bs : List Act}
    (h : Sweeping cfg l l' now todo young old) (hbs : ∀ b ∈ bs, ofSweep b = true)
    (hr : Resh.run (Listener.step cfg) l' bs = some l₂) :
    (∃ old', old'.length + bs.count .sweep = old.length ∧ Sweeping cfg l l₂ now todo young old') ∨
      (bs.count .sweep = old.length + 1 ∧ Swept cfg l l₂ young [] ∧ l₂.loop = .between todo) := by
  induction bs generalizing l' old with
  | nil =>
    cases hr
    exact .inl ⟨old, rfl, h⟩
  | cons b bs ih =>
    obtain ⟨hb, hrest⟩ := List.forall_mem_cons.mp hbs
    rw [Resh.run] at hr
    cases b with
    | sweep =>
      obtain ⟨l₁, hs, ⟨rfl, hswept, hloop⟩ | ⟨old', id, rfl, hnext⟩⟩ := h.sweep
      · rw [hs] at hr
        obtain ⟨hcount, hlast⟩ := run_swept hswept hloop hrest hr
        rw [List.count_cons_self, hcount]
        exact .inr ⟨rfl, hlast⟩
      · rw [hs] at hr
        rw [List.count_cons_self, List.length_append, List.length_singleton]
        obtain ⟨rest, hcount, hlast⟩ | ⟨hcount, hlast⟩ := ih hnext hrest hr
        · exact .inl ⟨rest, by omega, hlast⟩
        · exact .inr ⟨by omega, hlast⟩
    | user op =>
      cases hs : Listener.step cfg l' (.user op) with
      | none =>
        rw [hs] at hr
        cases hr
      | some l₁ =>
        rw [hs] at hr
        rw [List.count_cons_of_ne (by simp)]
        exact ih (h.user (useConn_uses hs)) hrest hr
    | _ => cases hb

/-! ### The listener -/

/-- The pointers lead from `fdhead` to `fdtail` and back over the connections `ids`, which are the
    open ones. -/
structure Listed (l : Listener) (ids : List ℕ) : Prop where
  forward : (Ptr.head :: (ids.map .conn ++ [.tail])).IsChain fun p q => l.next p = q
  backward : (Ptr.tail :: (ids.reverse.map .conn ++ [.head])).IsChain fun p q => l.prev p = q
  mem_iff : ∀ id, id ∈ ids ↔ id < l.made ∧ (l.conns id).closed = false

theorem Balanced.listed (h : Balanced cfg l ids) : Listed l ids := by
  refine ⟨h.joined.forward, ?_, h.mem_iff⟩
  have hback := h.joined.backward
  simpa [chain] using hback

/-- **The sweep is exact.**  If the clock readings of a run do not decrease, the connections from
    `fdhead` to `fdtail` run from young to old.  A sweep that starts there has a next round until it
    has made one more than there are expired connections, whatever handlers and goroutines do in
    between; then it has ended, it has closed exactly the expired connections, and the list is the
    old one without them. -/
theorem sweep_exact (cfg : Config) (as : List Act) (l : Listener)
    (hr : run (step cfg) (init cfg) as = some l) (hclock : (readings as).Pairwise (· ≤ ·)) :
    ∃ ids, Listed l ids ∧ (ids.Pairwise fun i j => (l.conns j).ts ≤ (l.conns i).ts) ∧
      ∀ now todo l₁, 0 < cfg.timeout → l.loop = .tick todo → step cfg l (.tick now) = some l₁ →
        ∀ bs l₂, (∀ b ∈ bs, ofSweep b = true) → run (step cfg) l₁ bs = some l₂ →
          bs.count .sweep ≤ (ids.filter (expired cfg l now)).length + 1 ∧
          (bs.count .sweep ≤ (ids.filter (expired cfg l now)).length →
            ∃ l₃, step cfg l₂ .sweep = some l₃) ∧
          (bs.count .sweep = (ids.filter (expired cfg l now)).length + 1 →
            l₂.loop = .between todo ∧ Listed l₂ (ids.filter fun i => ¬ expired cfg l now i) ∧
            ∀ id < l₂.made, (l₂.conns id).closed = true ↔
              (l.conns id).closed = true ∨ (l.conns id).ts < now - cfg.timeout) := by
  obtain ⟨ids, hb, hordered⟩ := run_ordered (l := init cfg) Balanced.init trivial
    ⟨List.Pairwise.nil, List.forall_mem_nil _⟩ hclock hr
  refine ⟨ids, hb.listed, hordered, ?_⟩
  intro now todo l₁ hpos hloop htick bs l₂ hbs hrun
  have hsplit := eq_filter_append cfg now hordered
  -- the sweep starts at the node in front of `fdtail`
  simp only [step, hloop, if_pos hpos] at htick
  cases htick
  have hstart : Sweeping cfg l (l.goto (.sweep (l.prev .tail) now todo)) now todo
      (ids.filter fun i => ¬ expired cfg l now i) (ids.filter (expired cfg l now)) := by
    refine { books := hsplit ▸ hb, made := rfl, ts := fun _ => rfl, closed := ?_, loop := ?_,
             fresh := ?_, stale := fun i hi => (List.mem_filter.mp hi).2 }
    · intro i
      rw [← hsplit, hb.mem_iff]
      simp only [goto]
      cases (l.conns i).closed <;> simp
    · rw [← hsplit, ← prev_tail hb]
      rfl
    · intro i hi
      simpa using (List.mem_filter.mp hi).2
  obtain ⟨old', hcount, hlast⟩ | ⟨hcount, hswept, hend⟩ := hstart.run hbs hrun
  · obtain ⟨l₃, hl₃, -⟩ := hlast.sweep
    exact ⟨by omega, fun _ => ⟨l₃, hl₃⟩, fun hend => absurd hend (by omega)⟩
  · refine ⟨by omega, fun hle => absurd hle (by omega), fun _ => ⟨hend, ?_, ?_⟩⟩
    · have hbooks := hswept.books
      rw [List.append_nil] at hbooks
      exact hbooks.listed
    · intro id hid
      rw [hswept.made] at hid
      rw [hswept.closed, List.append_nil, List.mem_filter, hb.mem_iff]
      cases hclosed : (l.conns id).closed with
      | true => simp
      | false =>
        have hexp : expired cfg l now id = true ↔ (l.conns id).ts < now - cfg.timeout :=
          decide_eq_true_iff
        rw [← hexp]
        simp [hid]

/-- Two connections, and a third one later; the sweep after its accept closes the first two, while a
    goroutine writes to one of them. -/
theorem sweep_exact_two : ∃ l l₁ l₂,
    run (step ⟨3, 10⟩) (init ⟨3, 10⟩) [.wake [⟨3, {}⟩, ⟨3, {}⟩, ⟨3, {}⟩],
      .callback 0 (.ok 7), .tick 0, .sweep,
      .callback 1 (.ok 8), .tick 1, .sweep, .callback 30 (.ok 9)] = some l ∧
    step ⟨3, 10⟩ l (.tick 30) = some l₁ ∧
    run (step ⟨3, 10⟩) l₁ [.sweep, .user (.write none 1 [65]), .sweep, .sweep] = some l₂ ∧
    ∀ id < l₂.made, (l₂.conns id).closed = true ↔ (l.conns id).closed = true ∨
    (l.conns id).ts < 20 := by
  have hrun : ∃ l ∈ run (step ⟨3, 10⟩) (init ⟨3, 10⟩)
      [.wake [⟨3, {}⟩, ⟨3, {}⟩, ⟨3, {}⟩], .callback 0 (.ok 7),
      .tick 0, .sweep, .callback 1 (.ok 8), .tick 1, .sweep, .callback 30 (.ok 9)],
      l.loop = .tick [] ∧ ∃ l₁ ∈ step ⟨3, 10⟩ l (.tick 30),
        ∃ l₂ ∈ run (step ⟨3, 10⟩) l₁ [.sweep, .user (.write none 1 [65]), .sweep, .sweep],
          l₂.loop = .between [] := by decide +kernel
  obtain ⟨l, hl, hloop, l₁, hl₁, l₂, hl₂, hend⟩ := hrun
  obtain ⟨ids, -, -, hsweep⟩ := sweep_exact ⟨3, 10⟩ _ l hl (by decide)
  obtain ⟨hle, hnext, hexact⟩ := hsweep 30 [] l₁ (by decide) hloop hl₁ _ l₂ (by decide) hl₂
  refine ⟨l, l₁, l₂, hl, hl₁, hl₂, (hexact ?_).2.2⟩
  -- there is no further round
  by_contra hne
  obtain ⟨l₃, hl₃⟩ := hnext (by omega)
  simp only [step, hend] at hl₃
  cases hl₃

end Resh.Server.Listener
