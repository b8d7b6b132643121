import Mathlib.Data.List.Perm.Basic
import Resh.DoublyLinked
import Resh.Server.ListenerMoves

namespace Resh.Server.Listener

open Resh.Go

/-!
# The books of the listener

The list between `fdhead` and `fdtail`, the map `fdconns`, the counter and the flags `closed` of the
connections say the same, and a connection that is gone was closed once.

* `Books` — the invariant, with the numbers of the open connections in the order of the list;
* `Balanced.newConn`, `Balanced.touch`, `Balanced.closeConnWithError` — the three changes to them;
* `step_relists` — every step keeps them, and how it changes the list;
* `books_balance` — what holds between any two callbacks.
-/

/-! ### The invariant -/

/-- The nodes from `fdhead` to `fdtail`, with the given connections between them. -/
def chain (ids : List ℕ) : List Ptr := .head :: (ids.map .conn ++ [.tail])

/-- A call that only `closeConnWithError` makes. -/
def IsClosing (id : ℕ) (c : LoopCall) : Prop :=
  c = .onWSClose id ∨ c = .decrement id ∨ c = .sysClose id

/-- The connection was closed: the counter went down once, `syscall.Close` was called once, and
    `OnWSClose` was called once before that if the connection had been upgraded, and else never. -/
def ClosedOnce (log : List LoopCall) (id : ℕ) : Prop :=
  ∃ before after, log = before ++ closing (.upgrade id ∈ before) id ++ after ∧
    ∀ c ∈ before ++ after, ¬ IsClosing id c

/-- The books, over the fields of the listener that they are about. -/
structure Books (cfg : Config) (conns : ℕ → Socket) (made : ℕ) (next prev : Ptr → Ptr)
    (fdconns : ℕ → Option ℕ) (count : ℤ) (opened : ℕ → Bool) (log : List LoopCall) (ids : List ℕ) :
    Prop where
  nodup : ids.Nodup
  joined : Joined next prev (chain ids)
  mem_iff : ∀ id, id ∈ ids ↔ id < made ∧ (conns id).closed = false
  stored : ∀ fd id, fdconns fd = some id ↔ id ∈ ids ∧ (conns id).fd = fd
  length : count = ids.length
  fd_opened : ∀ id ∈ ids, opened (conns id).fd = true
  listening : opened cfg.fd = true
  fd_ne : ∀ id ∈ ids, (conns id).fd ≠ cfg.fd
  log_lt : ∀ c ∈ log, c.conn < made
  unclosed : ∀ id ∈ ids, ∀ c ∈ log, ¬ IsClosing id c
  upgraded : ∀ id ∈ ids, (conns id).ws.isSome = true ↔ .upgrade id ∈ log
  gone : ∀ id < made, id ∉ ids → ClosedOnce log id

/-- The books of a listener. -/
def Balanced (cfg : Config) (l : Listener) (ids : List ℕ) : Prop :=
  Books cfg l.conns l.made l.next l.prev l.fdconns l.count l.opened l.log ids

/-- The event loop works on connections that exist, and its walk over the list is in the list. -/
def Within (made : ℕ) (ids : List ℕ) : Loop → Prop
  | .serving id _ _ _ => id < made
  | .sweep conn _ _ => conn ∈ Ptr.head :: ids.map .conn
  | _ => True

variable {cfg : Config} {l l' : Listener} {a : Act} {ids : List ℕ} {id : ℕ}

/-! ### The list -/

/-- The chain goes from the head over the connections to the tail. -/
theorem mem_chain {p : Ptr} :
    p ∈ chain ids ↔ p = .head ∨ (∃ id ∈ ids, p = .conn id) ∨ p = .tail := by
  simp [chain, eq_comm]

/-- Head and tail are no connections, so a chain over distinct connections has no repetition. -/
theorem nodup_chain (h : ids.Nodup) : (chain ids).Nodup := by
  have hmap : (ids.map Ptr.conn).Nodup := h.map fun _ _ he => by cases he; rfl
  simp [chain, List.nodup_append, hmap]

/-- Taking a connection out of the list. -/
theorem joined_detach (h : Joined l.next l.prev (chain ids)) (hnodup : ids.Nodup) (hid : id ∈ ids) :
    Joined (l.detach id).next (l.detach id).prev (chain (ids.erase id)) := by
  obtain ⟨i, j, -, hsplit, herase⟩ := List.exists_erase_eq hid
  have hchain : chain ids = (.head :: i.map .conn) ++ .conn id :: (j.map .conn ++ [.tail]) := by
    simp [chain, hsplit]
  have hnodup := nodup_chain hnodup
  rw [hchain] at h hnodup
  have hrest := h.unlink hnodup (by simp) (by simp)
  have hgoal : chain (ids.erase id) = (.head :: i.map .conn) ++ (j.map .conn ++ [.tail]) := by
    simp [chain, herase]
  rw [hgoal]
  exact hrest

/-- Before a connection there is another one or `fdhead`. -/
theorem prev_mem (h : Joined l.next l.prev (chain ids)) (hid : id ∈ ids) :
    l.prev (.conn id) ∈ Ptr.head :: (ids.erase id).map .conn := by
  obtain ⟨i, j, -, hsplit, herase⟩ := List.exists_erase_eq hid
  have hchain : chain ids = (.head :: i.map .conn) ++ .conn id :: (j.map .conn ++ [.tail]) := by
    simp [chain, hsplit]
  rw [hchain] at h
  have hmem := h.prev_mem (by simp)
  rw [herase, List.map_append]
  rw [List.mem_cons] at hmem ⊢
  exact hmem.imp_right (List.mem_append_left _)

/-- A connection that is taken out keeps its own pointer. -/
theorem prev_closeConnWithError (hopen : (l.conns id).closed = false) :
    (l.closeConnWithError id).prev (.conn id) = l.prev (.conn id) := by
  rw [closeConnWithError_of_open hopen]
  show Function.update l.prev (l.next (.conn id)) (l.prev (.conn id)) (.conn id) = _
  rw [Function.update_apply]
  split <;> rfl

/-- A connection that is not in the list comes to its front. -/
theorem joined_attachConn (now : ℤ) (h : Joined l.next l.prev (chain ids)) (hnodup : ids.Nodup)
    (hid : id ∉ ids) :
    Joined (l.attachConn id now).next (l.attachConn id now).prev (chain (id :: ids)) := by
  refine h.insertAfter (nodup_chain hnodup) (by simp) ?_
  simpa [mem_chain, chain] using hid

/-! ### The log -/

/-- Later calls that do not close this connection leave its close the only one. -/
theorem ClosedOnce.append {log : List LoopCall} (h : ClosedOnce log id) (cs : List LoopCall)
    (hcs : ∀ c ∈ cs, ¬ IsClosing id c) : ClosedOnce (log ++ cs) id := by
  obtain ⟨before, after, hlog, hrest⟩ := h
  refine ⟨before, after ++ cs, by rw [hlog, List.append_assoc], fun c hc => ?_⟩
  rw [← List.append_assoc, List.mem_append] at hc
  exact hc.elim (hrest c) (hcs c)

/-- The calls of `closeConnWithError` behind a log without any of them: it calls `OnWSClose` exactly
    if the connection was upgraded before. -/
theorem closedOnce_closing {log : List LoopCall} {ws : Bool} (hlog : ∀ c ∈ log, ¬ IsClosing id c)
    (hws : ws = true ↔ .upgrade id ∈ log) : ClosedOnce (log ++ closing ws id) id := by
  refine ⟨log, [], ?_, by simpa using hlog⟩
  rw [List.append_nil]
  congr 2
  exact Bool.eq_iff_iff.2 (by simpa using hws)

/-- A call of a close is about the connection that is closed. -/
theorem isClosing_conn {c : LoopCall} (h : IsClosing id c) : c.conn = id := by
  rcases h with rfl | rfl | rfl <;> rfl

/-- All calls of a close are such calls. -/
theorem mem_closing {ws : Bool} {c : LoopCall} (h : c ∈ closing ws id) : IsClosing id c := by
  rcases List.mem_append.1 h with h | h
  · cases ws with
    | false => cases h
    | true => exact .inl (List.mem_singleton.1 h)
  · exact .inr (by simpa using h)

/-- The calls of a close are not those of another one. -/
theorem not_isClosing_of_mem_closing {ws : Bool} {i : ℕ} (hi : i ≠ id) :
    ∀ c ∈ closing ws id, ¬ IsClosing i c := fun _ hc hcl =>
  hi ((isClosing_conn hcl).symm.trans (isClosing_conn (mem_closing hc)))

/-- A read, a write or a registration is no call of a close. -/
theorem not_isClosing_of_io {c : LoopCall} (h : c.io = true) (i : ℕ) : ¬ IsClosing i c := by
  rintro (rfl | rfl | rfl) <;> cases h

/-- The calls of a close, counted. -/
theorem ClosedOnce.count {log : List LoopCall} (h : ClosedOnce log id) :
    log.count (.sysClose id) = 1 ∧ log.count (.decrement id) = 1 ∧
      log.count (.onWSClose id)
        = if .upgrade id ∈ log.takeWhile (· ≠ .sysClose id) then 1 else 0 := by
  obtain ⟨before, after, rfl, hrest⟩ := h
  have hnot : ∀ c, IsClosing id c → before.count c = 0 ∧ after.count c = 0 := fun c hc =>
    ⟨List.count_eq_zero.2 fun hmem => hrest c (List.mem_append_left _ hmem) hc,
      List.count_eq_zero.2 fun hmem => hrest c (List.mem_append_right _ hmem) hc⟩
  obtain ⟨hs₁, hs₂⟩ := hnot (.sysClose id) (.inr (.inr rfl))
  obtain ⟨hd₁, hd₂⟩ := hnot (.decrement id) (.inr (.inl rfl))
  obtain ⟨ho₁, ho₂⟩ := hnot (.onWSClose id) (.inl rfl)
  -- what precedes the close is what precedes `syscall.Close`, but for the calls of the close itself
  have hbefore : ∀ c ∈ before, decide (c ≠ .sysClose id) = true := fun c hc => by
    simpa using fun he => hrest c (List.mem_append_left _ hc) (.inr (.inr he))
  simp only [List.append_assoc, List.takeWhile_append_of_pos hbefore]
  by_cases hup : LoopCall.upgrade id ∈ before <;>
    simp [closing, hup, hs₁, hs₂, hd₁, hd₂, ho₁, ho₂]

/-! ### The changes -/

namespace Books

variable {conns conns' : ℕ → Socket} {made : ℕ} {next prev next' prev' : Ptr → Ptr}
  {fdconns : ℕ → Option ℕ} {count : ℤ} {opened : ℕ → Bool} {log log' : List LoopCall}

/-- An open connection is the one stored under its descriptor. -/
theorem fd_inj (h : Books cfg conns made next prev fdconns count opened log ids) {i j : ℕ}
    (hi : i ∈ ids) (hj : j ∈ ids) (hfd : (conns i).fd = (conns j).fd) : i = j := by
  have hi' := (h.stored _ i).2 ⟨hi, rfl⟩
  rw [hfd, (h.stored _ j).2 ⟨hj, rfl⟩, Option.some.injEq] at hi'
  exact hi'.symm

/-- Other connections and another log, with the same descriptors and flags `closed`. -/
theorem congr (h : Books cfg conns made next prev fdconns count opened log ids)
    (hsame : ∀ i, (conns' i).fd = (conns i).fd ∧ (conns' i).closed = (conns i).closed)
    (hlt : ∀ c ∈ log', c.conn < made) (hopen : ∀ i ∈ ids, ∀ c ∈ log', ¬ IsClosing i c)
    (hup : ∀ i ∈ ids, (conns' i).ws.isSome = true ↔ .upgrade i ∈ log')
    (hgone : ∀ i < made, i ∉ ids → ClosedOnce log' i) :
    Books cfg conns' made next prev fdconns count opened log' ids := by
  have hfd : ∀ i, (conns' i).fd = (conns i).fd := fun i => (hsame i).1
  have hclosed : ∀ i, (conns' i).closed = (conns i).closed := fun i => (hsame i).2
  refine
    { h with
      mem_iff := ?_, stored := ?_, fd_opened := ?_, fd_ne := ?_
      log_lt := hlt, unclosed := hopen, upgraded := hup, gone := hgone }
  · simpa only [hclosed] using h.mem_iff
  · simpa only [hfd] using h.stored
  · simpa only [hfd] using h.fd_opened
  · simpa only [hfd] using h.fd_ne

/-- Only the descriptor, the flag `closed` and the presence of a websocket matter. -/
theorem congr_conns (h : Books cfg conns made next prev fdconns count opened log ids)
    (hsame : ∀ i, (conns' i).fd = (conns i).fd ∧ (conns' i).closed = (conns i).closed ∧
      (conns' i).ws.isSome = (conns i).ws.isSome) :
    Books cfg conns' made next prev fdconns count opened log ids := by
  refine h.congr (fun i => ⟨(hsame i).1, (hsame i).2.1⟩) h.log_lt h.unclosed (fun i hi => ?_) h.gone
  rw [(hsame i).2.2]
  exact h.upgraded i hi

/-- The books balance as well with the same connections in another order, if the links follow it. -/
theorem relink (h : Books cfg conns made next prev fdconns count opened log ids) {ids' : List ℕ}
    (hperm : ids'.Perm ids) (hjoined : Joined next' prev' (chain ids')) :
    Books cfg conns made next' prev' fdconns count opened log ids' where
  nodup := hperm.nodup_iff.2 h.nodup
  joined := hjoined
  mem_iff := fun id => hperm.mem_iff.trans (h.mem_iff id)
  stored := fun fd id => by rw [hperm.mem_iff]; exact h.stored fd id
  length := by rw [hperm.length_eq]; exact h.length
  fd_opened := fun id hid => h.fd_opened id (hperm.mem_iff.1 hid)
  listening := h.listening
  fd_ne := fun id hid => h.fd_ne id (hperm.mem_iff.1 hid)
  log_lt := h.log_lt
  unclosed := fun id hid => h.unclosed id (hperm.mem_iff.1 hid)
  upgraded := fun id hid => h.upgraded id (hperm.mem_iff.1 hid)
  gone := fun id hlt hid => h.gone id hlt fun hmem => hid (hperm.mem_iff.2 hmem)

/-- A call that is no part of a close is recorded. -/
theorem append (h : Books cfg conns made next prev fdconns count opened log ids) {c : LoopCall}
    (hsame : ∀ i, (conns' i).fd = (conns i).fd ∧ (conns' i).closed = (conns i).closed)
    (hlt : c.conn < made) (hnot : ∀ i, ¬ IsClosing i c)
    (hup : ∀ i ∈ ids, (conns' i).ws.isSome = true ↔ .upgrade i ∈ log ++ [c]) :
    Books cfg conns' made next prev fdconns count opened (log ++ [c]) ids := by
  have hcs : ∀ i, ∀ d ∈ [c], ¬ IsClosing i d := fun i => List.forall_mem_singleton.2 (hnot i)
  refine h.congr hsame ?_ (fun i hi => ?_) hup fun i hlt hi => (h.gone i hlt hi).append _ (hcs i)
  · exact List.forall_mem_append.2 ⟨h.log_lt, List.forall_mem_singleton.2 hlt⟩
  · exact List.forall_mem_append.2 ⟨h.unclosed i hi, hcs i⟩

/-- A call is recorded that is neither part of a close nor an upgrade. -/
theorem record (h : Books cfg conns made next prev fdconns count opened log ids) {c : LoopCall}
    (hlt : c.conn < made) (hio : c.io = true) :
    Books cfg conns made next prev fdconns count opened (log ++ [c]) ids := by
  refine h.append (fun _ => ⟨rfl, rfl⟩) hlt (not_isClosing_of_io hio) fun i hi => ?_
  have hne : LoopCall.upgrade i ≠ c := by
    rintro rfl
    cases hio
  rw [h.upgraded i hi, List.mem_append, List.mem_singleton]
  exact ⟨.inl, fun hmem => hmem.resolve_right hne⟩

end Books

namespace Balanced

/-- A listener without connections: the head points at the tail and the counter is zero. -/
theorem init : Balanced cfg (init cfg) [] where
  nodup := List.nodup_nil
  joined := List.isChain_cons_cons.2 ⟨⟨rfl, rfl⟩, .singleton _⟩
  mem_iff := fun id => by simp [Listener.init]
  stored := fun fd id => by simp [Listener.init]
  length := rfl
  fd_opened := fun id hid => by cases hid
  listening := by simp [Listener.init]
  fd_ne := fun id hid => by cases hid
  log_lt := fun c hc => by cases hc
  unclosed := fun id hid => by cases hid
  upgraded := fun id hid => by cases hid
  gone := fun id hlt => absurd hlt (Nat.not_lt_zero id)

/-- A descriptor is opened. -/
theorem leak (h : Balanced cfg l ids) (fd : ℕ) : Balanced cfg (l.leak fd) ids := by
  have hmono : ∀ f, l.opened f = true → (l.leak fd).opened f = true := fun f hf => by
    show Function.update l.opened fd true f = true
    rw [Function.update_apply]
    split
    · rfl
    · exact hf
  exact { h with
    fd_opened := fun id hid => hmono _ (h.fd_opened id hid)
    listening := hmono _ h.listening }

/-- A new connection has the descriptor that was accepted, the time of the accept, and empty
    buffers. -/
theorem newConn_conns_self (l : Listener) (fd : ℕ) (now : ℤ) :
    (l.newConn fd now).conns l.made = { fd := fd, ts := now } := by
  simp only [Listener.newConn, attachConn, Function.update_self]

/-- The other connections stay as they are. -/
theorem newConn_conns_of_ne {fd : ℕ} {now : ℤ} (hid : id ≠ l.made) :
    (l.newConn fd now).conns id = l.conns id := by
  simp only [Listener.newConn, attachConn, Function.update_of_ne hid]

/-- The number of the next connection is not in the list. -/
theorem made_not_mem (h : Balanced cfg l ids) : l.made ∉ ids :=
  fun hmem => Nat.lt_irrefl _ ((h.mem_iff _).1 hmem).1

/-- A descriptor that `accept` can give is not that of an open connection. -/
theorem fd_ne_of_not_opened (h : Balanced cfg l ids) {fd : ℕ} (hfd : l.opened fd = false) :
    ∀ id ∈ ids, (l.conns id).fd ≠ fd := fun id hid he => by
  rw [← he, h.fd_opened id hid] at hfd
  cases hfd

/-- The map with the new connection in it. -/
theorem stored_newConn (h : Balanced cfg l ids) {fd : ℕ} (now : ℤ) (hfd : l.opened fd = false)
    (f id : ℕ) : (l.newConn fd now).fdconns f = some id ↔
      id ∈ l.made :: ids ∧ ((l.newConn fd now).conns id).fd = f := by
  have hold : ∀ id ∈ ids, (l.newConn fd now).conns id = l.conns id := fun id hid =>
    newConn_conns_of_ne (ne_of_mem_of_not_mem hid h.made_not_mem)
  rw [List.mem_cons]
  by_cases hf : f = fd
  · subst hf
    have hfc : (l.newConn f now).fdconns f = some l.made := Function.update_self ..
    rw [hfc, Option.some.injEq]
    constructor
    · rintro rfl
      exact ⟨.inl rfl, by rw [newConn_conns_self]⟩
    · rintro ⟨rfl | hid, he⟩
      · rfl
      · rw [hold id hid] at he
        exact absurd he (h.fd_ne_of_not_opened hfd id hid)
  · have hfc : (l.newConn fd now).fdconns f = l.fdconns f := Function.update_of_ne hf ..
    rw [hfc, h.stored]
    constructor
    · rintro ⟨hid, he⟩
      exact ⟨.inr hid, by rw [hold id hid, he]⟩
    · rintro ⟨rfl | hid, he⟩
      · rw [newConn_conns_self] at he
        exact absurd he.symm hf
      · rw [hold id hid] at he
        exact ⟨hid, he⟩

/-- **Accept.**  A new connection comes to the front. -/
theorem newConn (h : Balanced cfg l ids) {fd : ℕ} (now : ℤ) (hfd : l.opened fd = false) :
    Balanced cfg (l.newConn fd now) (l.made :: ids) := by
  have hmade := h.made_not_mem
  have hnew := newConn_conns_self l fd now
  have hold : ∀ id ∈ ids, (l.newConn fd now).conns id = l.conns id := fun id hid =>
    newConn_conns_of_ne (ne_of_mem_of_not_mem hid hmade)
  have hln : cfg.fd ≠ fd := fun he => by
    rw [← he, h.listening] at hfd
    cases hfd
  -- the log does not know the new number yet, and the call that is added is no part of a close
  have hlog : ∀ c ∈ l.log, c.conn ≠ l.made := fun c hc => Nat.ne_of_lt (h.log_lt c hc)
  have hcs : ∀ i, ∀ c ∈ [LoopCall.addRead l.made], ¬ IsClosing i c := fun i =>
    List.forall_mem_singleton.2 (not_isClosing_of_io rfl i)
  refine
    { nodup := List.nodup_cons.2 ⟨hmade, h.nodup⟩
      joined := joined_attachConn now h.joined h.nodup hmade
      mem_iff := fun id => ?_
      stored := h.stored_newConn now hfd
      length := ?_
      fd_opened := fun id hid => ?_
      listening := ?_
      fd_ne := fun id hid => ?_
      log_lt := ?_
      unclosed := fun id hid => ?_
      upgraded := fun id hid => ?_
      gone := fun id hlt hid => ?_ }
  · by_cases hid : id = l.made
    · subst hid
      simp [Listener.newConn, attachConn]
    · have hlt : id < (l.newConn fd now).made ↔ id < l.made := by
        simp only [Listener.newConn, attachConn]
        omega
      rw [List.mem_cons, newConn_conns_of_ne hid, hlt, h.mem_iff]
      simp [hid]
  · show l.count + 1 = _
    rw [h.length, List.length_cons]
    push_cast
    rfl
  · show Function.update l.opened fd true _ = true
    rcases List.mem_cons.1 hid with rfl | hid
    · rw [hnew, Function.update_self]
    · rw [hold id hid, Function.update_of_ne (h.fd_ne_of_not_opened hfd id hid), h.fd_opened id hid]
  · show Function.update l.opened fd true _ = true
    rw [Function.update_of_ne hln, h.listening]
  · rcases List.mem_cons.1 hid with rfl | hid
    · rw [hnew]
      exact hln.symm
    · rw [hold id hid]
      exact h.fd_ne id hid
  · refine List.forall_mem_append.2 ⟨fun c hc => Nat.lt_succ_of_lt (h.log_lt c hc), ?_⟩
    exact List.forall_mem_singleton.2 (Nat.lt_succ_self l.made)
  · refine List.forall_mem_append.2 ⟨fun c hc => ?_, hcs id⟩
    rcases List.mem_cons.1 hid with rfl | hid
    · exact fun hcl => hlog c hc (isClosing_conn hcl)
    · exact h.unclosed id hid c hc
  · have hmem : LoopCall.upgrade id ∈ (l.newConn fd now).log ↔ .upgrade id ∈ l.log := by
      simp [Listener.newConn, attachConn]
    rw [hmem]
    rcases List.mem_cons.1 hid with rfl | hid
    · rw [hnew]
      exact ⟨fun hws => (by cases hws), fun hup => absurd rfl (hlog _ hup)⟩
    · rw [hold id hid]
      exact h.upgraded id hid
  · obtain ⟨hne, hid⟩ := List.ne_and_not_mem_of_not_mem_cons hid
    have hlt : id < l.made := Nat.lt_of_le_of_ne (Nat.lt_succ_iff.1 hlt) hne
    exact (h.gone id hlt hid).append _ (hcs id)

/-- **Move to the front.** -/
theorem touch (h : Balanced cfg l ids) (hid : id ∈ ids) (now : ℤ) :
    Balanced cfg ((l.detach id).attachConn id now) (id :: ids.erase id) := by
  have hjoined := joined_attachConn now (joined_detach h.joined h.nodup hid)
    (h.nodup.erase id) h.nodup.not_mem_erase
  refine Books.congr_conns (h.relink (List.perm_cons_erase hid).symm hjoined) fun i => ?_
  by_cases hi : i = id
  · subst hi
    simp [attachConn, detach]
  · simp [attachConn, detach, Function.update_of_ne hi]

/-- **Close.** -/
theorem close (h : Balanced cfg l ids) (hid : id ∈ ids) :
    Balanced cfg (l.closeConnWithError id) (ids.erase id) := by
  obtain ⟨hlt, hopen⟩ := (h.mem_iff id).1 hid
  have hmem : ∀ {i}, i ∈ ids.erase id ↔ i ≠ id ∧ i ∈ ids := h.nodup.mem_erase_iff
  have hfd : ∀ i, (Function.update l.conns id { l.conns id with closed := true } i).fd
    = (l.conns i).fd :=
    fun i => by
      by_cases hi : i = id
      · subst hi
        rw [Function.update_self]
      · rw [Function.update_of_ne hi]
  -- no other open connection has the descriptor
  have hne : ∀ i, i ∈ ids.erase id → (l.conns i).fd ≠ (l.conns id).fd := fun i hi he =>
    (hmem.1 hi).1 (h.fd_inj (hmem.1 hi).2 hid he)
  rw [closeConnWithError_of_open hopen]
  refine
    { nodup := h.nodup.erase id
      joined := joined_detach h.joined h.nodup hid
      mem_iff := fun i => ?_
      stored := fun f i => ?_
      length := ?_
      fd_opened := fun i hi => ?_
      listening := ?_
      fd_ne := fun i hi => ?_
      log_lt := ?_
      unclosed := fun i hi => ?_
      upgraded := fun i hi => ?_
      gone := fun i hlt hi => ?_ }
  · by_cases hi : i = id
    · subst hi
      simp [hmem]
    · simp [hmem, hi, h.mem_iff, detach]
  · show Function.update l.fdconns (l.conns id).fd none f = some i ↔ _
    rw [hfd i]
    by_cases hf : f = (l.conns id).fd
    · rw [hf, Function.update_self]
      exact ⟨fun hn => absurd hn (by simp), fun hi => absurd hi.2 (hne i hi.1)⟩
    · rw [Function.update_of_ne hf, h.stored, hmem]
      refine ⟨fun ⟨hi, he⟩ => ⟨⟨?_, hi⟩, he⟩, fun ⟨hi, he⟩ => ⟨hi.2, he⟩⟩
      rintro rfl
      exact hf he.symm
  · show l.count - 1 = _
    have hpos := List.length_pos_of_mem hid
    rw [h.length, List.length_erase_of_mem hid]
    omega
  · show Function.update l.opened (l.conns id).fd false _ = true
    rw [hfd i, Function.update_of_ne (hne i hi)]
    exact h.fd_opened i (hmem.1 hi).2
  · show Function.update l.opened (l.conns id).fd false _ = true
    rw [Function.update_of_ne (h.fd_ne id hid).symm]
    exact h.listening
  · rw [hfd i]
    exact h.fd_ne i (hmem.1 hi).2
  · refine List.forall_mem_append.2 ⟨h.log_lt, fun c hc => ?_⟩
    exact isClosing_conn (mem_closing hc) ▸ hlt
  · refine List.forall_mem_append.2 ⟨h.unclosed i (hmem.1 hi).2, ?_⟩
    exact not_isClosing_of_mem_closing (hmem.1 hi).1
  · have hlog : LoopCall.upgrade i ∈ l.log ++ closing (l.conns id).ws.isSome id ↔
        .upgrade i ∈ l.log := by
      rw [List.mem_append]
      refine ⟨fun hup => hup.resolve_right fun hc => ?_, .inl⟩
      rcases mem_closing hc with hc | hc | hc <;> cases hc
    show (Function.update l.conns id _ i).ws.isSome = true ↔ _
    rw [Function.update_of_ne (hmem.1 hi).1, hlog]
    exact h.upgraded i (hmem.1 hi).2
  · by_cases he : i = id
    · subst he
      exact closedOnce_closing (h.unclosed i hid) (h.upgraded i hid)
    · have hi : i ∉ ids := fun hi' => hi (hmem.2 ⟨he, hi'⟩)
      exact (h.gone i hlt hi).append _ (not_isClosing_of_mem_closing he)

/-- A close of any connection, open or not. -/
theorem closeConnWithError (h : Balanced cfg l ids) (hid : id < l.made) :
    ∃ ids', Balanced cfg (l.closeConnWithError id) ids' ∧ (ids' = ids ∨ ids' = ids.erase id) := by
  cases hclosed : (l.conns id).closed with
  | true => exact ⟨ids, by rwa [closeConnWithError_of_closed hclosed], .inl rfl⟩
  | false => exact ⟨_, h.close ((h.mem_iff id).2 ⟨hid, hclosed⟩), .inr rfl⟩

/-- A connection gets new output. -/
theorem setOut (h : Balanced cfg l ids) (out : Bytes) :
    Balanced cfg (l.setConn id { l.conns id with out := out }) ids := by
  refine Books.congr_conns h fun i => ?_
  by_cases hi : i = id
  · subst hi
    simp [setConn]
  · simp [setConn, Function.update_of_ne hi]

/-- A connection is upgraded. -/
theorem upgrade (h : Balanced cfg l ids) (hid : id < l.made) :
    Balanced cfg ((l.setConn id { l.conns id with ws := some false }).record (.upgrade id))
    ids := by
  refine Books.append h (fun i => ?_) hid (fun i => ?_) fun i hi => ?_
  · by_cases he : i = id
    · subst he
      simp [Listener.record, setConn]
    · simp [Listener.record, setConn, Function.update_of_ne he]
  · rintro (hc | hc | hc) <;> cases hc
  · by_cases he : i = id
    · subst he
      simp [Listener.record, setConn]
    · simp [Listener.record, setConn, he, h.upgraded i hi]

/-- Handlers and goroutines. -/
theorem uses (h : Balanced cfg l ids) (hu : Uses l l') : Balanced cfg l' ids := by
  cases hu with
  | append w id p => exact h.setOut _
  | upgrade id hid => exact h.upgrade hid
  | wsClose id =>
    refine Books.congr_conns h fun i => ?_
    by_cases hi : i = id
    · subst hi
      simp [setConn]
    · simp [setConn, Function.update_of_ne hi]
  | _ => exact h

end Balanced

/-! ### Runs -/

section Within

variable {made : ℕ} {ev : Flags} {todo : List PollEvent}

/-- The walk over the list is at an open connection. -/
theorem mem_of_within {now : ℤ} (hw : Within made ids (.sweep (.conn id) now todo)) : id ∈ ids := by
  rcases List.mem_cons.1 hw with hc | hc
  · cases hc
  · simpa using hc

/-- Where the callback resumes it is at a connection that exists. -/
theorem within_resume (hid : id < made) : Within made ids (resume id ev todo) := by
  unfold resume
  split <;> exact hid

/-- Where the callback looks at the event it is at a connection that exists. -/
theorem within_dispatch (hid : id < made) : Within made ids (dispatch id ev todo) := by
  unfold dispatch
  split
  · exact hid
  · exact within_resume hid

/-- A stage that is passed without a close stays within the connections that exist. -/
theorem Passes.within {stage : Stage} {loop : Loop} (h : Passes l id ev todo stage loop)
    (hid : id < made) : Within made ids loop := by
  cases h with
  | more => exact within_resume hid
  | finish => exact within_resume hid
  | eof => trivial
  | _ => exact hid

/-- A stage that closes its connection stays within the connections that exist. -/
theorem Closes.within {stage : Stage} {loop : Loop} (h : Closes l id ev todo stage a loop)
    (hid : id < made) : Within made ids loop := by
  cases h with
  | eof => trivial
  | _ => exact within_resume hid

end Within

/-- The clock reading of an action. -/
def readingOf : Act → Option ℤ
  | .callback now _ => some now
  | .tick now => some now
  | _ => none

/-- What a step does to the list and to the times in it. -/
inductive Relists (a : Act) (l l' : Listener) (ids : List ℕ) : List ℕ → Prop
  | same (ts : ∀ i, (l'.conns i).ts = (l.conns i).ts) : Relists a l l' ids ids
  | front (id : ℕ) (now : ℤ) (reading : readingOf a = some now) (own : (l'.conns id).ts = now)
      (ts : ∀ i ≠ id, (l'.conns i).ts = (l.conns i).ts) : Relists a l l' ids (id :: ids.erase id)
  | erase (id : ℕ) (ts : ∀ i, (l'.conns i).ts = (l.conns i).ts) : Relists a l l' ids (ids.erase id)

/-- Replacing a connection by one with its time stamp changes no time stamp. -/
theorem ts_update {c : Socket} (h : c.ts = (l.conns id).ts) (i : ℕ) :
    (Function.update l.conns id c i).ts = (l.conns i).ts := by
  rw [Function.update_apply]
  split
  · rename_i hi
    rw [hi, h]
  · rfl

/-- Closing a connection changes no time stamp: the order of the list by time is kept. -/
theorem ts_closeConnWithError (l : Listener) (id i : ℕ) :
    ((l.closeConnWithError id).conns i).ts = (l.conns i).ts := by
  cases hclosed : (l.conns id).closed with
  | true => rw [closeConnWithError_of_closed hclosed]
  | false =>
    rw [closeConnWithError_of_open hclosed]
    refine ts_update ?_ i
    rfl

/-- What a handler or a goroutine does with the listener changes no time stamp. -/
theorem Uses.ts (h : Uses l l') (i : ℕ) : (l'.conns i).ts = (l.conns i).ts := by
  cases h with
  | append w id p =>
    refine ts_update ?_ i
    rfl
  | upgrade id hid =>
    refine ts_update ?_ i
    rfl
  | wsClose id =>
    refine ts_update ?_ i
    rfl
  | _ => rfl

/-- A close changes no time. -/
theorem relists_close {l₁ : Listener} {ids' : List ℕ} (hids : ids' = ids ∨ ids' = ids.erase id)
    (hsame : l₁.conns = l.conns) (loop : Loop) :
    Relists a l ((l₁.closeConnWithError id).goto loop) ids ids' := by
  have hts : ∀ i, (((l₁.closeConnWithError id).goto loop).conns i).ts = (l.conns i).ts := by
    intro i
    rw [← hsame]
    exact ts_closeConnWithError l₁ id i
  rcases hids with rfl | rfl
  · exact .same hts
  · exact .erase id hts

/-- **One step** keeps the books, and changes the list in one of three ways. -/
theorem step_relists (hb : Balanced cfg l ids) (hw : Within l.made ids l.loop)
    (hs : step cfg l a = some l') :
    ∃ ids', Balanced cfg l' ids' ∧ Within l'.made ids' l'.loop ∧ Relists a l l' ids ids' := by
  cases step_moves hs with
  | user op _ hu =>
    obtain ⟨-, hmade, -, hloop⟩ := hu.same
    exact ⟨ids, hb.uses hu, by rw [hmade, hloop]; exact hw, .same hu.ts⟩
  | wake evs hloop => exact ⟨ids, hb, trivial, .same fun _ => rfl⟩
  | die => exact ⟨ids, hb, trivial, .same fun _ => rfl⟩
  | rest _ todo => exact ⟨ids, hb, trivial, .same fun _ => rfl⟩
  | leak _ fd now e todo loop hloop he hfd hto =>
    refine ⟨ids, hb.leak fd, ?_, .same fun _ => rfl⟩
    rcases hto with ⟨-, rfl⟩ | ⟨-, rfl⟩ | ⟨-, rfl⟩ <;> trivial
  | accept _ fd now e todo hloop he hfd =>
    refine ⟨_, hb.newConn now hfd, trivial, ?_⟩
    have hlist : l.made :: ids = l.made :: ids.erase l.made := by
      rw [List.erase_of_not_mem hb.made_not_mem]
    rw [hlist]
    refine .front l.made now rfl ?_ ?_
    · exact congrArg Socket.ts (Balanced.newConn_conns_self l fd now)
    · intro i hi
      exact congrArg Socket.ts (Balanced.newConn_conns_of_ne hi)
  | touch _ id now e todo hloop he hfd =>
    have hid := ((hb.stored _ _).1 hfd).1
    refine ⟨_, hb.touch hid now, within_dispatch ((hb.mem_iff id).1 hid).1, .front id now rfl ?_ ?_⟩
    · show (Function.update l.conns id _ id).ts = now
      rw [Function.update_self]
    · intro i hi
      show (Function.update l.conns id _ i).ts = _
      rw [Function.update_of_ne hi]
  | pass _ id stage ev todo loop hloop hp =>
    rw [hloop] at hw
    exact ⟨ids, hb, hp.within hw, .same fun _ => rfl⟩
  | close _ id stage ev todo loop hloop hc =>
    rw [hloop] at hw
    obtain ⟨ids', hb', hids⟩ := hb.closeConnWithError hw
    refine ⟨ids', hb', hc.within ?_, relists_close hids rfl loop⟩
    exact (closeConnWithError_made l id).symm ▸ hw
  | writeNothing wr id ev todo hloop hout =>
    rw [hloop] at hw
    exact ⟨ids, hb, hw, .same fun _ => rfl⟩
  | writeError text id ev todo hloop hout =>
    rw [hloop] at hw
    have hrec : Balanced cfg ((l.flushed none id).record (.write id)) ids := Books.record hb hw rfl
    obtain ⟨ids', hb', hids⟩ := hrec.closeConnWithError hw
    refine ⟨ids', hb', within_resume ((closeConnWithError_made _ id).symm ▸ hw),
      relists_close hids ?_ _⟩
    rfl
  | writePart wr id ev todo out hloop =>
    rw [hloop] at hw
    have hrec : Balanced cfg ((l.flushed none id).record (.write id)) ids := Books.record hb hw rfl
    refine ⟨ids, hrec.setOut out, hw, .same fun i => ts_update ?_ i⟩
    rfl
  | writeAll wr id ev todo hloop =>
    rw [hloop] at hw
    have hrec : Balanced cfg ((l.flushed none id).record (.write id)) ids := Books.record hb hw rfl
    refine ⟨ids, hrec.setOut [], hw, .same fun i => ts_update ?_ i⟩
    rfl
  | readClose rd id ev todo hloop =>
    rw [hloop] at hw
    have hrec : Balanced cfg (l.record (.read id)) ids := Books.record hb hw rfl
    obtain ⟨ids', hb', hids⟩ := hrec.closeConnWithError hw
    refine ⟨ids', hb', within_resume ((closeConnWithError_made _ id).symm ▸ hw),
      relists_close hids ?_ _⟩
    rfl
  | readData rd id ev todo hloop =>
    rw [hloop] at hw
    exact ⟨ids, Books.record hb hw rfl, hw, .same fun _ => rfl⟩
  | readAgain id ev todo hloop =>
    rw [hloop] at hw
    exact ⟨ids, Books.record hb hw rfl, hw, .same fun _ => rfl⟩
  | mod id i ev todo hloop hreg =>
    rw [hloop] at hw
    exact ⟨ids, Books.record hb hw rfl, within_resume hw, .same fun _ => rfl⟩
  | modPanic id i ev todo hloop hreg =>
    rw [hloop] at hw
    exact ⟨ids, Books.record hb hw rfl, trivial, .same fun _ => rfl⟩
  | tick now todo hloop =>
    -- the walk starts at the node before `fdtail`
    have hlast : l.prev .tail ∈ Ptr.head :: ids.map .conn := hb.joined.prev_mem (m := []) (by simp)
    exact ⟨ids, hb, hlast, .same fun _ => rfl⟩
  | sweep id now todo hloop =>
    have hid : id ∈ ids := mem_of_within (hloop ▸ hw)
    refine ⟨_, hb.close hid, ?_, relists_close (.inr rfl) rfl _⟩
    show (l.closeConnWithError id).prev (.conn id) ∈ _
    rw [prev_closeConnWithError ((hb.mem_iff id).1 hid).2]
    exact prev_mem hb.joined hid
  | cleanup fd id hloop hfd =>
    have hid := ((hb.stored _ _).1 hfd).1
    refine ⟨_, hb.close hid, ?_, .erase id (ts_closeConnWithError l id)⟩
    rw [closeConnWithError_loop, hloop]
    trivial

/-- One step keeps the books. -/
theorem step_books (h : ∃ ids, Balanced cfg l ids ∧ Within l.made ids l.loop)
    (hs : step cfg l a = some l') : ∃ ids, Balanced cfg l' ids ∧ Within l'.made ids l'.loop := by
  obtain ⟨ids, hb, hw⟩ := h
  obtain ⟨ids', hb', hw', -⟩ := step_relists hb hw hs
  exact ⟨ids', hb', hw'⟩

/-- Every reachable listener has its books. -/
theorem run_books {as : List Act} (hr : run (step cfg) (init cfg) as = some l) :
    ∃ ids, Balanced cfg l ids ∧ Within l.made ids l.loop :=
  run_induction (P := fun l => ∃ ids, Balanced cfg l ids ∧ Within l.made ids l.loop)
    (fun _ _ _ h hs => step_books h hs) ⟨[], .init, trivial⟩ hr

/-- **The books balance.**  In every reachable state `next` leads from `fdhead` to `fdtail` and
    `prev` back over the same connections; they are distinct, they are the values of `fdconns`, each
    stored under its descriptor and open, and the counter is their number.  For a connection that is
    not among them any more `syscall.Close` and the decrement were done once, and `OnWSClose` once
    if it was upgraded before the close, and else never. -/
theorem books_balance (cfg : Config) (as : List Act) (l : Listener)
    (hr : run (step cfg) (init cfg) as = some l) :
    ∃ ids : List ℕ, ids.Nodup ∧
      (Ptr.head :: (ids.map .conn ++ [.tail])).IsChain (fun p q => l.next p = q) ∧
      (Ptr.tail :: (ids.reverse.map .conn ++ [.head])).IsChain (fun p q => l.prev p = q) ∧
      (∀ id, id ∈ ids ↔ ∃ fd, l.fdconns fd = some id) ∧
      (∀ fd id, l.fdconns fd = some id → (l.conns id).fd = fd ∧ (l.conns id).closed = false) ∧
      l.count = ids.length ∧
      ∀ id < l.made, id ∉ ids →
        l.log.count (.sysClose id) = 1 ∧ l.log.count (.decrement id) = 1 ∧
        l.log.count (.onWSClose id)
          = if .upgrade id ∈ l.log.takeWhile (· ≠ .sysClose id) then 1 else 0 := by
  obtain ⟨ids, hb, -⟩ := run_books hr
  refine ⟨ids, hb.nodup, hb.joined.forward, ?_, fun id => ⟨fun hid => ?_, ?_⟩, fun fd id hfd => ?_,
    hb.length, fun id hlt hid => (hb.gone id hlt hid).count⟩
  · have hback := hb.joined.backward
    simpa [chain] using hback
  · exact ⟨_, (hb.stored _ id).2 ⟨hid, rfl⟩⟩
  · rintro ⟨fd, hfd⟩
    exact ((hb.stored fd id).1 hfd).1
  · obtain ⟨hid, he⟩ := (hb.stored fd id).1 hfd
    exact ⟨he, ((hb.mem_iff id).1 hid).2⟩

/-- Two connections; the first becomes a websocket, and the sweep of a later event closes the second
    and then the first. -/
def sweptBoth : List Act :=
  [.wake [⟨3, { read := true }⟩, ⟨3, { read := true }⟩], .callback 0 (.ok 7), .tick 0, .sweep,
    .callback 1 (.ok 8), .tick 1, .sweep, .wake [⟨7, { read := true }⟩], .callback 2 .none,
    .read (.data [1]), .parse .complete, .user (.upgrade 0), .handled .done,
    .finish, .eof, .tick 30, .sweep, .sweep, .sweep]

/-- In that run both connections are gone at the end, the websocket was told once, and every part of
    the books agrees. -/
theorem books_balance_swept : ∃ l, run (step ⟨3, 10⟩) (init ⟨3, 10⟩) sweptBoth = some l ∧
    l.loop = .between [] ∧ l.made = 2 ∧ l.count = 0 ∧
    l.log = [.addRead 0, .addRead 1, .read 0, .upgrade 0, .decrement 1, .sysClose 1, .onWSClose 0,
      .decrement 0, .sysClose 0] ∧
    ∃ ids : List ℕ, ids.Nodup ∧
      (Ptr.head :: (ids.map .conn ++ [.tail])).IsChain (fun p q => l.next p = q) ∧
      (Ptr.tail :: (ids.reverse.map .conn ++ [.head])).IsChain (fun p q => l.prev p = q) ∧
      (∀ id, id ∈ ids ↔ ∃ fd, l.fdconns fd = some id) ∧
      (∀ fd id, l.fdconns fd = some id → (l.conns id).fd = fd ∧ (l.conns id).closed = false) ∧
      l.count = ids.length ∧
      ∀ id < l.made, id ∉ ids →
        l.log.count (.sysClose id) = 1 ∧ l.log.count (.decrement id) = 1 ∧
        l.log.count (.onWSClose id)
          = if .upgrade id ∈ l.log.takeWhile (· ≠ .sysClose id) then 1 else 0 := by
  have hrun : ∃ l ∈ run (step ⟨3, 10⟩) (init ⟨3, 10⟩) sweptBoth,
      l.loop = .between [] ∧ l.made = 2 ∧ l.count = 0 ∧ l.log = [.addRead 0, .addRead 1, .read 0,
        .upgrade 0, .decrement 1, .sysClose 1, .onWSClose 0, .decrement 0, .sysClose 0] := by
    decide +kernel
  obtain ⟨l, hl, hloop, hmade, hcount, hlog⟩ := hrun
  exact ⟨l, hl, hloop, hmade, hcount, hlog, books_balance ⟨3, 10⟩ sweptBoth l hl⟩

end Resh.Server.Listener
