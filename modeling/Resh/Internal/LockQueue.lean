import Mathlib.Data.Multiset.OrderedMonoid
import Mathlib.Data.Multiset.UnionInter
import Resh.Linked
import Resh.Run

namespace Resh.Internal

/-!
# internal/lockqueue.go — the lock-free queue of `Trigger`

Any number of producers run `Add`, and one consumer runs `SwapOutForEach` again and again with a
callback that returns nil.  The model interleaves their atomic steps.  Nodes are recycled: the pool
hands out a fresh node or any node that was put back, so a producer may hold a root pointer whose
node has been used anew, and a compare-and-swap may succeed although the root has changed twice.

* `Owned` — every node has one owner: the pool, one producer, the chain of the root or the consumer;
* `queue_exact` — nothing is lost or passed twice, and both chains are finite and acyclic.
-/

variable {T : Type}

/-! ### The steps -/

/-- `lockQueueNode`. -/
structure LockQueueNode (T : Type) where
  value : T
  next : Option ℕ
  deriving DecidableEq, Repr

/-- The next atomic step of a producer in `Add(v)`, with what it holds in its variables. -/
inductive Adding (T : Type) where
  /-- not in `Add` -/
  | idle
  /-- `root := q.root.Load()` -/
  | load (v : T)
  /-- `n := q.pool.Get()` -/
  | get (v : T) (root : Option ℕ)
  /-- `n.value = v` -/
  | setValue (v : T) (root : Option ℕ) (n : ℕ)
  /-- `n.next = root` -/
  | setNext (v : T) (root : Option ℕ) (n : ℕ)
  /-- `q.root.CompareAndSwap(root, n)` -/
  | cas (v : T) (root : Option ℕ) (n : ℕ)
  /-- `q.pool.Put(n)`, then `q.Add(v)` -/
  | put (v : T) (n : ℕ)
  deriving DecidableEq, Repr

/-- The next atomic step of the consumer in `SwapOutForEach`. -/
inductive Draining (T : Type) where
  /-- not in `SwapOutForEach` -/
  | idle
  /-- `tmp := *ptr` -/
  | read (ptr : ℕ)
  /-- `q.pool.Put(ptr)` -/
  | put (ptr : ℕ) (tmp : LockQueueNode T)
  /-- `f(tmp.value)`, then `ptr = tmp.next` -/
  | call (tmp : LockQueueNode T)
  deriving DecidableEq, Repr

/-- The queue, with the goroutines that use it, the values whose `Add` has taken effect and those
    that were passed to the callback. -/
structure LockQueue (T : Type) where
  nodes : ℕ → LockQueueNode T
  /-- the number of nodes made so far -/
  made : ℕ := 0
  pool : List ℕ := []
  root : Option ℕ := none
  producers : ℕ → Adding T := fun _ => .idle
  consumer : Draining T := .idle
  added : List T := []
  passed : List T := []

/-- An atomic step: whose it is, and what it gets from its environment. -/
inductive QueueAct (T : Type) where
  /-- a goroutine calls `Add(v)` -/
  | add (t : ℕ) (v : T)
  | load (t : ℕ)
  /-- `Get` returns a fresh node or the given one -/
  | get (t : ℕ) (n : Option ℕ)
  | setValue (t : ℕ)
  | setNext (t : ℕ)
  | cas (t : ℕ)
  | put (t : ℕ)
  /-- `SwapOutForEach` is called: `ptr := q.root.Swap(nil)` -/
  | swap
  | read
  | putBack
  | callback
  deriving DecidableEq, Repr

namespace LockQueue

/-- The queue at the start. -/
def init [Inhabited T] : LockQueue T := { nodes := fun _ => ⟨default, none⟩ }

/-- The next step of a producer. -/
def setProducer (s : LockQueue T) (t : ℕ) (p : Adding T) : LockQueue T :=
  { s with producers := Function.update s.producers t p }

/-- A node gets new fields. -/
def setNode (s : LockQueue T) (n : ℕ) (node : LockQueueNode T) : LockQueue T :=
  { s with nodes := Function.update s.nodes n node }

/-- The consumer at the head of its loop. -/
def loop (ptr : Option ℕ) : Draining T :=
  match ptr with
  | none => .idle
  | some n => .read n

/-- One atomic step. -/
def step [Inhabited T] (s : LockQueue T) : QueueAct T → Option (LockQueue T)
  | .add t v =>
    match s.producers t with
    | .idle => some (s.setProducer t (.load v))
    | _ => none
  | .load t =>
    match s.producers t with
    | .load v => some (s.setProducer t (.get v s.root))
    | _ => none
  | .get t none =>
    match s.producers t with
    | .get v root =>
      some (({ s with made := s.made + 1 }.setNode s.made ⟨default, none⟩).setProducer t
        (.setValue v root s.made))
    | _ => none
  | .get t (some n) =>
    match s.producers t with
    | .get v root =>
      if n ∈ s.pool then
        some ({ s with pool := s.pool.erase n }.setProducer t (.setValue v root n))
      else none
    | _ => none
  | .setValue t =>
    match s.producers t with
    | .setValue v root n =>
      some ((s.setNode n { s.nodes n with value := v }).setProducer t (.setNext v root n))
    | _ => none
  | .setNext t =>
    match s.producers t with
    | .setNext v root n =>
      some ((s.setNode n { s.nodes n with next := root }).setProducer t (.cas v root n))
    | _ => none
  | .cas t =>
    match s.producers t with
    | .cas v root n =>
      if s.root = root then
        some ({ s with root := some n, added := s.added ++ [v] }.setProducer t .idle)
      else some (s.setProducer t (.put v n))
    | _ => none
  | .put t =>
    match s.producers t with
    | .put v n => some ({ s with pool := n :: s.pool }.setProducer t (.load v))
    | _ => none
  | .swap =>
    match s.consumer with
    | .idle => some { s with root := none, consumer := loop s.root }
    | _ => none
  | .read =>
    match s.consumer with
    | .read ptr => some { s with consumer := .put ptr (s.nodes ptr) }
    | _ => none
  | .putBack =>
    match s.consumer with
    | .put ptr tmp => some { s with pool := ptr :: s.pool, consumer := .call tmp }
    | _ => none
  | .callback =>
    match s.consumer with
    | .call tmp => some { s with passed := s.passed ++ [tmp.value], consumer := loop tmp.next }
    | _ => none

end LockQueue

/-! ### Who owns a node -/

/-- The node that a producer holds. -/
def Adding.node : Adding T → Option ℕ
  | setValue _ _ n => some n
  | setNext _ _ n => some n
  | cas _ _ n => some n
  | put _ n => some n
  | _ => none

/-- What a producer has written to its node. -/
def Adding.Written (nodes : ℕ → LockQueueNode T) : Adding T → Prop
  | setNext v _ n => (nodes n).value = v
  | cas v root n => nodes n = ⟨v, root⟩
  | _ => True

/-- The node that the consumer has read and not yet put back. -/
def Draining.node : Draining T → List ℕ
  | put ptr _ => [ptr]
  | _ => []

/-- The value that the consumer has read and not yet passed. -/
def Draining.pending : Draining T → List T
  | put _ tmp => [tmp.value]
  | call tmp => [tmp.value]
  | _ => []

/-- Where the consumer goes on. -/
def Draining.rest : Draining T → Option ℕ
  | idle => none
  | read ptr => some ptr
  | put _ tmp => tmp.next
  | call tmp => tmp.next

namespace LockQueue

/-- The pointers of the nodes. -/
def next (s : LockQueue T) (n : ℕ) : Option ℕ := (s.nodes n).next

/-- The values of a chain of nodes. -/
def values (s : LockQueue T) (l : List ℕ) : List T := l.map fun n => (s.nodes n).value

/-- The nodes that no producer holds, with `r` the chain of the root and `d` the detached one. -/
def shared (s : LockQueue T) (r d : List ℕ) : Multiset ℕ :=
  (s.pool : Multiset ℕ) + s.consumer.node + r + d

/-- **Ownership.** -/
structure Owned (s : LockQueue T) (r d : List ℕ) : Prop where
  root : Linked s.next s.root r
  rest : Linked s.next s.consumer.rest d
  distinct : (s.shared r d).Nodup
  single : ∀ t t' n, (s.producers t).node = some n → (s.producers t').node = some n → t = t'
  held : ∀ t n, (s.producers t).node = some n → n ∉ s.shared r d
  madeShared : ∀ n ∈ s.shared r d, n < s.made
  madeHeld : ∀ t n, (s.producers t).node = some n → n < s.made
  written : ∀ t, (s.producers t).Written s.nodes
  conserved : (s.added : Multiset T) = s.passed + (s.values r + (s.consumer.pending + s.values d))

/-- At the top of the drain loop the consumer holds no node. -/
@[simp] theorem loop_node (ptr : Option ℕ) : (loop ptr : Draining T).node = [] := by
  cases ptr <;> rfl

/-- At the top of the drain loop the consumer holds no value that it has not passed. -/
@[simp] theorem loop_pending (ptr : Option ℕ) : (loop ptr : Draining T).pending = [] := by
  cases ptr <;> rfl

/-- At the top of the drain loop the detached chain is the one from the consumer's pointer. -/
@[simp] theorem loop_rest (ptr : Option ℕ) : (loop ptr : Draining T).rest = ptr := by
  cases ptr <;> rfl

/-- The other producers stay where they are. -/
theorem setProducer_of_ne (s : LockQueue T) {t t' : ℕ} (p : Adding T) (h : t' ≠ t) :
    (s.setProducer t p).producers t' = s.producers t' := Function.update_of_ne h ..

/-- The producer that has made the step. -/
@[simp] theorem setProducer_self (s : LockQueue T) (t : ℕ) (p : Adding T) :
    (s.setProducer t p).producers t = p := Function.update_self ..

variable {s s' : LockQueue T} {r d r' d' : List ℕ} {t n : ℕ}

/-- The empty queue: nobody holds a node. -/
theorem init_owned [Inhabited T] : (init : LockQueue T).Owned [] [] where
  root := rfl
  rest := rfl
  distinct := Multiset.nodup_zero
  single := fun _ _ _ h => nomatch h
  held := fun _ _ h => nomatch h
  madeShared := fun _ h => absurd h (Multiset.notMem_zero _)
  madeHeld := fun _ _ h => nomatch h
  written := fun _ => trivial
  conserved := rfl

namespace Owned

/-- The nodes of the two chains are held by no producer. -/
theorem mem_shared_of_chain {m : ℕ} (hm : m ∈ r ∨ m ∈ d) : m ∈ s.shared r d := by
  rcases hm with hm | hm
  · exact Multiset.mem_add.mpr (.inl (Multiset.mem_add.mpr (.inr hm)))
  · exact Multiset.mem_add.mpr (.inr hm)

/-- A producer holds `n` after its step: it has got it, or it has written to it. -/
theorem hold (h : s.Owned r d) (hroot : s'.root = s.root) (hconsumer : s'.consumer = s.consumer)
    (hadded : s'.added = s.added) (hpassed : s'.passed = s.passed)
    (hnodes : ∀ m, m ≠ n → s'.nodes m = s.nodes m)
    (hothers : ∀ t', t' ≠ t → s'.producers t' = s.producers t' ∧ (s.producers t').node ≠ some n)
    (hnode : (s'.producers t).node = some n) (hwritten : (s'.producers t).Written s'.nodes)
    (hshared : s'.shared r d ≤ s.shared r d) (hn : n ∉ s'.shared r d)
    (hmade : s.made ≤ s'.made) (hlt : n < s'.made) : s'.Owned r d := by
  -- `n` is in neither chain, so both are as they were
  have hchain : ∀ m, m ∈ r ∨ m ∈ d → s'.nodes m = s.nodes m := fun m hm =>
    hnodes m fun heq => hn (heq ▸ mem_shared_of_chain hm)
  have hnext : ∀ m, m ∈ r ∨ m ∈ d → s'.next m = s.next m := fun m hm =>
    congrArg LockQueueNode.next (hchain m hm)
  have hvalues : s'.values r = s.values r ∧ s'.values d = s.values d :=
    ⟨List.map_congr_left fun m hm => congrArg _ (hchain m (.inl hm)),
      List.map_congr_left fun m hm => congrArg _ (hchain m (.inr hm))⟩
  refine ⟨?_, ?_, Multiset.nodup_of_le hshared h.distinct, ?_, ?_, ?_, ?_, ?_, ?_⟩
  · rw [hroot]
    exact h.root.congr fun m hm => hnext m (.inl hm)
  · rw [hconsumer]
    exact h.rest.congr fun m hm => hnext m (.inr hm)
  · -- `n` is the node of `t` alone, and the others hold what they held
    intro t₁ t₂ m h₁ h₂
    by_cases ht₁ : t₁ = t <;> by_cases ht₂ : t₂ = t
    · rw [ht₁, ht₂]
    · rw [ht₁, hnode] at h₁
      rw [(hothers t₂ ht₂).1, ← h₁] at h₂
      exact absurd h₂ (hothers t₂ ht₂).2
    · rw [ht₂, hnode] at h₂
      rw [(hothers t₁ ht₁).1, ← h₂] at h₁
      exact absurd h₁ (hothers t₁ ht₁).2
    · rw [(hothers t₁ ht₁).1] at h₁
      rw [(hothers t₂ ht₂).1] at h₂
      exact h.single t₁ t₂ m h₁ h₂
  · intro t₁ m h₁ hm
    by_cases ht₁ : t₁ = t
    · rw [ht₁, hnode, Option.some.injEq] at h₁
      exact hn (h₁ ▸ hm)
    · rw [(hothers t₁ ht₁).1] at h₁
      exact h.held t₁ m h₁ (Multiset.mem_of_le hshared hm)
  · exact fun m hm => (h.madeShared m (Multiset.mem_of_le hshared hm)).trans_le hmade
  · intro t₁ m h₁
    by_cases ht₁ : t₁ = t
    · rw [ht₁, hnode, Option.some.injEq] at h₁
      exact h₁ ▸ hlt
    · rw [(hothers t₁ ht₁).1] at h₁
      exact (h.madeHeld t₁ m h₁).trans_le hmade
  · intro t₁
    by_cases ht₁ : t₁ = t
    · exact ht₁ ▸ hwritten
    · -- what another producer has written stands in another node
      obtain ⟨hsame, hne⟩ := hothers t₁ ht₁
      rw [hsame]
      have hw := h.written t₁
      cases hp : s.producers t₁ with
      | setNext v root m =>
        rw [hp] at hw hne
        rw [Adding.Written, hnodes m fun heq => hne (congrArg some heq)]
        exact hw
      | cas v root m =>
        rw [hp] at hw hne
        rw [Adding.Written, hnodes m fun heq => hne (congrArg some heq)]
        exact hw
      | _ => trivial
  · rw [hadded, hpassed, hconsumer, hvalues.1, hvalues.2]
    exact h.conserved

/-- Nodes change hands, and none of them is written to. -/
theorem move (h : s.Owned r d) (hnodes : s'.nodes = s.nodes) (hmade : s'.made = s.made)
    (hheld : ∀ t m, (s'.producers t).node = some m → (s.producers t).node = some m)
    (hwritten : ∀ t, (s'.producers t).Written s.nodes) (hroot : Linked s.next s'.root r')
    (hrest : Linked s.next s'.consumer.rest d') (hdistinct : (s'.shared r' d').Nodup)
    (hmem : ∀ m ∈ s'.shared r' d', m ∈ s.shared r d ∨
      ∃ t, (s.producers t).node = some m ∧ (s'.producers t).node = none)
    (hconserved : (s'.added : Multiset T)
      = s'.passed + (s.values r' + (s'.consumer.pending + s.values d'))) : s'.Owned r' d' := by
  have hnext : s'.next = s.next := funext fun m => by rw [next, next, hnodes]
  have hvalues : ∀ l, s'.values l = s.values l := fun l => by rw [values, values, hnodes]
  refine ⟨hnext ▸ hroot, hnext ▸ hrest, hdistinct,
    fun t₁ t₂ m h₁ h₂ => h.single t₁ t₂ m (hheld t₁ m h₁) (hheld t₂ m h₂), ?_, ?_,
    fun t₁ m h₁ => hmade ▸ h.madeHeld t₁ m (hheld t₁ m h₁), hnodes ▸ hwritten, ?_⟩
  · intro t₁ m h₁ hm
    rcases hmem m hm with hm | ⟨t₂, h₂, hnone⟩
    · exact h.held t₁ m (hheld t₁ m h₁) hm
    · rw [← h.single t₁ t₂ m (hheld t₁ m h₁) h₂, h₁] at hnone
      cases hnone
  · intro m hm
    rw [hmade]
    rcases hmem m hm with hm | ⟨t₂, h₂, -⟩
    · exact h.madeShared m hm
    · exact h.madeHeld t₂ m h₂
  · rw [hvalues, hvalues]
    exact hconserved

/-- A step of the consumer moves nodes between the pool, the chain of the root and its own. -/
theorem consume (h : s.Owned r d) (hnodes : s'.nodes = s.nodes) (hmade : s'.made = s.made)
    (hproducers : s'.producers = s.producers) (hroot : Linked s.next s'.root r')
    (hrest : Linked s.next s'.consumer.rest d') (hshared : s'.shared r' d' = s.shared r d)
    (hconserved : (s'.added : Multiset T)
      = s'.passed + (s.values r' + (s'.consumer.pending + s.values d'))) : s'.Owned r' d' :=
  h.move hnodes hmade (fun t m hm => by rwa [hproducers] at hm)
    (fun t => by rw [hproducers]; exact h.written t) hroot hrest (hshared ▸ h.distinct)
    (fun m hm => .inl (hshared ▸ hm)) hconserved

/-- After a step with which it holds no node, a producer holds nothing that it did not hold. -/
theorem node_setProducer {p : Adding T} (hnode : p.node = none) (t₁ m : ℕ)
    (hm : ((s.setProducer t p).producers t₁).node = some m) : (s.producers t₁).node = some m := by
  by_cases ht : t₁ = t
  · rw [ht, setProducer_self, hnode] at hm
    cases hm
  · rwa [setProducer_of_ne s p ht] at hm

/-- A producer that moves has written the node that it holds, and the others have theirs. -/
theorem written_setProducer (h : s.Owned r d) {p : Adding T} (hp : p.Written s.nodes) (t₁ : ℕ) :
    ((s.setProducer t p).producers t₁).Written s.nodes := by
  by_cases ht : t₁ = t
  · rw [ht, setProducer_self]
    exact hp
  · rw [setProducer_of_ne s p ht]
    exact h.written t₁

/-- A producer takes a step without a node. -/
theorem setProducer (h : s.Owned r d) {p : Adding T} (hnode : p.node = none)
    (hp : p.Written s.nodes) : (s.setProducer t p).Owned r d :=
  h.move rfl rfl (node_setProducer hnode) (h.written_setProducer hp) h.root h.rest h.distinct
    (fun _ hm => .inl hm) h.conserved

/-- A producer gives its node away. -/
theorem release (h : s.Owned r d) (hheld : (s.producers t).node = some n) {p : Adding T}
    (hnode : p.node = none) (hp : p.Written s.nodes) (hnodes : s'.nodes = s.nodes)
    (hmade : s'.made = s.made) (hproducers : s'.producers = (s.setProducer t p).producers)
    (hroot : Linked s.next s'.root r') (hrest : Linked s.next s'.consumer.rest d')
    (hshared : s'.shared r' d' = n ::ₘ s.shared r d)
    (hconserved : (s'.added : Multiset T)
      = s'.passed + (s.values r' + (s'.consumer.pending + s.values d'))) : s'.Owned r' d' := by
  refine h.move hnodes hmade (fun t₁ m hm => node_setProducer hnode t₁ m (hproducers ▸ hm))
    (fun t₁ => hproducers ▸ h.written_setProducer hp t₁) hroot hrest ?_ (fun m hm => ?_) hconserved
  · rw [hshared]
    exact Multiset.nodup_cons.mpr ⟨h.held t n hheld, h.distinct⟩
  · rw [hshared, Multiset.mem_cons] at hm
    rcases hm with rfl | hm
    · exact .inr ⟨t, hheld, by rw [hproducers, setProducer_self, hnode]⟩
    · exact .inl hm

/-- `Get` returns a fresh node. -/
theorem getFresh [Inhabited T] (h : s.Owned r d) (v : T) (root : Option ℕ) :
    (({ s with made := s.made + 1 }.setNode s.made ⟨default, none⟩).setProducer t
      (.setValue v root s.made)).Owned r d := by
  refine h.hold rfl rfl rfl rfl (fun m hm => Function.update_of_ne hm ..)
    (fun t' ht' => ⟨setProducer_of_ne _ _ ht', fun heq => ?_⟩) (by rw [setProducer_self]; rfl)
    (by rw [setProducer_self]; trivial) le_rfl (fun hm => ?_) (Nat.le_succ _) (Nat.lt_succ_self _)
  · exact absurd (h.madeHeld t' _ heq) (lt_irrefl _)
  · exact absurd (h.madeShared _ hm) (lt_irrefl _)

/-- `Get` returns a node that was put back. -/
theorem getPooled (h : s.Owned r d) (hn : n ∈ s.pool) (v : T) (root : Option ℕ) :
    ({ s with pool := s.pool.erase n }.setProducer t (.setValue v root n)).Owned r d := by
  have hcons : s.shared r d
      = n ::ₘ ({ s with pool := s.pool.erase n } : LockQueue T).shared r d := by
    have hpool : (s.pool : Multiset ℕ) = n ::ₘ (s.pool.erase n : Multiset ℕ) :=
      Multiset.coe_eq_coe.mpr (List.perm_cons_erase hn)
    rw [shared, shared, hpool, Multiset.cons_add, Multiset.cons_add, Multiset.cons_add]
  have hnotin := Multiset.nodup_cons.mp (hcons ▸ h.distinct)
  have hmem : n ∈ s.shared r d := hcons ▸ Multiset.mem_cons_self n _
  refine h.hold rfl rfl rfl rfl (fun _ _ => rfl)
    (fun t' ht' => ⟨setProducer_of_ne _ _ ht', fun heq => h.held t' n heq hmem⟩)
    (by rw [setProducer_self]; rfl) (by rw [setProducer_self]; trivial) ?_ hnotin.1 le_rfl
    (h.madeShared n hmem)
  exact hcons ▸ Multiset.le_cons_self _ n

/-- A producer writes to its node. -/
theorem write (h : s.Owned r d) (hheld : (s.producers t).node = some n) {node : LockQueueNode T}
    {p : Adding T} (hnode : p.node = some n)
    (hp : p.Written (Function.update s.nodes n node)) :
    ((s.setNode n node).setProducer t p).Owned r d :=
  h.hold rfl rfl rfl rfl (fun m hm => Function.update_of_ne hm ..)
    (fun t' ht' => ⟨setProducer_of_ne _ _ ht', fun heq => ht' (h.single t' t n heq hheld)⟩)
    (by rw [setProducer_self, hnode]) (by rw [setProducer_self]; exact hp) le_rfl (h.held t n hheld)
    le_rfl (h.madeHeld t n hheld)

/-- The compare-and-swap fails. -/
theorem casFails (h : s.Owned r d) (v : T) (hheld : (s.producers t).node = some n) :
    (s.setProducer t (.put v n)).Owned r d :=
  h.hold rfl rfl rfl rfl (fun _ _ => rfl)
    (fun t' ht' => ⟨setProducer_of_ne _ _ ht', fun heq => ht' (h.single t' t n heq hheld)⟩)
    (by rw [setProducer_self]; rfl) (by rw [setProducer_self]; trivial) le_rfl (h.held t n hheld)
    le_rfl (h.madeHeld t n hheld)

/-- The compare-and-swap succeeds: whatever happened since the root was loaded, the node points to
    what is the root now. -/
theorem push (h : s.Owned r d) {v : T} (hp : s.producers t = .cas v s.root n) :
    ({ s with root := some n, added := s.added ++ [v] }.setProducer t .idle).Owned (n :: r) d := by
  have hheld : (s.producers t).node = some n := by rw [hp]; rfl
  have hnode : s.nodes n = ⟨v, s.root⟩ := by
    have hw := h.written t
    rwa [hp] at hw
  have hnext : s.next n = s.root := by rw [next, hnode]
  have hvalue : s.values (n :: r) = v :: s.values r := by rw [values, List.map_cons, hnode]; rfl
  refine h.release (p := .idle) hheld rfl trivial rfl rfl rfl ⟨rfl, hnext ▸ h.root⟩ h.rest ?_ ?_
  · show (s.pool : Multiset ℕ) + s.consumer.node + (n :: r : List ℕ) + d = n ::ₘ s.shared r d
    rw [shared, ← Multiset.cons_coe, Multiset.add_cons, Multiset.cons_add]
  · show ((s.added ++ [v] : List T) : Multiset T)
      = s.passed + (s.values (n :: r) + (s.consumer.pending + s.values d))
    rw [hvalue, ← Multiset.coe_add, h.conserved, ← Multiset.cons_coe v (s.values r),
      Multiset.cons_add, Multiset.add_cons, Multiset.coe_singleton, Multiset.add_comm,
      Multiset.singleton_add]

/-- A node that could not be pushed goes back. -/
theorem put (h : s.Owned r d) {v : T} (hp : s.producers t = .put v n) :
    ({ s with pool := n :: s.pool }.setProducer t (.load v)).Owned r d := by
  refine h.release (p := .load v) (by rw [hp]; rfl) rfl trivial
    rfl rfl rfl h.root h.rest ?_ h.conserved
  show ((n :: s.pool : List ℕ) : Multiset ℕ) + s.consumer.node + r + d = n ::ₘ s.shared r d
  rw [shared, ← Multiset.cons_coe, Multiset.cons_add, Multiset.cons_add, Multiset.cons_add]

/-- The chain of the root is detached. -/
theorem swap (h : s.Owned r d) (hc : s.consumer = .idle) :
    ({ s with root := none, consumer := loop s.root } : LockQueue T).Owned [] r := by
  have hd : d = [] := by
    have hrest := h.rest
    rw [hc] at hrest
    exact hrest.eq_nil
  subst hd
  have hnode : s.consumer.node = [] := by rw [hc]; rfl
  have hpending : s.consumer.pending = [] := by rw [hc]; rfl
  refine h.consume rfl rfl rfl rfl (by simpa using h.root) ?_ ?_
  · simp [shared, hnode]
  · simpa [hpending, values] using h.conserved

/-- The first node of the detached chain is read. -/
theorem read (h : s.Owned r d) {ptr : ℕ} (hc : s.consumer = .read ptr) :
    ∃ d', ({ s with consumer := .put ptr (s.nodes ptr) } : LockQueue T).Owned r d' := by
  have hrest := h.rest
  rw [hc] at hrest
  obtain ⟨d', rfl, hd'⟩ := hrest.exists_cons
  refine ⟨d', h.consume rfl rfl rfl h.root hd' ?_ ?_⟩
  · simp only [shared, hc, Draining.node, ← Multiset.cons_coe, Multiset.coe_nil, Multiset.add_cons,
      Multiset.cons_add, Multiset.add_zero]
  · have hcons := h.conserved
    simpa [hc, Draining.pending, values] using hcons

/-- It goes back before its value is passed. -/
theorem putBack (h : s.Owned r d) {ptr : ℕ} {tmp : LockQueueNode T}
    (hc : s.consumer = .put ptr tmp) :
    ({ s with pool := ptr :: s.pool, consumer := .call tmp } : LockQueue T).Owned r d := by
  have hrest := h.rest
  have hcons := h.conserved
  rw [hc] at hrest hcons
  refine h.consume rfl rfl rfl h.root hrest ?_ hcons
  simp only [shared, hc, Draining.node, ← Multiset.cons_coe, Multiset.coe_nil, Multiset.add_cons,
    Multiset.cons_add, Multiset.add_zero]

/-- The value is passed. -/
theorem pass (h : s.Owned r d) {tmp : LockQueueNode T} (hc : s.consumer = .call tmp) :
    ({ s with passed := s.passed ++ [tmp.value], consumer := loop tmp.next } : LockQueue T).Owned
      r d := by
  have hrest := h.rest
  have hcons := h.conserved
  rw [hc] at hrest hcons
  have hnode : s.consumer.node = [] := by rw [hc]; rfl
  refine h.consume rfl rfl rfl h.root (by rw [loop_rest]; exact hrest) ?_ ?_
  · simp [shared, hnode]
  · show ((s.added : List T) : Multiset T) = (s.passed ++ [tmp.value] : List T)
      + (s.values r + ((loop tmp.next : Draining T).pending + s.values d))
    rw [hcons, loop_pending, ← Multiset.coe_add, Multiset.coe_nil, zero_add, add_assoc]
    congr 1
    exact add_left_comm _ _ _

end Owned

/-- **Every step keeps ownership.** -/
theorem step_owned [Inhabited T] {a : QueueAct T} (h : s.Owned r d) (hs : s.step a = some s') :
    ∃ r' d', s'.Owned r' d' := by
  cases a with
  | add t v =>
    -- neither `Add` nor its load of the root touches a node
    simp only [step] at hs
    split at hs
    · cases hs
      exact ⟨r, d, h.setProducer rfl trivial⟩
    · cases hs
  | load t =>
    simp only [step] at hs
    split at hs
    · cases hs
      exact ⟨r, d, h.setProducer rfl trivial⟩
    · cases hs
  | get t src =>
    cases src with
    | none =>
      simp only [step] at hs
      split at hs
      · cases hs
        exact ⟨r, d, h.getFresh _ _⟩
      · cases hs
    | some n =>
      simp only [step] at hs
      split at hs
      · split at hs
        · rename_i hn
          cases hs
          exact ⟨r, d, h.getPooled hn _ _⟩
        · cases hs
      · cases hs
  | setValue t =>
    simp only [step] at hs
    split at hs
    · rename_i v root n hp
      cases hs
      exact ⟨r, d, h.write (by rw [hp]; rfl) rfl (by simp [Adding.Written])⟩
    · cases hs
  | setNext t =>
    simp only [step] at hs
    split at hs
    · rename_i v root n hp
      cases hs
      have hw := h.written t
      rw [hp] at hw
      exact ⟨r, d, h.write (by rw [hp]; rfl) rfl (by simpa [Adding.Written] using hw)⟩
    · cases hs
  | cas t =>
    simp only [step] at hs
    split at hs
    · rename_i v root n hp
      split at hs
      · rename_i hroot
        subst hroot
        cases hs
        -- the root is the one that was loaded, whatever it was in between, and `n` points to it
        exact ⟨n :: r, d, h.push hp⟩
      · cases hs
        exact ⟨r, d, h.casFails v (by rw [hp]; rfl)⟩
    · cases hs
  | put t =>
    simp only [step] at hs
    split at hs
    · rename_i v n hp
      cases hs
      exact ⟨r, d, h.put hp⟩
    · cases hs
  | swap =>
    simp only [step] at hs
    split at hs
    · rename_i hc
      cases hs
      -- the consumer detaches the whole chain
      exact ⟨[], r, h.swap hc⟩
    · cases hs
  | read =>
    simp only [step] at hs
    split at hs
    · rename_i ptr hc
      cases hs
      obtain ⟨d', hd'⟩ := h.read hc
      exact ⟨r, d', hd'⟩
    · cases hs
  | putBack =>
    simp only [step] at hs
    split at hs
    · rename_i ptr tmp hc
      cases hs
      exact ⟨r, d, h.putBack hc⟩
    · cases hs
  | callback =>
    simp only [step] at hs
    split at hs
    · rename_i tmp hc
      cases hs
      exact ⟨r, d, h.pass hc⟩
    · cases hs

/-- **Exactly once.**  In every reachable state the values whose `Add` has taken effect are those
    already passed, those of the chain of the root, and those of the consumer: the value that it has
    read but not passed, and its detached chain.  Both chains end and visit no node twice. -/
theorem queue_exact [Inhabited T] (as : List (QueueAct T)) (s : LockQueue T)
    (hs : Resh.run step init as = some s) :
    ∃ r d, Linked s.next s.root r ∧ r.Nodup ∧ Linked s.next s.consumer.rest d ∧ d.Nodup ∧
      (s.added : Multiset T) = s.passed + (s.values r + (s.consumer.pending + s.values d)) := by
  have hinv : ∃ r d, s.Owned r d :=
    run_induction (P := fun s => ∃ r d, s.Owned r d)
      (fun _ _ _ ⟨_, _, h⟩ hstep => step_owned h hstep) ⟨[], [], init_owned⟩ hs
  obtain ⟨r, d, h⟩ := hinv
  have hrd := Multiset.nodup_add.mp h.distinct
  exact ⟨r, d, h.root, (Multiset.nodup_add.mp hrd.1).2.1, h.rest, hrd.2.1, h.conserved⟩

/-- A run in which the root changes twice between the load and the compare-and-swap of producer 1:
    the node of 7 is drained and comes back as the node of 9. -/
def recycled : List (QueueAct ℕ) :=
  [.add 0 7, .load 0, .get 0 none, .setValue 0, .setNext 0, .cas 0, .add 1 8, .load 1, .swap, .read,
    .putBack, .callback, .add 0 9, .load 0, .get 0 (some 0), .setValue 0, .setNext 0, .cas 0,
    .get 1 none, .setValue 1, .setNext 1, .cas 1]

/-- In that run the compare-and-swap of producer 1 succeeds although the root is another occurrence
    of the same node, and no value is lost. -/
theorem queue_exact_recycled :
    ∃ s r d, Resh.run step init recycled = some s ∧ s.root = some 1 ∧ s.added = [7, 9, 8] ∧
      Linked s.next s.root r ∧ r.Nodup ∧ Linked s.next s.consumer.rest d ∧ d.Nodup ∧
      (s.added : Multiset ℕ) = s.passed + (s.values r + (s.consumer.pending + s.values d)) := by
  obtain ⟨r, d, h⟩ := queue_exact recycled _ rfl
  exact ⟨_, r, d, rfl, rfl, rfl, h⟩

end LockQueue

end Resh.Internal
