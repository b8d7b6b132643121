import Mathlib.Data.Finset.Card
import Mathlib.Tactic.Ring
import Resh.Run

namespace Resh.Client.Concurrent

/-!
# redis/fd_map.go — the registry under concurrent calls

`fdMap` is a growing array of atomic pointers behind an atomic slice pointer.  `Add` grows it under
the mutex, but swaps its element into whatever array it has loaded, without the mutex.  The model
interleaves the atomic steps of any number of goroutines.  An `append` within the capacity writes to
the array that is shared with the published slice; one beyond it copies the array, and the new
capacity is the choice of the runtime.

* `Call` — the next atomic step of a goroutine;
* `Undisturbed` — an `Add` swaps into the published array, of which no other copy has been made;
* `entries_kept` — then no entry is lost, no call panics, and the counter is right;
* `grown_array_loses` — an `Add` that swaps into an array which has been copied.
-/

/-- A slice: its array, length and capacity. -/
structure Slice where
  arr : ℕ
  len : ℕ
  cap : ℕ
  deriving DecidableEq, Repr

/-- The next atomic step of a goroutine, with what it holds in its variables. -/
inductive Call (V : Type) where
  | idle
  /-- `fd >= len(*m.fds.Load())` -/
  | addLen (fd : ℕ) (v : V)
  /-- `m.mu.Lock()` -/
  | addLock (fd : ℕ) (v : V)
  /-- `fds := *m.fds.Load()` -/
  | addFds (fd : ℕ) (v : V)
  /-- `for len(fds) <= fd { fds = append(fds, atomic.Pointer[T]{}) }` -/
  | addGrow (fd : ℕ) (v : V) (fds : Slice)
  /-- `m.fds.Store(&fds)` -/
  | addStore (fd : ℕ) (v : V) (fds : Slice)
  /-- `m.mu.Unlock()` -/
  | addUnlock (fd : ℕ) (v : V)
  /-- `*m.fds.Load()` -/
  | addLoad (fd : ℕ) (v : V)
  /-- `old := (…)[fd].Swap(v)` -/
  | addSwap (fd : ℕ) (v : V) (fds : Slice)
  /-- `m.count.Add(1)` -/
  | addCount (fd : ℕ) (v : V)
  /-- `fds := *m.fds.Load()` -/
  | getLoad (fd : ℕ)
  /-- `fds[fd].Load()` -/
  | getElem (fd : ℕ) (fds : Slice)
  /-- `m.mu.Lock()` -/
  | delLock (fd : ℕ)
  /-- `fds := *m.fds.Load()` -/
  | delLoad (fd : ℕ)
  /-- `old := fds[fd].Swap(nil)` -/
  | delSwap (fd : ℕ) (fds : Slice)
  /-- `m.count.Add(-1)` -/
  | delCount (fd : ℕ)
  /-- `m.mu.Unlock()` -/
  | delUnlock (fd : ℕ)
  deriving DecidableEq, Repr

/-- Why the program stops. -/
inductive Bug where
  /-- `panic("BUG")` in `Add` -/
  | add (fd : ℕ)
  /-- `panic("BUG")` in `Delete` -/
  | delete (fd : ℕ)
  /-- index out of range in `Add` -/
  | index (fd : ℕ)
  deriving DecidableEq, Repr

/-- The map and the goroutines that call it.  `present` has the fds whose `Add` has returned and
    whose `Delete` has not started, `busy` the goroutine that is adding or deleting an fd, `gets`
    the results of `Get`. -/
structure FdMap (V : Type) where
  cells : ℕ → ℕ → Option V := fun _ _ => none
  /-- the number of arrays made so far; the first one is the empty one that `NewClient` stores -/
  arrays : ℕ := 1
  fds : Slice := ⟨0, 0, 0⟩
  mu : Option ℕ := none
  count : ℤ := 0
  calls : ℕ → Call V := fun _ => .idle
  present : ℕ → Option V := fun _ => none
  busy : ℕ → Option ℕ := fun _ => none
  gets : List (ℕ × ℕ × Option V) := []
  bug : Option Bug := none

/-- A call, or the next atomic step of a goroutine; `cap` is the capacity that `append` chooses. -/
inductive MapAct (V : Type) where
  | add (t fd : ℕ) (v : V)
  | get (t fd : ℕ)
  | delete (t fd : ℕ)
  | next (t cap : ℕ)
  deriving DecidableEq, Repr

namespace FdMap

variable {V : Type}

/-! ### The steps -/

/-- Goroutine `t` comes to its next step. -/
def setCall (m : FdMap V) (t : ℕ) (k : Call V) : FdMap V :=
  { m with calls := Function.update m.calls t k }

/-- An element of an array gets a new value. -/
def setCell (m : FdMap V) (arr i : ℕ) (v : Option V) : FdMap V :=
  { m with cells := Function.update m.cells arr (Function.update (m.cells arr) i v) }

/-- `append(fds, atomic.Pointer[T]{})`. -/
def append (m : FdMap V) (fds : Slice) (cap : ℕ) : Option (FdMap V × Slice) :=
  if fds.len < fds.cap then
    some (m.setCell fds.arr fds.len none, { fds with len := fds.len + 1 })
  else if fds.len < cap then
    some ({ m with
        cells := Function.update m.cells m.arrays
          fun i => if i < fds.len then m.cells fds.arr i else none
        arrays := m.arrays + 1 },
      ⟨m.arrays, fds.len + 1, cap⟩)
  else none

/-- The next atomic step of goroutine `t`. -/
def advance (m : FdMap V) (t cap : ℕ) : Option (FdMap V) :=
  match m.calls t with
  | .idle => none
  | .addLen fd v =>
    some (m.setCall t (if m.fds.len ≤ fd then .addLock fd v else .addLoad fd v))
  | .addLock fd v =>
    if m.mu = none then some ({ m with mu := some t }.setCall t (.addFds fd v)) else none
  | .addFds fd v => some (m.setCall t (.addGrow fd v m.fds))
  | .addGrow fd v fds =>
    if fds.len ≤ fd then (m.append fds cap).map fun r => r.1.setCall t (.addGrow fd v r.2)
    else some (m.setCall t (.addStore fd v fds))
  | .addStore fd v fds => some ({ m with fds := fds }.setCall t (.addUnlock fd v))
  | .addUnlock fd v => some ({ m with mu := none }.setCall t (.addLoad fd v))
  | .addLoad fd v => some (m.setCall t (.addSwap fd v m.fds))
  | .addSwap fd v fds =>
    if fds.len ≤ fd then some { m with bug := some (.index fd) }
    else if (m.cells fds.arr fd).isSome then
      some { m.setCell fds.arr fd (some v) with bug := some (.add fd) }
    else some ((m.setCell fds.arr fd (some v)).setCall t (.addCount fd v))
  | .addCount fd v =>
    some ({ m with
      count := m.count + 1
      present := Function.update m.present fd (some v)
      busy := Function.update m.busy fd none }.setCall t .idle)
  | .getLoad fd => some (m.setCall t (.getElem fd m.fds))
  | .getElem fd fds =>
    let v := if fds.len ≤ fd then none else m.cells fds.arr fd
    some ({ m with gets := m.gets ++ [(t, fd, v)] }.setCall t .idle)
  | .delLock fd =>
    if m.mu = none then some ({ m with mu := some t }.setCall t (.delLoad fd)) else none
  | .delLoad fd => some (m.setCall t (.delSwap fd m.fds))
  | .delSwap fd fds =>
    if fds.len ≤ fd then some (m.setCall t (.delUnlock fd))
    else if (m.cells fds.arr fd).isNone then
      some { m.setCell fds.arr fd none with bug := some (.delete fd) }
    else some ((m.setCell fds.arr fd none).setCall t (.delCount fd))
  | .delCount fd => some ({ m with count := m.count - 1 }.setCall t (.delUnlock fd))
  | .delUnlock fd =>
    some ({ m with mu := none, busy := Function.update m.busy fd none }.setCall t .idle)

/-- Goroutine `t` is in no call. -/
def free (m : FdMap V) (t : ℕ) : Bool :=
  match m.calls t with
  | .idle => true
  | _ => false

/-- One step.  An fd is added only while absent and deleted only while present, and these calls on
    one fd come one after another; `Get` may be called at any time. -/
def step (m : FdMap V) (a : MapAct V) : Option (FdMap V) :=
  if m.bug ≠ none then none
  else match a with
    | .add t fd v =>
      if m.free t ∧ m.present fd = none ∧ m.busy fd = none then
        some ({ m with busy := Function.update m.busy fd (some t) }.setCall t (.addLen fd v))
      else none
    | .get t fd => if m.free t then some (m.setCall t (.getLoad fd)) else none
    | .delete t fd =>
      if m.free t ∧ m.present fd ≠ none ∧ m.busy fd = none then
        some ({ m with
          present := Function.update m.present fd none
          busy := Function.update m.busy fd (some t) }.setCall t (.delLock fd))
      else none
    | .next t cap => m.advance t cap

end FdMap

/-! ### What a goroutine is doing -/

namespace Call

variable {V : Type}

/-- The fd that is being added or deleted. -/
def target : Call V → Option ℕ
  | addLen fd _ => some fd
  | addLock fd _ => some fd
  | addFds fd _ => some fd
  | addGrow fd _ _ => some fd
  | addStore fd _ _ => some fd
  | addUnlock fd _ => some fd
  | addLoad fd _ => some fd
  | addSwap fd _ _ => some fd
  | addCount fd _ => some fd
  | delLock fd => some fd
  | delLoad fd => some fd
  | delSwap fd _ => some fd
  | delCount fd => some fd
  | delUnlock fd => some fd
  | _ => none

/-- The mutex is held. -/
def locks : Call V → Bool
  | addFds _ _ => true
  | addGrow _ _ _ => true
  | addStore _ _ _ => true
  | addUnlock _ _ => true
  | delLoad _ => true
  | delSwap _ _ => true
  | delCount _ => true
  | delUnlock _ => true
  | _ => false

/-- The slice that `Add` is growing. -/
def growing : Call V → Option Slice
  | addGrow _ _ fds => some fds
  | addStore _ _ fds => some fds
  | _ => none

/-- The slice that `Add` is going to swap its element into. -/
def swapping : Call V → Option Slice
  | addSwap _ _ fds => some fds
  | _ => none

/-- The fd is still counted while it is deleted. -/
def counted : Call V → Bool
  | delLock _ => true
  | delLoad _ => true
  | delSwap _ _ => true
  | delCount _ => true
  | _ => false

/-- What the call has made of the element of its fd. -/
def Entry (e : Option V) : Call V → Prop
  | addCount _ v => e = some v
  | delLock _ => e ≠ none
  | delLoad _ => e ≠ none
  | delSwap _ _ => e ≠ none
  | _ => e = none

end Call

namespace FdMap

variable {V : Type}

/-- The element of `fd` in the published array. -/
def entry (m : FdMap V) (fd : ℕ) : Option V :=
  if fd < m.fds.len then m.cells m.fds.arr fd else none

/-- The slice `fds` is the published one, grown. -/
structure Extends (m : FdMap V) (fds : Slice) : Prop where
  len : m.fds.len ≤ fds.len
  arr : fds.arr < m.arrays
  old : ∀ i, i < m.fds.len → m.cells fds.arr i = m.cells m.fds.arr i
  new : ∀ i, m.fds.len ≤ i → i < fds.len → m.cells fds.arr i = none

/-- What a goroutine holds in its variables fits the map. -/
def Fits (m : FdMap V) : Call V → Prop
  | .addGrow _ _ fds => m.Extends fds
  | .addStore fd _ fds => m.Extends fds ∧ fd < fds.len
  | .addUnlock fd _ => fd < m.fds.len
  | .addLoad fd _ => fd < m.fds.len
  | .addSwap fd _ fds => fd < fds.len ∧ fd < m.fds.len
  | .delSwap _ fds => fds = m.fds
  | _ => True

/-- The fd is counted. -/
def counted (m : FdMap V) (fd : ℕ) : Bool :=
  match m.busy fd with
  | none => (m.present fd).isSome
  | some t => (m.calls t).counted

/-- The element of an fd is what its status says. -/
def Slot (m : FdMap V) (fd : ℕ) : Prop :=
  match m.busy fd with
  | none => m.entry fd = m.present fd
  | some t => (m.calls t).target = some fd ∧ m.present fd = none ∧ (m.calls t).Entry (m.entry fd)

/-- What a goroutine has is its own. -/
structure Has (m : FdMap V) (t : ℕ) : Prop where
  busy : ∀ fd, (m.calls t).target = some fd → m.busy fd = some t
  mu : (m.calls t).locks = true → m.mu = some t
  fits : m.Fits (m.calls t)

/-- **The registry is in order.** -/
structure Inv (m : FdMap V) : Prop where
  bug : m.bug = none
  arr : m.fds.arr < m.arrays
  slot : ∀ fd, m.Slot fd
  has : ∀ t, m.Has t
  count : ∃ l : Finset ℕ, (∀ fd, fd ∈ l ↔ m.counted fd = true) ∧ m.count = l.card

/-- The registry before the first call: one array without elements, nobody in a call. -/
theorem init_inv : ({} : FdMap V).Inv where
  bug := rfl
  arr := Nat.zero_lt_one
  slot := fun _ => rfl
  has := fun _ => ⟨(fun _ h => nomatch h), (fun h => nomatch h), trivial⟩
  count := ⟨∅, fun _ => by simp [counted], rfl⟩

variable {m m' : FdMap V} {t : ℕ} {k : Call V}

/-- The goroutine is where its step took it. -/
@[simp] theorem setCall_self (m : FdMap V) (t : ℕ) (k : Call V) : (m.setCall t k).calls t = k :=
  Function.update_self ..

/-- The other goroutines are where they were. -/
theorem setCall_of_ne (m : FdMap V) {t t' : ℕ} (k : Call V) (h : t' ≠ t) :
    (m.setCall t k).calls t' = m.calls t' := Function.update_of_ne h ..

/-- Whether an fd is counted does not depend on a call that works on another fd. -/
theorem Inv.counted_frame (h : m.Inv) (hcalls : ∀ t', t' ≠ t → m'.calls t' = m.calls t') {fd : ℕ}
    (hfd : (m.calls t).target ≠ some fd) (hbusy : m'.busy fd = m.busy fd)
    (hpresent : m'.present fd = m.present fd) : m'.counted fd = m.counted fd := by
  rw [counted, counted, hbusy, hpresent]
  cases hb : m.busy fd with
  | none => rfl
  | some t' =>
    have hs := h.slot fd
    unfold Slot at hs
    rw [hb] at hs
    simp only
    rw [hcalls t' fun heq => hfd (heq ▸ hs.1)]

/-- **One goroutine takes a step.**  What it has to show is about itself and about the fd that it
    adds or deletes, before or after the step. -/
theorem Inv.step_of (h : m.Inv) (hcalls : ∀ t', t' ≠ t → m'.calls t' = m.calls t')
    (hbug : m'.bug = none) (harr : m'.fds.arr < m'.arrays)
    (hframe : ∀ fd, (m.calls t).target ≠ some fd → k.target ≠ some fd →
      m'.busy fd = m.busy fd ∧ m'.present fd = m.present fd ∧ m'.entry fd = m.entry fd)
    (hnew : ∀ fd, k.target = some fd → m.busy fd = some t ∨ m.busy fd = none)
    (hslot : ∀ fd, (m.calls t).target = some fd ∨ k.target = some fd → m'.Slot fd)
    (hhas : m'.Has t) (hmu : ∀ t', t' ≠ t → m.mu = some t' → m'.mu = some t')
    (hfits : ∀ t', t' ≠ t → m.Fits (m.calls t') → m'.Fits (m.calls t'))
    (hcount : ∀ l : Finset ℕ, (∀ fd, fd ∈ l ↔ m.counted fd = true) → m.count = l.card →
      (∀ fd, (m.calls t).target ≠ some fd → k.target ≠ some fd → m'.counted fd = m.counted fd) →
      ∃ l' : Finset ℕ, (∀ fd, fd ∈ l' ↔ m'.counted fd = true) ∧ m'.count = l'.card) :
    m'.Inv := by
  refine ⟨hbug, harr, fun fd => ?_, fun t' => ?_, ?_⟩
  · -- the fds of the step are `hslot`; the others are framed
    by_cases hown : (m.calls t).target = some fd ∨ k.target = some fd
    · exact hslot fd hown
    · obtain ⟨h₁, h₂⟩ := not_or.mp hown
      obtain ⟨hb, hp, he⟩ := hframe fd h₁ h₂
      have hs := h.slot fd
      unfold Slot at hs ⊢
      rw [hb, hp, he]
      cases hbusy : m.busy fd with
      | none =>
        rw [hbusy] at hs
        exact hs
      | some t' =>
        rw [hbusy] at hs
        have hne : t' ≠ t := fun heq => h₁ (heq ▸ hs.1)
        simp only [hcalls t' hne]
        exact hs
  · -- another goroutine works on another fd, so it still has what it had
    by_cases ht : t' = t
    · exact ht ▸ hhas
    · have hold := h.has t'
      refine ⟨fun fd hfd => ?_, fun hl => ?_, ?_⟩
      · rw [hcalls t' ht] at hfd
        have hb := hold.busy fd hfd
        have h₁ : (m.calls t).target ≠ some fd := fun heq => by
          have := (h.has t).busy fd heq
          rw [hb, Option.some.injEq] at this
          exact ht this
        have h₂ : k.target ≠ some fd := fun heq => by
          rcases hnew fd heq with hb' | hb'
          · rw [hb, Option.some.injEq] at hb'
            exact ht hb'
          · rw [hb] at hb'
            cases hb'
        rw [(hframe fd h₁ h₂).1, hb]
      · rw [hcalls t' ht] at hl
        exact hmu t' ht (hold.mu hl)
      · rw [hcalls t' ht]
        exact hfits t' ht hold.fits
  · -- whether the other fds are counted has not changed
    obtain ⟨l, hl, hcard⟩ := h.count
    refine hcount l hl hcard fun fd h₁ h₂ => ?_
    obtain ⟨hb, hp, -⟩ := hframe fd h₁ h₂
    exact h.counted_frame hcalls h₁ hb hp

/-- The counter stays if the fds in question are counted as before. -/
theorem count_same {k₀ : Call V} {l : Finset ℕ} (hl : ∀ fd, fd ∈ l ↔ m.counted fd = true)
    (hcard : m.count = l.card)
    (hframe : ∀ fd, k₀.target ≠ some fd → k.target ≠ some fd → m'.counted fd = m.counted fd)
    (hown : ∀ fd, k₀.target = some fd ∨ k.target = some fd → m'.counted fd = m.counted fd)
    (hcount : m'.count = m.count) :
    ∃ l' : Finset ℕ, (∀ fd, fd ∈ l' ↔ m'.counted fd = true) ∧ m'.count = l'.card := by
  refine ⟨l, fun fd => ?_, hcount.trans hcard⟩
  rw [hl fd]
  by_cases h : k₀.target = some fd ∨ k.target = some fd
  · rw [hown fd h]
  · obtain ⟨h₁, h₂⟩ := not_or.mp h
    rw [hframe fd h₁ h₂]

/-- The goroutine stays in its call. -/
theorem Inv.stay (h : m.Inv) (hk : m'.calls t = k) (hcalls : ∀ t', t' ≠ t →
    m'.calls t' = m.calls t')
    (hbug : m'.bug = m.bug) (harr : m'.fds.arr < m'.arrays) (hbusy : m'.busy = m.busy)
    (hpresent : m'.present = m.present) (hcount : m'.count = m.count)
    (htarget : k.target = (m.calls t).target) (hcounted : k.counted = (m.calls t).counted)
    (hentry : ∀ fd, k.target ≠ some fd → m'.entry fd = m.entry fd)
    (hown : ∀ fd, k.target = some fd → (m.calls t).Entry (m.entry fd) → k.Entry (m'.entry fd))
    (hlocks : k.locks = true → m'.mu = some t) (hfit : m'.Fits k)
    (hmu : ∀ t', t' ≠ t → m.mu = some t' → m'.mu = some t')
    (hfits : ∀ t', t' ≠ t → m.Fits (m.calls t') → m'.Fits (m.calls t')) : m'.Inv := by
  have hbusyk : ∀ fd, k.target = some fd → m.busy fd = some t := fun fd hfd =>
    (h.has t).busy fd (htarget ▸ hfd)
  refine h.step_of (k := k) hcalls (hbug.trans h.bug) harr (fun fd _ hfd => ?_)
    (fun fd hfd => .inl (hbusyk fd hfd)) (fun fd hfd => ?_) ⟨fun fd hfd => ?_, ?_, ?_⟩ hmu hfits
    (fun l hl hcard hframe => count_same hl hcard hframe (fun fd hfd => ?_) hcount)
  · exact ⟨by rw [hbusy], by rw [hpresent], hentry fd hfd⟩
  · rw [← htarget, or_self] at hfd
    have hs := h.slot fd
    have hb := hbusyk fd hfd
    unfold Slot at hs ⊢
    rw [hbusy, hpresent]
    rw [hb] at hs ⊢
    simp only [hk]
    exact ⟨hfd, hs.2.1, hown fd hfd hs.2.2⟩
  · rw [hk] at hfd
    rw [hbusy]
    exact hbusyk fd hfd
  · rw [hk]
    exact hlocks
  · rw [hk]
    exact hfit
  · rw [← htarget, or_self] at hfd
    rw [counted, counted, hbusy, hbusyk fd hfd]
    simp only [hk, hcounted]

/-- What a goroutine has loaded only refers to the arrays, so it fits as long as these stay. -/
theorem fits_congr (hcells : m'.cells = m.cells) (harrays : m'.arrays = m.arrays)
    (hfds : m'.fds = m.fds) (k : Call V) (hk : m.Fits k) : m'.Fits k := by
  have hext : ∀ fds, m.Extends fds → m'.Extends fds := fun fds h =>
    ⟨hfds ▸ h.len, harrays ▸ h.arr, by rw [hfds, hcells]; exact h.old,
      by rw [hfds, hcells]; exact h.new⟩
  cases k with
  | addGrow fd v fds => exact hext fds hk
  | addStore fd v fds => exact ⟨hext fds hk.1, hk.2⟩
  | addUnlock fd v => exact lt_of_lt_of_eq hk (congrArg Slice.len hfds.symm)
  | addLoad fd v => exact lt_of_lt_of_eq hk (congrArg Slice.len hfds.symm)
  | addSwap fd v fds => exact ⟨hk.1, lt_of_lt_of_eq hk.2 (congrArg Slice.len hfds.symm)⟩
  | delSwap fd fds => exact hk.trans hfds.symm
  | _ => trivial

/-- What a goroutine without the mutex holds fits a longer slice, too. -/
theorem fits_mono (hfds : m.fds.len ≤ m'.fds.len) (k : Call V) (hlocks : k.locks = false)
    (hk : m.Fits k) : m'.Fits k := by
  cases k with
  | addLoad fd v => exact lt_of_lt_of_le hk hfds
  | addSwap fd v fds => exact ⟨hk.1, lt_of_lt_of_le hk.2 hfds⟩
  | addGrow fd v fds => cases hlocks
  | addStore fd v fds => cases hlocks
  | addUnlock fd v => cases hlocks
  | delSwap fd fds => cases hlocks
  | _ => trivial

/-- Only one goroutine holds the mutex. -/
theorem Inv.locks_of_ne (h : m.Inv) (hl : (m.calls t).locks = true) {t' : ℕ} (ht : t' ≠ t) :
    (m.calls t').locks = false := by
  by_contra hl'
  rw [Bool.not_eq_false] at hl'
  have h₁ := (h.has t).mu hl
  rw [(h.has t').mu hl', Option.some.injEq] at h₁
  exact ht h₁

/-- The goroutine looks at the map, or locks or unlocks it. -/
theorem Inv.look (h : m.Inv) {k₀ : Call V} (hk : m.calls t = k₀) {mu : Option ℕ}
    {gets : List (ℕ × ℕ × Option V)} (htarget : k.target = k₀.target)
    (hcounted : k.counted = k₀.counted)
    (hown : ∀ e, k₀.Entry e → k.Entry e) (hlocks : k.locks = true → mu = some t) (hfit : m.Fits k)
    (hmu : ∀ t', t' ≠ t → m.mu = some t' → mu = some t') :
    ({ m with mu := mu, gets := gets }.setCall t k).Inv := by
  subst hk
  have hsame : ∀ k', m.Fits k' → ({ m with mu := mu, gets := gets }.setCall t k).Fits k' := by
    intro k' hk'
    refine fits_congr ?_ ?_ ?_ k' hk' <;> rfl
  exact h.stay (setCall_self ..) (fun t' ht' => setCall_of_ne _ k ht') rfl h.arr rfl rfl rfl htarget
    hcounted (fun _ _ => rfl) (fun fd _ => hown _) hlocks (hsame k hfit) hmu
    (fun t' _ hk => hsame _ hk)

/-- A step that changes nothing but the position of a goroutine, towards one which promises no more.
    -/
theorem Inv.goto (h : m.Inv) {k₀ : Call V} (hk : m.calls t = k₀) (htarget : k.target = k₀.target)
    (hcounted : k.counted = k₀.counted) (hown : ∀ e, k₀.Entry e → k.Entry e)
    (hlocks : k.locks = true → k₀.locks = true) (hfit : m.Fits k) : (m.setCall t k).Inv := by
  have hmu : k.locks = true → m.mu = some t := fun hl => (h.has t).mu (hk ▸ hlocks hl)
  exact h.look hk htarget hcounted hown hmu hfit fun _ _ hmu => hmu

/-- The goroutine gets the mutex. -/
theorem Inv.lock (h : m.Inv) {k₀ : Call V} (hk : m.calls t = k₀) (hfree : m.mu = none)
    (htarget : k.target = k₀.target) (hcounted : k.counted = k₀.counted)
    (hown : ∀ e, k₀.Entry e → k.Entry e) (hfit : m.Fits k) :
    ({ m with mu := some t }.setCall t k).Inv :=
  h.look hk htarget hcounted hown (fun _ => rfl) hfit fun t' _ hmu => by
    rw [hfree] at hmu
    cases hmu

/-! ### Growing -/

/-- The element that was stored. -/
theorem setCell_self (m : FdMap V) (arr i : ℕ) (v : Option V) :
    (m.setCell arr i v).cells arr i = v := by
  simp [setCell]

/-- Every other element, of this array and of the others. -/
theorem setCell_of_ne (m : FdMap V) {arr i arr' i' : ℕ} (v : Option V) (h : arr' ≠ arr ∨ i' ≠ i) :
    (m.setCell arr i v).cells arr' i' = m.cells arr' i' := by
  by_cases harr : arr' = arr
  · have hi := h.resolve_left (not_not.mpr harr)
    simp [setCell, harr, hi]
  · simp [setCell, harr]

/-- What `append` leaves alone, and what it returns. -/
theorem append_spec {fds : Slice} {cap : ℕ} {r : FdMap V × Slice} (hpub : m.fds.arr < m.arrays)
    (hext : m.Extends fds) (hr : m.append fds cap = some r) :
    r.1.Extends r.2 ∧ r.1 = { m with cells := r.1.cells, arrays := r.1.arrays } ∧
      m.arrays ≤ r.1.arrays ∧
      ∀ arr i, arr < m.arrays → i < m.fds.len → r.1.cells arr i = m.cells arr i := by
  unfold append at hr
  split at hr
  · cases hr
    refine ⟨⟨?_, hext.arr, fun i hi => ?_, fun i hi hi' => ?_⟩, rfl, le_rfl, fun arr i _ hi => ?_⟩
    · exact hext.len.trans (Nat.le_succ _)
    · have hne : i ≠ fds.len := (lt_of_lt_of_le hi hext.len).ne
      rw [setCell_of_ne m none (.inr hne), setCell_of_ne m none (.inr hne)]
      exact hext.old i hi
    · by_cases hlen : i = fds.len
      · rw [hlen]
        exact setCell_self ..
      · rw [setCell_of_ne m none (.inr hlen)]
        exact hext.new i hi (lt_of_le_of_ne (Nat.lt_succ_iff.mp hi') hlen)
    · exact setCell_of_ne m none (.inr (lt_of_lt_of_le hi hext.len).ne)
  · split at hr
    · cases hr
      have hne : ∀ arr, arr < m.arrays → Function.update m.cells m.arrays
          (fun i => if i < fds.len then m.cells fds.arr i else none) arr = m.cells arr :=
        fun arr h => Function.update_of_ne h.ne ..
      refine ⟨⟨?_, Nat.lt_succ_self _, fun i hi => ?_, fun i hi hi' => ?_⟩, rfl, Nat.le_succ _,
        fun arr i harr _ => congrFun (hne arr harr) i⟩
      · exact hext.len.trans (Nat.le_succ _)
      · show Function.update m.cells m.arrays _ m.arrays i
            = Function.update m.cells m.arrays _ m.fds.arr i
        rw [Function.update_self, hne _ hpub, if_pos (lt_of_lt_of_le hi hext.len)]
        exact hext.old i hi
      · show Function.update m.cells m.arrays _ m.arrays i = none
        rw [Function.update_self]
        split
        · rename_i hlt
          exact hext.new i hi hlt
        · rfl
    · cases hr

/-- The slice gets longer by one. -/
theorem Inv.grow (h : m.Inv) {fd cap : ℕ} {v : V} {fds : Slice} (hk : m.calls t = .addGrow fd v fds)
    {r : FdMap V × Slice} (hr : m.append fds cap = some r) :
    (r.1.setCall t (.addGrow fd v r.2)).Inv := by
  have hext : m.Extends fds := by
    have hfits := (h.has t).fits
    rwa [hk] at hfits
  have hlocks : (m.calls t).locks = true := by rw [hk]; rfl
  obtain ⟨hext', hsame, harrays, hcells⟩ := append_spec h.arr hext hr
  obtain ⟨m₁, fds₁⟩ := r
  simp only at hext' hsame harrays hcells ⊢
  -- `append` writes behind the published elements, or into a copy of them
  have hentry : ∀ i, m₁.entry i = m.entry i := fun i => by
    rw [hsame, entry, entry]
    split
    · rename_i hi
      exact hcells _ i h.arr hi
    · rfl
  refine h.stay (setCall_self ..) (fun t' ht' => ?_) ?_ ?_ ?_ ?_ ?_ ?_ ?_ (fun i _ => hentry i)
    (fun i _ he => ?_) (fun _ => ?_) ?_ (fun t' _ hmu => ?_) (fun t' ht' => ?_)
  · rw [setCall_of_ne _ _ ht', hsame]
  · show m₁.bug = m.bug
    rw [hsame]
  · show m₁.fds.arr < m₁.arrays
    rw [hsame]
    exact lt_of_lt_of_le h.arr harrays
  · show m₁.busy = m.busy
    rw [hsame]
  · show m₁.present = m.present
    rw [hsame]
  · show m₁.count = m.count
    rw [hsame]
  · rw [hk]
    rfl
  · rw [hk]
    rfl
  · rw [hk] at he
    exact (hentry i).trans he
  · show m₁.mu = some t
    rw [hsame]
    exact (h.has t).mu hlocks
  · refine fits_congr ?_ ?_ ?_ (.addGrow fd v fds₁) hext' <;> rfl
  · show m₁.mu = some t'
    rw [hsame]
    exact hmu
  · refine fits_mono (m := m) ?_ _ (h.locks_of_ne hlocks ht')
    show m.fds.len ≤ m₁.fds.len
    rw [hsame]

/-- The longer slice is published. -/
theorem Inv.store (h : m.Inv) {fd : ℕ} {v : V} {fds : Slice} (hk : m.calls t = .addStore fd v fds) :
    ({ m with fds := fds }.setCall t (.addUnlock fd v)).Inv := by
  obtain ⟨hext, hfd⟩ : m.Extends fds ∧ fd < fds.len := by
    have hfits := (h.has t).fits
    rwa [hk] at hfits
  have hlocks : (m.calls t).locks = true := by rw [hk]; rfl
  have hentry : ∀ i, ({ m with fds := fds } : FdMap V).entry i = m.entry i := fun i => by
    unfold entry
    simp only
    by_cases hi : i < m.fds.len
    · rw [if_pos hi, if_pos (lt_of_lt_of_le hi hext.len)]
      exact hext.old i hi
    · rw [if_neg hi]
      split
      · rename_i hi'
        exact hext.new i (not_lt.mp hi) hi'
      · rfl
  refine h.stay (setCall_self ..) (fun t' ht' => setCall_of_ne _ _ ht') rfl hext.arr rfl rfl rfl
    (by rw [hk]; rfl) (by rw [hk]; rfl) (fun i _ => hentry i) (fun i _ he => ?_)
    (fun _ => (h.has t).mu hlocks) hfd (fun _ _ hmu => hmu)
    (fun t' ht' => fits_mono (m := m) hext.len _ (h.locks_of_ne hlocks ht'))
  rw [hk] at he
  exact (hentry i).trans he

/-! ### The elements -/

/-- Whoever is growing the slice has not copied the array yet. -/
def Settled (m : FdMap V) : Prop :=
  ∀ t ∈ m.mu, ∀ fds ∈ (m.calls t).growing, fds.arr = m.fds.arr

/-- **The condition**: an `Add` swaps its element into the published array, of which no other
    goroutine that is about to replace it has made a copy. -/
def Undisturbed (m : FdMap V) : MapAct V → Prop
  | .next t _ => ∀ fds ∈ (m.calls t).swapping, fds.arr = m.fds.arr ∧ m.Settled
  | _ => True

instance (m : FdMap V) : Decidable m.Settled :=
  inferInstanceAs (Decidable (∀ t ∈ m.mu, ∀ fds ∈ (m.calls t).growing, fds.arr = m.fds.arr))

instance (m : FdMap V) (a : MapAct V) : Decidable (m.Undisturbed a) :=
  match a with
  | .next t _ =>
    inferInstanceAs (Decidable (∀ fds ∈ (m.calls t).swapping, fds.arr = m.fds.arr ∧ m.Settled))
  | .add _ _ _ => isTrue trivial
  | .get _ _ => isTrue trivial
  | .delete _ _ => isTrue trivial

/-- The published array gets a new element. -/
theorem entry_setCell (m : FdMap V) {fd : ℕ} (hfd : fd < m.fds.len) (v : Option V) (i : ℕ) :
    (m.setCell m.fds.arr fd v).entry i = if i = fd then v else m.entry i := by
  show (if i < m.fds.len then (m.setCell m.fds.arr fd v).cells m.fds.arr i else none) = _
  by_cases hi : i = fd
  · rw [if_pos hi, hi, if_pos hfd, setCell_self]
  · rw [if_neg hi, setCell_of_ne m v (.inr hi)]
    rfl

/-- Storing into the published array keeps what the goroutines have loaded, if nobody is about to
    replace it by a copy that lacks the element. -/
theorem fits_setCell {fd : ℕ} (hfd : fd < m.fds.len) (v : Option V) {k : Call V}
    (hgrow : ∀ fds ∈ k.growing, fds.arr = m.fds.arr) (hk : m.Fits k) :
    (m.setCell m.fds.arr fd v).Fits k := by
  have hext : ∀ fds, fds.arr = m.fds.arr → m.Extends fds →
      (m.setCell m.fds.arr fd v).Extends fds := by
    intro fds harr hext
    refine ⟨hext.len, hext.arr, fun i _ => by rw [harr]; rfl, fun i hi hi' => ?_⟩
    rw [setCell_of_ne m v (.inr (lt_of_lt_of_le hfd hi).ne')]
    exact hext.new i hi hi'
  cases k with
  | addGrow fd' v' fds => exact hext fds (hgrow fds rfl) hk
  | addStore fd' v' fds => exact ⟨hext fds (hgrow fds rfl) hk.1, hk.2⟩
  | _ => exact hk

/-- The element of an fd while a goroutine is in a call on it. -/
theorem Inv.entry_of_target (h : m.Inv) {fd : ℕ} (hfd : (m.calls t).target = some fd) :
    m.busy fd = some t ∧ m.present fd = none ∧ (m.calls t).Entry (m.entry fd) := by
  have hb := (h.has t).busy fd hfd
  have hs := h.slot fd
  unfold Slot at hs
  rw [hb] at hs
  exact ⟨hb, hs.2⟩

/-- `Add` swaps its element in, and there was none. -/
theorem Inv.swap (h : m.Inv) {fd : ℕ} {v : V} {fds : Slice} (hk : m.calls t = .addSwap fd v fds)
    (harr : fds.arr = m.fds.arr) (hsettled : m.Settled) :
    fd < fds.len ∧ m.cells fds.arr fd = none ∧
      ((m.setCell fds.arr fd (some v)).setCall t (.addCount fd v)).Inv := by
  obtain ⟨hlen, hpub⟩ : fd < fds.len ∧ fd < m.fds.len := by
    have hfits := (h.has t).fits
    rwa [hk] at hfits
  have htarget : (m.calls t).target = some fd := by rw [hk]; rfl
  have hentry : m.entry fd = none := by
    have he := (h.entry_of_target htarget).2.2
    rwa [hk] at he
  rw [entry, if_pos hpub] at hentry
  rw [harr]
  refine ⟨hlen, hentry, ?_⟩
  refine h.stay (setCall_self ..) (fun t' ht' => setCall_of_ne _ _ ht') rfl h.arr rfl rfl rfl
    (by rw [hk]; rfl) (by rw [hk]; rfl) (fun i hi => ?_) (fun i hi _ => ?_)
    (fun hl => nomatch hl) trivial (fun _ _ hmu => hmu) (fun t' _ hk' => ?_)
  · refine (entry_setCell m hpub (some v) i).trans (if_neg fun heq => hi ?_)
    rw [heq]
    rfl
  · cases hi
    exact (entry_setCell m hpub (some v) fd).trans (if_pos rfl)
  · have hgrow : ∀ fds' ∈ (m.calls t').growing, fds'.arr = m.fds.arr := by
      intro fds' hfds'
      refine hsettled t' ((h.has t').mu ?_) fds' hfds'
      cases hc : m.calls t' with
      | addGrow _ _ _ => rfl
      | addStore _ _ _ => rfl
      | _ =>
        rw [hc] at hfds'
        cases hfds'
    have hfits := fits_setCell hpub (some v) hgrow hk'
    refine fits_congr ?_ ?_ ?_ _ hfits <;> rfl

/-- `Delete` swaps the element out, and there was one. -/
theorem Inv.unswap (h : m.Inv) {fd : ℕ} {fds : Slice} (hk : m.calls t = .delSwap fd fds) :
    fd < fds.len ∧ m.cells fds.arr fd ≠ none ∧
      ((m.setCell fds.arr fd none).setCall t (.delCount fd)).Inv := by
  have hfds : fds = m.fds := by
    have hfits := (h.has t).fits
    rwa [hk] at hfits
  subst hfds
  have hlocks : (m.calls t).locks = true := by rw [hk]; rfl
  have htarget : (m.calls t).target = some fd := by rw [hk]; rfl
  have hentry : m.entry fd ≠ none := by
    have he := (h.entry_of_target htarget).2.2
    rwa [hk] at he
  have hpub : fd < m.fds.len := by
    by_contra hlen
    exact hentry (if_neg hlen)
  rw [entry, if_pos hpub] at hentry
  refine ⟨hpub, hentry, ?_⟩
  refine h.stay (setCall_self ..) (fun t' ht' => setCall_of_ne _ _ ht') rfl h.arr rfl rfl rfl
    (by rw [hk]; rfl) (by rw [hk]; rfl) (fun i hi => ?_) (fun i hi _ => ?_)
    (fun _ => (h.has t).mu hlocks) trivial (fun _ _ hmu => hmu)
    (fun t' ht' hk' => ?_)
  · refine (entry_setCell m hpub none i).trans (if_neg fun heq => hi ?_)
    rw [heq]
    rfl
  · cases hi
    exact (entry_setCell m hpub none fd).trans (if_pos rfl)
  · refine fits_mono ?_ _ (h.locks_of_ne hlocks ht') hk'
    exact le_rfl

/-! ### The counter, and the ends of a call -/

/-- `Add` counts its fd and returns. -/
theorem Inv.countAdd (h : m.Inv) {fd : ℕ} {v : V} (hk : m.calls t = .addCount fd v) :
    ({ m with
      count := m.count + 1
      present := Function.update m.present fd (some v)
      busy := Function.update m.busy fd none }.setCall t .idle).Inv := by
  have htarget : (m.calls t).target = some fd := by rw [hk]; rfl
  obtain ⟨hb, -, he⟩ := h.entry_of_target htarget
  rw [hk] at he
  have hne : ∀ i, (m.calls t).target ≠ some i → i ≠ fd := fun i hi heq => hi (heq ▸ htarget)
  refine h.step_of (k := .idle) (fun t' ht' => setCall_of_ne _ _ ht') h.bug h.arr (fun i hi _ => ?_)
    (fun i hi => nomatch hi) (fun i hi => ?_) ⟨fun i hi => ?_, fun hl => ?_, ?_⟩
    (fun _ _ hmu => hmu) (fun t' _ hk' => ?_) (fun l hl hcard hframe => ?_)
  · exact ⟨Function.update_of_ne (hne i hi) .., Function.update_of_ne (hne i hi) .., rfl⟩
  · have hfd : i = fd := by
      rcases hi with hi | hi
      · rw [htarget, Option.some.injEq] at hi
        exact hi.symm
      · cases hi
    subst hfd
    unfold Slot
    simp only [setCall, Function.update_self]
    exact he
  · rw [setCall_self] at hi
    cases hi
  · rw [setCall_self] at hl
    cases hl
  · rw [setCall_self]
    trivial
  · refine fits_congr ?_ ?_ ?_ _ hk' <;> rfl
  · -- the fd was not counted while its `Add` was under way
    have hfdl : fd ∉ l := by
      rw [hl fd, counted, hb]
      simp [hk, Call.counted]
    refine ⟨insert fd l, fun i => ?_, ?_⟩
    · rw [Finset.mem_insert, hl i]
      by_cases hi : i = fd
      · subst hi
        simp [counted, setCall]
      · rw [hframe i (fun heq => hi ?_) (fun heq => nomatch heq)]
        · simp [hi]
        · rw [htarget, Option.some.injEq] at heq
          exact heq.symm
    · show m.count + 1 = _
      rw [Finset.card_insert_of_notMem hfdl, hcard]
      push_cast
      ring

/-- `Delete` takes its fd off the counter. -/
theorem Inv.countDelete (h : m.Inv) {fd : ℕ} (hk : m.calls t = .delCount fd) :
    ({ m with count := m.count - 1 }.setCall t (.delUnlock fd)).Inv := by
  have htarget : (m.calls t).target = some fd := by rw [hk]; rfl
  obtain ⟨hb, hp, he⟩ := h.entry_of_target htarget
  rw [hk] at he
  have hlocks : (m.calls t).locks = true := by rw [hk]; rfl
  refine h.step_of (k := .delUnlock fd) (fun t' ht' => setCall_of_ne _ _ ht') h.bug h.arr
    (fun i _ _ => ⟨rfl, rfl, rfl⟩) (fun i hi => .inl ?_) (fun i hi => ?_)
    ⟨fun i hi => ?_, fun _ => (h.has t).mu hlocks, ?_⟩ (fun _ _ hmu => hmu) (fun t' _ hk' => ?_)
    (fun l hl hcard hframe => ?_)
  · cases hi
    exact hb
  · have hfd : i = fd := by
      rw [htarget] at hi
      rcases hi with hi | hi
      · exact (Option.some.inj hi).symm
      · exact (Option.some.inj hi).symm
    subst hfd
    unfold Slot
    simp only [setCall, hb, Function.update_self]
    exact ⟨rfl, hp, he⟩
  · rw [setCall_self] at hi
    cases hi
    exact hb
  · rw [setCall_self]
    trivial
  · refine fits_congr ?_ ?_ ?_ _ hk' <;> rfl
  · -- the fd was counted until now, though it was absent already
    have hfdl : fd ∈ l := by
      rw [hl fd, counted, hb]
      simp [hk, Call.counted]
    refine ⟨l.erase fd, fun i => ?_, ?_⟩
    · rw [Finset.mem_erase, hl i]
      by_cases hi : i = fd
      · subst hi
        simp [counted, setCall, hb, Call.counted]
      · rw [hframe i (fun heq => hi ?_) (fun heq => hi (Option.some.inj heq).symm)]
        · simp [hi]
        · rw [htarget, Option.some.injEq] at heq
          exact heq.symm
    · show m.count - 1 = _
      have hpos := Finset.card_pos.mpr ⟨fd, hfdl⟩
      rw [Finset.card_erase_of_mem hfdl, hcard]
      omega

/-- `Delete` returns. -/
theorem Inv.unlockDelete (h : m.Inv) {fd : ℕ} (hk : m.calls t = .delUnlock fd) :
    ({ m with mu := none, busy := Function.update m.busy fd none }.setCall t .idle).Inv := by
  have htarget : (m.calls t).target = some fd := by rw [hk]; rfl
  obtain ⟨hb, hp, he⟩ := h.entry_of_target htarget
  rw [hk] at he
  have hmu : m.mu = some t := (h.has t).mu (by rw [hk]; rfl)
  have hfd : ∀ i, (m.calls t).target = some i ∨ (Call.idle : Call V).target = some i → i = fd := by
    intro i hi
    rw [htarget] at hi
    exact (Option.some.inj (hi.resolve_right (fun heq => nomatch heq))).symm
  refine h.step_of (k := .idle) (fun t' ht' => setCall_of_ne _ _ ht') h.bug h.arr (fun i hi _ => ?_)
    (fun i hi => nomatch hi) (fun i hi => ?_) ⟨fun i hi => ?_, fun hl => ?_, ?_⟩
    (fun t' ht' hmu' => ?_) (fun t' _ hk' => ?_)
    (fun l hl hcard hframe => count_same hl hcard hframe (fun i hi => ?_) rfl)
  · have hne : i ≠ fd := fun heq => hi (heq ▸ htarget)
    exact ⟨Function.update_of_ne hne .., rfl, rfl⟩
  · rw [hfd i hi]
    unfold Slot
    simp only [setCall, Function.update_self]
    exact he.trans hp.symm
  · rw [setCall_self] at hi
    cases hi
  · rw [setCall_self] at hl
    cases hl
  · rw [setCall_self]
    trivial
  · rw [hmu, Option.some.injEq] at hmu'
    exact absurd hmu'.symm ht'
  · refine fits_congr ?_ ?_ ?_ _ hk' <;> rfl
  · rw [hfd i hi, counted, counted, hb]
    simp [setCall, hk, hp, Call.counted]

/-- A call of `Add` or `Delete` starts. -/
theorem Inv.start (h : m.Inv) {fd : ℕ} {present : ℕ → Option V} (hidle : m.calls t = .idle)
    (hb : m.busy fd = none) (htarget : k.target = some fd) (hpresent : present fd = none)
    (hothers : ∀ i, i ≠ fd → present i = m.present i) (hentry : k.Entry (m.present fd))
    (hcounted : k.counted = (m.present fd).isSome) (hlocks : k.locks = false)
    (hfit : ∀ m' : FdMap V, m'.Fits k) :
    ({ m with present := present,
              busy := Function.update m.busy fd (some t) }.setCall t k).Inv := by
  have hfd : ∀ i, (m.calls t).target = some i ∨ k.target = some i → i = fd := by
    intro i hi
    rw [hidle, htarget] at hi
    exact (Option.some.inj (hi.resolve_left (fun heq => nomatch heq))).symm
  have hne : ∀ i, k.target ≠ some i → i ≠ fd := fun i hi heq => hi (heq ▸ htarget)
  have hslot : m.entry fd = m.present fd := by
    have hs := h.slot fd
    unfold Slot at hs
    rwa [hb] at hs
  refine h.step_of (k := k) (fun t' ht' => setCall_of_ne _ _ ht') h.bug h.arr (fun i _ hi => ?_)
    (fun i hi => .inr ?_) (fun i hi => ?_) ⟨fun i hi => ?_, fun hl => ?_, ?_⟩ (fun _ _ hmu => hmu)
    (fun t' _ hk' => ?_) (fun l hl hcard hframe => count_same hl hcard hframe (fun i hi => ?_) rfl)
  · exact ⟨Function.update_of_ne (hne i hi) .., hothers i (hne i hi), rfl⟩
  · rw [hfd i (.inr hi)]
    exact hb
  · rw [hfd i hi]
    unfold Slot
    simp only [setCall, Function.update_self]
    refine ⟨htarget, hpresent, ?_⟩
    rw [← hslot] at hentry
    exact hentry
  · rw [setCall_self] at hi
    rw [hfd i (.inr hi)]
    exact Function.update_self ..
  · rw [setCall_self, hlocks] at hl
    cases hl
  · rw [setCall_self]
    exact hfit _
  · refine fits_congr ?_ ?_ ?_ _ hk' <;> rfl
  · rw [hfd i hi, counted, counted, hb]
    simp only [setCall, Function.update_self]
    exact hcounted

/-- A goroutine that is free is in no call. -/
theorem eq_idle (h : m.free t = true) : m.calls t = .idle := by
  unfold free at h
  split at h
  · assumption
  · cases h

/-- **A step of one goroutine.** -/
theorem advance_inv {cap : ℕ} (h : m.Inv) (hc : m.Undisturbed (.next t cap))
    (hs : m.advance t cap = some m') : m'.Inv := by
  have hfits := (h.has t).fits
  unfold advance at hs
  -- one case for each position of a call, in the order of `advance`
  split at hs
  · cases hs
  · rename_i fd v hk
    cases hs
    split
    · exact h.goto hk rfl rfl (fun _ => id) (fun hl => nomatch hl) trivial
    · rename_i hlen
      exact h.goto hk rfl rfl (fun _ => id) (fun hl => nomatch hl) (not_le.mp hlen)
  · rename_i fd v hk
    split at hs
    · rename_i hfree
      cases hs
      exact h.lock hk hfree rfl rfl (fun _ => id) trivial
    · cases hs
  · rename_i fd v hk
    cases hs
    refine h.goto hk rfl rfl (fun _ => id) (fun _ => rfl)
      ⟨le_rfl, h.arr, fun _ _ => rfl, fun i hi hi' => ?_⟩
    omega
  · rename_i fd v fds hk
    split at hs
    · obtain ⟨r, hr, rfl⟩ := Option.map_eq_some_iff.mp hs
      exact h.grow hk hr
    · rename_i hlen
      cases hs
      rw [hk] at hfits
      exact h.goto hk rfl rfl (fun _ => id) (fun _ => rfl) ⟨hfits, not_le.mp hlen⟩
  · rename_i fd v fds hk
    cases hs
    exact h.store hk
  · rename_i fd v hk
    cases hs
    -- whoever else holds the mutex would be `t`, which gives it back
    have hmu := (h.has t).mu (by rw [hk]; rfl)
    rw [hk] at hfits
    refine h.look hk rfl rfl (fun _ => id) (fun hl => nomatch hl) hfits fun t' ht' hmu' => ?_
    rw [hmu, Option.some.injEq] at hmu'
    exact absurd hmu'.symm ht'
  · rename_i fd v hk
    cases hs
    rw [hk] at hfits
    exact h.goto hk rfl rfl (fun _ => id) (fun hl => nomatch hl) ⟨hfits, hfits⟩
  · rename_i fd v fds hk
    -- the condition: the element goes into the published array, and no copy is under way
    obtain ⟨harr, hsettled⟩ := hc fds (by rw [hk]; rfl)
    obtain ⟨hlen, hcell, hinv⟩ := h.swap hk harr hsettled
    rw [if_neg (not_le.mpr hlen), hcell, if_neg (by simp)] at hs
    cases hs
    exact hinv
  · rename_i fd v hk
    cases hs
    exact h.countAdd hk
  · rename_i fd hk
    cases hs
    exact h.goto hk rfl rfl (fun _ => id) (fun hl => nomatch hl) trivial
  · rename_i fd fds hk
    cases hs
    exact h.look hk rfl rfl (fun _ => id) (fun hl => nomatch hl) trivial fun _ _ hmu => hmu
  · rename_i fd hk
    split at hs
    · rename_i hfree
      cases hs
      exact h.lock hk hfree rfl rfl (fun _ => id) trivial
    · cases hs
  · rename_i fd hk
    cases hs
    exact h.goto hk rfl rfl (fun _ => id) (fun _ => rfl) rfl
  · rename_i fd fds hk
    -- the mutex has kept the array that was loaded the published one
    obtain ⟨hlen, hcell, hinv⟩ := h.unswap hk
    rw [if_neg (not_le.mpr hlen), if_neg (by simpa using hcell)] at hs
    cases hs
    exact hinv
  · rename_i fd hk
    cases hs
    exact h.countDelete hk
  · rename_i fd hk
    cases hs
    exact h.unlockDelete hk

/-- **Every step keeps the registry in order.** -/
theorem step_inv {a : MapAct V} (h : m.Inv) (hc : m.Undisturbed a) (hs : m.step a = some m') :
    m'.Inv := by
  unfold step at hs
  rw [if_neg (not_not.mpr h.bug)] at hs
  cases a with
  | add t fd v =>
    simp only at hs
    split at hs
    · rename_i hg
      cases hs
      exact h.start (eq_idle hg.1) hg.2.2 rfl hg.2.1 (fun _ _ => rfl)
        hg.2.1 (by rw [hg.2.1]; rfl) rfl fun _ => trivial
    · cases hs
  | get t fd =>
    simp only at hs
    split at hs
    · rename_i hg
      cases hs
      exact h.goto (eq_idle hg) rfl rfl (fun _ => id) (fun hl => nomatch hl) trivial
    · cases hs
  | delete t fd =>
    simp only at hs
    split at hs
    · rename_i hg
      cases hs
      refine h.start (eq_idle hg.1) hg.2.2 rfl (Function.update_self ..)
        (fun _ hi => Function.update_of_ne hi ..) hg.2.1 ?_ rfl fun _ => trivial
      exact (Option.isSome_iff_ne_none.mpr hg.2.1).symm
    · cases hs
  | next t cap => exact advance_inv h hc hs

/-! ### What is present stays -/

/-- The goroutine of a step. -/
def goroutine : MapAct V → ℕ
  | .add t _ _ => t
  | .get t _ => t
  | .delete t _ => t
  | .next t _ => t

/-- What a step of goroutine `t` leaves alone as to a present `fd`, in every array, and what it does
    in `Get`. -/
structure Frame (m m' : FdMap V) (t fd : ℕ) : Prop where
  arrays : m.arrays ≤ m'.arrays
  cells : ∀ arr, arr < m.arrays → m'.cells arr fd = m.cells arr fd
  present : m'.present fd = m.present fd
  calls : ∀ t', t' ≠ t → m'.calls t' = m.calls t'
  loaded : ∀ fd' fds, m'.calls t = .getElem fd' fds → fds = m.fds
  gets : m'.gets = m.gets ∨ ∃ fd' fds, m.calls t = .getElem fd' fds ∧
    m'.gets = m.gets ++ [(t, fd', if fds.len ≤ fd' then none else m.cells fds.arr fd')]

/-- A step that only grows the arrays and moves its own call, not into `Get`, is a frame for `fd`.
    -/
theorem Frame.quiet (m₁ : FdMap V) {fd : ℕ} (harrays : m.arrays ≤ m₁.arrays)
    (hcells : ∀ arr, arr < m.arrays → m₁.cells arr fd = m.cells arr fd)
    (hpresent : m₁.present fd = m.present fd) (hcalls : m₁.calls = m.calls)
    (hgets : m₁.gets = m.gets)
    (hk : ∀ fd' fds, k ≠ .getElem fd' fds) : Frame m (m₁.setCall t k) t fd where
  arrays := harrays
  cells := hcells
  present := hpresent
  calls := fun t' ht' => (setCall_of_ne _ _ ht').trans (congrFun hcalls t')
  loaded := fun fd' fds h => absurd ((setCall_self ..).symm.trans h) (hk fd' fds)
  gets := .inl hgets

/-- A present fd is in the published array, and no `Add` or `Delete` is working on it. -/
theorem Inv.cell_of_present (h : m.Inv) {fd : ℕ} {v : V} (hp : m.present fd = some v) :
    m.busy fd = none ∧ fd < m.fds.len ∧ m.cells m.fds.arr fd = some v := by
  have hs := h.slot fd
  unfold Slot at hs
  cases hb : m.busy fd with
  | some t =>
    rw [hb, hp] at hs
    cases hs.2.1
  | none =>
    rw [hb, hp] at hs
    simp only [entry] at hs
    split at hs
    · rename_i hlen
      exact ⟨rfl, hlen, hs⟩
    · cases hs

/-- One step of a call leaves a present `fd` alone, in the published array and in those that were
    replaced: another fd is swapped, or the copy has the element. -/
theorem advance_frame {fd cap : ℕ} {v : V} (h : m.Inv) (hp : m.present fd = some v)
    (hbug : m'.bug = none) (hs : m.advance t cap = some m') : Frame m m' t fd := by
  obtain ⟨hbusy, hlen, -⟩ := h.cell_of_present hp
  -- the goroutine works on another fd
  have hother : ∀ fd', (m.calls t).target = some fd' → fd ≠ fd' := by
    rintro fd' htarget rfl
    rw [(h.has t).busy fd htarget] at hbusy
    cases hbusy
  have hfits := (h.has t).fits
  unfold advance at hs
  split at hs
  · cases hs
  · rename_i fd' v' hk
    cases hs
    split
    · exact .quiet m le_rfl (fun _ _ => rfl) rfl rfl rfl fun _ _ => by simp
    · exact .quiet m le_rfl (fun _ _ => rfl) rfl rfl rfl fun _ _ => by simp
  · split at hs
    · cases hs
      exact .quiet { m with mu := some t } le_rfl (fun _ _ => rfl) rfl rfl rfl fun _ _ => by simp
    · cases hs
  · cases hs
    exact .quiet m le_rfl (fun _ _ => rfl) rfl rfl rfl fun _ _ => by simp
  · rename_i fd' v' fds hk
    split at hs
    · obtain ⟨r, hr, rfl⟩ := Option.map_eq_some_iff.mp hs
      rw [hk] at hfits
      obtain ⟨-, hsame, harrays, hcells⟩ := append_spec h.arr hfits hr
      refine .quiet r.1 harrays (fun arr harr => hcells arr fd harr hlen)
        ?_ ?_ ?_ fun _ _ => by simp
      · rw [hsame]
      · rw [hsame]
      · rw [hsame]
    · cases hs
      exact .quiet m le_rfl (fun _ _ => rfl) rfl rfl rfl fun _ _ => by simp
  · rename_i fd' v' fds hk
    cases hs
    exact .quiet { m with fds := fds } le_rfl (fun _ _ => rfl) rfl rfl rfl fun _ _ => by simp
  · cases hs
    exact .quiet { m with mu := none } le_rfl (fun _ _ => rfl) rfl rfl rfl fun _ _ => by simp
  · cases hs
    exact .quiet m le_rfl (fun _ _ => rfl) rfl rfl rfl fun _ _ => by simp
  · rename_i fd' v' fds hk
    have hne := hother fd' (by rw [hk]; rfl)
    split at hs
    · cases hs
      cases hbug
    · split at hs
      · cases hs
        cases hbug
      · cases hs
        exact .quiet (m.setCell fds.arr fd' (some v')) le_rfl
          (fun _ _ => setCell_of_ne m (some v') (.inr hne)) rfl rfl rfl fun _ _ => by simp
  · rename_i fd' v' hk
    have hne := hother fd' (by rw [hk]; rfl)
    cases hs
    exact .quiet { m with
        count := m.count + 1
        present := Function.update m.present fd' (some v')
        busy := Function.update m.busy fd' none } le_rfl (fun _ _ => rfl)
      (Function.update_of_ne hne ..) rfl rfl fun _ _ => by simp
  · rename_i fd' hk
    cases hs
    refine ⟨le_rfl, fun _ _ => rfl, rfl, fun t' ht' => setCall_of_ne _ _ ht',
      fun fd₁ fds₁ heq => ?_, .inl rfl⟩
    rw [setCall_self] at heq
    cases heq
    rfl
  · rename_i fd' fds hk
    cases hs
    refine ⟨le_rfl, fun _ _ => rfl, rfl, fun t' ht' => setCall_of_ne _ _ ht',
      fun fd₁ fds₁ heq => ?_, .inr ⟨fd', fds, hk, rfl⟩⟩
    rw [setCall_self] at heq
    cases heq
  · split at hs
    · cases hs
      exact .quiet { m with mu := some t } le_rfl (fun _ _ => rfl) rfl rfl rfl fun _ _ => by simp
    · cases hs
  · cases hs
    exact .quiet m le_rfl (fun _ _ => rfl) rfl rfl rfl fun _ _ => by simp
  · rename_i fd' fds hk
    have hne := hother fd' (by rw [hk]; rfl)
    split at hs
    · cases hs
      exact .quiet m le_rfl (fun _ _ => rfl) rfl rfl rfl fun _ _ => by simp
    · split at hs
      · cases hs
        cases hbug
      · cases hs
        exact .quiet (m.setCell fds.arr fd' none) le_rfl
          (fun _ _ => setCell_of_ne m none (.inr hne)) rfl rfl rfl fun _ _ => by simp
  · cases hs
    exact .quiet { m with count := m.count - 1 } le_rfl (fun _ _ => rfl)
      rfl rfl rfl fun _ _ => by simp
  · rename_i fd' hk
    cases hs
    exact .quiet { m with mu := none, busy := Function.update m.busy fd' none } le_rfl
      (fun _ _ => rfl) rfl rfl rfl fun _ _ => by simp

/-- Every action but `Delete` of this `fd` leaves a present `fd` alone, in every array. -/
theorem step_frame {a : MapAct V} {fd : ℕ} {v : V} (h : m.Inv) (hc : m.Undisturbed a)
    (hp : m.present fd = some v) (hd : ∀ t, a ≠ .delete t fd) (hs : m.step a = some m') :
    Frame m m' (goroutine a) fd := by
  have hbug := (step_inv h hc hs).bug
  unfold step at hs
  rw [if_neg (not_not.mpr h.bug)] at hs
  cases a with
  | add t fd' v' =>
    simp only at hs
    split at hs
    · cases hs
      exact .quiet { m with busy := Function.update m.busy fd' (some t) }
        le_rfl (fun _ _ => rfl) rfl rfl rfl fun _ _ => by simp
    · cases hs
  | get t fd' =>
    simp only at hs
    split at hs
    · cases hs
      exact .quiet m le_rfl (fun _ _ => rfl) rfl rfl rfl fun _ _ => by simp
    · cases hs
  | delete t fd' =>
    have hne : fd ≠ fd' := fun heq => hd t (by rw [heq])
    simp only at hs
    split at hs
    · cases hs
      exact .quiet { m with
          present := Function.update m.present fd' none
          busy := Function.update m.busy fd' (some t) } le_rfl (fun _ _ => rfl)
        (Function.update_of_ne hne ..) rfl rfl fun _ _ => by simp
    · cases hs
  | next t cap => exact advance_frame h hp hbug hs

/-- **While `fd` is present**, goroutine `t` finds it: `g` are the results of `Get` before. -/
structure Finds (m : FdMap V) (t fd : ℕ) (v : V) (g : List (ℕ × ℕ × Option V)) : Prop where
  inv : m.Inv
  present : m.present fd = some v
  loaded : ∀ fds, m.calls t = .getElem fd fds →
    fd < fds.len ∧ fds.arr < m.arrays ∧ m.cells fds.arr fd = some v
  gets : ∃ new, m.gets = g ++ new ∧ ∀ r, (t, fd, r) ∈ new → r = some v

/-- **One step keeps what `Get` finds**: a `Get` loads an array in which the element stands, or
    reads the element out of one that it has loaded. -/
theorem step_finds {a : MapAct V} {fd : ℕ} {v : V} {g : List (ℕ × ℕ × Option V)}
    (h : m.Finds t fd v g) (hc : m.Undisturbed a) (hd : ∀ t, a ≠ .delete t fd)
    (hs : m.step a = some m') : m'.Finds t fd v g := by
  obtain ⟨-, hlen, hcell⟩ := h.inv.cell_of_present h.present
  have hf := step_frame h.inv hc h.present hd hs
  obtain ⟨new, hnew, hall⟩ := h.gets
  refine ⟨step_inv h.inv hc hs, hf.present.trans h.present, fun fds hk => ?_, ?_⟩
  · by_cases ht : t = goroutine a
    · subst ht
      rw [hf.loaded fd fds hk]
      exact ⟨hlen, lt_of_lt_of_le h.inv.arr hf.arrays, (hf.cells _ h.inv.arr).trans hcell⟩
    · rw [hf.calls t ht] at hk
      obtain ⟨h₁, h₂, h₃⟩ := h.loaded fds hk
      exact ⟨h₁, lt_of_lt_of_le h₂ hf.arrays, (hf.cells _ h₂).trans h₃⟩
  · rcases hf.gets with hg | ⟨fd', fds, hk, hg⟩
    · exact ⟨new, hg.trans hnew, hall⟩
    · refine ⟨new ++ [(goroutine a, fd', if fds.len ≤ fd' then none else m.cells fds.arr fd')],
        by rw [hg, hnew, List.append_assoc], fun r hr => ?_⟩
      rcases List.mem_append.mp hr with hr | hr
      · exact hall r hr
      · rw [List.mem_singleton] at hr
        obtain ⟨ht, hr⟩ := Prod.mk.inj hr
        obtain ⟨hfd, hr⟩ := Prod.mk.inj hr
        obtain ⟨h₁, -, h₃⟩ := h.loaded fds (by rw [ht, hfd]; exact hk)
        rw [hr, ← hfd, if_neg (not_le.mpr h₁), h₃]

/-- **No entry is lost.**  In every run whose `Add`s swap into an array that is published and not
    copied: no call panics; when no call is in progress the counter is the number of present fds;
    and while an fd is present, up to the start of its `Delete`, every `Get` of it returns its
    value. -/
theorem entries_kept (as : List (MapAct V)) (m : FdMap V)
    (hm : Meets step Undisturbed ({} : FdMap V) as)
    (hr : Resh.run step ({} : FdMap V) as = some m) : m.bug = none ∧
      ((∀ t, m.calls t = .idle) →
        ∃ l : Finset ℕ, (∀ fd, fd ∈ l ↔ m.present fd ≠ none) ∧ m.count = l.card) ∧
      ∀ (t fd : ℕ) (v : V) (as' : List (MapAct V)) (m' : FdMap V), m.present fd = some v →
        m.calls t = .idle → (∀ t', MapAct.delete t' fd ∉ as') → Meets step Undisturbed m as' →
        Resh.run step m as' = some m' →
        ∃ new, m'.gets = m.gets ++ new ∧ ∀ r, (t, fd, r) ∈ new → r = some v := by
  have hinv : m.Inv := run_invariant (fun _ _ _ => step_inv) init_inv hm hr
  refine ⟨hinv.bug, fun hidle => ?_, fun t fd v as' m' hp hidle hd hm' hr' => ?_⟩
  · obtain ⟨l, hl, hcard⟩ := hinv.count
    refine ⟨l, fun fd => ?_, hcard⟩
    rw [hl fd, counted]
    cases hb : m.busy fd with
    | none => exact Option.isSome_iff_ne_none
    | some t =>
      have hs := hinv.slot fd
      unfold Slot at hs
      rw [hb] at hs
      have htarget := hs.1
      rw [hidle t] at htarget
      cases htarget
  · have hstart : m.Finds t fd v m.gets :=
      ⟨hinv, hp, (fun fds hk => by rw [hidle] at hk; cases hk), [], by simp, by simp⟩
    have hmd := hm'.and_mem (q := fun a => ∀ t', a ≠ .delete t' fd) fun a ha t' heq =>
      hd t' (heq ▸ ha)
    exact (run_invariant (fun _ _ _ h hcond => step_finds h hcond.1 hcond.2) hstart hmd hr').gets

/-- `Add(3, 7)` on the empty map, up to its swap: the slice grows to four elements, with the
    capacities 1, 2, 4. -/
def addThree : List (MapAct ℕ) :=
  [.add 0 3 7, .next 0 0, .next 0 0, .next 0 0, .next 0 1, .next 0 2,
    .next 0 4, .next 0 0, .next 0 0, .next 0 0, .next 0 0, .next 0 0]

/-- The whole of `Add(5, 8)` by another goroutine, which needs a larger array. -/
def addFive : List (MapAct ℕ) :=
  [.add 1 5 8, .next 1 0, .next 1 0, .next 1 0, .next 1 8, .next 1 0,
    .next 1 0, .next 1 0, .next 1 0, .next 1 0, .next 1 0, .next 1 0]

/-- The end of `Add(3, 7)`. -/
def endThree : List (MapAct ℕ) := [.next 0 0, .next 0 0]

/-- The second `Add` comes after the first one. -/
theorem entries_kept_in_turn :
    ∃ m m', Resh.run step {} (addThree ++ endThree ++ addFive) = some m ∧ m.bug = none ∧
      Resh.run step m [.get 2 3, .next 2 0, .next 2 0] = some m' ∧
      ∃ new, m'.gets = m.gets ++ new ∧ new ≠ [] ∧ ∀ r, (2, 3, r) ∈ new → r = some 7 := by
  obtain ⟨hbug, -, hget⟩ := entries_kept (addThree ++ endThree ++ addFive) _ (by decide +kernel) rfl
  obtain ⟨new, hnew, hall⟩ := hget 2 3 7 [.get 2 3, .next 2 0, .next 2 0] _ rfl rfl (by simp)
    (by decide +kernel) rfl
  refine ⟨_, _, rfl, hbug, rfl, new, hnew, ?_, hall⟩
  rintro rfl
  exact absurd (congrArg List.length hnew) (by decide +kernel)

/-- **The second `Add` comes between the load and the swap of the first one**, which then swaps its
    element into the array that has been copied.  `Add(3, 7)` returns, but `Get(3)` returns nil and
    `Delete(3)` panics. -/
theorem grown_array_loses :
    ∃ m m', Resh.run step {} (addThree ++ addFive ++ endThree) = some m ∧ m.present 3 = some 7 ∧
      Resh.run step m [.get 2 3, .next 2 0, .next 2 0, .delete 2 3, .next 2 0, .next 2 0, .next 2 0]
        = some m' ∧ m'.gets = [(2, 3, none)] ∧ m'.bug = some (.delete 3) := by
  have hrun : ∃ m ∈ Resh.run step ({} : FdMap ℕ) (addThree ++ addFive ++ endThree),
      m.present 3 = some 7 ∧
      ∃ m' ∈ Resh.run step m
        [.get 2 3, .next 2 0, .next 2 0, .delete 2 3, .next 2 0, .next 2 0, .next 2 0],
        m'.gets = [(2, 3, none)] ∧ m'.bug = some (.delete 3) := by
    decide +kernel
  obtain ⟨m, hm, hpresent, m', hm', hgets, hbug⟩ := hrun
  exact ⟨m, m', hm, hpresent, hm', hgets, hbug⟩

end FdMap

end Resh.Client.Concurrent
