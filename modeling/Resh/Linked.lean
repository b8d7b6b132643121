import Mathlib.Data.List.Basic

namespace Resh

/-!
# Linked nodes

Nodes that point to a next node or to none.  `Linked next p l` says that whoever follows the
pointers from `p` comes through the nodes `l`, in this order, and then to the end; so the chain is
finite, and it is not cyclic if `l` has no duplicates.
-/

variable {ν : Type}

/-- From `p` one comes through `l` and to the end. -/
def Linked (next : ν → Option ν) : Option ν → List ν → Prop
  | p, [] => p = none
  | p, n :: l => p = some n ∧ Linked next (next n) l

variable {next next' : ν → Option ν} {p : Option ν} {l : List ν}

/-- Only the pointers of the nodes of the chain matter. -/
theorem Linked.congr (h : Linked next p l) (heq : ∀ n ∈ l, next' n = next n) :
    Linked next' p l := by
  induction l generalizing p with
  | nil => exact h
  | cons n l ih =>
    refine ⟨h.1, ?_⟩
    rw [heq n List.mem_cons_self]
    exact ih h.2 fun m hm => heq m (List.mem_cons_of_mem n hm)

theorem Linked.eq_nil (h : Linked next none l) : l = [] := by
  cases l with
  | nil => rfl
  | cons n l => cases h.1

theorem Linked.exists_cons {n : ν} (h : Linked next (some n) l) :
    ∃ m, l = n :: m ∧ Linked next (next n) m := by
  cases l with
  | nil => cases h
  | cons k m =>
    obtain ⟨hk, hm⟩ := h
    cases hk
    exact ⟨m, rfl, hm⟩

end Resh
