import Mathlib.Data.List.Induction
import Mathlib.Tactic.Common

namespace Resh.RoundRobin

/-!
# Dealing in turn

A counter goes up with every element, and the element goes to the receiver that the counter leaves
as its rest.

* `deal` — what one receiver gets;
* `length_deal` — the receivers get the same number of elements, or one more.
-/

variable {α : Type*}

/-- What the receiver `i` of `n` gets of a list: the elements whose number, from 1 on, leaves the
    rest `i`. -/
def deal (n i : ℕ) (xs : List α) : List α :=
  (xs.zipIdx 1).filterMap fun p => if p.2 % n = i then some p.1 else none

theorem deal_nil (n i : ℕ) : deal n i ([] : List α) = [] := rfl

theorem deal_concat (n i : ℕ) (xs : List α) (x : α) :
    deal n i (xs ++ [x]) = deal n i xs ++ if (xs.length + 1) % n = i then [x] else [] := by
  unfold deal
  rw [List.zipIdx_append, List.filterMap_append, Nat.add_comm 1 xs.length]
  congr 1
  by_cases h : (xs.length + 1) % n = i
  · simp [h]
  · simp [h]

/-- The next element changes the quotient and the rest of the number of elements. -/
theorem succ_div_mod (m : ℕ) {n : ℕ} (hn : 0 < n) :
    (m % n + 1 = n ∧ (m + 1) / n = m / n + 1 ∧ (m + 1) % n = 0) ∨
      (m % n + 1 < n ∧ (m + 1) / n = m / n ∧ (m + 1) % n = m % n + 1) := by
  have hlt := Nat.mod_lt m hn
  have hsum := Nat.mod_add_div m n
  rcases Nat.lt_or_ge (m % n + 1) n with h | h
  · obtain ⟨hdiv, hmod⟩ := (Nat.div_mod_unique hn).mpr
      ⟨show m % n + 1 + n * (m / n) = m + 1 by omega, h⟩
    exact .inr ⟨h, hdiv, hmod⟩
  · have hfull : 0 + n * (m / n + 1) = m + 1 := by
      rw [Nat.mul_add, Nat.mul_one]
      omega
    obtain ⟨hdiv, hmod⟩ := (Nat.div_mod_unique hn).mpr ⟨hfull, hn⟩
    exact .inl ⟨by omega, hdiv, hmod⟩

/-- **Fair shares.**  Whoever the current round has come to has one more than the others; the
    receiver 0 is the last one of a round. -/
theorem length_deal {n i : ℕ} (hi : i < n) (xs : List α) :
    (deal n i xs).length = xs.length / n + if 1 ≤ i ∧ i ≤ xs.length % n then 1 else 0 := by
  have hn : 0 < n := Nat.zero_lt_of_lt hi
  induction xs using List.reverseRecOn with
  | nil =>
    rw [deal_nil, List.length_nil, Nat.zero_div, Nat.zero_mod, if_neg (by omega)]
  | append_singleton xs x ih =>
    rw [deal_concat, List.length_append, ih, List.length_append, List.length_singleton]
    obtain ⟨hlast, hdiv, hmod⟩ | ⟨hmid, hdiv, hmod⟩ := succ_div_mod xs.length hn
    · -- the last one of a round
      rw [hdiv, hmod]
      by_cases h0 : i = 0
      · rw [if_neg (by omega), if_pos h0.symm, if_neg (by omega), List.length_singleton]
      · rw [if_pos (by omega), if_neg (Ne.symm h0), if_neg (by omega), List.length_nil]
    · rw [hdiv, hmod]
      by_cases hlt : 1 ≤ i ∧ i ≤ xs.length % n
      · rw [if_pos hlt, if_neg (by omega), if_pos (by omega), List.length_nil]
      · by_cases heq : xs.length % n + 1 = i
        · rw [if_neg hlt, if_pos heq, if_pos (by omega), List.length_singleton]
        · rw [if_neg hlt, if_neg heq, if_neg (by omega), List.length_nil]

end Resh.RoundRobin
