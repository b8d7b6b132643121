import Mathlib.Data.List.Chain
import Mathlib.Data.List.Nodup
import Mathlib.Logic.Function.Basic

namespace Resh

/-!
# Doubly linked nodes

Nodes that point to a next and to a previous node.  `Joined next prev l` says that the pointers
run through the nodes `l` in both directions.

* `Joined.insertAfter` — a node is put behind the first one;
* `Joined.unlink` — a node that is neither the first nor the last is taken out;
* `Joined.prev_mem` — from a node that is not the first, `prev` leads to one before it.
-/

variable {ν : Type}

/-- The pointers run through `l`, forward with `next` and backward with `prev`. -/
def Joined (next prev : ν → ν) (l : List ν) : Prop :=
  l.IsChain fun p q => next p = q ∧ prev q = p

variable {next prev next' prev' : ν → ν} {l k m : List ν} {a b c : ν}

theorem Joined.forward (h : Joined next prev l) : l.IsChain fun p q => next p = q :=
  h.imp fun _ _ hpq => hpq.1

theorem Joined.backward (h : Joined next prev l) : l.reverse.IsChain fun p q => prev p = q :=
  List.isChain_reverse.2 (h.imp fun _ _ hpq => hpq.2)

/-- Only the pointers between the nodes matter: `next` of all but the last, `prev` of all but the
    first. -/
theorem Joined.congr (h : Joined next prev l) (hnext : ∀ p ∈ l.dropLast, next' p = next p)
    (hprev : ∀ q ∈ l.tail, prev' q = prev q) : Joined next' prev' l := by
  -- two nodes are split off at a time: a pair is what the pointers join
  induction l with
  | nil => exact .nil
  | cons p l ih =>
    cases l with
    | nil => exact .singleton p
    | cons q l =>
      obtain ⟨⟨hp, hq⟩, hrest⟩ := List.isChain_cons_cons.1 h
      refine List.isChain_cons_cons.2 ⟨⟨?_, ?_⟩, ?_⟩
      · rw [hnext p (by simp), hp]
      · rw [hprev q (by simp), hq]
      · refine ih hrest (fun r hr => hnext r ?_) fun r hr => hprev r ?_
        · rw [List.dropLast_cons_cons]
          exact List.mem_cons_of_mem p hr
        · exact List.mem_cons_of_mem q hr

/-! ### Inserting and taking out -/

variable [DecidableEq ν]

/-- `c` goes between the first two nodes. -/
theorem Joined.insert_between (h : Joined next prev (a :: b :: l)) (hnodup : (a :: b :: l).Nodup)
    (hc : c ∉ a :: b :: l) :
    Joined (Function.update (Function.update next c (next a)) a c)
      (Function.update (Function.update prev (next a) c) c a) (a :: c :: b :: l) := by
  obtain ⟨⟨hab, -⟩, hrest⟩ := List.isChain_cons_cons.1 h
  obtain ⟨hca, hcbl⟩ := List.ne_and_not_mem_of_not_mem_cons hc
  obtain ⟨hcb, hcl⟩ := List.ne_and_not_mem_of_not_mem_cons hcbl
  obtain ⟨habl, hbl⟩ := List.nodup_cons.1 hnodup
  refine List.isChain_cons_cons.2 ⟨⟨?_, ?_⟩, List.isChain_cons_cons.2 ⟨⟨?_, ?_⟩, ?_⟩⟩
  · rw [Function.update_self]
  · rw [Function.update_self]
  · rw [Function.update_of_ne hca, Function.update_self, hab]
  · rw [Function.update_of_ne hcb.symm, hab, Function.update_self]
  · refine Joined.congr hrest (fun p hp => ?_) fun q hq => ?_
    · have hmem : p ∈ b :: l := List.dropLast_subset _ hp
      rw [Function.update_of_ne (ne_of_mem_of_not_mem hmem habl),
        Function.update_of_ne (ne_of_mem_of_not_mem hmem hcbl)]
    · have hmem : q ∈ l := hq
      rw [Function.update_of_ne (ne_of_mem_of_not_mem hmem hcl), hab,
        Function.update_of_ne (ne_of_mem_of_not_mem hmem (List.nodup_cons.1 hbl).1)]

/-- `c` goes behind the first node `a`. -/
theorem Joined.insertAfter (h : Joined next prev (a :: l)) (hnodup : (a :: l).Nodup)
    (hl : l ≠ []) (hc : c ∉ a :: l) :
    Joined (Function.update (Function.update next c (next a)) a c)
      (Function.update (Function.update prev (next a) c) c a) (a :: c :: l) := by
  obtain ⟨b, l, rfl⟩ := List.exists_cons_of_ne_nil hl
  exact h.insert_between hnodup hc

/-- `c` is taken out from between `a` and `b`. -/
theorem Joined.unlink_between (h : Joined next prev (k ++ a :: c :: b :: m))
    (hnodup : (k ++ a :: c :: b :: m).Nodup) :
    Joined (Function.update next (prev c) (next c)) (Function.update prev (next c) (prev c))
      (k ++ a :: b :: m) := by
  obtain ⟨hleft, ⟨-, hpc⟩, hright⟩ := List.isChain_append_cons_cons.1 h
  obtain ⟨⟨hnc, -⟩, hright⟩ := List.isChain_cons_cons.1 hright
  obtain ⟨-, hright', hdisj⟩ := List.nodup_append.1 hnodup
  have hka : a ∉ k := fun ha => hdisj a ha a (by simp) rfl
  have hkb : b ∉ k := fun hb => hdisj b hb b (by simp) rfl
  simp only [List.nodup_cons, List.mem_cons, not_or] at hright'
  obtain ⟨⟨-, hab, ham⟩, -, hbm, -⟩ := hright'
  rw [hpc, hnc]
  -- only `next a` and `prev b` change, and neither is read on the left of `a` or on the right of
  -- `b`
  refine List.isChain_append_cons_cons.2 ⟨?_, ⟨?_, ?_⟩, ?_⟩
  · refine Joined.congr hleft (fun p hp => ?_) fun q hq => ?_
    · rw [List.dropLast_concat] at hp
      exact Function.update_of_ne (ne_of_mem_of_not_mem hp hka) _ _
    · have hb : b ∉ k ++ [a] := by simp [hkb, Ne.symm hab]
      exact Function.update_of_ne (ne_of_mem_of_not_mem (List.mem_of_mem_tail hq) hb) _ _
  · rw [Function.update_self]
  · rw [Function.update_self]
  · refine Joined.congr hright (fun p hp => ?_) fun q hq => ?_
    · have ha : a ∉ b :: m := by simp [hab, ham]
      exact Function.update_of_ne (ne_of_mem_of_not_mem (List.dropLast_subset _ hp) ha) _ _
    · have hmem : q ∈ m := hq
      exact Function.update_of_ne (ne_of_mem_of_not_mem hmem hbm) _ _

omit [DecidableEq ν] in
theorem Joined.prev_mem (h : Joined next prev (k ++ c :: m)) (hk : k ≠ []) : prev c ∈ k := by
  obtain ⟨k, a, rfl⟩ := (List.eq_nil_or_concat' k).resolve_left hk
  rw [List.append_assoc, List.singleton_append] at h
  obtain ⟨-, ⟨-, hprev⟩, -⟩ := List.isChain_append_cons_cons.1 h
  simp [hprev]

/-- `c` is taken out. -/
theorem Joined.unlink (h : Joined next prev (k ++ c :: m)) (hnodup : (k ++ c :: m).Nodup)
    (hk : k ≠ []) (hm : m ≠ []) :
    Joined (Function.update next (prev c) (next c)) (Function.update prev (next c) (prev c))
      (k ++ m) := by
  obtain ⟨k, a, rfl⟩ := (List.eq_nil_or_concat' k).resolve_left hk
  obtain ⟨b, m, rfl⟩ := List.exists_cons_of_ne_nil hm
  rw [List.append_assoc, List.singleton_append] at h hnodup ⊢
  exact h.unlink_between hnodup

end Resh
