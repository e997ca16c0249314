import Mathlib

/-! Lists that are built from the number of times each key occurs. -/

namespace DataStructure.Tally

variable {α : Type*}

def spread (keys : List α) (tally : α → Nat) : List α :=
  keys.flatMap fun key => List.replicate (tally key) key

variable {keys : List α} {tally : α → Nat}

theorem mem_spread {key : α} : key ∈ spread keys tally ↔ key ∈ keys ∧ 0 < tally key := by
  rw [spread, List.mem_flatMap]
  constructor
  · intro member
    obtain ⟨k, known, here⟩ := member
    obtain ⟨positive, same⟩ := List.mem_replicate.1 here
    subst same
    exact ⟨known, Nat.pos_of_ne_zero positive⟩
  · intro occurs
    exact ⟨key, occurs.1, List.mem_replicate.2 ⟨occurs.2.ne', rfl⟩⟩

theorem pairwise_spread {R : α → α → Prop} (reflexive : ∀ a, R a a) (order : keys.Pairwise R) :
    (spread keys tally).Pairwise R := by
  rw [spread, List.pairwise_flatMap]
  constructor
  · intro key _
    exact List.pairwise_replicate.2 (.inr (reflexive key))
  · refine order.imp ?_
    intro a b less x here y there
    rw [List.eq_of_mem_replicate here, List.eq_of_mem_replicate there]
    exact less

variable [DecidableEq α]

theorem count_spread (distinct : keys.Nodup) (key : α) (known : key ∈ keys) :
    (spread keys tally).count key = tally key := by
  induction keys with
  | nil => exact absurd known List.not_mem_nil
  | cons head keys ih =>
      obtain ⟨fresh, rest⟩ := List.nodup_cons.1 distinct
      have split : spread (head :: keys) tally =
          List.replicate (tally head) head ++ spread keys tally := List.flatMap_cons
      rw [split, List.count_append, List.count_replicate]
      rcases List.mem_cons.1 known with first | later
      · subst first
        have absent : (spread keys tally).count key = 0 := by
          apply List.count_eq_zero_of_not_mem
          intro member
          exact fresh (mem_spread.1 member).1
        rw [absent, beq_self_eq_true, if_pos rfl, Nat.add_zero]
      · have other : (head == key) = false := by
          apply beq_false_of_ne
          intro same
          rw [same] at fresh
          exact fresh later
        rw [other, if_neg Bool.false_ne_true, Nat.zero_add]
        exact ih rest later

theorem eq_spread {R : α → α → Prop} (reflexive : ∀ a, R a a)
    (antisymmetric : ∀ a b, R a b → R b a → a = b) (order : keys.Pairwise R)
    (distinct : keys.Nodup) (all : ∀ key, key ∈ keys) {xs : List α} (sorted : xs.Pairwise R)
    (counts : ∀ key, xs.count key = tally key) : xs = spread keys tally := by
  have perm : xs.Perm (spread keys tally) := by
    rw [List.perm_iff_count]
    intro key
    rw [counts key, count_spread distinct key (all key)]
  exact perm.eq_of_pairwise (fun a b _ _ => antisymmetric a b) sorted
    (pairwise_spread reflexive order)

end DataStructure.Tally
