import Mathlib

/-! Reference counts against the references there are.

`refs a` is how many references to object `a` exist, `count a` what the object itself says; an
object without references has been freed and has no count. -/

namespace DataStructure.RefCount

variable {α : Type} [DecidableEq α]

def tally : Nat → Option Nat
  | 0 => none
  | n + 1 => some (n + 1)

def Tallied (count : α → Option Nat) (refs : α → Nat) : Prop :=
  ∀ a, count a = tally (refs a)

omit [DecidableEq α] in
theorem Tallied.congr {count : α → Option Nat} {refs refs' : α → Nat}
    (tallied : Tallied count refs) (same : ∀ a, refs' a = refs a) : Tallied count refs' := by
  intro a
  rw [same a]
  exact tallied a

theorem Tallied.update {count : α → Option Nat} {refs : α → Nat} (tallied : Tallied count refs)
    (refs' : α → Nat) (a : α) (n : Nat) (here : refs' a = n)
    (others : ∀ b, b ≠ a → refs' b = refs b) :
    Tallied (Function.update count a (tally n)) refs' := by
  intro b
  by_cases self : b = a
  · rw [self, Function.update_self, here]
  · rw [Function.update_of_ne self, others b self]
    exact tallied b

omit [DecidableEq α] in
theorem Tallied.some_iff {count : α → Option Nat} {refs : α → Nat} (tallied : Tallied count refs)
    (a : α) (n : Nat) : count a = some n ↔ 0 < n ∧ refs a = n := by
  rw [tallied a]
  cases refs a with
  | zero =>
      simp only [tally, reduceCtorEq, false_iff]
      omega
  | succ m =>
      simp only [tally, Option.some.injEq]
      omega

end DataStructure.RefCount
