import Mathlib

/-! Singly linked lists in a heap.

`Linked next heap p as` says that following `next` from `p` visits the addresses `as` and
ends with the null pointer. -/

namespace DataStructure.Chain

variable {N : Type} (next : N → Option Nat)

def Linked (heap : Nat → Option N) : Option Nat → List Nat → Prop
  | p, [] => p = none
  | p, a :: as => p = some a ∧ ∃ cell, heap a = some cell ∧ Linked heap (next cell) as

variable {next} {heap : Nat → Option N} {p : Option Nat} {as : List Nat}

theorem linked_unique {bs : List Nat} (first : Linked next heap p as)
    (second : Linked next heap p bs) : as = bs := by
  induction as generalizing p bs with
  | nil =>
      cases bs with
      | nil => rfl
      | cons b bs => exact absurd (first.symm.trans second.1) (by simp)
  | cons a as ih =>
      cases bs with
      | nil => exact absurd (second.symm.trans first.1) (by simp)
      | cons b bs =>
          obtain ⟨here, cell, stored, rest⟩ := first
          obtain ⟨here', cell', stored', rest'⟩ := second
          cases here.symm.trans here'
          cases stored.symm.trans stored'
          rw [ih rest rest']

theorem linked_stored (linked : Linked next heap p as) {a : Nat} (inside : a ∈ as) :
    ∃ cell, heap a = some cell := by
  induction as generalizing p with
  | nil => cases inside
  | cons b as ih =>
      obtain ⟨_, cell, stored, rest⟩ := linked
      cases inside with
      | head => exact ⟨cell, stored⟩
      | tail _ deeper => exact ih rest deeper

theorem linked_split (linked : Linked next heap p as) {a : Nat} (inside : a ∈ as) :
    ∃ before after, as = before ++ a :: after ∧ Linked next heap (some a) (a :: after) := by
  induction as generalizing p with
  | nil => cases inside
  | cons b as ih =>
      cases inside with
      | head => exact ⟨[], as, rfl, rfl, linked.2⟩
      | tail _ deeper =>
          obtain ⟨_, cell, _, rest⟩ := linked
          obtain ⟨before, after, split, further⟩ := ih rest deeper
          exact ⟨b :: before, after, by rw [split]; rfl, further⟩

theorem linked_nodup (linked : Linked next heap p as) : as.Nodup := by
  induction as generalizing p with
  | nil => exact List.nodup_nil
  | cons a as ih =>
      obtain ⟨here, cell, stored, rest⟩ := linked
      refine List.nodup_cons.2 ⟨?_, ih rest⟩
      intro again
      -- a second visit would be followed by as much as the first
      obtain ⟨before, after, split, further⟩ := linked_split rest again
      have whole : Linked next heap (some a) (a :: as) := ⟨rfl, cell, stored, rest⟩
      have same := linked_unique whole further
      have lengths := congrArg List.length (List.cons.inj same).2
      rw [split] at lengths
      simp at lengths
      omega

theorem linked_onward (linked : Linked next heap p as) {a b : Nat} {cell : N} (inside : a ∈ as)
    (stored : heap a = some cell) (onward : next cell = some b) : b ∈ as := by
  obtain ⟨before, after, split, _, cell', stored', rest⟩ := linked_split linked inside
  cases stored.symm.trans stored'
  cases after with
  | nil => exact absurd (rest.symm.trans onward) (by simp)
  | cons c after =>
      cases rest.1.symm.trans onward
      simp [split]

theorem linked_last (linked : Linked next heap p as) {a : Nat} {cell : N} (inside : a ∈ as)
    (stored : heap a = some cell) (last : next cell = none) : ∃ before, as = before ++ [a] := by
  obtain ⟨before, after, split, _, cell', stored', rest⟩ := linked_split linked inside
  cases stored.symm.trans stored'
  cases after with
  | nil => exact ⟨before, split⟩
  | cons c after => exact absurd (last.symm.trans rest.1) (by simp)

theorem linked_frame (linked : Linked next heap p as) {a : Nat} (outside : a ∉ as)
    (cell : Option N) : Linked next (Function.update heap a cell) p as := by
  induction as generalizing p with
  | nil => exact linked
  | cons b as ih =>
      obtain ⟨here, found, stored, rest⟩ := linked
      rw [List.mem_cons, not_or] at outside
      refine ⟨here, found, ?_, ih rest outside.2⟩
      rw [Function.update_of_ne (Ne.symm outside.1), stored]

theorem linked_snoc {last a : Nat} {cell : N} (linked : Linked next heap p (as ++ [last]))
    (outside : a ∉ as ++ [last]) {fresh : N} (stored : heap a = some fresh)
    (ends : next fresh = none) (extended : next cell = some a) :
    Linked next (Function.update heap last (some cell)) p (as ++ [last, a]) := by
  have distinct := linked_nodup linked
  induction as generalizing p with
  | nil =>
      have apart : a ≠ last := by simpa using outside
      refine ⟨linked.1, cell, Function.update_self .., extended, fresh, ?_, ends⟩
      rw [Function.update_of_ne apart, stored]
  | cons b as ih =>
      obtain ⟨here, found, kept, rest⟩ := linked
      simp only [List.cons_append, List.mem_cons, not_or, List.nodup_cons] at outside distinct
      have apart : b ≠ last := by
        rintro rfl
        exact distinct.1 (by simp)
      refine ⟨here, found, ?_, ih rest outside.2 distinct.2⟩
      rw [Function.update_of_ne apart, kept]

end DataStructure.Chain
