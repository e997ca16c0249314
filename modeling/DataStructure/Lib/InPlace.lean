import Mathlib

/-! Arrays that are sorted in place by exchanges of two cells. -/

namespace DataStructure.InPlace

/-- Exchange two cells; `none` for an access outside the array. -/
def exchange {α : Type*} (arr : List α) (i j : Nat) : Option (List α) := do
  let first ← arr[i]?
  let second ← arr[j]?
  some ((arr.set i second).set j first)

def Moves {α : Type*} (lo hi : Nat) (a b : Nat → α) : Prop :=
  ∃ σ : Equiv.Perm Nat, (∀ k, k < lo ∨ hi ≤ k → σ k = k) ∧ b = a ∘ σ

def MovesOn {α : Type*} (part : Set Nat) (a b : Nat → α) : Prop :=
  ∃ σ : Equiv.Perm Nat, (∀ k, k ∉ part → σ k = k) ∧ b = a ∘ σ

section Moves

variable {α : Type*} {lo hi : Nat} {part : Set Nat} {a b c : Nat → α}

theorem MovesOn.refl (part : Set Nat) (a : Nat → α) : MovesOn part a a :=
  ⟨Equiv.refl Nat, fun _ _ => rfl, rfl⟩

theorem MovesOn.trans (first : MovesOn part a b) (second : MovesOn part b c) : MovesOn part a c := by
  obtain ⟨σ, fixed, rfl⟩ := first
  obtain ⟨τ, kept, rfl⟩ := second
  refine ⟨τ.trans σ, ?_, rfl⟩
  intro k outside
  rw [Equiv.trans_apply, kept k outside, fixed k outside]

theorem MovesOn.mono {wider : Set Nat} (moves : MovesOn part a b) (inner : part ⊆ wider) :
    MovesOn wider a b := by
  obtain ⟨σ, fixed, moved⟩ := moves
  refine ⟨σ, ?_, moved⟩
  intro k outside
  exact fixed k (fun inside => outside (inner inside))

theorem movesOn_swap {i j : Nat} (first : i ∈ part) (second : j ∈ part) :
    MovesOn part a (a ∘ Equiv.swap i j) := by
  refine ⟨Equiv.swap i j, ?_, rfl⟩
  intro k outside
  apply Equiv.swap_apply_of_ne_of_ne
  · exact fun same => outside (same ▸ first)
  · exact fun same => outside (same ▸ second)

theorem MovesOn.outside (moves : MovesOn part a b) {k : Nat} (out : k ∉ part) : b k = a k := by
  obtain ⟨σ, fixed, rfl⟩ := moves
  rw [Function.comp_apply, fixed k out]

theorem MovesOn.inside (moves : MovesOn part a b) {k : Nat} (inner : k ∈ part) :
    ∃ u ∈ part, b k = a u := by
  obtain ⟨σ, fixed, rfl⟩ := moves
  refine ⟨σ k, ?_, rfl⟩
  by_contra out
  have same : σ k = k := σ.injective (fixed (σ k) out)
  rw [same] at out
  exact out inner

theorem moves_iff : Moves lo hi a b ↔ MovesOn {k | lo ≤ k ∧ k < hi} a b := by
  have split (k : Nat) : k < lo ∨ hi ≤ k ↔ k ∉ {k | lo ≤ k ∧ k < hi} := by
    rw [Set.mem_ofPred_eq]
    omega
  simp only [Moves, MovesOn, split]

theorem Moves.refl (lo hi : Nat) (a : Nat → α) : Moves lo hi a a := moves_iff.2 (MovesOn.refl _ a)

theorem Moves.trans (first : Moves lo hi a b) (second : Moves lo hi b c) : Moves lo hi a c :=
  moves_iff.2 ((moves_iff.1 first).trans (moves_iff.1 second))

theorem Moves.widen {lo' hi' : Nat} (moves : Moves lo hi a b) (lower : lo' ≤ lo)
    (upper : hi ≤ hi') : Moves lo' hi' a b := by
  apply moves_iff.2
  apply (moves_iff.1 moves).mono
  intro k inside
  exact ⟨lower.trans inside.1, inside.2.trans_le upper⟩

theorem moves_swap {i j : Nat} (first : lo ≤ i ∧ i < hi) (second : lo ≤ j ∧ j < hi) :
    Moves lo hi a (a ∘ Equiv.swap i j) :=
  moves_iff.2 (movesOn_swap first second)

theorem Moves.outside (moves : Moves lo hi a b) {k : Nat} (out : k < lo ∨ hi ≤ k) :
    b k = a k := by
  apply (moves_iff.1 moves).outside
  rw [Set.mem_ofPred_eq]
  omega

theorem Moves.inside (moves : Moves lo hi a b) {k : Nat} (inner : lo ≤ k ∧ k < hi) :
    ∃ u, lo ≤ u ∧ u < hi ∧ b k = a u := by
  obtain ⟨u, ⟨above, below⟩, held⟩ := (moves_iff.1 moves).inside inner
  exact ⟨u, above, below, held⟩

end Moves

section Cells

variable {α : Type*} [Inhabited α]

def cell (arr : List α) (i : Nat) : α := arr.getD i default

theorem getElem?_eq_cell {arr : List α} {i : Nat} (inside : i < arr.length) :
    arr[i]? = some (cell arr i) := by
  rw [cell, List.getD_eq_getElem?_getD, List.getElem?_eq_getElem inside, Option.getD_some]

theorem getElem?_congr {arr arr' : List α} {i : Nat} (length : arr'.length = arr.length)
    (same : cell arr' i = cell arr i) : arr'[i]? = arr[i]? := by
  by_cases inside : i < arr.length
  · rw [getElem?_eq_cell (length ▸ inside), getElem?_eq_cell inside, same]
  · rw [List.getElem?_eq_none (by omega), List.getElem?_eq_none (by omega)]

/-- `after` is `before` with the cells `lo` to `hi - 1` permuted. -/
structure Rearranged (lo hi : Nat) (before after : List α) : Prop where
  perm : after.Perm before
  moves : Moves lo hi (cell before) (cell after)

theorem Rearranged.refl (lo hi : Nat) (arr : List α) : Rearranged lo hi arr arr :=
  ⟨List.Perm.refl arr, Moves.refl lo hi (cell arr)⟩

theorem Rearranged.trans {lo hi : Nat} {x y z : List α} (first : Rearranged lo hi x y)
    (second : Rearranged lo hi y z) : Rearranged lo hi x z :=
  ⟨second.perm.trans first.perm, first.moves.trans second.moves⟩

theorem Rearranged.widen {lo hi lo' hi' : Nat} {x y : List α} (change : Rearranged lo hi x y)
    (lower : lo' ≤ lo) (upper : hi ≤ hi') : Rearranged lo' hi' x y :=
  ⟨change.perm, change.moves.widen lower upper⟩

theorem Rearranged.length_eq {lo hi : Nat} {x y : List α} (change : Rearranged lo hi x y) :
    y.length = x.length :=
  change.perm.length_eq

theorem exchange_spec {arr : List α} {i j : Nat} (first : i < arr.length)
    (second : j < arr.length) :
    ∃ arr', exchange arr i j = some arr' ∧ arr'.Perm arr ∧
      cell arr' = cell arr ∘ Equiv.swap i j := by
  refine ⟨(arr.set i (cell arr j)).set j (cell arr i), ?_, ?_, ?_⟩
  · rw [exchange, getElem?_eq_cell first, getElem?_eq_cell second]
    rfl
  · have here : cell arr i = arr[i] := List.getD_eq_getElem arr default first
    have there : cell arr j = arr[j] := List.getD_eq_getElem arr default second
    rw [here, there]
    exact List.set_set_perm first second
  · funext k
    rw [Function.comp_apply, Equiv.swap_apply_def]
    simp only [cell, List.getD_eq_getElem?_getD, List.getElem?_set, List.length_set]
    grind

theorem sortedLE_of_cells {α : Type*} [Inhabited α] [Preorder α] {arr : List α}
    (order : ∀ p q, p < q → q < arr.length → cell arr p ≤ cell arr q) : arr.SortedLE := by
  apply List.Pairwise.sortedLE
  rw [List.pairwise_iff_getElem]
  intro p q before inside less
  have ordered := order p q less inside
  rw [cell, cell, List.getD_eq_getElem arr default before,
    List.getD_eq_getElem arr default inside] at ordered
  exact ordered

end Cells

section Settled

variable {α : Type*} [LinearOrder α] {n : Nat} {a b : Nat → α}

def SettledBelow (i n : Nat) (a : Nat → α) : Prop :=
  ∀ p q, p < i → p < q → q < n → a p ≤ a q

def SettledFrom (i n : Nat) (a : Nat → α) : Prop :=
  ∀ p q, p < q → i ≤ q → q < n → a p ≤ a q

/-- Bringing the least of the other cells to the front settles one more. -/
theorem SettledBelow.extend {i : Nat} (settled : SettledBelow i n a) (moves : Moves i n a b)
    (least : ∀ q, i < q → q < n → b i ≤ b q) : SettledBelow (i + 1) n b := by
  intro p q settles less inside
  by_cases front : p = i
  · subst front
    exact least q less inside
  · have before : p < i := by omega
    rw [moves.outside (.inl before)]
    by_cases part : q < i
    · rw [moves.outside (.inl part)]
      exact settled p q before less inside
    · obtain ⟨u, above, below, held⟩ := moves.inside ⟨Nat.le_of_not_lt part, inside⟩
      rw [held]
      exact settled p u before (by omega) below

theorem SettledFrom.extend {i : Nat} (settled : SettledFrom (i + 1) n a)
    (moves : Moves 0 (i + 1) a b) (greatest : ∀ p, p < i → b p ≤ b i) : SettledFrom i n b := by
  intro p q less settles inside
  by_cases last : q = i
  · subst last
    exact greatest p less
  · have after : i + 1 ≤ q := by omega
    rw [moves.outside (.inr after)]
    by_cases part : p < i + 1
    · obtain ⟨u, -, below, held⟩ := moves.inside ⟨Nat.zero_le p, part⟩
      rw [held]
      exact settled u q (by omega) after inside
    · rw [moves.outside (.inr (Nat.le_of_not_lt part))]
      exact settled p q less after inside

end Settled

end DataStructure.InPlace
