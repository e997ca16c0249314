import Mathlib

/-! Loops whose body may fail. -/

namespace DataStructure.Partial

variable {α β : Type}

theorem mapM_eq_some (f : α → Option β) (g : α → β) (xs : List α)
    (each : ∀ x ∈ xs, f x = some (g x)) : xs.mapM f = some (xs.map g) := by
  induction xs with
  | nil => rfl
  | cons x xs ih =>
      rw [List.mapM_cons, each x List.mem_cons_self,
        ih fun y inside => each y (List.mem_cons_of_mem x inside)]
      rfl

theorem mapM_defined (f : α → Option β) (xs : List α) (ys : List β) (ran : xs.mapM f = some ys) :
    ∀ x ∈ xs, ∃ y, f x = some y := by
  induction xs generalizing ys with
  | nil => simp
  | cons x xs ih =>
      rw [List.mapM_cons] at ran
      obtain ⟨y, first, rest⟩ := Option.bind_eq_some_iff.1 ran
      obtain ⟨zs, later, _⟩ := Option.bind_eq_some_iff.1 rest
      intro z inside
      rcases List.mem_cons.1 inside with rfl | inside
      · exact ⟨y, first⟩
      · exact ih zs later z inside

def updateLoop {n : Nat} (step : Nat → α → Option α) : Nat → Nat → (Fin n → α) → Option (Fin n → α)
  | 0, _, array => some array
  | count + 1, i, array =>
      if inside : i < n then do
        let entry ← step i (array ⟨i, inside⟩)
        updateLoop step count (i + 1) (Function.update array ⟨i, inside⟩ entry)
      else none

theorem updateLoop_spec {n : Nat} (step : Nat → α → Option α) (Good : Nat → α → Prop)
    (count i : Nat) (array : Fin n → α) (inside : i + count ≤ n)
    (each : ∀ j x, i ≤ j → j < i + count → ∃ y, step j x = some y ∧ Good j y) :
    ∃ result, updateLoop step count i array = some result ∧
      (∀ j : Fin n, i ≤ j → j < i + count → Good j (result j)) ∧
      ∀ j : Fin n, (j : Nat) < i → result j = array j := by
  induction count generalizing i array with
  | zero =>
      refine ⟨array, rfl, ?_, fun j _ => rfl⟩
      intro j low high
      omega
  | succ count ih =>
      have here : i < n := by omega
      obtain ⟨entry, stepped, good⟩ := each i (array ⟨i, here⟩) le_rfl (by omega)
      obtain ⟨result, ran, later, before⟩ := ih (i + 1) (Function.update array ⟨i, here⟩ entry)
        (by omega) fun j x low high => each j x (by omega) (by omega)
      refine ⟨result, ?_, ?_, ?_⟩
      · rw [updateLoop, dif_pos here, stepped]
        exact ran
      · intro j low high
        by_cases first : (j : Nat) = i
        · obtain rfl : j = ⟨i, here⟩ := Fin.ext first
          rw [before _ (Nat.lt_succ_self i), Function.update_self]
          exact good
        · exact later j (by omega) (by omega)
      · intro j low
        have other : j ≠ ⟨i, here⟩ := Fin.ne_of_val_ne low.ne
        rw [before j (by omega), Function.update_of_ne other]

end DataStructure.Partial
