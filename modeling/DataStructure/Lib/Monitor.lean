import Mathlib

/-! A mutex and a condition variable.

`owner` is the thread that holds the mutex. A thread in `pthread_cond_wait` is `blocked`
until a signal or a broadcast makes it `woken`; it then has to take the mutex again. -/

namespace DataStructure.Monitor

section Mutex

variable {τ : Type}

/-- The threads inside their critical section are those that own the mutex. -/
def Exclusive (critical : τ → Prop) (owner : Option τ) : Prop :=
  ∀ t, critical t ↔ owner = some t

theorem Exclusive.unique {critical : τ → Prop} {owner : Option τ}
    (exclusive : Exclusive critical owner) {t u : τ} (first : critical t) (second : critical u) :
    t = u :=
  Option.some.inj (((exclusive t).1 first).symm.trans ((exclusive u).1 second))

theorem Exclusive.none_critical {critical : τ → Prop} {owner : Option τ}
    (exclusive : Exclusive critical owner) (free : owner = none) (t : τ) : ¬ critical t := by
  intro inside
  have owned := (exclusive t).1 inside
  rw [free] at owned
  cases owned

inductive Moves (t : τ) (critical critical' : τ → Prop) (owner owner' : Option τ) : Prop where
  | stays (same : critical' t ↔ critical t) (kept : owner' = owner)
  | acquires (free : owner = none) (inside : critical' t) (owned : owner' = some t)
  | releases (inside : critical t) (outside : ¬ critical' t) (freed : owner' = none)

theorem Exclusive.moves {critical critical' : τ → Prop} {owner owner' : Option τ} {t : τ}
    (exclusive : Exclusive critical owner) (moves : Moves t critical critical' owner owner')
    (others : ∀ u, u ≠ t → (critical' u ↔ critical u)) : Exclusive critical' owner' := by
  intro u
  cases moves with
  | stays same kept =>
      rw [kept, ← exclusive u]
      by_cases self : u = t
      · rw [self]
        exact same
      · exact others u self
  | acquires free inside owned =>
      rw [owned]
      by_cases self : u = t
      · rw [self]
        exact iff_of_true inside rfl
      · rw [others u self, exclusive u, free]
        exact iff_of_false (by simp) (fun same => self (Option.some.inj same).symm)
  | releases inside outside freed =>
      rw [freed]
      by_cases self : u = t
      · rw [self]
        exact iff_of_false outside (by simp)
      · rw [others u self]
        exact iff_of_false (fun also => self (exclusive.unique also inside)) (by simp)

end Mutex

section Condition

variable {ι κ : Type} [DecidableEq ι] [Fintype ι] [DecidableEq κ] (blocked woken : κ)

/-- `pthread_cond_signal` with the waiting thread it picks; there is none to pick only if
no thread waits. -/
def signal (pc : ι → κ) : Option ι → Option (ι → κ)
  | some i => if pc i = blocked then some (Function.update pc i woken) else none
  | none => if ∀ i, pc i ≠ blocked then some pc else none

def broadcast (pc : ι → κ) (i : ι) : κ := if pc i = blocked then woken else pc i

def Wakes (pc pc' : ι → κ) : Prop := ∀ i, pc' i = pc i ∨ (pc i = blocked ∧ pc' i = woken)

omit [DecidableEq ι] [Fintype ι] [DecidableEq κ] in
theorem wakes_refl (pc : ι → κ) : Wakes blocked woken pc pc := fun _ => .inl rfl

omit [Fintype ι] [DecidableEq κ] in
theorem wakes_update (pc : ι → κ) (i : ι) (waiting : pc i = blocked) :
    Wakes blocked woken pc (Function.update pc i woken) := by
  intro j
  by_cases self : j = i
  · rw [self, Function.update_self]
    exact .inr ⟨waiting, rfl⟩
  · rw [Function.update_of_ne self]
    exact .inl rfl

theorem wakes_signal (pc pc' : ι → κ) (picked : Option ι)
    (woke : signal blocked woken pc picked = some pc') : Wakes blocked woken pc pc' := by
  cases picked with
  | none =>
      rw [signal] at woke
      split at woke <;> cases woke
      exact wakes_refl blocked woken pc
  | some i =>
      rw [signal] at woke
      split at woke <;> cases woke
      exact wakes_update blocked woken pc i (by assumption)

omit [DecidableEq ι] [Fintype ι] in
theorem wakes_broadcast (pc : ι → κ) : Wakes blocked woken pc (broadcast blocked woken pc) := by
  intro i
  rw [broadcast]
  split
  · next waiting => exact .inr ⟨waiting, rfl⟩
  · exact .inl rfl

omit [DecidableEq ι] [Fintype ι] [DecidableEq κ] in
theorem Wakes.ne {blocked woken : κ} {pc pc' : ι → κ} (wakes : Wakes blocked woken pc pc')
    {i : ι} {place : κ} (apart : place ≠ woken) (elsewhere : pc i ≠ place) : pc' i ≠ place := by
  rcases wakes i with same | ⟨_, now⟩
  · rwa [same]
  · rw [now]
    exact apart.symm

omit [DecidableEq ι] [Fintype ι] in
theorem broadcast_ne (pc : ι → κ) (apart : woken ≠ blocked) (i : ι) :
    broadcast blocked woken pc i ≠ blocked := by
  rw [broadcast]
  split
  · exact apart
  · assumption

end Condition

end DataStructure.Monitor
