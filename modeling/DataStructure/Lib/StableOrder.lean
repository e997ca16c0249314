import Mathlib

/-! Queues that serve by key and, among equal keys, in order of arrival. -/

namespace DataStructure.StableOrder

variable {α K : Type} [LinearOrder K] (key : α → K)

/-- `served` lists what `arrived` lists, by nondecreasing key and with equal keys in order
of arrival. -/
structure StablySorted (arrived served : List α) : Prop where
  perm : served.Perm arrived
  ordered : served.Pairwise fun a b => key a ≤ key b
  stable : ∀ k, served.filter (key · = k) = arrived.filter (key · = k)

theorem stablySorted_nil : StablySorted key [] [] :=
  ⟨List.Perm.refl _, List.Pairwise.nil, fun _ => rfl⟩

/-- A newcomer goes behind the keys that are not greater than its own. -/
theorem StablySorted.arrive {arrived xs ys : List α} (sorted : StablySorted key arrived (xs ++ ys))
    (a : α) (below : ∀ x ∈ xs, key x ≤ key a) (above : ∀ y ∈ ys, key a < key y) :
    StablySorted key (arrived ++ [a]) (xs ++ a :: ys) := by
  obtain ⟨perm, ordered, stable⟩ := sorted
  refine ⟨?_, ?_, ?_⟩
  · calc
      (xs ++ a :: ys).Perm (a :: (xs ++ ys)) := List.perm_middle
      (a :: (xs ++ ys)).Perm (a :: arrived) := perm.cons a
      (a :: arrived).Perm (arrived ++ [a]) := (List.perm_append_singleton a arrived).symm
  · obtain ⟨left, right, across⟩ := List.pairwise_append.mp ordered
    apply List.pairwise_append.mpr
    refine ⟨left, List.pairwise_cons.mpr ⟨fun y member => (above y member).le, right⟩, ?_⟩
    intro x inLeft y inRight
    rcases List.mem_cons.mp inRight with rfl | inRight
    · exact below x inLeft
    · exact across x inLeft y inRight
  · intro k
    rw [List.filter_append arrived, ← stable k]
    by_cases same : key a = k
    · have none : ys.filter (key · = k) = [] := by
        apply List.filter_eq_nil_iff.mpr
        intro y member
        simpa [← same] using (above y member).ne'
      simp [same, none]
    · simp [same]

theorem StablySorted.filter {arrived served : List α} (sorted : StablySorted key arrived served)
    (stays : α → Bool) : StablySorted key (arrived.filter stays) (served.filter stays) := by
  refine ⟨sorted.perm.filter stays, sorted.ordered.filter stays, ?_⟩
  intro k
  rw [List.filter_comm, sorted.stable k, List.filter_comm]

theorem StablySorted.head {arrived rest : List α} {a : α}
    (sorted : StablySorted key arrived (a :: rest)) :
    (∀ b ∈ arrived, key a ≤ key b) ∧ (arrived.filter (key · = key a)).head? = some a := by
  constructor
  · intro b member
    rcases List.mem_cons.mp (sorted.perm.mem_iff.mpr member) with rfl | later
    · exact le_refl _
    · exact (List.pairwise_cons.mp sorted.ordered).1 b later
  · rw [← sorted.stable]
    simp

def undercut (a : α) : Option α → α
  | none => a
  | some first => if key a < key first then a else first

theorem head_arrive (xs ys : List α) (a : α) (below : ∀ x ∈ xs, key x ≤ key a)
    (above : ∀ y ∈ ys, key a < key y) :
    (xs ++ a :: ys).head? = some (undercut key a (xs ++ ys).head?) := by
  cases xs with
  | nil =>
      cases ys with
      | nil => rfl
      | cons y ys => simp [undercut, above y List.mem_cons_self]
  | cons x xs => simp [undercut, (below x List.mem_cons_self).not_gt]

end DataStructure.StableOrder
