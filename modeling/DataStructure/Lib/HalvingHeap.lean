import DataStructure.Lib.InPlace

/-! Heaps in an array in which the parent of node `j` is node `j / 2`.

Node 0 has the one child 1, since it is also the first child of itself. -/

namespace DataStructure.HalvingHeap

open InPlace

variable {α : Type*} [LinearOrder α] {k n i m : Nat} {a : Nat → α}

structure Child (n i j : Nat) : Prop where
  positive : 1 ≤ j
  inside : j < n
  parent : j / 2 = i

def HeapFrom (k n : Nat) (a : Nat → α) : Prop :=
  ∀ i j, k ≤ i → Child n i j → a j ≤ a i

/-- A heap from `k` on but for the node `i`, whose children may be larger than it. -/
structure HeapExcept (k n i : Nat) (a : Nat → α) : Prop where
  off : ∀ p j, k ≤ p → p ≠ i → Child n p j → a j ≤ a p
  across : ∀ p j, k ≤ p → Child n p i → Child n i j → a j ≤ a p

theorem Child.lt {j : Nat} (child : Child n i j) : i < j := by
  have positive := child.positive
  have parent := child.parent
  omega

theorem child_iff {j : Nat} : Child n i j ↔ (j = 2 * i ∨ j = 2 * i + 1) ∧ i < j ∧ j < n := by
  constructor
  · intro child
    have parent := child.parent
    exact ⟨by omega, child.lt, child.inside⟩
  · intro ⟨place, deeper, inside⟩
    exact ⟨by omega, inside, by omega⟩

theorem heapFrom_of_half_lt (past : n / 2 < k) : HeapFrom k n a := by
  intro p j above child
  have inside := child.inside
  have parent := child.parent
  omega

theorem HeapFrom.except (heap : HeapFrom (k + 1) n a) : HeapExcept k n k a where
  off p j above other child := heap p j (by omega) child
  across p j above parent _ := by
    have less := parent.lt
    omega

def Below (n i j : Nat) : Prop := Relation.ReflTransGen (Child n) i j

def HeapBelow (n i : Nat) (a : Nat → α) : Prop :=
  ∀ p j, Below n i p → Child n p j → a j ≤ a p

def HeapUnder (n i : Nat) (a : Nat → α) : Prop :=
  ∀ p j, Relation.TransGen (Child n) i p → Child n p j → a j ≤ a p

theorem Below.le {p : Nat} (below : Below n i p) : i ≤ p := by
  induction below with
  | refl => exact le_rfl
  | tail _ edge ih => exact ih.trans (le_of_lt edge.lt)

theorem Below.proper {p : Nat} (below : Below n i p) (other : p ≠ i) :
    Relation.TransGen (Child n) i p := by
  rcases Relation.reflTransGen_iff_eq_or_transGen.1 below with same | proper
  · exact absurd same other
  · exact proper

theorem Below.parent {p j : Nat} (below : Below n i j) (edge : Child n p j) : j = i ∨ Below n i p := by
  rcases Relation.ReflTransGen.cases_tail below with same | ⟨q, upper, last⟩
  · exact .inl same
  · have same : q = p := last.parent.symm.trans edge.parent
    exact .inr (same ▸ upper)

theorem HeapBelow.le_top {p : Nat} (heap : HeapBelow n i a) (below : Below n i p) : a p ≤ a i := by
  induction below with
  | refl => exact le_rfl
  | tail upper edge ih => exact (heap _ _ upper edge).trans ih

theorem HeapUnder.below {c : Nat} (under : HeapUnder n i a) (child : Child n i c) :
    HeapBelow n c a := by
  intro p j below edge
  exact under p j (Relation.TransGen.head' child below) edge

theorem HeapUnder.heapBelow (under : HeapUnder n i a) (top : ∀ j, Child n i j → a j ≤ a i) :
    HeapBelow n i a := by
  intro p j below edge
  by_cases same : p = i
  · subst same
    exact top j edge
  · exact under p j (below.proper same) edge

section Sink

variable (under : HeapUnder n i a) (child : Child n i m)

include under child

theorem HeapUnder.sink : HeapUnder n m (a ∘ Equiv.swap i m) := by
  have deeper : i < m := child.lt
  intro p j proper edge
  have lower : m < p := by
    obtain ⟨c, first, rest⟩ := Relation.TransGen.head'_iff.1 proper
    exact first.lt.trans_le (Below.le rest)
  have lowest : p < j := edge.lt
  rw [Function.comp_apply, Function.comp_apply,
    Equiv.swap_apply_of_ne_of_ne (by omega) (by omega),
    Equiv.swap_apply_of_ne_of_ne (by omega) (by omega)]
  exact under p j (Relation.TransGen.head child proper) edge

/-- Once the exchange with the largest child is followed by a repair below that child, the
subtree is a heap. -/
theorem HeapUnder.repaired {b : Nat → α} (largest : ∀ j, Child n i j → a j ≤ a m)
    (smaller : a i < a m) (moves : MovesOn {j | Below n m j} (a ∘ Equiv.swap i m) b)
    (heap : HeapBelow n m b) : HeapBelow n i b := by
  have deeper : i < m := child.lt
  have aside (j : Nat) (apart : ¬Below n m j) (other : j ≠ i) : b j = a j := by
    have off : j ≠ m := fun same => apart (same ▸ Relation.ReflTransGen.refl)
    rw [moves.outside apart, Function.comp_apply, Equiv.swap_apply_of_ne_of_ne other off]
  have above : ¬Below n m i := fun below => absurd below.le (by omega)
  have top : b i = a m := by rw [moves.outside above, Function.comp_apply, Equiv.swap_apply_left]
  intro p j below edge
  have down : p < j := edge.lt
  by_cases first : p = i
  · subst first
    rw [top]
    by_cases inner : Below n m j
    · -- only the exchanged child is in its own subtree, and all values there were at most `a m`
      obtain ⟨u, part, held⟩ := moves.inside (show j ∈ {j | Below n m j} from inner)
      rw [held, Function.comp_apply]
      by_cases same : u = m
      · rw [same, Equiv.swap_apply_right]
        exact le_of_lt smaller
      · have lower : m ≤ u := Below.le part
        rw [Equiv.swap_apply_of_ne_of_ne (by omega) same]
        exact (under.below child).le_top part
    · rw [aside j inner (by omega)]
      exact largest j edge
  · by_cases inner : Below n m p
    · exact heap p j inner edge
    · have apart : ¬Below n m j := by
        intro lower
        rcases lower.parent edge with same | upper
        · exact first (edge.parent.symm.trans (same ▸ child.parent))
        · exact inner upper
      have starts : i ≤ p := below.le
      rw [aside p inner first, aside j apart (by omega)]
      exact under p j (below.proper first) edge

end Sink

theorem HeapExcept.under (except : HeapExcept k n i a) (above : k ≤ i) : HeapUnder n i a := by
  intro p j proper edge
  obtain ⟨c, first, rest⟩ := Relation.TransGen.head'_iff.1 proper
  have deeper : i < c := first.lt
  have lower : c ≤ p := Below.le rest
  exact except.off p j (by omega) (by omega) edge

/-- A repair of the subtree at the exception makes the whole a heap. -/
theorem HeapExcept.repaired {b : Nat → α} (except : HeapExcept k n i a) (above : k ≤ i)
    (moves : MovesOn {j | Below n i j} a b) (heap : HeapBelow n i b) : HeapFrom k n b := by
  intro p j starts edge
  by_cases inner : Below n i p
  · exact heap p j inner edge
  · have off : p ≠ i := fun same => inner (same ▸ Relation.ReflTransGen.refl)
    rw [moves.outside (show p ∉ {j | Below n i j} from inner)]
    by_cases lower : Below n i j
    · have same : j = i := (lower.parent edge).resolve_right inner
      obtain ⟨u, part, held⟩ := moves.inside (show j ∈ {j | Below n i j} from lower)
      subst same
      rw [held]
      rcases Relation.ReflTransGen.cases_head part with stays | ⟨c, first, rest⟩
      · exact stays ▸ except.off p j starts off edge
      · calc a u ≤ a c := ((except.under above).below first).le_top rest
          _ ≤ a p := except.across p c starts edge first
    · rw [moves.outside (show j ∉ {j | Below n i j} from lower)]
      exact except.off p j starts off edge

theorem HeapFrom.le_root (heap : HeapFrom 0 n a) (j : Nat) (inside : j < n) : a j ≤ a 0 := by
  induction j using Nat.strong_induction_on with
  | _ j ih =>
      by_cases root : j = 0
      · rw [root]
      · have edge : Child n (j / 2) j := ⟨by omega, inside, rfl⟩
        calc a j ≤ a (j / 2) := heap (j / 2) j (Nat.zero_le _) edge
          _ ≤ a 0 := ih (j / 2) edge.lt (by omega)

/-- With the last node put in the place of the root, only the root is out of order. -/
theorem HeapFrom.except_root (heap : HeapFrom 0 (n + 1) a) :
    HeapExcept 0 n 0 (a ∘ Equiv.swap 0 n) := by
  constructor
  · intro p j _ other edge
    have below : p < j := edge.lt
    have inside : j < n := edge.inside
    rw [Function.comp_apply, Function.comp_apply,
      Equiv.swap_apply_of_ne_of_ne (by omega) (by omega),
      Equiv.swap_apply_of_ne_of_ne other (by omega)]
    exact heap p j (Nat.zero_le p) ⟨edge.positive, by omega, edge.parent⟩
  · intro p j _ edge _
    have below : p < 0 := edge.lt
    omega

end DataStructure.HalvingHeap
