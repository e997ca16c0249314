import DataStructure.Lib.CInt
import DataStructure.Lib.HalvingHeap
import DataStructure.Lib.InPlace

/-! The sorts of `sort/sort.c` on an `int` array.

An access outside the array and an overflow of an index give `none`. -/

namespace DataStructure.ArraySort

open InPlace HalvingHeap

def bubbleCompare (arr : List Int) (j : Nat) : Option (List Int) := do
  let before ← arr[j - 1]?
  let here ← arr[j]?
  if before > here then exchange arr (j - 1) j else some arr

/-- The inner loop of `bubble`, from cell `j` down to the one after `i`. -/
def bubblePass (i : Nat) : Nat → List Int → Option (List Int)
  | 0, arr => some arr
  | j + 1, arr =>
      if i < j + 1 then do
        let arr ← bubbleCompare arr (j + 1)
        bubblePass i j arr
      else some arr

def bubble (arr : List Int) (size : Nat) : Option (List Int) :=
  (List.range size).foldlM (fun arr i => bubblePass i (size - 1) arr) arr

def swap (arr : List Int) (i j : Nat) : Option (List Int) := exchange arr i j

/-- `if (child < size && arr[child] > arr[max]) max = child`. -/
def larger (arr : List Int) (size child max : Nat) : Option Nat :=
  if child < size then do
    let c ← arr[child]?
    let m ← arr[max]?
    some (if c > m then child else max)
  else some max

/-- The first argument bounds the depth of the recursion. -/
def adjustHeap : Nat → List Int → Nat → Nat → Option (List Int)
  | 0, _, _, _ => none
  | depth + 1, arr, i, size => do
      let lchild ← CInt.index (2 * i)
      let rchild ← CInt.index (2 * i + 1)
      if i ≤ size / 2 then
        let max ← larger arr size lchild i
        let max ← larger arr size rchild max
        if max ≠ i then
          let arr ← swap arr i max
          adjustHeap depth arr max size
        else some arr
      else some arr

def buildLoop (size : Nat) : Nat → List Int → Option (List Int)
  | 0, arr => adjustHeap (size + 1) arr 0 size
  | k + 1, arr => do
      let arr ← adjustHeap (size + 1) arr (k + 1) size
      buildLoop size k arr

def buildHeap (arr : List Int) (size : Nat) : Option (List Int) :=
  buildLoop size (size / 2) arr

def extractLoop : Nat → List Int → Option (List Int)
  | 0, arr => some arr
  | i + 1, arr => do
      let arr ← swap arr 0 i
      let arr ← adjustHeap (i + 1) arr 0 i
      extractLoop i arr

def heapSort (arr : List Int) (size : Nat) : Option (List Int) := do
  let arr ← buildHeap arr size
  extractLoop size arr

theorem bubbleCompare_spec {arr : List Int} {j : Nat} (inside : j + 1 < arr.length)
    (least : ∀ q, j + 1 < q → q < arr.length → cell arr (j + 1) ≤ cell arr q) :
    ∃ arr', bubbleCompare arr (j + 1) = some arr' ∧ Rearranged j arr.length arr arr' ∧
      ∀ q, j < q → q < arr.length → cell arr' j ≤ cell arr' q := by
  rw [bubbleCompare, Nat.add_sub_cancel, getElem?_eq_cell (by omega : j < arr.length),
    getElem?_eq_cell inside]
  simp only [Option.bind_eq_bind, Option.bind_some]
  split
  · next inverted =>
      obtain ⟨arr', done, perm, cells⟩ := exchange_spec (by omega : j < arr.length) inside
      refine ⟨arr', done, ⟨perm, ?_⟩, ?_⟩
      · rw [cells]
        exact moves_swap ⟨by omega, by omega⟩ ⟨by omega, inside⟩
      · intro q after below
        rw [cells, Function.comp_apply, Equiv.swap_apply_left, Function.comp_apply]
        by_cases next : q = j + 1
        · rw [next, Equiv.swap_apply_right]
          omega
        · rw [Equiv.swap_apply_of_ne_of_ne (by omega) next]
          exact least q (by omega) below
  · next ordered =>
      refine ⟨arr, rfl, Rearranged.refl j arr.length arr, ?_⟩
      intro q after below
      by_cases next : q = j + 1
      · rw [next]
        omega
      · calc cell arr j ≤ cell arr (j + 1) := by omega
          _ ≤ cell arr q := least q (by omega) below

/-- A pass brings the least of the cells from `i` on to cell `i`. -/
theorem bubblePass_spec (i j : Nat) (arr : List Int) (starts : i ≤ j) (inside : j < arr.length)
    (least : ∀ q, j < q → q < arr.length → cell arr j ≤ cell arr q) :
    ∃ arr', bubblePass i j arr = some arr' ∧ Rearranged i arr.length arr arr' ∧
      ∀ q, i < q → q < arr.length → cell arr' i ≤ cell arr' q := by
  induction j generalizing arr with
  | zero =>
      have first : i = 0 := by omega
      subst first
      exact ⟨arr, rfl, Rearranged.refl 0 arr.length arr, least⟩
  | succ j ih =>
      rw [bubblePass]
      by_cases more : i < j + 1
      · obtain ⟨arr', compared, changed, lesser⟩ := bubbleCompare_spec inside least
        have same : arr'.length = arr.length := changed.length_eq
        obtain ⟨final, ran, rest, result⟩ :=
          ih arr' (by omega) (by omega) (by rw [same]; exact lesser)
        rw [same] at rest result
        refine ⟨final, ?_, (changed.widen (by omega) le_rfl).trans rest, result⟩
        rw [if_pos more, compared]
        exact ran
      · have reached : i = j + 1 := by omega
        subst reached
        rw [if_neg more]
        exact ⟨arr, rfl, Rearranged.refl (j + 1) arr.length arr, least⟩

theorem bubble_passes (arr : List Int) (n : Nat) (within : n ≤ arr.length) :
    ∃ arr', (List.range n).foldlM (fun arr' i => bubblePass i (arr.length - 1) arr') arr =
        some arr' ∧ Rearranged 0 arr.length arr arr' ∧ SettledBelow n arr.length (cell arr') := by
  induction n with
  | zero =>
      refine ⟨arr, rfl, Rearranged.refl 0 arr.length arr, ?_⟩
      intro p q settled
      omega
  | succ n ih =>
      obtain ⟨arr', ran, changed, settled⟩ := ih (by omega)
      have same : arr'.length = arr.length := changed.length_eq
      obtain ⟨final, passed, rest, least⟩ :=
        bubblePass_spec n (arr.length - 1) arr' (by omega) (by omega) (by omega)
      rw [same] at rest least
      refine ⟨final, ?_, changed.trans (rest.widen (Nat.zero_le n) le_rfl),
        settled.extend rest.moves least⟩
      rw [List.range_succ, List.foldlM_append, ran]
      simp only [Option.bind_eq_bind, Option.bind_some, List.foldlM_cons, List.foldlM_nil, passed]
      rfl

theorem bubble_spec (arr : List Int) :
    ∃ arr', bubble arr arr.length = some arr' ∧ arr'.SortedLE ∧ arr'.Perm arr := by
  obtain ⟨arr', ran, changed, settled⟩ := bubble_passes arr arr.length le_rfl
  refine ⟨arr', ran, ?_, changed.perm⟩
  apply sortedLE_of_cells
  intro p q less inside
  rw [changed.length_eq] at inside
  exact settled p q (by omega) less inside

theorem larger_spec {arr : List Int} {size c m : Nat} (within : size ≤ arr.length)
    (held : c < size → m < arr.length) :
    ∃ max, larger arr size c m = some max ∧
      (max = m ∨ max = c ∧ c < size ∧ cell arr m < cell arr max) ∧
      cell arr m ≤ cell arr max ∧ (c < size → cell arr c ≤ cell arr max) := by
  rw [larger]
  by_cases inside : c < size
  · rw [if_pos inside, getElem?_eq_cell (by omega), getElem?_eq_cell (held inside)]
    refine ⟨_, rfl, ?_⟩
    split
    · next bigger =>
        exact ⟨.inr ⟨rfl, inside, bigger⟩, le_of_lt bigger, fun _ => le_rfl⟩
    · next smaller =>
        exact ⟨.inl rfl, le_rfl, fun _ => not_lt.1 smaller⟩
  · rw [if_neg inside]
    exact ⟨m, rfl, .inl rfl, le_rfl, fun inner => absurd inner inside⟩

/-- The node that `adjust_heap` exchanges `i` with: the larger child, if it is larger. -/
theorem largest_spec {arr : List Int} {size i : Nat} (within : size ≤ arr.length) :
    ∃ left max, larger arr size (2 * i) i = some left ∧
      larger arr size (2 * i + 1) left = some max ∧
      (∀ j, Child size i j → cell arr j ≤ cell arr max) ∧
      (max = i ∨ Child size i max ∧ cell arr i < cell arr max) := by
  obtain ⟨left, chose, isLeft, overTop, overLeft⟩ :=
    larger_spec (c := 2 * i) (m := i) within (by omega)
  obtain ⟨max, chosen, isMax, overFirst, overRight⟩ :=
    larger_spec (c := 2 * i + 1) (m := left) within (by omega)
  refine ⟨left, max, chose, chosen, ?_, ?_⟩
  · intro j edge
    obtain ⟨place, -, below⟩ := child_iff.1 edge
    rcases place with even | odd
    · rw [even] at below ⊢
      exact (overLeft below).trans overFirst
    · rw [odd] at below ⊢
      exact overRight below
  · rcases isMax with same | ⟨right, below, bigger⟩
    · subst same
      rcases isLeft with stays | ⟨even, below, bigger⟩
      · exact .inl stays
      · by_cases root : i = 0
        · exact .inl (by omega)
        · exact .inr ⟨child_iff.2 ⟨by omega, by omega, by omega⟩, bigger⟩
    · refine .inr ⟨child_iff.2 ⟨by omega, by omega, by omega⟩, ?_⟩
      exact lt_of_le_of_lt overTop bigger

/-- `adjust_heap` makes a heap of the subtree that it is called on, when all below its top
is one, and touches no other node. -/
theorem adjustHeap_below (depth : Nat) (arr : List Int) (i size : Nat)
    (enough : size - i < depth) (within : size ≤ arr.length) (small : size < 2 ^ 30)
    (start : i ≤ size) (under : HeapUnder size i (cell arr)) :
    ∃ arr', adjustHeap depth arr i size = some arr' ∧ arr'.Perm arr ∧
      MovesOn {j | Below size i j ∧ j < size} (cell arr) (cell arr') ∧
      HeapBelow size i (cell arr') := by
  induction depth generalizing arr i with
  | zero => omega
  | succ depth ih =>
      rw [adjustHeap, CInt.index_eq, if_pos (by omega), CInt.index_eq, if_pos (by omega)]
      simp only [Option.bind_eq_bind, Option.bind_some]
      by_cases upper : i ≤ size / 2
      · obtain ⟨left, max, chose, chosen, largest, isMax⟩ :=
          largest_spec (i := i) within
        rw [if_pos upper, chose, Option.bind_some, chosen, Option.bind_some]
        rcases isMax with same | ⟨edge, bigger⟩
        · rw [if_neg (by omega)]
          exact ⟨arr, rfl, .refl arr, .refl _ _, under.heapBelow (same ▸ largest)⟩
        · have deeper : i < max := edge.lt
          have inside : max < size := edge.inside
          obtain ⟨arr', swapped, perm, cells⟩ :=
            exchange_spec (by omega : i < arr.length) (by omega : max < arr.length)
          have length : arr'.length = arr.length := perm.length_eq
          obtain ⟨final, ran, rest, moves, heap⟩ :=
            ih arr' max (by omega) (by omega) (by omega) (cells ▸ under.sink edge)
          rw [cells] at moves
          have lower : {j | Below size max j ∧ j < size} ⊆ {j | Below size i j ∧ j < size} := by
            intro j part
            exact ⟨Relation.ReflTransGen.head edge part.1, part.2⟩
          refine ⟨final, ?_, rest.trans perm, ?_, ?_⟩
          · rw [if_pos (by omega), swap, swapped, Option.bind_some]
            exact ran
          · apply MovesOn.trans _ (moves.mono lower)
            exact movesOn_swap ⟨.refl, by omega⟩ ⟨.single edge, inside⟩
          · exact under.repaired edge largest bigger (moves.mono fun j part => part.1) heap
      · rw [if_neg upper]
        refine ⟨arr, rfl, .refl arr, .refl _ _, under.heapBelow ?_⟩
        intro j edge
        have parent := edge.parent
        have inside := edge.inside
        omega

theorem adjustHeap_spec (depth : Nat) (arr : List Int) (k i size : Nat)
    (enough : size - i < depth) (within : size ≤ arr.length) (small : size < 2 ^ 30)
    (start : i ≤ size) (above : k ≤ i) (except : HeapExcept k size i (cell arr)) :
    ∃ arr', adjustHeap depth arr i size = some arr' ∧ Rearranged 0 size arr arr' ∧
      HeapFrom k size (cell arr') := by
  obtain ⟨arr', ran, perm, moves, heap⟩ :=
    adjustHeap_below depth arr i size enough within small start (except.under above)
  refine ⟨arr', ran, ⟨perm, moves_iff.2 (moves.mono ?_)⟩, ?_⟩
  · intro j part
    exact ⟨Nat.zero_le j, part.2⟩
  · exact except.repaired above (moves.mono fun j part => part.1) heap

/-- `adjust_heap(arr, i, size)` on a subtree in which every node but `i` is at least as large as
its children terminates, permutes the values at `i` and its descendants only, and leaves each of
these nodes at least as large as its children. -/
theorem adjust_heap_repairs_subtree (arr : List Int) (i size : Nat) (within : size ≤ arr.length)
    (small : size < 2 ^ 30) (start : i ≤ size) (under : HeapUnder size i (cell arr)) :
    ∃ arr', adjustHeap (size + 1) arr i size = some arr' ∧ arr'.Perm arr ∧
      MovesOn {j | Below size i j} (cell arr) (cell arr') ∧
      (∀ j, ¬Below size i j → arr'[j]? = arr[j]?) ∧ HeapBelow size i (cell arr') := by
  obtain ⟨arr', ran, perm, moves, heap⟩ :=
    adjustHeap_below (size + 1) arr i size (by omega) within small start under
  have part := moves.mono (fun j inner => inner.1 : _ ⊆ {j | Below size i j})
  refine ⟨arr', ran, perm, part, ?_, heap⟩
  intro j apart
  exact getElem?_congr perm.length_eq (part.outside apart)

theorem adjust_heap_repairs_subtree_second_node :
    HeapUnder 6 1 (cell ([9, 1, 5, 7, 3, 4] : List Int)) ∧
      ∃ arr', adjustHeap 7 [9, 1, 5, 7, 3, 4] 1 6 = some arr' ∧ HeapBelow 6 1 (cell arr') := by
  have under : HeapUnder 6 1 (cell ([9, 1, 5, 7, 3, 4] : List Int)) := by
    intro p j proper edge
    obtain ⟨c, first, rest⟩ := Relation.TransGen.head'_iff.1 proper
    have deeper : 1 < c := first.lt
    have lower : c ≤ p := Below.le rest
    have inside : j < 6 := edge.inside
    have parent : j / 2 = p := edge.parent
    obtain ⟨rfl, rfl | rfl⟩ : p = 2 ∧ (j = 4 ∨ j = 5) := by omega
    · decide
    · decide
  obtain ⟨arr', ran, -, -, -, heap⟩ :=
    adjust_heap_repairs_subtree [9, 1, 5, 7, 3, 4] 1 6 (by decide) (by decide) (by decide) under
  exact ⟨under, arr', ran, heap⟩

theorem buildLoop_spec (k : Nat) (arr : List Int) (size : Nat) (within : size = arr.length)
    (small : size < 2 ^ 30) (upper : k ≤ size / 2) (heap : HeapFrom (k + 1) size (cell arr)) :
    ∃ arr', buildLoop size k arr = some arr' ∧ Rearranged 0 size arr arr' ∧
      HeapFrom 0 size (cell arr') := by
  induction k generalizing arr with
  | zero =>
      rw [buildLoop]
      exact adjustHeap_spec (size + 1) arr 0 0 size (by omega) (by omega) small (by omega) le_rfl
        heap.except
  | succ k ih =>
      obtain ⟨arr', adjusted, changed, larger⟩ :=
        adjustHeap_spec (size + 1) arr (k + 1) (k + 1) size (by omega) (by omega) small (by omega)
          le_rfl heap.except
      obtain ⟨final, ran, rest, whole⟩ :=
        ih arr' (by rw [changed.length_eq]; exact within) (by omega) larger
      rw [buildLoop, adjusted]
      exact ⟨final, ran, changed.trans rest, whole⟩

theorem buildHeap_spec (arr : List Int) (small : arr.length < 2 ^ 30) :
    ∃ arr', buildHeap arr arr.length = some arr' ∧ Rearranged 0 arr.length arr arr' ∧
      HeapFrom 0 arr.length (cell arr') :=
  buildLoop_spec (arr.length / 2) arr arr.length rfl small le_rfl
    (heapFrom_of_half_lt (Nat.lt_succ_self _))

/-- One round of `heap_sort` moves the largest cell of the heap behind it. -/
theorem extract_step {arr : List Int} {i : Nat} (inside : i < arr.length)
    (small : arr.length < 2 ^ 30) (heap : HeapFrom 0 (i + 1) (cell arr))
    (settled : SettledFrom (i + 1) arr.length (cell arr)) :
    ∃ moved arr', swap arr 0 i = some moved ∧ adjustHeap (i + 1) moved 0 i = some arr' ∧
      Rearranged 0 (i + 1) arr arr' ∧ HeapFrom 0 i (cell arr') ∧
      SettledFrom i arr.length (cell arr') := by
  obtain ⟨moved, swapped, perm, cells⟩ := exchange_spec (by omega : 0 < arr.length) inside
  have except : HeapExcept 0 i 0 (cell moved) := by
    rw [cells]
    exact heap.except_root
  have first : Rearranged 0 (i + 1) arr moved := by
    refine ⟨perm, ?_⟩
    rw [cells]
    exact moves_swap ⟨by omega, by omega⟩ ⟨by omega, by omega⟩
  obtain ⟨arr', adjusted, second, rest⟩ :=
    adjustHeap_spec (i + 1) moved 0 0 i (by omega) (by rw [first.length_eq]; omega) (by omega)
      (Nat.zero_le i) le_rfl except
  have both : Rearranged 0 (i + 1) arr arr' := first.trans (second.widen le_rfl (by omega))
  refine ⟨moved, arr', swapped, adjusted, both, rest, settled.extend both.moves ?_⟩
  intro p below
  have last : cell arr' i = cell arr 0 := by
    rw [second.moves.outside (.inr le_rfl), cells, Function.comp_apply, Equiv.swap_apply_right]
  obtain ⟨u, -, inner, held⟩ := both.moves.inside (k := p) ⟨Nat.zero_le p, by omega⟩
  rw [last, held]
  exact heap.le_root u inner

theorem extractLoop_spec (i : Nat) (arr : List Int) (within : i ≤ arr.length)
    (small : arr.length < 2 ^ 30) (heap : HeapFrom 0 i (cell arr))
    (settled : SettledFrom i arr.length (cell arr)) :
    ∃ arr', extractLoop i arr = some arr' ∧ arr'.Perm arr ∧
      SettledFrom 0 arr.length (cell arr') := by
  induction i generalizing arr with
  | zero => exact ⟨arr, rfl, List.Perm.refl arr, settled⟩
  | succ i ih =>
      obtain ⟨moved, arr', swapped, adjusted, changed, rest, more⟩ :=
        extract_step within small heap settled
      have same : arr'.length = arr.length := changed.length_eq
      rw [← same] at more
      obtain ⟨final, ran, perm, whole⟩ := ih arr' (by omega) (by omega) rest more
      rw [extractLoop, swapped, Option.bind_eq_bind, Option.bind_some, adjusted]
      refine ⟨final, ran, perm.trans changed.perm, ?_⟩
      rw [← same]
      exact whole

theorem heapSort_spec (arr : List Int) (small : arr.length < 2 ^ 30) :
    ∃ arr', heapSort arr arr.length = some arr' ∧ arr'.SortedLE ∧ arr'.Perm arr := by
  obtain ⟨built, build, changed, heap⟩ := buildHeap_spec arr small
  have same : built.length = arr.length := changed.length_eq
  have none_settled : SettledFrom arr.length built.length (cell built) := by
    intro p q _ after inside
    omega
  obtain ⟨arr', ran, perm, settled⟩ :=
    extractLoop_spec arr.length built (by omega) (by omega) heap none_settled
  rw [heapSort, build]
  refine ⟨arr', ran, ?_, perm.trans changed.perm⟩
  apply sortedLE_of_cells
  intro p q less inside
  rw [perm.length_eq] at inside
  exact settled p q less (Nat.zero_le q) inside

/-- Both sorts end, with the same array: the initial content in ascending order. -/
theorem heapSort_and_bubble_sort (arr : List Int) (small : arr.length < 2 ^ 30) :
    ∃ sorted, heapSort arr arr.length = some sorted ∧ bubble arr arr.length = some sorted ∧
      sorted.SortedLE ∧ sorted.Perm arr := by
  obtain ⟨sorted, heap, order, perm⟩ := heapSort_spec arr small
  obtain ⟨bubbled, ran, ordered, permuted⟩ := bubble_spec arr
  have same : bubbled = sorted :=
    List.Perm.eq_of_sortedLE ordered order (permuted.trans perm.symm)
  subst same
  exact ⟨bubbled, heap, ran, order, perm⟩

theorem heapSort_and_bubble_sort_pair : ([2, -1, 2] : List Int).length < 2 ^ 30 ∧
    ∃ sorted, heapSort [2, -1, 2] 3 = some sorted ∧ bubble [2, -1, 2] 3 = some sorted ∧
      sorted.SortedLE ∧ sorted.Perm [2, -1, 2] :=
  ⟨by decide, heapSort_and_bubble_sort [2, -1, 2] (by decide)⟩

end DataStructure.ArraySort
