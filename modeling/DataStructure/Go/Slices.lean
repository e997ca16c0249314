import DataStructure.Lib.InPlace

/-! The exercises on slices of `go/study0507`: `MaxAll` of `q12.go` and `bubbleSort` of `q13.go`.

An index outside a slice panics, which gives `none`. -/

namespace DataStructure.Slices

open InPlace

-- `q13.go`

def compareSwap (arr : List Int) (i : Nat) (swapped : Bool) : Option (List Int × Bool) := do
  let before ← arr[i - 1]?
  let here ← arr[i]?
  if before > here then
    let arr ← exchange arr i (i - 1)
    some (arr, true)
  else some (arr, swapped)

/-- The slice and `swapped` after the inner loop has run for `i` from 1 to `k`. -/
def sweepTo (arr : List Int) : Nat → Option (List Int × Bool)
  | 0 => some (arr, false)
  | k + 1 => do
      let (arr, swapped) ← sweepTo arr k
      compareSwap arr (k + 1) swapped

def sweep (arr : List Int) : Option (List Int × Bool) := sweepTo arr (arr.length - 2)

/-- `for (swapped)`; the first argument bounds the number of sweeps. -/
def bubbleLoop : Nat → List Int → Option (List Int)
  | 0, _ => none
  | fuel + 1, arr => do
      let (arr, swapped) ← sweep arr
      if swapped then bubbleLoop fuel arr else some arr

def bubbleSort (arr : List Int) : Option (List Int × List Int) := do
  let arr ← bubbleLoop (arr.length + 1) arr
  some (arr, arr)

theorem compareSwap_ordered {arr : List Int} {k : Nat} (inside : k + 1 < arr.length)
    (ordered : cell arr k ≤ cell arr (k + 1)) (swapped : Bool) :
    compareSwap arr (k + 1) swapped = some (arr, swapped) := by
  rw [compareSwap, Nat.add_sub_cancel, getElem?_eq_cell (by omega : k < arr.length),
    getElem?_eq_cell inside]
  simp only [Option.bind_eq_bind, Option.bind_some]
  rw [if_neg (by omega)]

theorem compareSwap_inverted {arr : List Int} {k : Nat} (inside : k + 1 < arr.length)
    (inverted : cell arr (k + 1) < cell arr k) (swapped : Bool) :
    ∃ arr', compareSwap arr (k + 1) swapped = some (arr', true) ∧ arr'.Perm arr ∧
      cell arr' = cell arr ∘ Equiv.swap (k + 1) k := by
  obtain ⟨arr', done, perm, cells⟩ := exchange_spec inside (by omega : k < arr.length)
  refine ⟨arr', ?_, perm, cells⟩
  rw [compareSwap, Nat.add_sub_cancel, getElem?_eq_cell (by omega : k < arr.length),
    getElem?_eq_cell inside]
  simp only [Option.bind_eq_bind, Option.bind_some]
  rw [if_pos inverted, done]
  rfl

structure Swept (start : List Int) (k : Nat) (arr : List Int) (swapped : Bool) : Prop where
  change : Rearranged 0 (k + 1) start arr
  greatest : ∀ p, p < k → cell arr p ≤ cell arr k
  idle : swapped = false → arr = start
  flag : swapped = false ↔ ∀ p, p < k → cell start p ≤ cell start (p + 1)

theorem Swept.ordered {start arr : List Int} {k : Nat} {swapped : Bool}
    (swept : Swept start k arr swapped) (ordered : cell arr k ≤ cell arr (k + 1)) :
    Swept start (k + 1) arr swapped where
  change := swept.change.widen le_rfl (by omega)
  greatest := by
    intro p below
    by_cases last : p = k
    · rw [last]
      exact ordered
    · calc cell arr p ≤ cell arr k := swept.greatest p (by omega)
        _ ≤ cell arr (k + 1) := ordered
  idle := swept.idle
  flag := by
    constructor
    · intro quiet p below
      by_cases last : p = k
      · rw [last, ← swept.idle quiet]
        exact ordered
      · exact swept.flag.mp quiet p (by omega)
    · intro all
      exact swept.flag.mpr fun p below => all p (by omega)

theorem Swept.inverted {start arr arr' : List Int} {k : Nat} {swapped : Bool}
    (swept : Swept start k arr swapped) (inverted : cell arr (k + 1) < cell arr k)
    (perm : arr'.Perm arr) (cells : cell arr' = cell arr ∘ Equiv.swap (k + 1) k) :
    Swept start (k + 1) arr' true where
  change := by
    refine (swept.change.widen le_rfl (by omega)).trans ⟨perm, ?_⟩
    rw [cells]
    exact moves_swap ⟨by omega, by omega⟩ ⟨by omega, by omega⟩
  greatest := by
    intro p below
    rw [cells, Function.comp_apply, Function.comp_apply, Equiv.swap_apply_left]
    by_cases last : p = k
    · rw [last, Equiv.swap_apply_right]
      exact inverted.le
    · rw [Equiv.swap_apply_of_ne_of_ne (by omega) last]
      exact swept.greatest p (by omega)
  idle := by
    intro quiet
    cases quiet
  flag := by
    constructor
    · intro quiet
      cases quiet
    · intro all
      -- with all neighbours in order nothing would have moved before this exchange
      have quiet : swapped = false := swept.flag.mpr fun p below => all p (by omega)
      have same := swept.idle quiet
      have order := all k (by omega)
      rw [same] at inverted
      omega

theorem sweepTo_spec (start : List Int) (k : Nat) (inside : k = 0 ∨ k < start.length) :
    ∃ arr swapped, sweepTo start k = some (arr, swapped) ∧ Swept start k arr swapped := by
  induction k with
  | zero =>
      refine ⟨start, false, rfl, Rearranged.refl 0 1 start, ?_, fun _ => rfl, ?_⟩
      · intro p below
        omega
      · simp
  | succ k ih =>
      obtain ⟨arr, swapped, ran, swept⟩ := ih (by omega)
      have room : k + 1 < arr.length := by
        rw [swept.change.length_eq]
        omega
      by_cases ordered : cell arr k ≤ cell arr (k + 1)
      · refine ⟨arr, swapped, ?_, swept.ordered ordered⟩
        rw [sweepTo, ran]
        exact compareSwap_ordered room ordered swapped
      · have inverted : cell arr (k + 1) < cell arr k := by omega
        obtain ⟨arr', step, perm, cells⟩ := compareSwap_inverted room inverted swapped
        refine ⟨arr', true, ?_, swept.inverted inverted perm cells⟩
        rw [sweepTo, ran]
        exact step

/-- Where the cells after `j` are settled, a sweep exchanges nothing behind `j`. -/
theorem sweepTo_beyond {start : List Int} {j m : Nat} (within : m ≤ start.length)
    (settled : SettledFrom (j + 1) m (cell start)) (k : Nat) (reached : j ≤ k) (inside : k < m) :
    ∃ arr swapped, sweepTo start k = some (arr, swapped) ∧
      Rearranged 0 (j + 1) start arr ∧ ∀ p, p < j → cell arr p ≤ cell arr j := by
  induction k, reached using Nat.le_induction with
  | base =>
      obtain ⟨arr, swapped, ran, swept⟩ := sweepTo_spec start j (.inr (by omega))
      exact ⟨arr, swapped, ran, swept.change, swept.greatest⟩
  | succ k reached ih =>
      obtain ⟨arr, swapped, ran, change, greatest⟩ := ih (by omega)
      have ordered : cell arr k ≤ cell arr (k + 1) := by
        rw [change.moves.outside (.inr (by omega : j + 1 ≤ k + 1))]
        by_cases last : k = j
        · obtain ⟨u, -, below, held⟩ := change.moves.inside ⟨Nat.zero_le k, by omega⟩
          rw [held]
          exact settled u (k + 1) (by omega) (by omega) inside
        · rw [change.moves.outside (.inr (by omega : j + 1 ≤ k))]
          exact settled k (k + 1) (by omega) (by omega) inside
      refine ⟨arr, swapped, ?_, change, greatest⟩
      rw [sweepTo, ran]
      exact compareSwap_ordered (by rw [change.length_eq]; omega) ordered swapped

theorem settled_of_neighbours {a : Nat → Int} {m : Nat}
    (order : ∀ p, p < m - 1 → a p ≤ a (p + 1)) : SettledFrom 0 m a := by
  intro p q less _ inside
  induction q, less using Nat.le_induction with
  | base => exact order p (by omega)
  | succ q _ ih =>
      calc a p ≤ a q := ih (by omega) (by omega)
        _ ≤ a (q + 1) := order q (by omega)

/-- The loop ends within one sweep more than there are unsettled cells. -/
theorem bubbleLoop_spec (j fuel : Nat) (arr : List Int) (enough : j < fuel)
    (settled : SettledFrom j (arr.length - 1) (cell arr)) (within : j ≤ arr.length - 1) :
    ∃ out, bubbleLoop fuel arr = some out ∧ Rearranged 0 (arr.length - 1) arr out ∧
      SettledFrom 0 (arr.length - 1) (cell out) := by
  induction j generalizing fuel arr with
  | zero =>
      obtain ⟨fuel, rfl⟩ : ∃ n, fuel = n + 1 := ⟨fuel - 1, by omega⟩
      obtain ⟨out, swapped, ran, swept⟩ := sweepTo_spec arr (arr.length - 2) (by omega)
      have quiet : swapped = false := by
        apply swept.flag.mpr
        intro p below
        exact settled p (p + 1) (by omega) (by omega) (by omega)
      have same := swept.idle quiet
      subst same quiet
      refine ⟨out, ?_, Rearranged.refl _ _ out, settled⟩
      rw [bubbleLoop, sweep, ran]
      rfl
  | succ j ih =>
      obtain ⟨fuel, rfl⟩ : ∃ n, fuel = n + 1 := ⟨fuel - 1, by omega⟩
      obtain ⟨next, swapped, ran, swept⟩ := sweepTo_spec arr (arr.length - 2) (by omega)
      cases swapped with
      | false =>
          have same := swept.idle rfl
          subst same
          refine ⟨next, ?_, Rearranged.refl _ _ next, ?_⟩
          · rw [bubbleLoop, sweep, ran]
            rfl
          · apply settled_of_neighbours
            intro p below
            exact swept.flag.mp rfl p (by omega)
      | true =>
          obtain ⟨arr', flag, again, change, greatest⟩ :=
            sweepTo_beyond (by omega) settled (arr.length - 2) (by omega) (by omega)
          rw [ran] at again
          cases again
          have same := change.length_eq
          obtain ⟨out, rest, moved, final⟩ := ih fuel next (by omega)
            (by rw [same]; exact settled.extend change.moves greatest) (by omega)
          rw [same] at moved final
          refine ⟨out, ?_, (change.widen le_rfl within).trans moved, final⟩
          rw [bubbleLoop, sweep, ran]
          exact rest

theorem bubbleSort_spec (arr : List Int) :
    ∃ out, bubbleSort arr = some (out, out) ∧ Rearranged 0 (arr.length - 1) arr out ∧
      SettledFrom 0 (arr.length - 1) (cell out) := by
  obtain ⟨out, ran, change, settled⟩ := bubbleLoop_spec (arr.length - 1) (arr.length + 1) arr
    (by omega) (by intro p q _ reached inside; omega) le_rfl
  refine ⟨out, ?_, change, settled⟩
  rw [bubbleSort, ran]
  rfl

theorem getLast?_eq_cell {arr : List Int} (some_cell : arr ≠ []) :
    arr.getLast? = some (cell arr (arr.length - 1)) := by
  have positive := List.length_pos_of_ne_nil some_cell
  rw [List.getLast?_eq_getElem?, getElem?_eq_cell (by omega)]

theorem cell_mem {arr : List Int} {p : Nat} (inside : p < arr.length) : cell arr p ∈ arr :=
  List.mem_of_getElem? (getElem?_eq_cell inside)

/-- The result is the sorted slice exactly if the last element is a greatest one. -/
theorem bubbleSort_sorts_iff (arr : List Int) :
    (∃ after out, bubbleSort arr = some (after, out) ∧ out.SortedLE ∧ out.Perm arr) ↔
      ∀ last ∈ arr.getLast?, ∀ x ∈ arr, x ≤ last := by
  obtain ⟨out, ran, change, settled⟩ := bubbleSort_spec arr
  have same := change.length_eq
  by_cases empty : arr = []
  · subst empty
    have none_left : out = [] := List.length_eq_zero_iff.mp same
    subst none_left
    have sorted : ([] : List Int).SortedLE := List.Pairwise.nil.sortedLE
    simp [ran, sorted]
  have positive := List.length_pos_of_ne_nil empty
  have untouched : cell out (arr.length - 1) = cell arr (arr.length - 1) :=
    change.moves.outside (.inr le_rfl)
  rw [getLast?_eq_cell empty]
  constructor
  · intro sorts last held x member
    obtain ⟨after, out', ran', sorted, perm⟩ := sorts
    rw [ran] at ran'
    cases ran'
    cases held
    obtain ⟨p, inside, rfl⟩ := List.getElem_of_mem (change.perm.mem_iff.mpr member)
    have final : out[p] ≤ out[arr.length - 1] :=
      sorted.getElem_le_getElem_of_le (by omega)
    rw [← untouched, cell, List.getD_eq_getElem out default (by omega)]
    exact final
  · intro greatest
    refine ⟨out, out, ran, ?_, change.perm⟩
    apply sortedLE_of_cells
    intro p q less inside
    by_cases last : q = arr.length - 1
    · rw [last, untouched]
      exact greatest _ rfl _ (change.perm.mem_iff.mp (cell_mem (by omega)))
    · exact settled p q less (Nat.zero_le q) (by omega)

theorem bubbleSort_leaves_last :
    bubbleSort [2, 1] = some ([2, 1], [2, 1]) ∧ ¬ [(2 : Int), 1].SortedLE := by
  decide

-- `q12.go`

inductive Value (F : Type) where
  | int (n : Int)
  | float32 (x : F)
deriving DecidableEq

structure Maxer (F : Type) where
  length : Nat
  get : Nat → Option (Value F)

section MaxAll

variable {F : Type} [LT F] [DecidableLT F]

def xi (x : List Int) : Maxer F := ⟨x.length, fun i => x[i]?.map .int⟩

def xf (x : List F) : Maxer F := ⟨x.length, fun i => x[i]?.map .float32⟩

/-- `reflect.ValueOf(v).Int()`, which panics on another kind. -/
def reflectInt : Value F → Option Int
  | .int n => some n
  | .float32 _ => none

def reflectFloat : Value F → Option F
  | .int _ => none
  | .float32 x => some x

def larger (m : Maxer F) (i : Nat) : Option (Value F) := do
  match ← m.get i with
  | .int a =>
      let b ← reflectInt (← m.get (i + 1))
      if a > b then m.get i else m.get (i + 1)
  | .float32 a =>
      let b ← reflectFloat (← m.get (i + 1))
      if a > b then m.get i else m.get (i + 1)

/-- `max` after the first `k` rounds of the loop: each round overwrites it. -/
def maxAfter (m : Maxer F) : Nat → Option (Value F)
  | 0 => m.get 0
  | k + 1 => do
      let _ ← maxAfter m k
      larger m k

def maxAll (m : Maxer F) : Option (Value F) := maxAfter m (m.length - 1)

theorem larger_xi {x : List Int} {k : Nat} (inside : k + 1 < x.length) :
    larger (xi x : Maxer F) k = some (.int (max (cell x k) (cell x (k + 1)))) := by
  have here := getElem?_eq_cell (by omega : k < x.length)
  have next := getElem?_eq_cell inside
  simp only [larger, xi, here, next, Option.map_some, Option.bind_eq_bind, Option.bind_some,
    reflectInt]
  split
  · next more => rw [max_eq_left more.le]
  · next less => rw [max_eq_right (by omega)]

theorem maxAfter_xi {x : List Int} {k : Nat} (inside : k < x.length) :
    maxAfter (xi x : Maxer F) k = some (.int (max (cell x (k - 1)) (cell x k))) := by
  induction k with
  | zero =>
      simp only [Nat.zero_sub, max_self, maxAfter, xi, getElem?_eq_cell inside, Option.map_some]
  | succ k ih =>
      rw [maxAfter, ih (by omega), Nat.add_sub_cancel]
      exact larger_xi inside

theorem mem_last_two {x : List Int} (some_element : x ≠ []) (y : Int) :
    y ∈ x.drop (x.length - 2) ↔ y = cell x (x.length - 1 - 1) ∨ y = cell x (x.length - 1) := by
  have positive := List.length_pos_of_ne_nil some_element
  constructor
  · intro member
    obtain ⟨i, inside, rfl⟩ := List.getElem_of_mem member
    rw [List.length_drop] at inside
    have position : x.length - 2 + i = x.length - 1 - 1 ∨ x.length - 2 + i = x.length - 1 := by
      omega
    rw [List.getElem_drop, ← List.getD_eq_getElem x default]
    rcases position with first | second
    · exact .inl (congrArg (cell x) first)
    · exact .inr (congrArg (cell x) second)
  · have late : ∀ p, x.length - 2 ≤ p → p < x.length → cell x p ∈ x.drop (x.length - 2) := by
      intro p reached inside
      apply List.mem_of_getElem? (i := p - (x.length - 2))
      rw [List.getElem?_drop, Nat.add_sub_cancel' reached, getElem?_eq_cell inside]
    intro either
    rcases either with first | second
    · rw [first]
      exact late _ (by omega) (by omega)
    · rw [second]
      exact late _ (by omega) (by omega)

/-- The result is a greatest element exactly if one of the last two elements is one. -/
theorem maxAll_greatest_iff (x : List Int) (some_element : x ≠ []) :
    (∃ n, maxAll (xi x : Maxer F) = some (.int n) ∧ n ∈ x ∧ ∀ z ∈ x, z ≤ n) ↔
      ∃ y ∈ x.drop (x.length - 2), ∀ z ∈ x, z ≤ y := by
  have positive := List.length_pos_of_ne_nil some_element
  have ran : maxAll (xi x : Maxer F) =
      some (.int (max (cell x (x.length - 1 - 1)) (cell x (x.length - 1)))) := by
    have last : x.length - 1 < x.length := by omega
    exact maxAfter_xi last
  have chosen : max (cell x (x.length - 1 - 1)) (cell x (x.length - 1)) ∈
      x.drop (x.length - 2) := (mem_last_two some_element _).mpr (max_choice _ _)
  constructor
  · intro found
    obtain ⟨n, result, -, greatest⟩ := found
    rw [ran] at result
    cases result
    exact ⟨_, chosen, greatest⟩
  · intro found
    obtain ⟨y, member, greatest⟩ := found
    refine ⟨_, ran, List.mem_of_mem_drop chosen, ?_⟩
    intro z other
    apply (greatest z other).trans
    rcases (mem_last_two some_element y).mp member with first | second
    · rw [first]
      exact le_max_left _ _
    · rw [second]
      exact le_max_right _ _

theorem maxAfter_xf {x : List F} {k : Nat} (inside : k < x.length) :
    ∃ j, k - 1 ≤ j ∧ j ≤ k ∧ maxAfter (xf x) k = x[j]?.map .float32 := by
  induction k with
  | zero => exact ⟨0, le_rfl, le_rfl, rfl⟩
  | succ k ih =>
      obtain ⟨j, -, upper, ran⟩ := ih (by omega)
      rw [List.getElem?_eq_getElem (by omega : j < x.length)] at ran
      have here := List.getElem?_eq_getElem (by omega : k < x.length)
      have next := List.getElem?_eq_getElem inside
      have step : maxAfter (xf x) (k + 1) =
          if x[k] > x[k + 1] then x[k]?.map .float32 else x[k + 1]?.map .float32 := by
        rw [maxAfter, ran]
        simp only [larger, xf, here, next, Option.map_some, Option.bind_eq_bind, Option.bind_some,
          reflectFloat]
      by_cases more : x[k] > x[k + 1]
      · exact ⟨k, by omega, by omega, by rw [step, if_pos more]⟩
      · exact ⟨k + 1, by omega, le_rfl, by rw [step, if_neg more]⟩

theorem maxAll_xf {x : List F} (some_element : x ≠ []) :
    ∃ j, x.length - 2 ≤ j ∧ j < x.length ∧ maxAll (xf x) = x[j]?.map .float32 := by
  have positive := List.length_pos_of_ne_nil some_element
  obtain ⟨j, lower, upper, ran⟩ := maxAfter_xf (by omega : x.length - 1 < x.length)
  exact ⟨j, by omega, by omega, ran⟩

end MaxAll

theorem maxAll_greatest_sample :
    (∃ n, maxAll (xi [1, 3, 2] : Maxer Int) = some (.int n) ∧ n ∈ [(1 : Int), 3, 2] ∧
        ∀ z ∈ [(1 : Int), 3, 2], z ≤ n) ↔
      ∃ y ∈ [(1 : Int), 3, 2].drop 1, ∀ z ∈ [(1 : Int), 3, 2], z ≤ y :=
  maxAll_greatest_iff [1, 3, 2] (by decide)

theorem maxAll_forgets :
    maxAll (xi [3, 1, 2] : Maxer Int) = some (.int 2) ∧ ¬ ∀ z ∈ [(3 : Int), 1, 2], z ≤ 2 := by
  decide

end DataStructure.Slices
