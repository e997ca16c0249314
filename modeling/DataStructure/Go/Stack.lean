import Mathlib

/-! The bounded stack of `go/study0507/stack/stack.go`.

An `int` has 64 bits. `none` stands for a panic: an index outside the array. -/

namespace DataStructure.GoStack

structure Stack where
  i : Nat
  array : List Int64
  size : array.length = 10

def zero : Stack := ⟨0, List.replicate 10 0, rfl⟩

def push (stack : Stack) (value : Int64) : Option Stack :=
  if stack.i > 10 then some stack
  else if stack.i < 10 then
    some ⟨stack.i + 1, stack.array.set stack.i value, by rw [List.length_set, stack.size]⟩
  else none

def pop (stack : Stack) : Option (Int64 × Stack) :=
  if stack.i < 1 then some (0, stack)
  else do
    let value ← stack.array[stack.i - 1]?
    some (value, { stack with i := stack.i - 1 })

inductive Call where
  | push (value : Int64)
  | pop
  deriving DecidableEq

def exec (stack : Stack) : Call → Option (Option Int64 × Stack)
  | .push value => (push stack value).map fun stack => (none, stack)
  | .pop => (pop stack).map fun (value, stack) => (some value, stack)

def run (stack : Stack) : List Call → Option (List (Option Int64))
  | [] => some []
  | call :: calls => do
      let (result, stack) ← exec stack call
      let results ← run stack calls
      some (result :: results)

/-- The ideal stack of capacity 10, its top first: the result of a call and the stack after it. -/
def ideal (xs : List Int64) : Call → Option Int64 × List Int64
  | .push value => (none, if xs.length < 10 then value :: xs else xs)
  | .pop => (some (xs.headD 0), xs.tail)

def idealRun (xs : List Int64) : List Call → List (Option Int64)
  | [] => []
  | call :: calls => (ideal xs call).1 :: idealRun (ideal xs call).2 calls

def idealStack (xs : List Int64) (calls : List Call) : List Int64 :=
  calls.foldl (fun xs call => (ideal xs call).2) xs

/-- The cells below `i`, from the last, are the elements of the ideal stack. -/
structure Shows (stack : Stack) (xs : List Int64) : Prop where
  height : stack.i = xs.length
  bound : xs.length ≤ 10
  cells : stack.array.take stack.i = xs.reverse

theorem shows_zero : Shows zero [] := ⟨rfl, Nat.zero_le 10, rfl⟩

theorem shows_nil (stack : Stack) (empty : stack.i = 0) : Shows stack [] := by
  refine ⟨empty, Nat.zero_le 10, ?_⟩
  rw [empty, List.take_zero, List.reverse_nil]

section Shown

variable {stack : Stack} {xs : List Int64}

theorem push_spec (shows : Shows stack xs) (value : Int64) (room : xs.length < 10) :
    ∃ stack', push stack value = some stack' ∧ Shows stack' (value :: xs) := by
  have below : stack.i < 10 := by
    rw [shows.height]
    exact room
  rw [push, if_neg (by omega), if_pos below]
  refine ⟨_, rfl, congrArg (· + 1) shows.height, room, ?_⟩
  calc (stack.array.set stack.i value).take (stack.i + 1)
      = (stack.array.set stack.i value).take stack.i ++ [value] := by
        rw [List.take_add_one, List.getElem?_set_self (by rw [stack.size]; exact below)]
        rfl
    _ = stack.array.take stack.i ++ [value] := by rw [List.take_set_of_le le_rfl]
    _ = (value :: xs).reverse := by rw [shows.cells, List.reverse_cons]

theorem push_full (shows : Shows stack xs) (value : Int64) (full : ¬xs.length < 10) :
    push stack value = none := by
  have height := shows.height
  have bound := shows.bound
  rw [push, if_neg (by omega), if_neg (by omega)]

theorem pop_nil (shows : Shows stack []) : pop stack = some (0, stack) := by
  have height : stack.i = 0 := shows.height
  rw [pop, if_pos (by omega)]

theorem pop_cons {value : Int64} (shows : Shows stack (value :: xs)) :
    ∃ stack', pop stack = some (value, stack') ∧ Shows stack' xs := by
  have height : stack.i = xs.length + 1 := shows.height
  have cells : stack.array.take (xs.length + 1) = xs.reverse ++ [value] := by
    rw [← height, shows.cells, List.reverse_cons]
  have top : stack.array[xs.length]? = some value := by
    rw [← List.getElem?_take_of_lt (Nat.lt_succ_self _), cells,
      List.getElem?_append_right (by rw [List.length_reverse]), List.length_reverse, Nat.sub_self]
    rfl
  rw [pop, if_neg (by omega), height, Nat.add_sub_cancel, top]
  refine ⟨_, rfl, rfl, Nat.le_of_succ_le shows.bound, ?_⟩
  calc stack.array.take xs.length = (stack.array.take (xs.length + 1)).take xs.length := by
        rw [List.take_take, Nat.min_eq_left (Nat.le_succ _)]
    _ = xs.reverse := by rw [cells, List.take_left' (List.length_reverse)]

end Shown

theorem exec_spec {stack : Stack} {xs : List Int64} (shows : Shows stack xs) (call : Call)
    (room : ∀ value, call = .push value → xs.length < 10) :
    ∃ stack', exec stack call = some ((ideal xs call).1, stack') ∧ Shows stack' (ideal xs call).2 := by
  cases call with
  | push value =>
      have fits : xs.length < 10 := room value rfl
      obtain ⟨stack', pushed, shown⟩ := push_spec shows value fits
      refine ⟨stack', ?_, ?_⟩
      · rw [exec, pushed, Option.map_some, ideal]
      · rw [ideal, if_pos fits]
        exact shown
  | pop =>
      cases xs with
      | nil =>
          refine ⟨stack, ?_, shows⟩
          rw [exec, pop_nil shows, Option.map_some, ideal, List.headD_nil]
      | cons value xs =>
          obtain ⟨stack', popped, shown⟩ := pop_cons shows
          refine ⟨stack', ?_, shown⟩
          rw [exec, popped, Option.map_some, ideal, List.headD_cons]

theorem run_iff {stack : Stack} {xs : List Int64} (shows : Shows stack xs) (calls : List Call) :
    run stack calls = some (idealRun xs calls) ↔
      ∀ earlier value, earlier ++ [.push value] <+: calls → (idealStack xs earlier).length < 10 := by
  induction calls generalizing stack xs with
  | nil =>
      refine iff_of_true rfl ?_
      intro earlier value before
      simp at before
  | cons call calls ih =>
      by_cases room : ∀ value, call = .push value → xs.length < 10
      · obtain ⟨stack', done, shown⟩ := exec_spec shows call room
        have first : run stack (call :: calls) = some (idealRun xs (call :: calls)) ↔
            run stack' calls = some (idealRun (ideal xs call).2 calls) := by
          rw [run, done, idealRun]
          simp only [Option.bind_eq_bind, Option.bind_some, Option.bind_eq_some_iff, Option.some.injEq,
            List.cons.injEq, true_and, exists_eq_right]
        rw [first, ih shown]
        constructor
        · intro later earlier value before
          cases earlier with
          | nil => exact room value (List.cons_prefix_cons.1 before).1.symm
          | cons head earlier =>
              obtain ⟨same, rest⟩ := List.cons_prefix_cons.1 before
              subst same
              exact later earlier value rest
        · intro all earlier value before
          exact all (call :: earlier) value (List.cons_prefix_cons.2 ⟨rfl, before⟩)
      · push Not at room
        obtain ⟨value, isPush, full⟩ := room
        subst isPush
        refine iff_of_false ?_ ?_
        · rw [run, exec, push_full shows value (not_lt.2 full)]
          simp
        · intro all
          have fits : xs.length < 10 := all [] value (by simp)
          omega

/-- The stack answers as the ideal stack of capacity 10 exactly when nothing is pushed onto ten
elements: that push panics. -/
theorem stack_ideal_iff (calls : List Call) :
    run zero calls = some (idealRun [] calls) ↔
      ∀ earlier value, earlier ++ [.push value] <+: calls → (idealStack [] earlier).length < 10 :=
  run_iff shows_zero calls

theorem eleven_pushes_panic :
    run zero (List.replicate 11 (.push 1)) ≠ some (idealRun [] (List.replicate 11 (.push 1))) := by
  decide

end DataStructure.GoStack
