import Mathlib

/-! Decoders of a stream that arrives in pieces.

A scanner looks at the elements it has not consumed yet. It waits for more of them,
consumes some and delivers messages, or fails. Because more elements behind those it
has seen do not change what it decided, it does not matter where the stream is cut. -/

namespace DataStructure.Framing

variable {β μ : Type}

inductive Move (μ : Type) where
  | wait
  | fail
  | take (n : Nat) (out : List μ)
  deriving DecidableEq, Repr

structure Scanner (β μ : Type) where
  move : List β → Move μ
  within : ∀ xs n out, move xs = .take n out → 0 < n ∧ n ≤ xs.length
  stable : ∀ xs ys, move xs ≠ .wait → move (xs ++ ys) = move xs

namespace Scanner

variable (S : Scanner β μ)

/-- The messages of `xs` and the remainder at which the scanner waits. -/
def run (xs : List β) : Option (List μ × List β) :=
  match _ : S.move xs with
  | .wait => some ([], xs)
  | .fail => none
  | .take n out => (run (xs.drop n)).map fun rest => (out ++ rest.1, rest.2)
termination_by xs.length
decreasing_by
  have inside := S.within xs n out (by assumption)
  rw [List.length_drop]
  omega

theorem run_wait (xs : List β) (decision : S.move xs = .wait) : S.run xs = some ([], xs) := by
  rw [run]
  split <;> simp_all

theorem run_fail (xs : List β) (decision : S.move xs = .fail) : S.run xs = none := by
  rw [run]
  split <;> simp_all

theorem run_take (xs : List β) (n : Nat) (out : List μ) (decision : S.move xs = .take n out) :
    S.run xs = (S.run (xs.drop n)).map fun rest => (out ++ rest.1, rest.2) := by
  rw [run]
  split <;> simp_all

theorem run_drop_ne_none (xs : List β) (n : Nat) (out : List μ) (decision : S.move xs = .take n out)
    (ran : S.run xs ≠ none) : S.run (xs.drop n) ≠ none := by
  rw [S.run_take xs n out decision] at ran
  intro failed
  rw [failed] at ran
  exact ran rfl

/-- Scanning in two parts: what the first leaves is put in front of the second. -/
theorem run_append (xs ys : List β) :
    S.run (xs ++ ys) = (S.run xs).bind fun first =>
      (S.run (first.2 ++ ys)).map fun rest => (first.1 ++ rest.1, rest.2) := by
  induction xs using run.induct S with
  | case1 xs decision => simp [S.run_wait xs decision]
  | case2 xs decision =>
      have same := S.stable xs ys (by simp [decision])
      rw [S.run_fail xs decision, S.run_fail _ (same.trans decision)]
      rfl
  | case3 xs n out decision ih =>
      have same := S.stable xs ys (by simp [decision])
      have inside := (S.within xs n out decision).2
      rw [S.run_take xs n out decision, S.run_take _ n out (same.trans decision),
        List.drop_append_of_le_length inside, ih]
      cases S.run (xs.drop n) with
      | none => rfl
      | some first => simp [Function.comp_def]

theorem run_induction (P : List β → List μ → List β → Prop)
    (wait : ∀ xs, S.move xs = .wait → P xs [] xs)
    (take : ∀ xs n out later rest, S.move xs = .take n out → P (xs.drop n) later rest →
      P xs (out ++ later) rest)
    (xs rest : List β) (out : List μ) (ran : S.run xs = some (out, rest)) : P xs out rest := by
  induction xs using run.induct S generalizing out with
  | case1 xs decision =>
      rw [S.run_wait xs decision] at ran
      obtain ⟨rfl, rfl⟩ := Prod.mk.inj (Option.some.inj ran)
      exact wait xs decision
  | case2 xs decision => simp [S.run_fail xs decision] at ran
  | case3 xs n first decision ih =>
      rw [S.run_take xs n first decision] at ran
      obtain ⟨later, again, same⟩ := Option.map_eq_some_iff.mp ran
      obtain ⟨rfl, rfl⟩ := Prod.mk.inj same
      exact take xs n first later.1 later.2 decision (ih later.1 again)

theorem run_remainder (xs rest : List β) (out : List μ) (ran : S.run xs = some (out, rest)) :
    S.run rest = some ([], rest) := by
  apply S.run_induction (fun _ _ rest => S.run rest = some ([], rest)) _ _ xs rest out ran
  · intro xs decision
    exact S.run_wait xs decision
  · intro _ _ _ _ _ _ settled
    exact settled

/-- The stream arrives in pieces, and each is scanned behind the remainder so far. -/
def feed : List β → List (List β) → Option (List μ × List β)
  | rest, [] => some ([], rest)
  | rest, piece :: pieces =>
      (S.run (rest ++ piece)).bind fun first =>
        (feed first.2 pieces).map fun later => (first.1 ++ later.1, later.2)

/-- Where the stream is cut makes no difference. -/
theorem feed_eq_run (rest : List β) (pieces : List (List β)) (waits : S.run rest = some ([], rest)) :
    S.feed rest pieces = S.run (rest ++ pieces.flatten) := by
  induction pieces generalizing rest with
  | nil => simp [feed, waits]
  | cons piece pieces ih =>
      rw [List.flatten_cons, ← List.append_assoc, S.run_append (rest ++ piece), feed]
      cases ran : S.run (rest ++ piece) with
      | none => rfl
      | some first =>
          have settled := S.run_remainder _ _ _ ran
          simp only [Option.bind_some, ih first.2 settled]

/-- Messages that are recognised whatever follows them are scanned one after the other. -/
theorem run_encoded (encode : μ → List β) (messages : List μ) (rest : List β)
    (recognised : ∀ m ∈ messages, ∀ ys,
      S.move (encode m ++ ys) = .take (encode m).length [m]) :
    S.run (messages.flatMap encode ++ rest) =
      (S.run rest).map fun last => (messages ++ last.1, last.2) := by
  induction messages with
  | nil => simp
  | cons m messages ih =>
      rw [List.flatMap_cons, List.append_assoc,
        S.run_take _ _ _ (recognised m List.mem_cons_self _), List.drop_left,
        ih fun k member => recognised k (List.mem_cons_of_mem _ member)]
      simp [Function.comp_def]

/-- An invariant of the positions: a scan does not fail if no position it comes to does. -/
theorem run_isSome (xs : List β) (Reached : Nat → Prop) (i : Nat) (start : Reached i)
    (inside : i ≤ xs.length) (proceeds : ∀ i, Reached i → S.move (xs.drop i) ≠ .fail)
    (next : ∀ i n out, Reached i → S.move (xs.drop i) = .take n out → Reached (i + n)) :
    (S.run (xs.drop i)).isSome := by
  induction size : xs.length - i using Nat.strong_induction_on generalizing i with
  | _ size ih =>
      cases decision : S.move (xs.drop i) with
      | wait => simp [S.run_wait _ decision]
      | fail => exact absurd decision (proceeds i start)
      | take n out =>
          obtain ⟨positive, bound⟩ := S.within _ n out decision
          rw [List.length_drop] at bound
          rw [S.run_take _ n out decision, Option.isSome_map, List.drop_drop]
          exact ih _ (by omega) (i + n) (next i n out start decision) (by omega) rfl

end Scanner

end DataStructure.Framing
