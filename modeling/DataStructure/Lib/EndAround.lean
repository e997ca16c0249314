import Mathlib

/-! Sums with end-around carry.

Adding the high part of a sum to its low part keeps its remainder modulo `base - 1`, and a sum
other than zero never becomes zero. A word of two digits, exchanged, is multiplied by the digits'
base modulo the same number, so that the order of the digits does not matter to the sum. -/

namespace DataStructure.EndAround

/-- The two carries that bring a sum of up to two digits to the base down to one digit. -/
def fold (base sum : Nat) : Nat :=
  (sum / base + sum % base + (sum / base + sum % base) / base) % base

section Fold

variable {base sum : Nat}

theorem fold_lt (positive : 0 < base) : fold base sum < base :=
  Nat.mod_lt _ positive

/-- The folded sum is the sum of the two parts, less `base - 1` if that needs a second digit. -/
theorem fold_eq (two : 2 ≤ base) (small : sum < base * base) :
    fold base sum = if sum / base + sum % base < base then sum / base + sum % base
      else sum / base + sum % base - (base - 1) := by
  have high : sum / base < base := Nat.div_lt_of_lt_mul small
  have low : sum % base < base := Nat.mod_lt _ (by omega)
  rw [fold]
  split
  · next fits => rw [Nat.div_eq_of_lt fits, Nat.add_zero, Nat.mod_eq_of_lt fits]
  · next carries =>
      have one : (sum / base + sum % base) / base = 1 := by
        apply Nat.div_eq_of_lt_le <;> omega
      rw [one, Nat.mod_eq_sub_mod (by omega), Nat.mod_eq_of_lt (by omega)]
      omega

theorem fold_modEq (two : 2 ≤ base) (small : sum < base * base) :
    fold base sum ≡ sum [MOD base - 1] := by
  have unit : base ≡ 1 [MOD base - 1] := by
    refine (Nat.modEq_of_dvd ?_).symm
    exact ⟨1, by omega⟩
  have parts : sum / base + sum % base ≡ sum [MOD base - 1] := by
    calc
      sum / base + sum % base = 1 * (sum / base) + sum % base := by rw [Nat.one_mul]
      _ ≡ base * (sum / base) + sum % base [MOD base - 1] :=
        (unit.symm.mul_right _).add_right _
      _ = sum := Nat.div_add_mod sum base
  refine Nat.ModEq.trans ?_ parts
  rw [fold_eq two small]
  split
  · rfl
  · next carries =>
      refine Nat.modEq_of_dvd ⟨1, ?_⟩
      push_cast [show base - 1 ≤ sum / base + sum % base by omega]
      omega

theorem fold_eq_zero (two : 2 ≤ base) (small : sum < base * base) : fold base sum = 0 ↔ sum = 0 := by
  have whole := Nat.div_add_mod sum base
  constructor
  · intro zero
    rw [fold_eq two small] at zero
    split at zero
    · obtain ⟨high, low⟩ := Nat.add_eq_zero_iff.1 zero
      rw [high, low, Nat.mul_zero] at whole
      exact whole.symm
    · omega
  · rintro rfl
    simp [fold]

end Fold

theorem digit_unique {base x y : Nat} (ltX : x < base) (ltY : y < base)
    (same : x ≡ y [MOD base - 1]) (zero : x = 0 ↔ y = 0) : x = y := by
  by_cases none : x = 0
  · rw [none, zero.1 none]
  have some : y ≠ 0 := fun none' => none (zero.2 none')
  rw [← Nat.sub_add_cancel (Nat.pos_of_ne_zero none), ← Nat.sub_add_cancel (Nat.pos_of_ne_zero some)]
    at same ⊢
  have before : x - 1 ≡ y - 1 [MOD base - 1] := Nat.ModEq.add_right_cancel' 1 same
  rw [Nat.ModEq.eq_of_lt_of_lt before (by omega) (by omega)]

/-- With the complement of its folded value added, a sum folds to the greatest digit. -/
theorem fold_complement {base sum : Nat} (two : 2 ≤ base)
    (small : sum + (base - 1 - fold base sum) < base * base) :
    fold base (sum + (base - 1 - fold base sum)) = base - 1 := by
  have positive : 0 < base := by omega
  have below : fold base sum < base := fold_lt positive
  have part : sum < base * base := by omega
  have zero := fold_eq_zero two part
  apply digit_unique (fold_lt positive) (by omega)
  · calc
      fold base (sum + (base - 1 - fold base sum)) ≡
          sum + (base - 1 - fold base sum) [MOD base - 1] := fold_modEq two small
      _ ≡ fold base sum + (base - 1 - fold base sum) [MOD base - 1] :=
        (fold_modEq two part).symm.add_right _
      _ = base - 1 := by omega
  · rw [fold_eq_zero two small]
    omega

def swap (digit word : Nat) : Nat := word % digit * digit + word / digit

section Swap

variable {digit word : Nat}

theorem swap_div (small : word < digit * digit) : swap digit word / digit = word % digit := by
  have high : word / digit < digit := Nat.div_lt_of_lt_mul small
  rw [swap, Nat.add_comm, Nat.add_mul_div_right _ _ (Nat.pos_of_ne_zero (by rintro rfl; simp at small)),
    Nat.div_eq_of_lt high, Nat.zero_add]

theorem swap_mod (small : word < digit * digit) : swap digit word % digit = word / digit := by
  have high : word / digit < digit := Nat.div_lt_of_lt_mul small
  rw [swap, Nat.add_comm, Nat.add_mul_mod_self_right, Nat.mod_eq_of_lt high]

theorem swap_lt (small : word < digit * digit) : swap digit word < digit * digit := by
  have positive : 0 < digit := by
    by_contra none
    obtain rfl : digit = 0 := by omega
    omega
  have high : word / digit < digit := Nat.div_lt_of_lt_mul small
  have low : word % digit + 1 ≤ digit := Nat.mod_lt _ positive
  calc
    swap digit word < word % digit * digit + digit := by rw [swap]; omega
    _ = (word % digit + 1) * digit := by rw [Nat.add_mul, Nat.one_mul]
    _ ≤ digit * digit := Nat.mul_le_mul_right digit low

theorem swap_eq_zero (positive : 0 < digit) : swap digit word = 0 ↔ word = 0 := by
  rw [swap, Nat.add_eq_zero_iff, Nat.mul_eq_zero]
  constructor
  · rintro ⟨low | none, high⟩
    · rw [← Nat.div_add_mod word digit, high, low, Nat.mul_zero]
    · omega
  · rintro rfl
    simp

theorem swap_modEq (positive : 0 < digit) : swap digit word ≡ digit * word [MOD digit * digit - 1] := by
  have unit : digit * digit ≡ 1 [MOD digit * digit - 1] := by
    refine (Nat.modEq_of_dvd ⟨1, ?_⟩).symm
    have : 1 ≤ digit * digit := Nat.mul_pos positive positive
    push_cast [this]
    omega
  calc
    swap digit word = digit * (word % digit) + 1 * (word / digit) := by
      rw [swap, Nat.mul_comm, Nat.one_mul]
    _ ≡ digit * (word % digit) + digit * digit * (word / digit) [MOD digit * digit - 1] :=
      (unit.symm.mul_right _).add_left _
    _ = digit * (digit * (word / digit) + word % digit) := by ring
    _ = digit * word := by rw [Nat.div_add_mod]

/-- Sums that agree up to the digits' base fold to words that are each other's exchange. -/
theorem fold_swap {s t : Nat} (two : 2 ≤ digit) (smallS : s < digit * digit * (digit * digit))
    (smallT : t < digit * digit * (digit * digit)) (zero : s = 0 ↔ t = 0)
    (shifted : t ≡ digit * s [MOD digit * digit - 1]) :
    fold (digit * digit) t = swap digit (fold (digit * digit) s) := by
  have positive : 0 < digit * digit := by positivity
  have base : 2 ≤ digit * digit := by nlinarith
  apply digit_unique (fold_lt positive) (swap_lt (fold_lt positive))
  · calc
      fold (digit * digit) t ≡ t [MOD digit * digit - 1] := fold_modEq base smallT
      _ ≡ digit * s [MOD digit * digit - 1] := shifted
      _ ≡ digit * fold (digit * digit) s [MOD digit * digit - 1] :=
        (fold_modEq base smallS).symm.mul_left digit
      _ ≡ swap digit (fold (digit * digit) s) [MOD digit * digit - 1] :=
        (swap_modEq (by omega)).symm
  · rw [fold_eq_zero base smallT, swap_eq_zero (by omega), fold_eq_zero base smallS, zero]

end Swap

end DataStructure.EndAround
