import Mathlib

/-! The 32-bit `int` and the 64-bit `long` and `size_t` of C, and shifts of signed words. -/

namespace DataStructure.CInt

def toInt (n : Int) : Int := n.bmod (2 ^ 32)

def toSizeT (n : Int) : Nat := (n % 2 ^ 64).toNat

def toLong (n : Int) : Int := n.bmod (2 ^ 64)

/-- The result of an operation on `int` values; `none` stands for an overflow. -/
def checked (n : Int) : Option Int := if -2 ^ 31 ≤ n ∧ n < 2 ^ 31 then some n else none

def index (n : Nat) : Option Nat := (checked n).map Int.toNat

theorem toInt_of_small (n : Int) (lower : -2 ^ 31 ≤ n) (upper : n < 2 ^ 31) : toInt n = n := by
  rw [toInt, Int.bmod_eq_of_le (by omega) (by omega)]

theorem toInt_bounds (n : Int) : -2 ^ 31 ≤ toInt n ∧ toInt n < 2 ^ 31 := by
  rw [toInt, Int.bmod_def]
  split <;> omega

theorem toInt_le (n : Nat) : toInt n ≤ n := by
  rw [toInt, Int.bmod_def]
  split <;> omega

theorem checked_eq_some {n m : Int} : checked n = some m ↔ n = m ∧ -2 ^ 31 ≤ n ∧ n < 2 ^ 31 := by
  rw [checked]
  split
  · next fits =>
      rw [Option.some.injEq, and_iff_left fits]
  · next fails =>
      constructor
      · intro absent
        cases absent
      · intro ⟨_, fits⟩
        exact absurd fits fails

theorem index_eq (n : Nat) : index n = if n < 2 ^ 31 then some n else none := by
  split
  · next small =>
      have fits : checked n = some (n : Int) := checked_eq_some.2 ⟨rfl, by omega, by omega⟩
      rw [index, fits, Option.map_some, Int.toNat_natCast]
  · next large =>
      rw [index, checked, if_neg (by omega), Option.map_none]

theorem toNat_sshiftRight_of_small {w : Nat} (word : BitVec w) (k : Nat)
    (small : word.toNat < 2 ^ (w - 1)) : (word.sshiftRight k).toNat = word.toNat / 2 ^ k := by
  have positive : word.msb = false := by
    rw [BitVec.msb_eq_decide]
    simpa using small
  rw [BitVec.sshiftRight_eq_of_msb_false positive, BitVec.toNat_ushiftRight, Nat.shiftRight_eq_div_pow]

end DataStructure.CInt
