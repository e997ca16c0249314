import Mathlib

/-! The integer part of a scaled sine of a whole number of radians.

The powers of one Gaussian rational close to `exp i` approximate `exp (n * i)` with an
error that grows linearly, so that the digits of `|sin n|` can be read off integers. -/

namespace DataStructure.Sine

open Complex

/-- Sixteen decimal digits of the cosine and of the sine of one radian, cut off. -/
def cosOne : Int := 5403023058681397

def sinOne : Int := 8414709848078965

def unit : Int := 10 ^ 16

def accuracy : Int := 10 ^ 15

def turn : Nat → Int × Int
  | 0 => (1, 0)
  | n + 1 => ((turn n).1 * cosOne - (turn n).2 * sinOne, (turn n).1 * sinOne + (turn n).2 * cosOne)

noncomputable def approximant : ℂ := ⟨cosOne / unit, sinOne / unit⟩

theorem turn_eq_pow (n : Nat) :
    (⟨(turn n).1 / (unit : ℝ) ^ n, (turn n).2 / (unit : ℝ) ^ n⟩ : ℂ) = approximant ^ n := by
  induction n with
  | zero => simp [turn, Complex.ext_iff]
  | succ n ih =>
      have nonzero : (unit : ℝ) ≠ 0 := by norm_num [unit]
      rw [pow_succ approximant n, ← ih]
      apply Complex.ext
      · simp only [turn, approximant, mul_re, Int.cast_sub, Int.cast_mul]
        field_simp
        ring
      · simp only [turn, approximant, mul_im, Int.cast_add, Int.cast_mul]
        field_simp
        ring

theorem norm_approximant : ‖approximant‖ ≤ 1 := by
  rw [Complex.norm_def, Real.sqrt_le_one]
  norm_num [Complex.normSq_apply, approximant, cosOne, sinOne, unit]

theorem taylor_close :
    ‖(∑ m ∈ Finset.range 18, I ^ m / (m.factorial : ℂ)) - approximant‖ ≤ 3 / 10 ^ 16 := by
  have terms : (∑ m ∈ Finset.range 18, I ^ m / (m.factorial : ℂ)) =
      ⟨11304631621681 / 20922789888000,
        23023126954133 / 27360571392000⟩ := by
    simp [Finset.sum_range_succ, Nat.factorial, Complex.ext_iff, pow_succ]
    norm_num
  rw [terms]
  calc ‖_ - approximant‖
      ≤ |_| + |_| := Complex.norm_le_abs_re_add_abs_im _
    _ ≤ 3 / 10 ^ 16 := by
        norm_num [approximant, cosOne, sinOne, unit, abs_le]

theorem approximant_close : ‖exp I - approximant‖ ≤ 1 / 10 ^ 15 := by
  have cut := Complex.exp_bound (x := I) (by simp) (n := 18) (by norm_num)
  calc ‖exp I - approximant‖
      ≤ ‖exp I - ∑ m ∈ Finset.range 18, I ^ m / (m.factorial : ℂ)‖ +
          ‖(∑ m ∈ Finset.range 18, I ^ m / (m.factorial : ℂ)) - approximant‖ :=
        norm_sub_le_norm_sub_add_norm_sub _ _ _
    _ ≤ ‖I‖ ^ 18 * ((Nat.succ 18 : ℝ) * ((Nat.factorial 18 : ℝ) * (18 : ℕ))⁻¹) + 3 / 10 ^ 16 :=
        add_le_add cut taylor_close
    _ ≤ 1 / 10 ^ 15 := by
        norm_num [Nat.factorial]

theorem norm_pow_sub_pow (w z : ℂ) (inside : ‖w‖ ≤ 1) (inside' : ‖z‖ ≤ 1) (n : Nat) :
    ‖w ^ n - z ^ n‖ ≤ n * ‖w - z‖ := by
  induction n with
  | zero => simp
  | succ n ih =>
      have split : w ^ (n + 1) - z ^ (n + 1) = w ^ n * (w - z) + (w ^ n - z ^ n) * z := by ring
      have first : ‖w ^ n * (w - z)‖ ≤ ‖w - z‖ := by
        rw [norm_mul, norm_pow]
        exact mul_le_of_le_one_left (norm_nonneg _) (pow_le_one₀ (norm_nonneg w) inside)
      have second : ‖(w ^ n - z ^ n) * z‖ ≤ ‖w ^ n - z ^ n‖ := by
        rw [norm_mul]
        exact mul_le_of_le_one_right (norm_nonneg _) inside'
      calc ‖w ^ (n + 1) - z ^ (n + 1)‖
          ≤ ‖w ^ n * (w - z)‖ + ‖(w ^ n - z ^ n) * z‖ := split ▸ norm_add_le _ _
        _ ≤ ‖w - z‖ + n * ‖w - z‖ := add_le_add first (second.trans ih)
        _ = (n + 1 : Nat) * ‖w - z‖ := by push_cast; ring

theorem sin_close (n : Nat) :
    |Real.sin n - (turn n).2 / (unit : ℝ) ^ n| ≤ n / accuracy := by
  have wave : exp I ^ n = exp (n * I) := (Complex.exp_nat_mul I n).symm
  have apart := norm_pow_sub_pow (exp I) approximant (by simp [Complex.norm_exp]) norm_approximant n
  rw [wave, ← turn_eq_pow] at apart
  have imaginary := (Complex.abs_im_le_norm _).trans apart
  have wanted : (exp (n * I)).im = Real.sin n := by
    rw [Complex.exp_im]
    simp
  rw [Complex.sub_im, wanted] at imaginary
  calc |Real.sin n - (turn n).2 / (unit : ℝ) ^ n|
      ≤ n * ‖exp I - approximant‖ := imaginary
    _ ≤ n * (1 / 10 ^ 15) := mul_le_mul_of_nonneg_left approximant_close n.cast_nonneg
    _ = n / accuracy := by
        norm_num [accuracy]
        ring

/-- An integer part is fixed once the distance of an approximation to the integers
around it exceeds the error. -/
theorem floor_of_close (x y error : ℝ) (digits : Nat) (close : |x - y| ≤ error)
    (lower : digits + error ≤ y) (upper : y < digits + 1 - error) : ⌊x⌋₊ = digits := by
  have bounds := abs_le.1 close
  have nonnegative : 0 ≤ x := by
    have least : (0 : ℝ) ≤ digits := digits.cast_nonneg
    linarith
  rw [Nat.floor_eq_iff nonnegative]
  constructor
  · linarith
  · linarith

def Pinned (scale n digits : Nat) : Prop :=
  (digits * accuracy + scale * n) * unit ^ n ≤ scale * accuracy * |(turn n).2| ∧
    scale * accuracy * |(turn n).2| < ((digits + 1) * accuracy - scale * n) * unit ^ n

instance (scale n digits : Nat) : Decidable (Pinned scale n digits) :=
  inferInstanceAs (Decidable (_ ∧ _))

theorem floor_sin (scale n digits : Nat) (pinned : Pinned scale n digits) :
    ⌊scale * |Real.sin n|⌋₊ = digits := by
  have positive : (0 : ℝ) < (unit : ℝ) ^ n := by
    apply pow_pos
    norm_num [unit]
  have fine : (0 : ℝ) < accuracy := by norm_num [accuracy]
  have close : |(|Real.sin n| - |((turn n).2 : ℝ)| / (unit : ℝ) ^ n)| ≤ n / accuracy := by
    have apart := (abs_abs_sub_abs_le _ _).trans (sin_close n)
    rwa [abs_div, abs_of_pos positive] at apart
  have lower : ((digits * accuracy + scale * n) * (unit : ℝ) ^ n : ℝ) ≤
      scale * accuracy * |((turn n).2 : ℝ)| := by
    exact_mod_cast pinned.1
  have upper : (scale * accuracy * |((turn n).2 : ℝ)| : ℝ) <
      ((digits + 1) * accuracy - scale * n) * (unit : ℝ) ^ n := by
    exact_mod_cast pinned.2
  apply floor_of_close _ (scale * (|((turn n).2 : ℝ)| / (unit : ℝ) ^ n)) (scale * (n / accuracy))
  · rw [← mul_sub, abs_mul, abs_of_nonneg (scale.cast_nonneg : (0 : ℝ) ≤ scale)]
    exact mul_le_mul_of_nonneg_left close scale.cast_nonneg
  · field_simp
    linarith
  · field_simp
    linarith

end DataStructure.Sine
