import Mathlib

/-! The numbers of IEEE 754 binary64, with rounding to nearest, and the decimal forms `printf` gives
them.

The two zeros are one value here. So are all the `nan`s: neither their payload nor their sign is
modelled, where glibc prints `-nan` for one with the sign bit set. -/

namespace DataStructure

/-- The finite numbers: 53 bits of significand and an exponent in range. -/
def Representable (q : ℚ) : Prop :=
  ∃ m e : ℤ, |m| < 2 ^ 53 ∧ -1074 ≤ e ∧ e ≤ 971 ∧ q = m * 2 ^ e

inductive Binary64 where
  | nan
  | inf (negative : Bool)
  | finite (value : ℚ) (representable : Representable value)

namespace Binary64

/-- The nearest integer, and of two the even one. -/
def roundEven (q : ℚ) : ℤ :=
  if q - ⌊q⌋ < 1 / 2 then ⌊q⌋
  else if 1 / 2 < q - ⌊q⌋ then ⌊q⌋ + 1
  else if 2 ∣ ⌊q⌋ then ⌊q⌋ else ⌊q⌋ + 1

theorem roundEven_intCast (n : ℤ) : roundEven n = n := by
  rw [roundEven, Int.floor_intCast, if_pos (by norm_num)]

theorem roundEven_between (q : ℚ) : ⌊q⌋ ≤ roundEven q ∧ roundEven q ≤ ⌈q⌉ := by
  have low := Int.floor_le q
  have gap : q - ⌊q⌋ ≠ 0 → ⌊q⌋ + 1 ≤ ⌈q⌉ := by
    intro off
    rw [Int.add_one_le_iff, Int.lt_ceil]
    exact lt_of_le_of_ne low fun same => off (sub_eq_zero.2 same.symm)
  have order : ⌊q⌋ ≤ ⌈q⌉ := Int.floor_le_ceil q
  rw [roundEven]
  split
  · omega
  · next half =>
      have raised := gap (by
        intro zero
        rw [zero] at half
        norm_num at half)
      split
      · omega
      · split <;> omega

theorem abs_roundEven_le {q : ℚ} {n : ℤ} (bound : |q| ≤ n) : |roundEven q| ≤ n := by
  obtain ⟨low, high⟩ := abs_le.1 bound
  obtain ⟨above, below⟩ := roundEven_between q
  have first : -n ≤ ⌊q⌋ := Int.le_floor.2 (by push_cast; exact low)
  have last : ⌈q⌉ ≤ n := Int.ceil_le.2 high
  exact abs_le.2 ⟨by omega, by omega⟩

theorem le_abs_roundEven {q : ℚ} {n : ℤ} (bound : (n : ℚ) ≤ |q|) : n ≤ |roundEven q| := by
  obtain ⟨above, below⟩ := roundEven_between q
  rcases le_abs.1 bound with positive | negative
  · have first : n ≤ ⌊q⌋ := Int.le_floor.2 positive
    exact le_abs.2 (.inl (by omega))
  · have last : ⌈q⌉ ≤ -n := Int.ceil_le.2 (by push_cast; linarith)
    exact le_abs.2 (.inr (by omega))

def ulp (q : ℚ) : ℤ := max (-1074) (Int.log 2 |q| - 52)

def rounded (q : ℚ) : ℚ := roundEven (q / 2 ^ ulp q) * 2 ^ ulp q

theorem two_zpow_pos (e : ℤ) : (0 : ℚ) < 2 ^ e := zpow_pos (by norm_num) e

theorem abs_significand_le (q : ℚ) : |roundEven (q / 2 ^ ulp q)| ≤ 2 ^ 53 := by
  have upper : |q| < 2 ^ (Int.log 2 |q| + 1) := by
    simpa using Int.lt_zpow_succ_log_self (by norm_num : 1 < 2) |q|
  have wide : (2 : ℚ) ^ (Int.log 2 |q| + 1) ≤ 2 ^ (53 + ulp q) := by
    apply zpow_le_zpow_right₀ (by norm_num)
    rw [ulp]
    omega
  have bound : |q / 2 ^ ulp q| ≤ ((2 ^ 53 : ℤ) : ℚ) := by
    rw [abs_div, abs_of_pos (two_zpow_pos _), div_le_iff₀ (two_zpow_pos _)]
    calc
      |q| ≤ 2 ^ (53 + ulp q) := (upper.trans_le wide).le
      _ = ((2 ^ 53 : ℤ) : ℚ) * 2 ^ ulp q := by
        rw [zpow_add₀ (by norm_num)]
        norm_num
  exact abs_roundEven_le bound

theorem le_abs_significand {q : ℚ} (normal : -1074 < ulp q) (nonzero : q ≠ 0) :
    2 ^ 52 ≤ |roundEven (q / 2 ^ ulp q)| := by
  have lower : (2 : ℚ) ^ Int.log 2 |q| ≤ |q| := by
    simpa using Int.zpow_log_le_self (by norm_num : 1 < 2) (abs_pos.2 nonzero)
  have exponent : ulp q = Int.log 2 |q| - 52 := by
    rw [ulp] at normal ⊢
    omega
  have bound : ((2 ^ 52 : ℤ) : ℚ) ≤ |q / 2 ^ ulp q| := by
    rw [abs_div, abs_of_pos (two_zpow_pos _), le_div_iff₀ (two_zpow_pos _)]
    calc
      ((2 ^ 52 : ℤ) : ℚ) * 2 ^ ulp q = 2 ^ (52 + ulp q) := by
        rw [zpow_add₀ (by norm_num)]
        norm_num
      _ = 2 ^ Int.log 2 |q| := by
        rw [exponent]
        congr 1
        omega
      _ ≤ |q| := lower
  exact le_abs_roundEven bound

theorem representable_rounded {q : ℚ} (small : |rounded q| < 2 ^ 1024) :
    Representable (rounded q) := by
  rw [rounded] at small ⊢
  have lowest : -1074 ≤ ulp q := le_max_left _ _
  have size := abs_significand_le q
  rw [abs_mul, abs_of_pos (two_zpow_pos (ulp q))] at small
  rcases size.lt_or_eq with less | full
  · refine ⟨_, _, less, lowest, ?_, rfl⟩
    by_contra large
    have nonzero : q ≠ 0 := by
      intro zero
      subst zero
      rw [ulp] at large
      norm_num at large
    have bits := le_abs_significand (by omega) nonzero
    have huge : (2 : ℚ) ^ 1024 ≤ ((2 ^ 52 : ℤ) : ℚ) * 2 ^ ulp q := by
      calc
        (2 : ℚ) ^ 1024 = 2 ^ (52 + 972 : ℤ) := by norm_num
        _ ≤ 2 ^ (52 + ulp q) := zpow_le_zpow_right₀ (by norm_num) (by omega)
        _ = ((2 ^ 52 : ℤ) : ℚ) * 2 ^ ulp q := by
          rw [zpow_add₀ (by norm_num)]
          norm_num
    have more : ((2 ^ 52 : ℤ) : ℚ) * 2 ^ ulp q ≤ |(roundEven (q / 2 ^ ulp q) : ℚ)| * 2 ^ ulp q := by
      apply mul_le_mul_of_nonneg_right _ (two_zpow_pos _).le
      exact_mod_cast bits
    exact absurd (huge.trans more) (not_le.2 small)
  · -- A significand that was rounded up to `2 ^ 53` moves its exponent.
    have power : |(roundEven (q / 2 ^ ulp q) : ℚ)| * 2 ^ ulp q = 2 ^ (53 + ulp q) := by
      rw [zpow_add₀ (by norm_num), ← Int.cast_abs, full]
      norm_num
    rw [power] at small
    have exponent : 53 + ulp q < 1024 := by
      have less : (2 : ℚ) ^ (53 + ulp q) < 2 ^ (1024 : ℤ) := by exact_mod_cast small
      exact (zpow_lt_zpow_iff_right₀ (by norm_num)).1 less
    have even : ∃ m, |m| < 2 ^ 53 ∧ roundEven (q / 2 ^ ulp q) = m * 2 := by
      rcases abs_eq (by norm_num) |>.1 full with same | same
      · exact ⟨2 ^ 52, by norm_num, by rw [same]; norm_num⟩
      · exact ⟨-2 ^ 52, by norm_num, by rw [same]; norm_num⟩
    obtain ⟨m, less, half⟩ := even
    refine ⟨m, ulp q + 1, less, by omega, by omega, ?_⟩
    rw [half, zpow_add₀ (by norm_num)]
    push_cast
    ring

def nearest (q : ℚ) : Binary64 :=
  if small : |rounded q| < 2 ^ 1024 then .finite (rounded q) (representable_rounded small)
  else .inf (decide (q < 0))

/-- Rounding does not pass a power of two. -/
theorem abs_rounded_le {q : ℚ} {k : ℕ} (bound : |q| ≤ 2 ^ k) : |rounded q| ≤ 2 ^ k := by
  have exponent : ulp q ≤ k := by
    rw [ulp, max_le_iff]
    refine ⟨by omega, ?_⟩
    rcases eq_or_ne q 0 with rfl | nonzero
    · simp
    · have power : |q| < ((2 : ℕ) : ℚ) ^ ((k : ℤ) + 1) := by
        rw [zpow_add_one₀ (by norm_num), zpow_natCast]
        push_cast
        linarith [pow_pos (by norm_num : (0 : ℚ) < 2) k]
      have log := (Int.lt_zpow_iff_log_lt (by norm_num : 1 < 2) (abs_pos.2 nonzero)).1 power
      omega
  obtain ⟨j, rest⟩ : ∃ j : ℕ, (k : ℤ) = j + ulp q := ⟨(k - ulp q).toNat, by omega⟩
  have split : (2 : ℚ) ^ k = ((2 ^ j : ℤ) : ℚ) * 2 ^ ulp q := by
    rw [← zpow_natCast, rest, zpow_add₀ (by norm_num), zpow_natCast]
    push_cast
    rfl
  have scaled : |q / 2 ^ ulp q| ≤ ((2 ^ j : ℤ) : ℚ) := by
    rw [abs_div, abs_of_pos (two_zpow_pos _), div_le_iff₀ (two_zpow_pos _), ← split]
    exact bound
  have significand : |(roundEven (q / 2 ^ ulp q) : ℚ)| ≤ ((2 ^ j : ℤ) : ℚ) := by
    exact_mod_cast abs_roundEven_le scaled
  rw [rounded, abs_mul, abs_of_pos (two_zpow_pos _), split]
  exact mul_le_mul_of_nonneg_right significand (two_zpow_pos _).le

theorem nearest_of_le {q : ℚ} {k : ℕ} (bound : |q| ≤ 2 ^ k) (small : k < 1024) :
    ∃ exact, nearest q = .finite (rounded q) exact := by
  have finite : |rounded q| < 2 ^ 1024 :=
    (abs_rounded_le bound).trans_lt (pow_lt_pow_right₀ (by norm_num) small)
  exact ⟨representable_rounded finite, dif_pos finite⟩

theorem representable_intCast {n : ℤ} (small : |n| < 2 ^ 53) : Representable n :=
  ⟨n, 0, small, by norm_num, by norm_num, by simp⟩

/-- An integer of 53 bits is not rounded. -/
theorem rounded_intCast {n : ℤ} (small : |n| < 2 ^ 53) : rounded n = n := by
  have exponent : ulp (n : ℚ) ≤ 0 := by
    rw [ulp, max_le_iff]
    refine ⟨by norm_num, ?_⟩
    rcases eq_or_ne n 0 with rfl | nonzero
    · simp
    · have positive : (0 : ℚ) < |(n : ℚ)| := abs_pos.2 (by exact_mod_cast nonzero)
      have less : |(n : ℚ)| < ((2 : ℕ) : ℚ) ^ (53 : ℤ) := by exact_mod_cast small
      have log := (Int.lt_zpow_iff_log_lt (by norm_num : 1 < 2) positive).1 less
      omega
  obtain ⟨k, shift⟩ : ∃ k : ℕ, ulp (n : ℚ) = -k := ⟨(-ulp (n : ℚ)).toNat, by omega⟩
  have whole : (n : ℚ) / 2 ^ ulp (n : ℚ) = ((n * 2 ^ k : ℤ) : ℚ) := by
    rw [shift, zpow_neg, zpow_natCast, div_inv_eq_mul]
    push_cast
    rfl
  rw [rounded, whole, roundEven_intCast, shift, zpow_neg, zpow_natCast]
  push_cast
  field_simp

theorem nearest_intCast {n : ℤ} (small : |n| < 2 ^ 53) :
    nearest n = .finite n (representable_intCast small) := by
  have finite : |rounded (n : ℚ)| < 2 ^ 1024 := by
    rw [rounded_intCast small]
    have bound : |(n : ℚ)| < 2 ^ 53 := by exact_mod_cast small
    exact bound.trans (pow_lt_pow_right₀ (by norm_num) (by norm_num))
  rw [nearest, dif_pos finite]
  simp only [rounded_intCast small]

def ofInt (n : ℤ) : Binary64 := nearest n

theorem representable_neg {q : ℚ} (exact : Representable q) : Representable (-q) := by
  obtain ⟨m, e, less, low, high, rfl⟩ := exact
  exact ⟨-m, e, by rwa [abs_neg], low, high, by push_cast; ring⟩

theorem representable_abs {q : ℚ} (exact : Representable q) : Representable |q| := by
  rcases abs_choice q with same | opposite
  · rwa [same]
  · rw [opposite]
    exact representable_neg exact

def neg : Binary64 → Binary64
  | nan => nan
  | inf negative => inf (!negative)
  | finite q exact => finite (-q) (representable_neg exact)

def add : Binary64 → Binary64 → Binary64
  | finite p _, finite q _ => nearest (p + q)
  | inf s, inf t => if s = t then inf s else nan
  | inf s, finite _ _ => inf s
  | finite _ _, inf t => inf t
  | _, _ => nan

def sub (x y : Binary64) : Binary64 := add x (neg y)

def infMul (negative : Bool) (q : ℚ) : Binary64 :=
  if q = 0 then nan else inf (negative != decide (q < 0))

def mul : Binary64 → Binary64 → Binary64
  | finite p _, finite q _ => nearest (p * q)
  | inf s, inf t => inf (s != t)
  | inf s, finite q _ => infMul s q
  | finite p _, inf t => infMul t p
  | _, _ => nan

def fabs : Binary64 → Binary64
  | nan => nan
  | inf _ => inf false
  | finite q exact => finite |q| (representable_abs exact)

def floor : Binary64 → Binary64
  | finite q _ => nearest ⌊q⌋
  | x => x

/-- `x <= y`, which no `nan` satisfies. -/
def le : Binary64 → Binary64 → Bool
  | finite p _, finite q _ => decide (p ≤ q)
  | inf s, inf t => s || !t
  | inf s, finite _ _ => s
  | finite _ _, inf t => !t
  | _, _ => false

def lt : Binary64 → Binary64 → Bool
  | finite p _, finite q _ => decide (p < q)
  | inf s, inf t => s && !t
  | inf s, finite _ _ => s
  | finite _ _, inf t => !t
  | _, _ => false

theorem ofInt_eq {n : ℤ} (small : |n| < 2 ^ 53) : ofInt n = .finite n (representable_intCast small) :=
  nearest_intCast small

theorem ofInt_add {a b : ℤ} (first : |a| < 2 ^ 53) (second : |b| < 2 ^ 53) :
    add (ofInt a) (ofInt b) = ofInt (a + b) := by
  rw [ofInt_eq first, ofInt_eq second, add, ofInt]
  push_cast
  rfl

theorem ofInt_mul {a b : ℤ} (first : |a| < 2 ^ 53) (second : |b| < 2 ^ 53) :
    mul (ofInt a) (ofInt b) = ofInt (a * b) := by
  rw [ofInt_eq first, ofInt_eq second, mul, ofInt]
  push_cast
  rfl

theorem ofInt_le {a b : ℤ} (first : |a| < 2 ^ 53) (second : |b| < 2 ^ 53) :
    le (ofInt a) (ofInt b) = decide (a ≤ b) := by
  rw [ofInt_eq first, ofInt_eq second, le]
  simp

def word (text : String) : List Char := text.toList

def signOf (q : ℚ) : List Char := if q < 0 then ['-'] else []

def special (negative : Bool) : List Char := if negative then word "-inf" else word "inf"

def padded (width n : ℕ) : List Char :=
  List.replicate (width - (Nat.toDigits 10 n).length) '0' ++ Nat.toDigits 10 n

def fixed (precision : ℕ) : Binary64 → List Char
  | nan => word "nan"
  | inf negative => special negative
  | finite q _ =>
      let digits := padded (precision + 1) (roundEven (|q| * 10 ^ precision)).toNat
      let whole := digits.take (digits.length - precision)
      signOf q ++ whole ++ if precision = 0 then [] else '.' :: digits.drop (digits.length - precision)

/-- The decimal exponent and the seven digits that `%e` shows of a positive number. -/
def decimal (q : ℚ) : ℤ × ℕ :=
  let e := Int.log 10 q
  let m := (roundEven (q / 10 ^ (e - 6))).toNat
  if m = 10 ^ 7 then (e + 1, 10 ^ 6) else (e, m)

def scientific : Binary64 → List Char
  | nan => word "nan"
  | inf negative => special negative
  | finite q _ =>
      let (e, m) := if q = 0 then (0, 0) else decimal |q|
      let digits := padded 7 m
      signOf q ++ digits.take 1 ++ '.' :: digits.drop 1 ++
        'e' :: (if e < 0 then '-' else '+') :: padded 2 e.natAbs

theorem padded_length (width n : ℕ) :
    (padded width n).length = max width (Nat.toDigits 10 n).length := by
  rw [padded, List.length_append, List.length_replicate]
  omega

theorem padded_length_le {width n k : ℕ} (positive : 0 < k) (wide : width ≤ k) (small : n < 10 ^ k) :
    (padded width n).length ≤ k := by
  rw [padded_length, max_le_iff]
  exact ⟨wide, (Nat.length_toDigits_le_iff (by norm_num) positive).2 small⟩

theorem signOf_length_le (q : ℚ) : (signOf q).length ≤ 1 := by
  rw [signOf]
  split <;> simp

theorem special_length_le (negative : Bool) : (special negative).length ≤ 4 := by
  cases negative <;> decide

theorem fixed_length_le {precision k : ℕ} {q : ℚ} (exact : Representable q) (bound : |q| ≤ 10 ^ k) :
    (fixed precision (.finite q exact)).length ≤
      k + precision + 2 + if precision = 0 then 0 else 1 := by
  have size : (roundEven (|q| * 10 ^ precision)).toNat < 10 ^ (k + precision + 1) := by
    have scaled : |(|q| * 10 ^ precision)| ≤ ((10 ^ (k + precision) : ℤ) : ℚ) := by
      rw [abs_mul, abs_abs, abs_of_pos (by positivity : (0 : ℚ) < 10 ^ precision)]
      push_cast
      rw [pow_add]
      exact mul_le_mul_of_nonneg_right bound (by positivity)
    have rounded := (abs_le.1 (abs_roundEven_le scaled)).2
    have more : (10 : ℤ) ^ (k + precision) < 10 ^ (k + precision + 1) :=
      pow_lt_pow_right₀ (by norm_num) (by omega)
    have positive : (0 : ℤ) < 10 ^ (k + precision + 1) := by positivity
    zify
    rw [Int.toNat_eq_max]
    omega
  have digits := padded_length_le (by omega) (by omega : precision + 1 ≤ k + precision + 1) size
  have sign := signOf_length_le q
  rw [fixed]
  by_cases whole : precision = 0
  · simp only [if_pos whole, List.length_append, List.length_take, List.length_nil]
    omega
  · simp only [if_neg whole, List.length_append, List.length_take, List.length_cons,
      List.length_drop]
    omega

theorem representable_bounds {q : ℚ} (exact : Representable q) (nonzero : q ≠ 0) :
    (2 : ℚ) ^ (-1074 : ℤ) ≤ |q| ∧ |q| < 2 ^ (1024 : ℤ) := by
  obtain ⟨m, e, less, low, high, rfl⟩ := exact
  have significand : 1 ≤ |m| := by
    apply Int.one_le_abs
    rintro rfl
    simp at nonzero
  rw [abs_mul, abs_of_pos (two_zpow_pos e)]
  have least : (1 : ℚ) ≤ |(m : ℚ)| := by exact_mod_cast significand
  have most : |(m : ℚ)| < 2 ^ (53 : ℤ) := by exact_mod_cast less
  constructor
  · calc
      (2 : ℚ) ^ (-1074 : ℤ) ≤ 2 ^ e := zpow_le_zpow_right₀ (by norm_num) low
      _ ≤ |(m : ℚ)| * 2 ^ e := le_mul_of_one_le_left (two_zpow_pos e).le least
  · calc
      |(m : ℚ)| * 2 ^ e < 2 ^ (53 : ℤ) * 2 ^ e := mul_lt_mul_of_pos_right most (two_zpow_pos e)
      _ = 2 ^ (53 + e) := (zpow_add₀ (by norm_num) _ _).symm
      _ ≤ 2 ^ (1024 : ℤ) := zpow_le_zpow_right₀ (by norm_num) (by omega)

theorem decimal_exponent {q : ℚ} (exact : Representable q) (nonzero : q ≠ 0) :
    (decimal |q|).1.natAbs < 10 ^ 3 := by
  obtain ⟨low, high⟩ := representable_bounds exact nonzero
  have positive : 0 < |q| := abs_pos.2 nonzero
  have upper : Int.log 10 |q| < 309 := by
    rw [← Int.lt_zpow_iff_log_lt (by norm_num) positive]
    have power : 2 ^ 1024 < 10 ^ 309 := by decide +kernel
    exact high.trans (by exact_mod_cast power)
  have lower : -324 ≤ Int.log 10 |q| := by
    rw [← Int.zpow_le_iff_le_log (by norm_num) positive]
    have power : 2 ^ 1074 ≤ 10 ^ 324 := by decide +kernel
    have cast : (2 : ℚ) ^ 1074 ≤ 10 ^ 324 := by exact_mod_cast power
    refine le_trans ?_ low
    rw [zpow_neg, zpow_neg]
    exact inv_anti₀ (by positivity) (by exact_mod_cast cast)
  rw [decimal]
  split <;> dsimp only <;> omega

theorem decimal_digits (q : ℚ) (positive : 0 < q) : (decimal q).2 < 10 ^ 7 := by
  have upper : q < 10 ^ (Int.log 10 q + 1) := by
    simpa using Int.lt_zpow_succ_log_self (by norm_num : 1 < 10) q
  have unit : (0 : ℚ) < 10 ^ (Int.log 10 q - 6) := zpow_pos (by norm_num) _
  have scaled : |q / 10 ^ (Int.log 10 q - 6)| ≤ ((10 ^ 7 : ℤ) : ℚ) := by
    rw [abs_of_pos (div_pos positive unit), div_le_iff₀ unit]
    calc
      q ≤ 10 ^ (Int.log 10 q + 1) := upper.le
      _ = 10 ^ (7 + (Int.log 10 q - 6)) := by
        congr 1
        omega
      _ = ((10 ^ 7 : ℤ) : ℚ) * 10 ^ (Int.log 10 q - 6) := by
        rw [zpow_add₀ (by norm_num)]
        norm_num
  have most := (abs_le.1 (abs_roundEven_le scaled)).2
  rw [decimal]
  split
  · norm_num
  · dsimp only
    omega

theorem scientific_length_le (x : Binary64) : (scientific x).length ≤ 14 := by
  cases x with
  | nan => decide
  | inf negative => exact (special_length_le negative).trans (by norm_num)
  | finite q exact =>
      have sign := signOf_length_le q
      have shown : ∀ (e : ℤ) (m : ℕ), e.natAbs < 10 ^ 3 → m < 10 ^ 7 →
          (signOf q ++ (padded 7 m).take 1 ++ '.' :: (padded 7 m).drop 1 ++
            'e' :: (if e < 0 then '-' else '+') :: padded 2 e.natAbs).length ≤ 14 := by
        intro e m exponent digits
        have first := padded_length_le (by norm_num) (by norm_num : 7 ≤ 7) digits
        have second := padded_length_le (by norm_num) (by norm_num : 2 ≤ 3) exponent
        simp only [List.length_append, List.length_cons, List.length_take, List.length_drop]
        omega
      rw [scientific]
      split
      next e m shape =>
        rcases eq_or_ne q 0 with zero | nonzero
        · rw [if_pos zero] at shape
          cases shape
          exact shown 0 0 (by norm_num) (by norm_num)
        · rw [if_neg nonzero] at shape
          have exponent := decimal_exponent exact nonzero
          have digits := decimal_digits |q| (abs_pos.2 nonzero)
          rw [shape] at exponent digits
          exact shown e m exponent digits

def numeral (c : Char) : Bool := c.isDigit || c ∈ ['-', '+', '.', 'e', 'i', 'n', 'f', 'a']

theorem numeral_signOf {q : ℚ} {c : Char} (inside : c ∈ signOf q) : numeral c = true := by
  rw [signOf] at inside
  split at inside
  · rw [List.mem_singleton.1 inside]
    decide
  · cases inside

theorem numeral_special {negative : Bool} {c : Char} (inside : c ∈ special negative) :
    numeral c = true := by
  have letters : c ∈ ['-', 'i', 'n', 'f'] := by
    cases negative with
    | true => exact inside
    | false => exact List.mem_cons_of_mem '-' inside
  simp only [List.mem_cons, List.not_mem_nil, or_false] at letters
  rcases letters with rfl | rfl | rfl | rfl <;> rfl

theorem numeral_nan {c : Char} (inside : c ∈ word "nan") : numeral c = true := by
  have letters : c ∈ ['n', 'a', 'n'] := inside
  simp only [List.mem_cons, List.not_mem_nil, or_false] at letters
  rcases letters with rfl | rfl | rfl <;> rfl

theorem numeral_padded {width n : ℕ} {c : Char} (inside : c ∈ padded width n) : numeral c = true := by
  have digit : c.isDigit := by
    rcases List.mem_append.1 inside with zero | shown
    · rw [List.eq_of_mem_replicate zero]
      decide
    · exact Nat.isDigit_of_mem_toDigits (by norm_num) le_rfl shown
  rw [numeral, digit, Bool.true_or]

theorem numeral_fixed {precision : ℕ} {x : Binary64} {c : Char} (inside : c ∈ fixed precision x) :
    numeral c = true := by
  cases x with
  | nan => exact numeral_nan inside
  | inf negative => exact numeral_special inside
  | finite q exact =>
      rcases List.mem_append.1 inside with front | fraction
      · rcases List.mem_append.1 front with sign | whole
        · exact numeral_signOf sign
        · exact numeral_padded (List.mem_of_mem_take whole)
      · split at fraction
        · cases fraction
        · rcases List.mem_cons.1 fraction with rfl | digit
          · decide
          · exact numeral_padded (List.mem_of_mem_drop digit)

theorem numeral_scientific {x : Binary64} {c : Char} (inside : c ∈ scientific x) : numeral c = true := by
  cases x with
  | nan => exact numeral_nan inside
  | inf negative => exact numeral_special inside
  | finite q exact =>
      rw [scientific] at inside
      split at inside
      next e m shape =>
        rcases List.mem_append.1 inside with front | exponent
        · rcases List.mem_append.1 front with first | fraction
          · rcases List.mem_append.1 first with sign | digit
            · exact numeral_signOf sign
            · exact numeral_padded (List.mem_of_mem_take digit)
          · rcases List.mem_cons.1 fraction with rfl | digit
            · decide
            · exact numeral_padded (List.mem_of_mem_drop digit)
        · rcases List.mem_cons.1 exponent with rfl | signed
          · decide
          · rcases List.mem_cons.1 signed with rfl | digit
            · split <;> decide
            · exact numeral_padded digit

end Binary64

end DataStructure
