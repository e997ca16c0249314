import DataStructure.Lib.CInt
import DataStructure.Lib.Partial

/-! The ranges of `socket/libcurl/multithreaddownload.c`, one for each thread.

An `int` has 32 bits and a `long` 64. `none` stands for the overflow of an `int`. -/

namespace DataStructure.RangeSplit

open DataStructure.CInt DataStructure.Partial

structure TNode where
  startidx : Nat
  maxidx : Nat
  deriving DecidableEq, Repr

def rangeOf (threadNum gap fileLength i : Int) : Option TNode :=
  if i < threadNum then do
    let start ← checked (i * gap)
    let next ← checked (i + 1)
    let stop ← checked (next * gap)
    let last ← checked (stop - 1)
    some ⟨toSizeT start, toSizeT last⟩
  else do
    let start ← checked (i * gap)
    some ⟨toSizeT start, toSizeT fileLength⟩

/-- `int gap = fileLength / (threadNum+1);` -/
def gapOf (threadNum fileLength : Int) : Int := toInt (fileLength.tdiv (threadNum + 1))

def download (threadNum : Nat) (fileLength : Int) : Option (List TNode) := do
  let _ ← checked (threadNum + 1)
  (List.range (threadNum + 1)).mapM fun (i : Nat) =>
    rangeOf threadNum (gapOf threadNum fileLength) fileLength i

def TNode.Covers (node : TNode) (fileLength : Int) (x : Nat) : Prop :=
  node.startidx ≤ x ∧ x ≤ node.maxidx ∧ (x : Int) < fileLength

def Splits (fileLength : Int) (nodes : List TNode) : Prop :=
  nodes.Pairwise (fun a b => ∀ x, ¬(a.Covers fileLength x ∧ b.Covers fileLength x)) ∧
    ∀ x : Nat, (x : Int) < fileLength ↔ ∃ node ∈ nodes, node.Covers fileLength x

def Divides (threadNum : Nat) (fileLength : Int) : Prop :=
  ∃ nodes, download threadNum fileLength = some nodes ∧ nodes.length = threadNum + 1 ∧
    Splits fileLength nodes

def node (threadNum : Nat) (gap fileLength : Int) (i : Nat) : TNode :=
  ⟨toSizeT (i * gap),
    toSizeT (if i < threadNum then (i + 1) * gap - 1 else fileLength)⟩

theorem multiple_between {n : Nat} {gap : Int} (fits : |n * gap| < 2 ^ 31) (i : Nat) (inside : i ≤ n) :
    -2 ^ 31 < i * gap ∧ i * gap < 2 ^ 31 := by
  have bound : |(i : Int) * gap| ≤ |n * gap| := by
    rw [abs_mul, abs_mul]
    apply mul_le_mul_of_nonneg_right _ (abs_nonneg gap)
    simpa using inside
  rw [← abs_lt]
  omega

theorem rangeOf_eq {n : Nat} {gap fileLength : Int} (small : (n : Int) + 1 < 2 ^ 31)
    (fits : |n * gap| < 2 ^ 31) (i : Nat) (inside : i ≤ n) :
    rangeOf n gap fileLength i = some (node n gap fileLength i) := by
  have here := multiple_between fits i inside
  have start : checked (i * gap) = some (i * gap) := checked_eq_some.2 ⟨rfl, here.1.le, here.2⟩
  rw [rangeOf, node]
  by_cases before : i < n
  · have there := multiple_between fits (i + 1) before
    push_cast at there
    have next : checked (i + 1) = some (i + 1 : Int) := checked_eq_some.2 ⟨rfl, by omega, by omega⟩
    have stop : checked ((i + 1) * gap) = some ((i + 1) * gap) :=
      checked_eq_some.2 ⟨rfl, there.1.le, there.2⟩
    have last : checked ((i + 1) * gap - 1) = some ((i + 1) * gap - 1) :=
      checked_eq_some.2 ⟨rfl, by omega, by omega⟩
    rw [if_pos (by exact_mod_cast before), if_pos before]
    simp [start, next, stop, last]
  · rw [if_neg (by exact_mod_cast before), if_neg before]
    simp [start]

theorem download_eq {n : Nat} {fileLength : Int} (small : (n : Int) + 1 < 2 ^ 31)
    (fits : |n * gapOf n fileLength| < 2 ^ 31) :
    download n fileLength =
      some ((List.range (n + 1)).map (node n (gapOf n fileLength) fileLength)) := by
  have threads : checked (n + 1) = some (n + 1 : Int) := checked_eq_some.2 ⟨rfl, by omega, small⟩
  rw [download, threads, Option.bind_eq_bind, Option.bind_some]
  apply mapM_eq_some
  intro i inside
  exact rangeOf_eq small fits i (Nat.lt_succ_iff.1 (List.mem_range.1 inside))

theorem fits_of_download {n : Nat} {fileLength : Int} {nodes : List TNode} (several : 0 < n)
    (ran : download n fileLength = some nodes) :
    (n : Int) + 1 < 2 ^ 31 ∧ |n * gapOf n fileLength| < 2 ^ 31 := by
  rw [download, Option.bind_eq_bind] at ran
  obtain ⟨threads, counted, rest⟩ := Option.bind_eq_some_iff.1 ran
  obtain ⟨rfl, _, small⟩ := checked_eq_some.1 counted
  refine ⟨small, ?_⟩
  obtain ⟨before, made⟩ := mapM_defined _ _ _ rest (n - 1) (List.mem_range.2 (by omega))
  have earlier : ((n - 1 : Nat) : Int) < n := by omega
  rw [rangeOf, if_pos earlier] at made
  obtain ⟨_, _, made⟩ := Option.bind_eq_some_iff.1 made
  obtain ⟨_, next, made⟩ := Option.bind_eq_some_iff.1 made
  obtain ⟨_, stop, made⟩ := Option.bind_eq_some_iff.1 made
  obtain ⟨_, last, made⟩ := Option.bind_eq_some_iff.1 made
  obtain ⟨rfl, _⟩ := checked_eq_some.1 next
  obtain ⟨rfl, _, upper⟩ := checked_eq_some.1 stop
  obtain ⟨_, lower, _⟩ := checked_eq_some.1 last
  have count : ((n - 1 : Nat) : Int) + 1 = n := by omega
  rw [count] at upper lower
  rw [abs_lt]
  constructor
  · omega
  · exact upper

theorem toSizeT_of_nonneg {n : Int} (nonneg : 0 ≤ n) (small : n < 2 ^ 64) :
    (toSizeT n : Int) = n := by
  rw [toSizeT]
  omega

theorem toSizeT_of_neg {n : Int} (neg : n < 0) (small : -2 ^ 31 ≤ n) :
    (toSizeT n : Int) = n + 2 ^ 64 := by
  rw [toSizeT]
  omega

section Ranges

variable {n : Nat} {gap fileLength : Int} (long : fileLength < 2 ^ 63)
  (fits : |n * gap| < 2 ^ 31)
include long fits

theorem covers_iff_of_pos (positive : 0 < gap) (nonempty : 0 < fileLength) (i : Nat) (inside : i ≤ n)
    (x : Nat) : (node n gap fileLength i).Covers fileLength x ↔
      i * gap ≤ x ∧ (i < n → (x : Int) < (i + 1) * gap) ∧ (x : Int) < fileLength := by
  have here := multiple_between fits i inside
  have start : (toSizeT (i * gap) : Int) = i * gap :=
    toSizeT_of_nonneg (by positivity) (by omega)
  rw [TNode.Covers, node]
  dsimp only
  by_cases before : i < n
  · have there := multiple_between fits (i + 1) before
    push_cast at there
    have step : (i + 1 : Int) * gap = i * gap + gap := by ring
    have nonneg : (0 : Int) ≤ i * gap := by positivity
    have stop : (toSizeT ((i + 1) * gap - 1) : Int) = (i + 1) * gap - 1 :=
      toSizeT_of_nonneg (by omega) (by omega)
    rw [if_pos before]
    constructor
    · rintro ⟨lower, upper, within⟩
      exact ⟨by omega, fun _ => by omega, within⟩
    · rintro ⟨lower, upper, within⟩
      have := upper before
      exact ⟨by omega, by omega, within⟩
  · have stop : (toSizeT fileLength : Int) = fileLength :=
      toSizeT_of_nonneg (by omega) (by omega)
    rw [if_neg before]
    constructor
    · rintro ⟨lower, upper, within⟩
      exact ⟨by omega, fun early => absurd early before, within⟩
    · rintro ⟨lower, _, within⟩
      exact ⟨by omega, by omega, within⟩

theorem splits_of_pos (positive : 0 < gap) (nonempty : 0 < fileLength) :
    Splits fileLength ((List.range (n + 1)).map (node n gap fileLength)) := by
  constructor
  · rw [List.pairwise_map]
    refine List.Pairwise.imp_of_mem ?_ List.pairwise_lt_range
    rintro i j memberI memberJ order x ⟨first, second⟩
    rw [List.mem_range] at memberI memberJ
    rw [covers_iff_of_pos long fits positive nonempty i (by omega)] at first
    rw [covers_iff_of_pos long fits positive nonempty j (by omega)] at second
    have upper := first.2.1 (by omega)
    have next : (i + 1 : Int) * gap ≤ j * gap :=
      mul_le_mul_of_nonneg_right (by exact_mod_cast order) positive.le
    omega
  · intro x
    constructor
    · intro within
      have whole := Int.mul_ediv_add_emod x gap
      have remainder := Int.emod_lt_of_pos x positive
      have nonneg := Int.emod_nonneg x positive.ne'
      have quotient : (0 : Int) ≤ x / gap := Int.ediv_nonneg (by omega) positive.le
      obtain ⟨k, count⟩ := Int.eq_ofNat_of_zero_le quotient
      rw [count] at whole
      -- the quotient tells the thread, unless the last one has the byte
      by_cases early : k < n
      · refine ⟨_, List.mem_map.2 ⟨k, List.mem_range.2 (by omega), rfl⟩, ?_⟩
        rw [covers_iff_of_pos long fits positive nonempty k early.le]
        have step : (k + 1 : Int) * gap = gap * k + gap := by ring
        have swapped : (k : Int) * gap = gap * k := mul_comm _ _
        exact ⟨by omega, fun _ => by omega, within⟩
      · refine ⟨_, List.mem_map.2 ⟨n, List.mem_range.2 (by omega), rfl⟩, ?_⟩
        rw [covers_iff_of_pos long fits positive nonempty n le_rfl]
        have order : (n : Int) * gap ≤ k * gap :=
          mul_le_mul_of_nonneg_right (by exact_mod_cast not_lt.1 early) positive.le
        have swapped : (k : Int) * gap = gap * k := mul_comm _ _
        exact ⟨by omega, fun strict => absurd strict (lt_irrefl n), within⟩
    · rintro ⟨_, _, _, _, within⟩
      exact within

/-- With a negative gap the first thread has the whole file and the others nothing. -/
theorem covers_iff_of_neg (negative : gap < 0) (nonempty : 0 < fileLength) (i : Nat) (inside : i ≤ n)
    (x : Nat) : (node n gap fileLength i).Covers fileLength x ↔ i = 0 ∧ (x : Int) < fileLength := by
  have here := multiple_between fits i inside
  rw [TNode.Covers, node]
  dsimp only
  by_cases first : i = 0
  · subst first
    have start : toSizeT ((0 : Nat) * gap) = 0 := by simp [toSizeT]
    have stop : fileLength ≤ toSizeT (if 0 < n then ((0 : Nat) + 1 : Int) * gap - 1 else fileLength) := by
      by_cases several : 0 < n
      · have there := multiple_between fits 1 several
        push_cast at there
        rw [if_pos several]
        push_cast
        rw [toSizeT_of_neg (by omega) (by omega)]
        omega
      · rw [if_neg several, toSizeT_of_nonneg (by omega) (by omega)]
    rw [start]
    constructor
    · rintro ⟨_, _, within⟩
      exact ⟨rfl, within⟩
    · rintro ⟨_, within⟩
      exact ⟨Nat.zero_le x, by omega, within⟩
  · have below : (i : Int) * gap < 0 :=
      mul_neg_of_pos_of_neg (by exact_mod_cast Nat.pos_of_ne_zero first) negative
    have start := toSizeT_of_neg below (by omega)
    constructor
    · rintro ⟨lower, _, within⟩
      omega
    · rintro ⟨zero, _⟩
      exact absurd zero first

theorem splits_of_neg (negative : gap < 0) (nonempty : 0 < fileLength) :
    Splits fileLength ((List.range (n + 1)).map (node n gap fileLength)) := by
  constructor
  · rw [List.pairwise_map]
    refine List.Pairwise.imp_of_mem ?_ List.pairwise_lt_range
    rintro i j _ memberJ order x ⟨_, second⟩
    rw [covers_iff_of_neg long fits negative nonempty j (Nat.lt_succ_iff.1 (List.mem_range.1 memberJ))]
      at second
    omega
  · intro x
    constructor
    · intro within
      refine ⟨_, List.mem_map.2 ⟨0, List.mem_range.2 (by omega), rfl⟩, ?_⟩
      exact (covers_iff_of_neg long fits negative nonempty 0 (Nat.zero_le n) x).2 ⟨rfl, within⟩
    · rintro ⟨_, _, _, _, within⟩
      exact within

end Ranges

theorem splits_of_single {gap fileLength : Int} (nonempty : 0 < fileLength) (long : fileLength < 2 ^ 63) :
    Splits fileLength ((List.range (0 + 1)).map (node 0 gap fileLength)) := by
  have stop := toSizeT_of_nonneg nonempty.le (by omega)
  constructor
  · simp
  · intro x
    simp only [zero_add, List.range_one, List.map_cons, List.map_nil, List.mem_singleton,
      exists_eq_left, TNode.Covers, node, lt_irrefl, if_false]
    simp only [toSizeT, Nat.cast_zero, zero_mul] at stop ⊢
    omega

/-- Without a gap the first and the last range both have the first byte. -/
theorem not_splits_of_zero {n : Nat} {fileLength : Int} (several : 0 < n) (nonempty : 0 < fileLength) :
    ¬ Splits fileLength ((List.range (n + 1)).map (node n 0 fileLength)) := by
  rintro ⟨apart, _⟩
  rw [List.pairwise_map, List.pairwise_iff_getElem] at apart
  have clash := apart 0 n (by simp) (by simp) several 0
  rw [List.getElem_range, List.getElem_range] at clash
  apply clash
  constructor
  · simp [TNode.Covers, node, toSizeT, nonempty]
  · simp [TNode.Covers, node, toSizeT, nonempty]

/-- The ranges split the file exactly when there is one thread, or the gap computed is not zero
and no product with it overflows. -/
theorem divides_iff (threadNum : Nat) (fileLength : Int) (count : threadNum < 2 ^ 31)
    (nonempty : 1 ≤ fileLength) (long : fileLength < 2 ^ 63) :
    Divides threadNum fileLength ↔ threadNum = 0 ∨
      (gapOf threadNum fileLength ≠ 0 ∧ threadNum + 1 < 2 ^ 31 ∧
        |threadNum * gapOf threadNum fileLength| < 2 ^ 31) := by
  constructor
  · rintro ⟨nodes, ran, _, splits⟩
    by_cases single : threadNum = 0
    · exact .inl single
    obtain ⟨small, fits⟩ := fits_of_download (Nat.pos_of_ne_zero single) ran
    rw [download_eq small fits] at ran
    obtain rfl := Option.some.inj ran
    refine .inr ⟨?_, by omega, fits⟩
    intro zero
    rw [zero] at splits
    exact not_splits_of_zero (Nat.pos_of_ne_zero single) nonempty splits
  · intro holds
    have small : (threadNum : Int) + 1 < 2 ^ 31 := by omega
    have fits : |threadNum * gapOf threadNum fileLength| < 2 ^ 31 := by
      rcases holds with rfl | ⟨_, _, fits⟩
      · simp
      · exact fits
    refine ⟨_, download_eq small fits, by simp, ?_⟩
    rcases lt_trichotomy (gapOf threadNum fileLength) 0 with negative | zero | positive
    · exact splits_of_neg long fits negative nonempty
    · obtain rfl : threadNum = 0 := holds.resolve_right fun several => several.1 zero
      exact splits_of_single nonempty long
    · exact splits_of_pos long fits positive nonempty

theorem divides_iff_two_threads :
    Divides 1 1000 ↔ (1 : Nat) = 0 ∨ (gapOf (1 : Nat) 1000 ≠ 0 ∧ 1 + 1 < 2 ^ 31 ∧
      |(1 : Nat) * gapOf (1 : Nat) 1000| < 2 ^ 31) :=
  divides_iff 1 1000 (by norm_num) (by norm_num) (by norm_num)

theorem short_file_overlaps : ¬ Divides 1 1 := by
  rintro ⟨nodes, ran, _, splits⟩
  have made : download 1 1 = some ((List.range 2).map (node 1 0 1)) := by decide
  rw [made] at ran
  obtain rfl := Option.some.inj ran
  exact not_splits_of_zero (by norm_num) (by norm_num) splits

end DataStructure.RangeSplit
