import DataStructure.Tree.Avl

/-! Rebalancing on the way up, as a function on trees.

`climbTree` is what the second loop of `insert` does to the tree in the store. It
works with the stored heights, and it restores the AVL balance when the subtree it
starts from grew by one level. -/

namespace DataStructure.Avl

open DataStructure.Program DataStructure.Heap DataStructure.Zipper DataStructure.LinkedTree
  DataStructure.KeyedTree

def rotateTree (d : Side) : BinaryTree Label → BinaryTree Label
  | .nil => .nil
  | .node P l r =>
      match d.pick l r with
      | .nil => .node P l r
      | .node T x y =>
          refit d T (d.pick x y) (refit d P (d.flip.pick x y) (d.flip.pick l r))

def onChild (d : Side) (f : BinaryTree Label → BinaryTree Label) :
    BinaryTree Label → BinaryTree Label
  | .nil => .nil
  | .node a l r => join d a (f (d.pick l r)) (d.flip.pick l r)

def leanTree (d : Side) (t : BinaryTree Label) : BinaryTree Label :=
  if ht (child d.flip (child d t)) < ht (child d (child d t)) then rotateTree d t
  else rotateTree d (onChild d (rotateTree d.flip) t)

def balanceTree (t : BinaryTree Label) : BinaryTree Label :=
  if 1 < ht (child .left t) - ht (child .right t) then leanTree .left t
  else if 1 < ht (child .right t) - ht (child .left t) then leanTree .right t
  else t

def climbTree : Trail Label → BinaryTree Label → BinaryTree Label
  | [], t => t
  | f :: up, t => climbTree up (balanceTree (refit f.side f.label t f.other))

def Heighted : BinaryTree Label → Prop
  | .nil => True
  | .node a l r => a.height = 1 + max (ht l) (ht r) ∧ Heighted l ∧ Heighted r

def Balanced : BinaryTree Label → Prop
  | .nil => True
  | .node a l r => a.height = 1 + max (ht l) (ht r) ∧ ht l ≤ ht r + 1 ∧ ht r ≤ ht l + 1 ∧
      Balanced l ∧ Balanced r

/-- A subtree that just grew is a leaf or is higher on one side. -/
def Uneven (t : BinaryTree Label) : Prop :=
  ∀ d, ht (child d t) = ht (child d.flip t) → ht t = 1

@[simp] theorem ht_refit (d : Side) (a : Label) (x y : BinaryTree Label) :
    ht (refit d a x y) = 1 + max (ht x) (ht y) := by cases d <;> rfl

theorem rotateTree_join (d : Side) (P T : Label) (A B C : BinaryTree Label) :
    rotateTree d (join d P (join d T A B) C) = refit d T A (refit d P B C) := by
  cases d <;> rfl

theorem onChild_join (d : Side) (f : BinaryTree Label → BinaryTree Label) (a : Label)
    (x y : BinaryTree Label) : onChild d f (join d a x y) = join d a (f x) y := by
  cases d <;> rfl

theorem heighted_join (d : Side) (a : Label) (x y : BinaryTree Label) :
    Heighted (join d a x y) ↔ a.height = 1 + max (ht x) (ht y) ∧ Heighted x ∧ Heighted y := by
  cases d with
  | left => rfl
  | right =>
      simp only [join, Heighted, max_comm (ht y)]
      tauto

@[simp] theorem heighted_refit (d : Side) (a : Label) (x y : BinaryTree Label) :
    Heighted (refit d a x y) ↔ Heighted x ∧ Heighted y := by
  simp [refit, heighted_join, Label.refit]

theorem Balanced.heighted {t : BinaryTree Label} (balanced : Balanced t) : Heighted t := by
  induction t with
  | nil => trivial
  | node a l r ihl ihr =>
      obtain ⟨stored, _, _, left, right⟩ := balanced
      exact ⟨stored, ihl left, ihr right⟩

theorem balanced_join (d : Side) (a : Label) (x y : BinaryTree Label) :
    Balanced (join d a x y) ↔ a.height = 1 + max (ht x) (ht y) ∧ ht x ≤ ht y + 1 ∧ ht y ≤ ht x + 1 ∧
      Balanced x ∧ Balanced y := by
  cases d with
  | left => rfl
  | right =>
      simp only [join, Balanced, max_comm (ht y)]
      tauto

@[simp] theorem balanced_refit (d : Side) (a : Label) (x y : BinaryTree Label) :
    Balanced (refit d a x y) ↔ ht x ≤ ht y + 1 ∧ ht y ≤ ht x + 1 ∧ Balanced x ∧ Balanced y := by
  simp [refit, balanced_join, Label.refit]

@[simp] theorem ht_join (d : Side) (a : Label) (x y : BinaryTree Label) :
    ht (join d a x y) = a.height := by cases d <;> rfl

theorem ht_nonneg (t : BinaryTree Label) (heights : Heighted t) : 0 ≤ ht t := by
  induction t with
  | nil => exact le_refl 0
  | node a l r ihl _ =>
      obtain ⟨stored, left, _⟩ := heights
      have below := ihl left
      change 0 ≤ a.height
      omega

theorem heighted_cases (d : Side) (t : BinaryTree Label) (heights : Heighted t) (high : 0 < ht t) :
    ∃ a x y, t = join d a x y ∧ ht t = 1 + max (ht x) (ht y) ∧ Heighted x ∧ Heighted y := by
  cases t with
  | nil => exact absurd high (lt_irrefl 0)
  | node a l r =>
      rw [← join_pick d a l r, heighted_join] at heights
      refine ⟨a, _, _, (join_pick d a l r).symm, ?_, heights.2⟩
      exact heights.1

/-- What `leanTree` does to a tree that is too high on side `d`: a single rotation
if the grandchild on the outside is the higher one, a double rotation if not. -/
inductive Leans (d : Side) (P : Label) (C : BinaryTree Label) : BinaryTree Label → BinaryTree Label → Prop
  | single (T : Label) (A B : BinaryTree Label) (outer : ht B < ht A) :
      Leans d P C (join d T A B) (refit d T A (refit d P B C))
  | double (T U : Label) (A X Y : BinaryTree Label) (inner : ht A ≤ ht (join d.flip U X Y)) :
      Leans d P C (join d T A (join d.flip U X Y)) (refit d U (refit d.flip T Y A) (refit d P X C))

theorem leanTree_cases (d : Side) (P : Label) (near C : BinaryTree Label)
    (heights : Heighted near) (high : 1 < ht near) :
    Leans d P C near (leanTree d (join d P near C)) := by
  obtain ⟨T, A, B, rfl, height, heightsA, heightsB⟩ := heighted_cases d near heights (by omega)
  simp only [leanTree, child_join, child_join_flip]
  by_cases outer : ht B < ht A
  · rw [if_pos outer, rotateTree_join]
    exact .single T A B outer
  · have positive : 0 < ht B := by omega
    obtain ⟨U, X, Y, rfl, _⟩ := heighted_cases d.flip B heightsB positive
    have rotated : rotateTree d.flip (join d T A (join d.flip U X Y)) =
        join d (U.refit X (refit d.flip T Y A)) (refit d.flip T Y A) X := by
      cases d <;> rfl
    rw [if_neg outer, onChild_join, rotated, rotateTree_join]
    exact .double T U A X Y (by omega)

/-- Both rotations bring a tree that is too high on one side back to the height it
had before that side grew. -/
theorem leans_balanced (d : Side) (P : Label) (near C t : BinaryTree Label)
    (leans : Leans d P C near t) (balancedNear : Balanced near) (balancedC : Balanced C)
    (gap : ht near = ht C + 2) (uneven : Uneven near) : Balanced t ∧ ht t = ht near := by
  have depth := ht_nonneg C balancedC.heighted
  have different := uneven d
  cases leans with
  | single T A B outer =>
      obtain ⟨stored, outside, inside, balancedA, balancedB⟩ := (balanced_join d T A B).mp balancedNear
      simp only [ht_join] at gap ⊢
      have heightB : ht B = ht C := by omega
      have heightA : ht A = ht C + 1 := by omega
      simp only [balanced_refit, ht_refit, heightA, heightB, balancedA, balancedB, balancedC, stored,
        true_and, and_true]
      omega
  | double T U A X Y inner =>
      obtain ⟨stored, outside, inside, balancedA, balancedB⟩ := (balanced_join d T A _).mp balancedNear
      obtain ⟨storedU, nearU, farU, balancedX, balancedY⟩ := (balanced_join _ U X Y).mp balancedB
      simp only [ht_join, child_join, child_join_flip] at gap different inner stored outside inside ⊢
      have heightU : U.height = ht C + 1 := by omega
      have heightA : ht A = ht C := by omega
      simp only [balanced_refit, ht_refit, balancedA, balancedX, balancedY, balancedC, heightA,
        and_true]
      omega

theorem balanceTree_join (d : Side) (a : Label) (x y : BinaryTree Label) :
    balanceTree (join d a x y) =
      if 1 < ht x - ht y then leanTree d (join d a x y)
      else if 1 < ht y - ht x then leanTree d.flip (join d a x y)
      else join d a x y := by
  cases d with
  | left => rfl
  | right =>
      change (if 1 < ht y - ht x then _ else if 1 < ht x - ht y then _ else _) = _
      split_ifs
      · omega
      · rfl
      · rfl
      · rfl

def BalancedTrail : Int → Trail Label → Prop
  | _, [] => True
  | h, f :: up => h ≤ ht f.other + 1 ∧ ht f.other ≤ h + 1 ∧ Balanced f.other ∧
      BalancedTrail (1 + max h (ht f.other)) up

theorem balanced_plug (trail : Trail Label) (t : BinaryTree Label)
    (balanced : Balanced (plug trail t)) : BalancedTrail (ht t) trail ∧ Balanced t := by
  induction trail generalizing t with
  | nil => exact ⟨trivial, balanced⟩
  | cons f up ih =>
      obtain ⟨above, here⟩ := ih (f.attach t) balanced
      obtain ⟨stored, near, far, inner, other⟩ := (balanced_join f.side f.label t f.other).mp here
      rw [Frame.attach, ht_join, stored] at above
      exact ⟨⟨near, far, other, above⟩, inner⟩

/-- A balanced subtree where one of height `h` stood, at most one level higher. -/
def Grown (h : Int) (t : BinaryTree Label) : Prop :=
  Balanced t ∧ (ht t = h ∨ ht t = h + 1 ∧ Uneven t)

theorem grown_balance (h : Int) (f : Frame Label) (up : Trail Label) (t : BinaryTree Label)
    (trail : BalancedTrail h (f :: up)) (grown : Grown h t) :
    Grown (1 + max h (ht f.other)) (balanceTree (refit f.side f.label t f.other)) := by
  obtain ⟨near, far, other, _⟩ := trail
  obtain ⟨balanced, growth⟩ := grown
  rw [refit, balanceTree_join]
  by_cases high : 1 < ht t - ht f.other
  · rw [if_pos high]
    obtain same | ⟨more, uneven⟩ := growth
    · omega
    have depth := ht_nonneg f.other other.heighted
    have leans := leanTree_cases f.side (f.label.refit t f.other) t f.other balanced.heighted (by omega)
    obtain ⟨balanced', height⟩ := leans_balanced _ _ _ _ _ leans balanced other (by omega) uneven
    refine ⟨balanced', Or.inl ?_⟩
    omega
  · rw [if_neg high, if_neg (by omega), ← refit]
    refine ⟨(balanced_refit _ _ _ _).mpr ⟨by omega, by omega, balanced, other⟩, ?_⟩
    rw [ht_refit]
    by_cases same : max (ht t) (ht f.other) = max h (ht f.other)
    · exact Or.inl (by rw [same])
    · refine Or.inr ⟨by omega, ?_⟩
      have different : ht t ≠ ht f.other := by omega
      intro d equal
      by_cases side : d = f.side
      · subst side
        rw [refit, child_join, child_join_flip] at equal
        exact absurd equal different
      · rw [eq_flip_of_ne _ _ side, refit, child_join_flip, Side.flip_flip, child_join] at equal
        exact absurd equal.symm different

/-- Climbing from a subtree that grew leaves a balanced tree. -/
theorem climbTree_balanced (h : Int) (trail : Trail Label) (t : BinaryTree Label)
    (above : BalancedTrail h trail) (grown : Grown h t) : Balanced (climbTree trail t) := by
  induction trail generalizing h t with
  | nil => exact grown.1
  | cons f up ih =>
      exact ih (1 + max h (ht f.other)) _ above.2.2.2 (grown_balance h f up t above grown)

theorem row_refit (d : Side) (a : Label) (x y : BinaryTree Label) :
    row Label.val (refit d a x y) = row Label.val (join d a x y) := by
  cases d <;> simp [refit, join, Label.refit]

theorem row_rotateTree (d : Side) (t : BinaryTree Label) :
    row Label.val (rotateTree d t) = row Label.val t := by
  cases t with
  | nil => rfl
  | node P l r =>
      cases d with
      | left => cases l <;> simp [rotateTree, Side.pick, Side.flip, row_refit, join]
      | right => cases r <;> simp [rotateTree, Side.pick, Side.flip, row_refit, join]

theorem row_onChild (d : Side) (f : BinaryTree Label → BinaryTree Label) (t : BinaryTree Label)
    (keeps : ∀ u, row Label.val (f u) = row Label.val u) :
    row Label.val (onChild d f t) = row Label.val t := by
  cases t with
  | nil => rfl
  | node a l r => cases d <;> simp [onChild, join, Side.pick, Side.flip, keeps]

theorem row_leanTree (d : Side) (t : BinaryTree Label) :
    row Label.val (leanTree d t) = row Label.val t := by
  unfold leanTree
  split_ifs
  · exact row_rotateTree d t
  · rw [row_rotateTree, row_onChild d _ t (row_rotateTree d.flip)]

theorem row_balanceTree (t : BinaryTree Label) : row Label.val (balanceTree t) = row Label.val t := by
  unfold balanceTree
  split_ifs
  · exact row_leanTree _ t
  · exact row_leanTree _ t
  · rfl

theorem row_climbTree (trail : Trail Label) (t : BinaryTree Label) :
    row Label.val (climbTree trail t) = row Label.val (plug trail t) := by
  induction trail generalizing t with
  | nil => rfl
  | cons f up ih =>
      rw [climbTree, ih, plug_cons]
      apply row_plug_congr
      rw [row_balanceTree, row_refit, Frame.attach]

end DataStructure.Avl
