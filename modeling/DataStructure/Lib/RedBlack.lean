import DataStructure.Lib.Zipper

/-! Red-black trees in focus.

`Colored` is the invariant of a subtree and `ColoredTrail` that of the rest of the
tree around it, both with the number of black nodes on the paths below the focus.
The two repairs work on a focus that breaks the invariant in one place: after an
insertion a red subtree below a red parent, after a removal a subtree that lacks
one black node. Each local step of a repair is a theorem about arbitrary labels. -/

namespace DataStructure.RedBlack

open DataStructure.Zipper

inductive Color where
  | red
  | black
  deriving DecidableEq, Repr

theorem Color.ne_red {c : Color} : c ≠ .red ↔ c = .black := by cases c <;> simp

variable {α : Type} (color : α → Color)

def tint : BinaryTree α → Color
  | .nil => .black
  | .node a _ _ => color a

def NoRedRed : BinaryTree α → Prop
  | .nil => True
  | .node a l r => (color a = .red → tint color l = .black ∧ tint color r = .black) ∧
      NoRedRed l ∧ NoRedRed r

/-- The numbers of black nodes on the paths from the root to a missing child. -/
def blackCounts : BinaryTree α → List Nat
  | .nil => [0]
  | .node a l r => (blackCounts l ++ blackCounts r).map fun n => if color a = .black then n + 1 else n

structure IsRedBlack (t : BinaryTree α) : Prop where
  rootBlack : tint color t = .black
  noRedRed : NoRedRed color t
  sameBlack : ∃ n, ∀ m ∈ blackCounts color t, m = n

/-- No red node has a red child and every path down has `n` black nodes. -/
def Colored : BinaryTree α → Nat → Prop
  | .nil, n => n = 0
  | .node a l r, n =>
      match color a with
      | .red => tint color l = .black ∧ tint color r = .black ∧ Colored l n ∧ Colored r n
      | .black => ∃ m, n = m + 1 ∧ Colored l m ∧ Colored r m

@[simp] theorem tint_nil : tint color .nil = .black := rfl

@[simp] theorem tint_node (a : α) (l r : BinaryTree α) : tint color (.node a l r) = color a := rfl

@[simp] theorem tint_join (d : Side) (a : α) (x y : BinaryTree α) :
    tint color (join d a x y) = color a := by cases d <;> rfl

@[simp] theorem colored_nil (n : Nat) : Colored color .nil n ↔ n = 0 := Iff.rfl

theorem colored_red (d : Side) (a : α) (x y : BinaryTree α) (n : Nat) (red : color a = .red) :
    Colored color (join d a x y) n ↔ tint color x = .black ∧ tint color y = .black ∧
      Colored color x n ∧ Colored color y n := by
  cases d <;> simp only [join, Colored, red]
  tauto

theorem colored_black (d : Side) (a : α) (x y : BinaryTree α) (n : Nat) (black : color a = .black) :
    Colored color (join d a x y) n ↔
      ∃ m, n = m + 1 ∧ Colored color x m ∧ Colored color y m := by
  cases d <;> simp only [join, Colored, black]
  simp only [and_comm]

@[simp] theorem colored_black_succ (d : Side) (a : α) (x y : BinaryTree α) (n : Nat)
    (black : color a = .black) :
    Colored color (join d a x y) (n + 1) ↔ Colored color x n ∧ Colored color y n := by
  rw [colored_black color d a x y _ black]
  simp

theorem blackCounts_ne_nil (t : BinaryTree α) : blackCounts color t ≠ [] := by
  induction t with
  | nil => simp [blackCounts]
  | node a l r ihl _ => simp [blackCounts, ihl]

theorem colored_iff (t : BinaryTree α) (n : Nat) :
    Colored color t n ↔ NoRedRed color t ∧ ∀ m ∈ blackCounts color t, m = n := by
  induction t generalizing n with
  | nil => simp [NoRedRed, blackCounts, eq_comm]
  | node a l r ihl ihr =>
      cases tinted : color a with
      | red =>
          simp only [Colored, tinted, ihl, ihr, NoRedRed, blackCounts, reduceCtorEq, if_false,
            List.map_id', List.mem_append]
          grind
      | black =>
          simp only [Colored, tinted, ihl, ihr, NoRedRed, blackCounts, if_true, List.mem_map,
            List.mem_append]
          constructor
          · rintro ⟨m, rfl, ⟨left, countsL⟩, right, countsR⟩
            refine ⟨⟨by simp, left, right⟩, ?_⟩
            rintro k ⟨i, member, rfl⟩
            rcases member with member | member
            · rw [countsL i member]
            · rw [countsR i member]
          · rintro ⟨⟨_, left, right⟩, counts⟩
            obtain ⟨i, member⟩ := List.exists_mem_of_ne_nil _ (blackCounts_ne_nil color l)
            have total : n = i + 1 := (counts _ ⟨i, Or.inl member, rfl⟩).symm
            refine ⟨i, total, ⟨left, ?_⟩, right, ?_⟩
            · intro k below
              have := counts _ ⟨k, Or.inl below, rfl⟩
              omega
            · intro k below
              have := counts _ ⟨k, Or.inr below, rfl⟩
              omega

theorem isRedBlack_iff (t : BinaryTree α) :
    IsRedBlack color t ↔ tint color t = .black ∧ ∃ n, Colored color t n := by
  constructor
  · rintro ⟨root, reds, n, counts⟩
    exact ⟨root, n, (colored_iff color t n).mpr ⟨reds, counts⟩⟩
  · rintro ⟨root, n, colored⟩
    obtain ⟨reds, counts⟩ := (colored_iff color t n).mp colored
    exact ⟨root, reds, n, counts⟩

/-- The colour above the focus. The place above the root counts as red, so that a
root that fits there is black. -/
def above : Trail α → Color
  | [] => .red
  | f :: _ => color f.label

def ColoredTrail : Trail α → Nat → Prop
  | [], _ => True
  | f :: up, n => Colored color f.other n ∧
      match color f.label with
      | .red => tint color f.other = .black ∧ above color up = .black ∧ ColoredTrail up n
      | .black => ColoredTrail up (n + 1)

@[simp] theorem above_nil : above color [] = .red := rfl

@[simp] theorem above_cons (f : Frame α) (up : Trail α) : above color (f :: up) = color f.label := rfl

@[simp] theorem coloredTrail_nil (n : Nat) : ColoredTrail color [] n := trivial

theorem coloredTrail_red (f : Frame α) (up : Trail α) (n : Nat) (red : color f.label = .red) :
    ColoredTrail color (f :: up) n ↔ Colored color f.other n ∧ tint color f.other = .black ∧
      above color up = .black ∧ ColoredTrail color up n := by
  simp only [ColoredTrail, red]

theorem coloredTrail_black (f : Frame α) (up : Trail α) (n : Nat) (black : color f.label = .black) :
    ColoredTrail color (f :: up) n ↔ Colored color f.other n ∧ ColoredTrail color up (n + 1) := by
  simp only [ColoredTrail, black]

theorem coloredTrail_relabel (inner up : Trail α) (d : Side) (a b : α) (t : BinaryTree α) (n : Nat)
    (same : color b = color a) (trail : ColoredTrail color (inner ++ ⟨d, a, t⟩ :: up) n) :
    ColoredTrail color (inner ++ ⟨d, b, t⟩ :: up) n := by
  induction inner generalizing n with
  | nil => simpa only [List.nil_append, ColoredTrail, same] using trail
  | cons f inner ih =>
      have tops : above color (inner ++ ⟨d, b, t⟩ :: up) = above color (inner ++ ⟨d, a, t⟩ :: up) := by
        cases inner with
        | nil => exact same
        | cons g rest => rfl
      rw [List.cons_append] at trail ⊢
      cases tinted : color f.label with
      | red =>
          obtain ⟨other, black, outer, higher⟩ := (coloredTrail_red color _ _ _ tinted).mp trail
          exact (coloredTrail_red color _ _ _ tinted).mpr ⟨other, black, tops.trans outer, ih n higher⟩
      | black =>
          obtain ⟨other, higher⟩ := (coloredTrail_black color _ _ _ tinted).mp trail
          exact (coloredTrail_black color _ _ _ tinted).mpr ⟨other, ih _ higher⟩

def Fits (up : Trail α) (t : BinaryTree α) : Prop := above color up = .red → tint color t = .black

theorem colored_attach (f : Frame α) (up : Trail α) (t : BinaryTree α) :
    (∃ n, ColoredTrail color up n ∧ Colored color (f.attach t) n ∧ Fits color up (f.attach t)) ↔
      ∃ n, ColoredTrail color (f :: up) n ∧ Colored color t n ∧ Fits color (f :: up) t := by
  cases tinted : color f.label with
  | red =>
      simp only [Frame.attach, Fits, coloredTrail_red color f up _ tinted,
        colored_red color f.side f.label t f.other _ tinted, tint_join, above_cons, tinted,
        reduceCtorEq, imp_false, Color.ne_red, forall_const]
      constructor <;> (rintro ⟨n, facts⟩; exact ⟨n, by tauto⟩)
  | black =>
      simp only [Frame.attach, Fits, coloredTrail_black color f up _ tinted,
        colored_black color f.side f.label t f.other _ tinted, tint_join, above_cons, tinted,
        reduceCtorEq, imp_true_iff, and_true, IsEmpty.forall_iff]
      constructor
      · rintro ⟨_, trail, m, rfl, inner, other⟩
        exact ⟨m, ⟨other, trail⟩, inner⟩
      · rintro ⟨m, ⟨other, trail⟩, inner⟩
        exact ⟨m + 1, trail, m, rfl, inner, other⟩

/-- The whole tree is red-black exactly when the focus and its trail fit together. -/
theorem isRedBlack_plug (up : Trail α) (t : BinaryTree α) :
    IsRedBlack color (plug up t) ↔
      ∃ n, ColoredTrail color up n ∧ Colored color t n ∧ Fits color up t := by
  induction up generalizing t with
  | nil => simp [isRedBlack_iff, Fits, and_comm]
  | cons f up ih => rw [plug_cons, ih, colored_attach]

section Insert

variable {color} {d e : Side} {up : Trail α} {n : Nat} {P G T U P' G' T' U' : α}
  {t S x y other : BinaryTree α}

/-- A red uncle: the parent and the uncle turn black, the grandparent red. -/
theorem insert_recolor
    (trail : ColoredTrail color (⟨e, P, S⟩ :: ⟨d, G, join d U x y⟩ :: up) n)
    (focus : Colored color t n) (redP : color P = .red) (redU : color U = .red)
    (blackP : color P' = .black) (redG : color G' = .red) (blackU : color U' = .black) :
    ColoredTrail color up (n + 1) ∧
      Colored color (join d G' (join e P' t S) (join d U' x y)) (n + 1) := by
  obtain ⟨coloredS, tintS, blackG, higher⟩ := (coloredTrail_red color _ _ _ redP).mp trail
  obtain ⟨coloredU, outside⟩ := (coloredTrail_black color _ _ _ blackG).mp higher
  obtain ⟨_, _, coloredX, coloredY⟩ := (colored_red color _ _ _ _ _ redU).mp coloredU
  simp only [colored_red color _ _ _ _ _ redG, tint_join, colored_black_succ color _ _ _ _ _ blackP,
    colored_black_succ color _ _ _ _ _ blackU]
  exact ⟨outside, blackP, blackU, ⟨focus, coloredS⟩, coloredX, coloredY⟩

/-- A black uncle and the focus on the outside: one rotation of the grandparent. -/
theorem insert_outer (trail : ColoredTrail color (⟨e, P, S⟩ :: ⟨d, G, other⟩ :: up) n)
    (redP : color P = .red) (blackO : tint color other = .black)
    (blackP : color P' = .black) (redG : color G' = .red) :
    ColoredTrail color (⟨d, P', join d G' S other⟩ :: up) n := by
  obtain ⟨coloredS, tintS, blackG, higher⟩ := (coloredTrail_red color _ _ _ redP).mp trail
  obtain ⟨coloredO, outside⟩ := (coloredTrail_black color _ _ _ blackG).mp higher
  rw [coloredTrail_black color _ _ _ blackP, colored_red color _ _ _ _ _ redG]
  exact ⟨⟨tintS, blackO, coloredS, coloredO⟩, outside⟩

/-- A black uncle and the focus on the inside: it is raised above both. -/
theorem insert_inner (trail : ColoredTrail color (⟨e, P, S⟩ :: ⟨d, G, other⟩ :: up) n)
    (focus : Colored color (join e T x y) n) (redP : color P = .red) (redT : color T = .red)
    (blackO : tint color other = .black) (blackT : color T' = .black) (redG : color G' = .red) :
    ColoredTrail color (⟨d, T', join d G' x other⟩ :: up) n ∧ Colored color (join d P S y) n := by
  obtain ⟨coloredS, tintS, blackG, higher⟩ := (coloredTrail_red color _ _ _ redP).mp trail
  obtain ⟨coloredO, outside⟩ := (coloredTrail_black color _ _ _ blackG).mp higher
  obtain ⟨tintX, tintY, coloredX, coloredY⟩ := (colored_red color _ _ _ _ _ redT).mp focus
  rw [coloredTrail_black color _ _ _ blackT, colored_red color _ _ _ _ _ redG,
    colored_red color _ _ _ _ _ redP]
  exact ⟨⟨⟨tintX, blackO, coloredX, coloredO⟩, outside⟩, tintS, tintY, coloredS, coloredY⟩

theorem colored_blacken {a a' : α} (focus : Colored color (join d a x y) n)
    (black : color a' = .black) : ∃ m, Colored color (join d a' x y) m := by
  cases tinted : color a with
  | red =>
      obtain ⟨_, _, left, right⟩ := (colored_red color _ _ _ _ _ tinted).mp focus
      exact ⟨n + 1, (colored_black_succ color _ _ _ _ _ black).mpr ⟨left, right⟩⟩
  | black =>
      obtain ⟨m, _, left, right⟩ := (colored_black color _ _ _ _ _ tinted).mp focus
      exact ⟨m + 1, (colored_black_succ color _ _ _ _ _ black).mpr ⟨left, right⟩⟩

end Insert

/-- A subtree with `n` black nodes on its paths once a red root, which may then have
red children, is not counted. It stands where `n + 1` are expected. -/
def Lacks : BinaryTree α → Nat → Prop
  | .nil, n => n = 0
  | .node a l r, n =>
      match color a with
      | .red => Colored color l n ∧ Colored color r n
      | .black => Colored color (.node a l r) n

theorem lacks_of_colored (t : BinaryTree α) (n : Nat) (colored : Colored color t n) :
    Lacks color t n := by
  cases t with
  | nil => exact colored
  | node a l r =>
      cases tinted : color a with
      | red =>
          obtain ⟨_, _, left, right⟩ := (colored_red color .left a l r n tinted).mp colored
          simpa only [Lacks, tinted] using ⟨left, right⟩
      | black => simpa only [Lacks, tinted] using colored

theorem lacks_black (t : BinaryTree α) (n : Nat) (black : tint color t = .black) :
    Lacks color t n ↔ Colored color t n := by
  cases t with
  | nil => rfl
  | node a l r =>
      rw [tint_node] at black
      simp only [Lacks, black]

theorem lacks_red (d : Side) (a : α) (x y : BinaryTree α) (n : Nat) (red : color a = .red) :
    Lacks color (join d a x y) n ↔ Colored color x n ∧ Colored color y n := by
  cases d <;> simp only [join, Lacks, red]
  exact and_comm

section Erase

variable {color} {d : Side} {up : Trail α} {n : Nat} {P S M U F P' S' M' U' F' : α}
  {t near far x y : BinaryTree α}

theorem remove_red {a : α} (trail : ColoredTrail color up n)
    (focus : Colored color (join d a .nil t) n) (red : color a = .red) :
    IsRedBlack color (plug up t) := by
  obtain ⟨_, black, _, colored⟩ := (colored_red color _ _ _ _ _ red).mp focus
  rw [isRedBlack_plug]
  exact ⟨n, trail, colored, fun _ => black⟩

theorem remove_black {a : α} (trail : ColoredTrail color up n)
    (focus : Colored color (join d a .nil t) n) (black : color a = .black) :
    ∃ m, ColoredTrail color up (m + 1) ∧ Lacks color t m := by
  obtain ⟨m, rfl, _, colored⟩ := (colored_black color _ _ _ _ _ black).mp focus
  exact ⟨m, trail, lacks_of_colored color t m colored⟩

/-- A red sibling: it is raised above the parent, which turns red. -/
theorem erase_raise (trail : ColoredTrail color (⟨d, P, join d S near far⟩ :: up) (n + 1))
    (redS : color S = .red) (redP : color P' = .red) (blackS : color S' = .black) :
    ColoredTrail color (⟨d, P', near⟩ :: ⟨d, S', far⟩ :: up) (n + 1) ∧ tint color near = .black := by
  have blackP : color P = .black := by
    rw [← Color.ne_red]
    intro red
    obtain ⟨_, tintS, _⟩ := (coloredTrail_red color _ _ _ red).mp trail
    simp [redS] at tintS
  obtain ⟨sibling, outside⟩ := (coloredTrail_black color _ _ _ blackP).mp trail
  obtain ⟨tintNear, _, coloredNear, coloredFar⟩ := (colored_red color _ _ _ _ _ redS).mp sibling
  rw [coloredTrail_red color _ _ _ redP, coloredTrail_black color _ _ _ blackS]
  exact ⟨⟨coloredNear, tintNear, blackS, coloredFar, outside⟩, tintNear⟩

/-- Both nephews black: the sibling turns red and the lack moves up to the parent. -/
theorem erase_recolor (trail : ColoredTrail color (⟨d, P, join d S near far⟩ :: up) (n + 1))
    (focus : Colored color t n) (blackS : color S = .black) (blackNear : tint color near = .black)
    (blackFar : tint color far = .black) (redS : color S' = .red) :
    ∃ m, ColoredTrail color up (m + 1) ∧ Lacks color (join d P t (join d S' near far)) m := by
  have sibling (coloredS : Colored color (join d S near far) (n + 1)) :
      Colored color (join d S' near far) n := by
    obtain ⟨coloredNear, coloredFar⟩ := (colored_black_succ color _ _ _ _ _ blackS).mp coloredS
    exact (colored_red color _ _ _ _ _ redS).mpr ⟨blackNear, blackFar, coloredNear, coloredFar⟩
  cases tinted : color P with
  | red =>
      obtain ⟨coloredS, _, _, outside⟩ := (coloredTrail_red color _ _ _ tinted).mp trail
      exact ⟨n, outside, (lacks_red color _ _ _ _ _ tinted).mpr ⟨focus, sibling coloredS⟩⟩
  | black =>
      obtain ⟨coloredS, outside⟩ := (coloredTrail_black color _ _ _ tinted).mp trail
      refine ⟨n + 1, outside, lacks_of_colored color _ _ ?_⟩
      exact (colored_black_succ color _ _ _ _ _ tinted).mpr ⟨focus, sibling coloredS⟩

/-- The near nephew red and the far one black: the near one is raised above the sibling. -/
theorem erase_inner
    (trail : ColoredTrail color (⟨d, P, join d S (join d U x y) far⟩ :: up) (n + 1))
    (blackS : color S = .black) (redU : color U = .red) (blackFar : tint color far = .black)
    (blackU : color U' = .black) (redS : color S' = .red) :
    ColoredTrail color (⟨d, P, join d U' x (join d S' y far)⟩ :: up) (n + 1) := by
  have sibling (coloredS : Colored color (join d S (join d U x y) far) (n + 1)) :
      Colored color (join d U' x (join d S' y far)) (n + 1) := by
    obtain ⟨coloredU, coloredFar⟩ := (colored_black_succ color _ _ _ _ _ blackS).mp coloredS
    obtain ⟨_, tintY, coloredX, coloredY⟩ := (colored_red color _ _ _ _ _ redU).mp coloredU
    rw [colored_black_succ color _ _ _ _ _ blackU, colored_red color _ _ _ _ _ redS]
    exact ⟨coloredX, tintY, blackFar, coloredY, coloredFar⟩
  cases tinted : color P with
  | red =>
      obtain ⟨coloredS, _, outside⟩ := (coloredTrail_red color _ _ _ tinted).mp trail
      exact (coloredTrail_red color _ _ _ tinted).mpr ⟨sibling coloredS, by simpa using blackU, outside⟩
  | black =>
      obtain ⟨coloredS, outside⟩ := (coloredTrail_black color _ _ _ tinted).mp trail
      exact (coloredTrail_black color _ _ _ tinted).mpr ⟨sibling coloredS, outside⟩

/-- The far nephew red: the sibling is raised in the colour of the parent, which ends
the repair. -/
theorem erase_outer
    (trail : ColoredTrail color (⟨d, P, join d M near (join d F x y)⟩ :: up) (n + 1))
    (focus : Colored color t n) (blackM : color M = .black) (redF : color F = .red)
    (sameM : color M' = color P) (blackP : color P' = .black) (blackF : color F' = .black) :
    IsRedBlack color (plug up (join d M' (join d P' t near) (join d F' x y))) := by
  have below (coloredS : Colored color (join d M near (join d F x y)) (n + 1)) :
      Colored color (join d P' t near) (n + 1) ∧ Colored color (join d F' x y) (n + 1) := by
    obtain ⟨coloredNear, coloredF⟩ := (colored_black_succ color _ _ _ _ _ blackM).mp coloredS
    obtain ⟨_, _, coloredX, coloredY⟩ := (colored_red color _ _ _ _ _ redF).mp coloredF
    rw [colored_black_succ color _ _ _ _ _ blackP, colored_black_succ color _ _ _ _ _ blackF]
    exact ⟨⟨focus, coloredNear⟩, coloredX, coloredY⟩
  rw [isRedBlack_plug]
  cases tinted : color P with
  | red =>
      obtain ⟨coloredS, _, blackUp, outside⟩ := (coloredTrail_red color _ _ _ tinted).mp trail
      refine ⟨n + 1, outside, ?_, by simp [Fits, blackUp]⟩
      rw [colored_red color _ _ _ _ _ (sameM.trans tinted), tint_join, tint_join]
      exact ⟨blackP, blackF, below coloredS⟩
  | black =>
      obtain ⟨coloredS, outside⟩ := (coloredTrail_black color _ _ _ tinted).mp trail
      refine ⟨n + 1 + 1, outside, ?_, by simp [Fits, sameM, tinted]⟩
      exact (colored_black_succ color _ _ _ _ _ (sameM.trans tinted)).mpr (below coloredS)

theorem erase_blacken {a a' : α} (trail : ColoredTrail color up (n + 1))
    (focus : Lacks color (join d a x y) n) (red : color a = .red) (black : color a' = .black) :
    IsRedBlack color (plug up (join d a' x y)) := by
  rw [isRedBlack_plug]
  refine ⟨n + 1, trail, ?_, by simp [Fits, black]⟩
  rw [colored_black_succ color _ _ _ _ _ black]
  exact (lacks_red color _ _ _ _ _ red).mp focus

end Erase

end DataStructure.RedBlack
