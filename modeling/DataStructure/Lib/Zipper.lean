import Mathlib

/-! Binary trees in focus: sides, trails and search.

A trail records the way from a subtree to the root, innermost frame first. Each
frame keeps the side on which the subtree hangs, the label of the parent and the
subtree on the other side. Local surgery on a tree is stated at the focus of a
trail and read in the whole tree through `inorder_plug`. -/

namespace DataStructure.Zipper

inductive Side where
  | left
  | right
  deriving DecidableEq, Repr

def Side.flip : Side → Side
  | .left => .right
  | .right => .left

@[simp] theorem Side.flip_flip (d : Side) : d.flip.flip = d := by cases d <;> rfl

@[simp] theorem Side.flip_ne (d : Side) : d.flip ≠ d := by cases d <;> decide

@[simp] theorem Side.ne_flip (d : Side) : d ≠ d.flip := by cases d <;> decide

theorem eq_flip_of_ne (d e : Side) (other : d ≠ e) : d = e.flip := by
  cases d <;> cases e <;> first | rfl | exact absurd rfl other

variable {α β : Type}

def inorder : BinaryTree α → List α
  | .nil => []
  | .node a l r => inorder l ++ a :: inorder r

def join (d : Side) (a : α) (near far : BinaryTree α) : BinaryTree α :=
  match d with
  | .left => .node a near far
  | .right => .node a far near

def Side.pick (d : Side) (l r : β) : β :=
  match d with
  | .left => l
  | .right => r

theorem join_pick (d : Side) (a : α) (l r : BinaryTree α) :
    join d a (d.pick l r) (d.flip.pick l r) = .node a l r := by cases d <;> rfl

theorem join_flip (d : Side) (a : α) (x y : BinaryTree α) : join d.flip a x y = join d a y x := by
  cases d <;> rfl

@[simp] theorem join_ne_nil (d : Side) (a : α) (x y : BinaryTree α) : join d a x y ≠ .nil := by
  cases d <;> simp [join]

def child (d : Side) : BinaryTree α → BinaryTree α
  | .nil => .nil
  | .node _ l r => d.pick l r

@[simp] theorem child_join (d : Side) (a : α) (x y : BinaryTree α) : child d (join d a x y) = x := by
  cases d <;> rfl

@[simp] theorem child_join_flip (d : Side) (a : α) (x y : BinaryTree α) :
    child d.flip (join d a x y) = y := by cases d <;> rfl

structure Frame (α : Type) where
  side : Side
  label : α
  other : BinaryTree α

abbrev Trail (α : Type) := List (Frame α)

def Frame.attach (f : Frame α) (t : BinaryTree α) : BinaryTree α :=
  join f.side f.label t f.other

def plug : Trail α → BinaryTree α → BinaryTree α
  | [], t => t
  | f :: up, t => plug up (f.attach t)

def before : Trail α → List α
  | [] => []
  | ⟨.left, _, _⟩ :: up => before up
  | ⟨.right, a, l⟩ :: up => before up ++ (inorder l ++ [a])

def after : Trail α → List α
  | [] => []
  | ⟨.left, a, r⟩ :: up => (a :: inorder r) ++ after up
  | ⟨.right, _, _⟩ :: up => after up

@[simp] theorem inorder_nil : inorder (.nil : BinaryTree α) = [] := rfl

@[simp] theorem inorder_node (a : α) (l r : BinaryTree α) :
    inorder (.node a l r) = inorder l ++ a :: inorder r := rfl

@[simp] theorem plug_nil (t : BinaryTree α) : plug [] t = t := rfl

@[simp] theorem plug_cons (f : Frame α) (up : Trail α) (t : BinaryTree α) :
    plug (f :: up) t = plug up (f.attach t) := rfl

theorem plug_append (inner outer : Trail α) (t : BinaryTree α) :
    plug (inner ++ outer) t = plug outer (plug inner t) := by
  induction inner generalizing t with
  | nil => rfl
  | cons f up ih => exact ih (f.attach t)

theorem inorder_plug (trail : Trail α) (t : BinaryTree α) :
    inorder (plug trail t) = before trail ++ inorder t ++ after trail := by
  induction trail generalizing t with
  | nil => simp [before, after]
  | cons f up ih =>
      obtain ⟨side, a, other⟩ := f
      cases side <;> simp [ih, Frame.attach, join, before, after]

/-- Every occurrence in the in-order sequence is the root of some focus. -/
theorem focus_of_inorder (trail : Trail α) (t : BinaryTree α) (xs ys : List α) (a : α)
    (split : inorder t = xs ++ a :: ys) :
    ∃ up l r, plug up (.node a l r) = plug trail t ∧ before up ++ inorder l = before trail ++ xs ∧
      inorder r ++ after up = ys ++ after trail := by
  induction t generalizing trail xs ys with
  | nil => simp at split
  | node b l r ihl ihr =>
      rw [inorder_node] at split
      rcases List.append_eq_append_iff.mp split with ⟨mid, rfl, rest⟩ | ⟨mid, left, rest⟩
      · cases mid with
        | nil =>
            obtain ⟨rfl, rfl⟩ := by simpa using rest
            exact ⟨trail, l, r, rfl, by simp, rfl⟩
        | cons c mid =>
            obtain ⟨rfl, right⟩ := List.cons.inj rest
            obtain ⟨up, l', r', whole, lower, upper⟩ := ihr (⟨.right, b, l⟩ :: trail) mid ys right
            exact ⟨up, l', r', whole, by simp [lower, before], upper⟩
      · cases mid with
        | nil =>
            obtain ⟨rfl, rfl⟩ := by simpa using rest
            exact ⟨trail, l, r, rfl, by simp [left], rfl⟩
        | cons c mid =>
            obtain ⟨rfl, rfl⟩ := List.cons.inj rest
            obtain ⟨up, l', r', whole, lower, upper⟩ := ihl (⟨.left, b, r⟩ :: trail) xs mid left
            exact ⟨up, l', r', whole, lower, by simp [upper, after]⟩

theorem before_of_left (trail : Trail α) (left : ∀ f ∈ trail, f.side = .left) : before trail = [] := by
  induction trail with
  | nil => rfl
  | cons f up ih =>
      obtain ⟨side, a, other⟩ := f
      obtain rfl : side = .left := left ⟨side, a, other⟩ List.mem_cons_self
      exact ih fun g member => left g (List.mem_cons_of_mem _ member)

theorem inorder_plug_congr (trail : Trail α) (t u : BinaryTree α) (same : inorder t = inorder u) :
    inorder (plug trail t) = inorder (plug trail u) := by
  rw [inorder_plug, inorder_plug, same]

/-- A rotation keeps the in-order sequence: the `d`-child `b` of `a` is raised. -/
theorem inorder_rotate (d : Side) (a b : α) (x y z : BinaryTree α) :
    inorder (join d b x (join d a y z)) = inorder (join d a (join d b x y) z) := by
  cases d <;> simp [join]

theorem inorder_double_rotate (d : Side) (a b c : α) (w x y z : BinaryTree α) :
    inorder (join d c (join d.flip b x w) (join d a y z)) =
      inorder (join d a (join d.flip b (join d.flip c y x) w) z) := by
  cases d <;> simp [join, Side.flip]

def hangLast : BinaryTree α → BinaryTree α → BinaryTree α
  | .nil, r => r
  | .node a x y, r => .node a x (hangLast y r)

theorem inorder_hangLast (l r : BinaryTree α) : inorder (hangLast l r) = inorder l ++ inorder r := by
  induction l with
  | nil => rfl
  | node a x y _ ih => simp [hangLast, ih]

theorem hangLast_nil (l : BinaryTree α) : hangLast l .nil = l := by
  induction l with
  | nil => rfl
  | node a x y _ ih => rw [hangLast, ih]

theorem pairwise_middle (lt : α → α → Prop) (xs ys : List α) (a : α)
    (sorted : (xs ++ ys).Pairwise lt) (below : ∀ x ∈ xs, lt x a) (above : ∀ y ∈ ys, lt a y) :
    (xs ++ a :: ys).Pairwise lt := by
  rw [List.pairwise_append] at sorted ⊢
  obtain ⟨left, right, across⟩ := sorted
  refine ⟨left, List.pairwise_cons.mpr ⟨above, right⟩, ?_⟩
  intro x member y later
  rcases List.mem_cons.mp later with rfl | later
  · exact below x member
  · exact across x member y later

/-- Every label stands in the relation `lt` with the labels of its right subtree
and the labels of its left subtree stand in it with the label. -/
def SearchTree (lt : α → α → Prop) : BinaryTree α → Prop
  | .nil => True
  | .node a l r => (∀ x ∈ inorder l, lt x a) ∧ (∀ x ∈ inorder r, lt a x) ∧
      SearchTree lt l ∧ SearchTree lt r

theorem searchTree_iff_pairwise (lt : α → α → Prop) (trans : ∀ x y z, lt x y → lt y z → lt x z)
    (t : BinaryTree α) : SearchTree lt t ↔ (inorder t).Pairwise lt := by
  induction t with
  | nil => simp [SearchTree]
  | node a l r ihl ihr =>
      simp only [SearchTree, inorder_node, List.pairwise_append, List.pairwise_cons, ihl, ihr,
        List.mem_cons]
      constructor
      · rintro ⟨below, above, left, right⟩
        refine ⟨left, ⟨above, right⟩, ?_⟩
        rintro x member y (rfl | later)
        · exact below x member
        · exact trans x a y (below x member) (above y later)
      · rintro ⟨left, ⟨above, right⟩, across⟩
        exact ⟨fun x member => across x member a (Or.inl rfl), above, left, right⟩

def descend (cmp : α → Ordering) : Trail α → BinaryTree α → Trail α × BinaryTree α
  | trail, .nil => (trail, .nil)
  | trail, .node a l r =>
      match cmp a with
      | .lt => descend cmp (⟨.left, a, r⟩ :: trail) l
      | .gt => descend cmp (⟨.right, a, l⟩ :: trail) r
      | .eq => (trail, .node a l r)

theorem plug_descend (cmp : α → Ordering) (trail : Trail α) (t : BinaryTree α) :
    plug (descend cmp trail t).1 (descend cmp trail t).2 = plug trail t := by
  induction t generalizing trail with
  | nil => rfl
  | node a l r ihl ihr =>
      unfold descend
      split
      · exact ihl _
      · exact ihr _
      · rfl

theorem descend_found (cmp : α → Ordering) (trail : Trail α) (t : BinaryTree α)
    (a : α) (l r : BinaryTree α) (found : (descend cmp trail t).2 = .node a l r) :
    cmp a = .eq := by
  induction t generalizing trail with
  | nil => simp [descend] at found
  | node b bl br ihl ihr =>
      unfold descend at found
      split at found
      · exact ihl _ found
      · exact ihr _ found
      · rename_i equal
        simp only [BinaryTree.node.injEq] at found
        rw [← found.1, equal]

/-- `cmp` splits the sequence into labels below the key, equal to it and above it. -/
def Splits (cmp : α → Ordering) (xs : List α) : Prop :=
  xs.Pairwise fun x y => (cmp y ≠ .lt → cmp x = .gt) ∧ (cmp x ≠ .gt → cmp y = .lt)

/-- Around the place where an unsuccessful search ends everything to the left is
below the key and everything to the right is above it. -/
theorem descend_missed (cmp : α → Ordering) (trail : Trail α) (t : BinaryTree α)
    (split : Splits cmp (inorder t))
    (below : ∀ x ∈ before trail, cmp x = .gt) (above : ∀ x ∈ after trail, cmp x = .lt)
    (missed : (descend cmp trail t).2 = .nil) :
    (∀ x ∈ before (descend cmp trail t).1, cmp x = .gt) ∧
      ∀ x ∈ after (descend cmp trail t).1, cmp x = .lt := by
  induction t generalizing trail with
  | nil => exact ⟨below, above⟩
  | node a l r ihl ihr =>
      simp only [Splits, inorder_node, List.pairwise_append, List.pairwise_cons] at split
      obtain ⟨left, ⟨right, rest⟩, across⟩ := split
      unfold descend at missed ⊢
      cases order : cmp a with
      | lt =>
          simp only [order] at missed ⊢
          refine ihl _ left below ?_ missed
          intro x member
          simp only [after, List.cons_append, List.mem_cons, List.mem_append] at member
          rcases member with rfl | member | member
          · exact order
          · exact (right x member).2 (by simp [order])
          · exact above x member
      | gt =>
          simp only [order] at missed ⊢
          refine ihr _ rest ?_ above missed
          intro x member
          simp only [before, List.mem_append, List.mem_singleton] at member
          rcases member with member | member | rfl
          · exact below x member
          · exact (across x member a (by simp)).1 (by simp [order])
          · exact order
      | eq => simp [order] at missed

theorem descend_missed_iff (cmp : α → Ordering) (t : BinaryTree α) (split : Splits cmp (inorder t)) :
    (descend cmp [] t).2 = .nil ↔ ∀ x ∈ inorder t, cmp x ≠ .eq := by
  have whole := congrArg inorder (plug_descend cmp [] t)
  rw [inorder_plug, plug_nil] at whole
  constructor
  · intro missed
    obtain ⟨below, above⟩ := descend_missed cmp [] t split (by simp [before]) (by simp [after]) missed
    intro x member
    rw [← whole, missed, inorder_nil, List.append_nil] at member
    rcases List.mem_append.mp member with member | member
    · simp [below x member]
    · simp [above x member]
  · intro absent
    cases found : (descend cmp [] t).2 with
    | nil => rfl
    | node a l r =>
        have equal := descend_found cmp [] t a l r found
        have member : a ∈ inorder t := by
          rw [← whole, found]
          simp
        exact absurd equal (absent a member)

end DataStructure.Zipper
