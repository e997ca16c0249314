import DataStructure.Lib.LinkedTree
import DataStructure.Lib.KeyedTree

/-! The AVL tree of `tree/avltree.c`. -/

namespace DataStructure.Avl

open DataStructure.Program DataStructure.Heap DataStructure.Zipper DataStructure.LinkedTree

structure Node where
  val : Int
  left : Ptr
  right : Ptr
  parent : Ptr
  height : Int
  deriving DecidableEq, Repr

abbrev State := Store Unit Node

def Node.child (n : Node) : Side → Ptr
  | .left => n.left
  | .right => n.right

def Node.setChild (n : Node) (d : Side) (q : Ptr) : Node :=
  match d with
  | .left => { n with left := q }
  | .right => { n with right := q }

def findLoop (val : Int) : Nat → Ptr → Prog State Ptr
  | 0, _ => fault .stuck
  | fuel + 1, root =>
      if root = none then pure none
      else do
        let n ← load root
        if val < n.val then findLoop val fuel n.left
        else if n.val < val then findLoop val fuel n.right
        else pure root

def find (root : Ptr) (val : Int) : Prog State Ptr := do
  findLoop val ((← cells) + 1) root

def height (root : Ptr) : Prog State Int :=
  if root = none then pure 0 else do pure (← load root).height

def adjustHeight (root : Ptr) : Prog State Unit := do
  let l ← height (← load root).left
  let r ← height (← load root).right
  assign root fun n => { n with height := 1 + max l r }

/-- The pointer part of `rotate_right` and `rotate_left` with the sides named: the
child of `root` on side `d` takes its place. -/
def relink (d : Side) (root : Ptr) : Prog State Ptr := do
  let newRoot := (← load root).child d
  let parent := (← load root).parent
  onlyIf parent.isSome do
    if (← load parent).child d = root then assign parent fun n => n.setChild d newRoot
    else assign parent fun n => n.setChild d.flip newRoot
  assign newRoot fun n => { n with parent := parent }
  assign root fun n => { n with parent := newRoot }
  let inner := (← load newRoot).child d.flip
  assign root fun n => n.setChild d inner
  onlyIf inner.isSome (assign inner fun n => { n with parent := root })
  assign newRoot fun n => n.setChild d.flip root
  pure newRoot

def rotate (d : Side) (root : Ptr) : Prog State Ptr := do
  let newRoot ← relink d root
  adjustHeight root
  adjustHeight newRoot
  pure newRoot

def rotateRight (root : Ptr) : Prog State Ptr := rotate .left root

def rotateLeft (root : Ptr) : Prog State Ptr := rotate .right root

def makeNode (val : Int) (parent : Ptr) : Prog State Ptr :=
  malloc ⟨val, none, none, parent, 1⟩

/-- The body of `balance` for a tree that is too high on side `d`. -/
def lean (d : Side) (root : Ptr) : Prog State Ptr := do
  let near := (← load root).child d
  let outer ← height ((← load near).child d)
  let inner ← height ((← load near).child d.flip)
  if inner < outer then rotate d root
  else do
    let _ ← rotate d.flip near
    rotate d root

def balance (root : Ptr) : Prog State Ptr := do
  let l ← height (← load root).left
  let r ← height (← load root).right
  if 1 < l - r then lean .left root
  else if 1 < r - l then lean .right root
  else pure root

/-- The first loop of `insert`. It ends at a node holding `val`; `none` stands for
the `return root` inside the loop. -/
def insertLoop (val : Int) : Nat → Ptr → Prog State (Option Ptr)
  | 0, _ => fault .stuck
  | fuel + 1, current => do
      let n ← load current
      if n.val = val then pure (some current)
      else if val < n.val then
        if n.left ≠ none then insertLoop val fuel n.left
        else do
          let q ← makeNode val current
          assign current fun n => { n with left := q }
          insertLoop val fuel q
      else if n.val < val then
        if n.right ≠ none then insertLoop val fuel n.right
        else do
          let q ← makeNode val current
          assign current fun n => { n with right := q }
          insertLoop val fuel q
      else pure none

def climb : Nat → Ptr → Prog State Ptr
  | 0, _ => fault .stuck
  | fuel + 1, current => do
      let parent := (← load current).parent
      adjustHeight parent
      let top ← balance parent
      if (← load top).parent ≠ none then climb fuel top else pure top

def insert (root : Ptr) (val : Int) : Prog State Ptr := do
  match ← insertLoop val ((← cells) + 1) root with
  | none => pure root
  | some current => climb (← cells) current

structure Label where
  addr : Nat
  val : Int
  height : Int
  deriving DecidableEq, Repr

def layout : Layout Label Node := ⟨Label.addr, fun a l r p => ⟨a.val, l, r, p, a.height⟩⟩

def ht : BinaryTree Label → Int
  | .nil => 0
  | .node a _ _ => a.height

def Label.refit (a : Label) (x y : BinaryTree Label) : Label :=
  { a with height := 1 + max (ht x) (ht y) }

def refit (d : Side) (a : Label) (x y : BinaryTree Label) : BinaryTree Label :=
  join d (a.refit x y) x y

@[simp] theorem cell_left (a : Label) (l r p : Ptr) : (layout.cell a l r p).left = l := by
  simp [layout]

@[simp] theorem cell_right (a : Label) (l r p : Ptr) : (layout.cell a l r p).right = r := by
  simp [layout]

@[simp] theorem cell_parent (a : Label) (l r p : Ptr) : (layout.cell a l r p).parent = p := by
  simp [layout]

@[simp] theorem cell_val (a : Label) (l r p : Ptr) : (layout.cell a l r p).val = a.val := by
  simp [layout]

@[simp] theorem side_child (d : Side) (a : Label) (x y p : Ptr) :
    (layout.side d a x y p).child d = x := by cases d <;> rfl

@[simp] theorem side_child_flip (d : Side) (a : Label) (x y p : Ptr) :
    (layout.side d a x y p).child d.flip = y := by cases d <;> rfl

@[simp] theorem side_parent (d : Side) (a : Label) (x y p : Ptr) :
    (layout.side d a x y p).parent = p := by cases d <;> rfl

@[simp] theorem setChild_side (d : Side) (a : Label) (x y p q : Ptr) :
    (layout.side d a x y p).setChild d q = layout.side d a q y p := by cases d <;> rfl

@[simp] theorem setChild_side_flip (d : Side) (a : Label) (x y p q : Ptr) :
    (layout.side d a x y p).setChild d.flip q = layout.side d a x q p := by cases d <;> rfl

@[simp] theorem setParent_side (d : Side) (a : Label) (x y p q : Ptr) :
    ({ layout.side d a x y p with parent := q } : Node) = layout.side d a x y q := by
  cases d <;> rfl

theorem wp_height (s : State) (p : Ptr) (t : BinaryTree Label) (linked : layout.Linked s.cell p t)
    (post : Int → State → Prop) : wp (height (layout.root t)) post s ↔ post (ht t) s := by
  cases t with
  | nil => rfl
  | node a l r =>
      simp only [height, root_node, reduceCtorEq, if_false, wp_bind, wp_load, linked.1,
        Option.some.injEq, exists_eq_left', wp_pure]
      rfl

theorem adjustHeight_put (s : State) (trail : Trail Label) (d : Side) (a : Label)
    (x y : BinaryTree Label) (held : Holds layout s (plug trail (join d a x y))) :
    wp (adjustHeight (some (layout.addr a))) (fun _ s' => s' = s.put (layout.addr a)
      (layout.side d (a.refit x y) (layout.root x) (layout.root y) (layout.top none trail))) s := by
  have focus := (holds_plug s trail _).mp held
  obtain ⟨cellA, linkedX, linkedY⟩ := by simpa using focus.subtree
  simp only [adjustHeight, wp_bind, wp_load, cellA, Option.some.injEq, exists_eq_left']
  cases d with
  | left =>
      refine (wp_height s _ x linkedX _).mpr ?_
      simp only [wp_bind, wp_load, cellA, Option.some.injEq, exists_eq_left']
      refine (wp_height s _ y linkedY _).mpr ?_
      simp only [wp_assign, cellA, Option.some.injEq, exists_eq_left']
      rfl
  | right =>
      refine (wp_height s _ y linkedY _).mpr ?_
      simp only [wp_bind, wp_load, cellA, Option.some.injEq, exists_eq_left']
      refine (wp_height s _ x linkedX _).mpr ?_
      simp only [wp_assign, cellA, Option.some.injEq, exists_eq_left', max_comm (ht y)]
      rfl

theorem adjustHeight_spec (s : State) (trail : Trail Label) (d : Side) (a : Label)
    (x y : BinaryTree Label) (held : Holds layout s (plug trail (join d a x y))) :
    wp (adjustHeight (some (layout.addr a))) (fun _ s' =>
      Holds layout s' (plug trail (refit d a x y))) s := by
  refine wp_mono _ _ _ s (adjustHeight_put s trail d a x y held) ?_
  rintro _ s' rfl
  refine ((holds_plug s trail _).mp held).relabeled rfl rfl (Store.put_cell_self _ _ _) ?_
  intro b other
  exact Store.put_cell_of_ne _ _ _ _ other

theorem relink_spec (s : State) (trail : Trail Label) (d : Side) (P T : Label)
    (A B C : BinaryTree Label)
    (held : Holds layout s (plug trail (join d P (join d T A B) C))) :
    wp (relink d (some (layout.addr P))) (fun q s' => q = some (layout.addr T) ∧
      Holds layout s' (plug trail (join d T A (join d P B C)))) s := by
  have focus := (holds_plug s trail _).mp held
  have apart := focus.apart
  obtain ⟨cellP, ⟨cellT, _, linkedB⟩, _⟩ := by simpa using focus.subtree
  unfold relink
  simp only [wp_bind, wp_load, cellP, Option.some.injEq, exists_eq_left', side_child, side_parent]
  refine wp_repoint_if s trail (layout.addr P) (some (layout.addr T)) d (fun n => n.child d)
    (fun n => n.setChild d (some (layout.addr T))) (fun n => n.setChild d.flip (some (layout.addr T)))
    (fun _ _ _ _ => side_child _ _ _ _ _) (fun _ _ _ _ => setChild_side _ _ _ _ _ _)
    (fun _ _ _ _ => setChild_side_flip _ _ _ _ _ _)
    (by simpa using focus.around) apart.trailP apart.nodupTrail _ ?_
  intro s₁ around₁ touches₁
  have cellP₁ := (touches₁.cell _ apart.trailP).trans cellP
  have cellT₁ := (touches₁.cell _ apart.trailT).trans cellT
  have linkedB₁ := touches₁.linked _ B apart.trail_B linkedB
  simp only [wp_bind, wp_assign, wp_load, cellP₁, cellT₁, Option.some.injEq, exists_eq_left',
    Store.put_cell_self, Store.put_cell_of_ne _ _ _ _ apart.ne,
    Store.put_cell_of_ne _ _ _ _ apart.ne.symm, setParent_side, setChild_side, side_child_flip]
  refine wp_reparent _ B (some (layout.addr T)) (some (layout.addr P))
    (fun n => { n with parent := some (layout.addr P) }) (fun _ _ _ => rfl)
    ?_ apart.nodupB _ ?_
  · simpa [apart.B_P, apart.B_T] using linkedB₁
  intro s₂ linkedB₂ touches₂
  have cellP₂ := touches₂.cell _ apart.B_P
  have cellT₂ := touches₂.cell _ apart.B_T
  have around₂ := touches₂.linkedTrail _ _ trail
    (fun a inside member => apart.trail_B a member inside)
    (by simpa [apart.trailP, apart.trailT] using around₁)
  simp only [Store.put_cell_self, Store.put_cell_of_ne _ _ _ _ apart.ne.symm] at cellP₂ cellT₂
  simp only [wp_bind, wp_assign, cellT₂, Option.some.injEq, exists_eq_left', setChild_side_flip,
    wp_pure]
  refine ⟨trivial, focus.rotated rfl rfl ?_ ?_ ?_ ?_ ?_ ?_⟩
  · simp [touches₁.brk, touches₂.brk]
  · simpa [apart.ne] using cellP₂
  · simp
  · simpa [apart.B_T] using linkedB₂
  · simpa [apart.trailT] using around₂
  · intro a awayP awayT awayB awayTrail
    have same := touches₂.cell a awayB
    simp only [Store.put_cell_of_ne _ _ _ _ awayP, Store.put_cell_of_ne _ _ _ _ awayT] at same ⊢
    exact same.trans (touches₁.cell a awayTrail)

theorem rotate_spec (s : State) (trail : Trail Label) (d : Side) (P T : Label)
    (A B C : BinaryTree Label)
    (held : Holds layout s (plug trail (join d P (join d T A B) C))) :
    wp (rotate d (some (layout.addr P))) (fun q s' => q = some (layout.addr T) ∧
      Holds layout s' (plug trail (refit d T A (refit d P B C)))) s := by
  refine wp_seq _ _ _ _ s (relink_spec s trail d P T A B C held) ?_
  rintro _ s₁ ⟨rfl, held₁⟩
  have lower : Holds layout s₁ (plug (⟨d.flip, T, A⟩ :: trail) (join d P B C)) := by
    simpa [Frame.attach, join_flip] using held₁
  refine wp_seq _ _ _ _ s₁ (adjustHeight_spec s₁ _ d P B C lower) ?_
  intro _ s₂ held₂
  have upper : Holds layout s₂ (plug trail (join d T A (refit d P B C))) := by
    simpa [Frame.attach, join_flip] using held₂
  refine wp_seq _ _ _ _ s₂ (adjustHeight_spec s₂ trail d T A _ upper) ?_
  intro _ s₃ held₃
  exact ⟨rfl, held₃⟩

end DataStructure.Avl
