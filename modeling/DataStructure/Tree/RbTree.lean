import DataStructure.Lib.LinkedTree
import DataStructure.Lib.KeyedTree
import DataStructure.Lib.RedBlack

/-! The red-black tree of `tree/rbtree/rbtree.c` and `rbtree.h`.

A node packs its parent pointer and its colour into one word. Nodes are embedded as
the first member of a larger structure, so `container_of` is the identity on
addresses; `entry` is the rest of that structure. -/

namespace DataStructure.RbTree

open DataStructure.Program DataStructure.Heap DataStructure.Zipper DataStructure.LinkedTree
  DataStructure.KeyedTree DataStructure.RedBlack

structure Node (D : Type) where
  rbParentColor : Nat
  rbRight : Ptr
  rbLeft : Ptr
  entry : D
  deriving DecidableEq, Repr

structure Globals (E : Type) where
  rbNode : Ptr
  ext : E
  deriving DecidableEq, Repr

abbrev State (E D : Type) := Store (Globals E) (Node D)

/-- The machine address of a cell. Nodes are aligned to eight bytes. -/
def word : Ptr → Nat
  | none => 0
  | some a => 8 * (a + 1)

def pointer (w : Nat) : Ptr := if w = 0 then none else some (w / 8 - 1)

variable {E D : Type}

namespace Node

/-- `rb_parent_color & ~3` -/
def rbParent (n : Node D) : Ptr := pointer (n.rbParentColor / 4 * 4)

def rbColor (n : Node D) : Nat := n.rbParentColor % 2

def rbIsRed (n : Node D) : Bool := n.rbColor == 0

def setRed (n : Node D) : Node D := { n with rbParentColor := n.rbParentColor / 2 * 2 }

def setBlack (n : Node D) : Node D := { n with rbParentColor := n.rbParentColor ||| 1 }

def setParent (p : Ptr) (n : Node D) : Node D :=
  { n with rbParentColor := n.rbParentColor % 4 ||| word p }

def setColor (color : Nat) (n : Node D) : Node D :=
  { n with rbParentColor := n.rbParentColor / 2 * 2 ||| color }

def child (n : Node D) : Side → Ptr
  | .left => n.rbLeft
  | .right => n.rbRight

def setChild (d : Side) (q : Ptr) (n : Node D) : Node D :=
  match d with
  | .left => { n with rbLeft := q }
  | .right => { n with rbRight := q }

end Node

/-- The side on which `child` hangs, found by comparing it with the left pointer. -/
def Node.sideOf (n : Node D) (child : Ptr) : Side := if n.rbLeft = child then .left else .right

def isRedAt (p : Ptr) : Prog (State E D) Bool :=
  if p = none then pure false else do pure (← load p).rbIsRed

def readRoot : Prog (State E D) Ptr := do pure (← readGlob).rbNode

/-- The pointer to `old` in its parent, or in the root, is replaced by `new`; the side
is found by comparing the parent's child on side `d` with `old`. -/
def replaceChild (d : Side) (parent old new : Ptr) : Prog (State E D) Unit :=
  if parent.isSome then do
    if (← load parent).child d = old then assign parent (Node.setChild d new)
    else assign parent (Node.setChild d.flip new)
  else writeGlob fun g => { g with rbNode := new }

/-- `__rb_rotate_right` and `__rb_rotate_left` with the sides named: the child of
`node` on side `d` takes its place. -/
def rotate (d : Side) (node : Ptr) : Prog (State E D) Unit := do
  let child := (← load node).child d
  let parent := (← load node).rbParent
  let inner := (← load child).child d.flip
  assign node (Node.setChild d inner)
  onlyIf inner.isSome (assign inner (Node.setParent node))
  assign child (Node.setChild d.flip node)
  assign child (Node.setParent parent)
  replaceChild d.flip parent node child
  assign node (Node.setParent child)

def rbRotateRight (node : Ptr) : Prog (State E D) Unit := rotate .left node

def rbRotateLeft (node : Ptr) : Prog (State E D) Unit := rotate .right node

def insertRotate (d : Side) (parent gparent : Ptr) : Prog (State E D) Unit := do
  assign parent Node.setBlack
  assign gparent Node.setRed
  rotate d gparent

/-- The loop body of `rb_insert_color` for a parent on side `d` of the grandparent.
The result is the value of `node` at the end of the body. -/
def insertStep (d : Side) (node parent gparent : Ptr) : Prog (State E D) Ptr := do
  let uncle := (← load gparent).child d.flip
  if ← isRedAt uncle then do
    assign uncle Node.setBlack
    assign parent Node.setBlack
    assign gparent Node.setRed
    pure gparent
  else if (← load parent).child d.flip = node then do
    rotate d.flip parent
    insertRotate d node gparent
    pure parent
  else do
    insertRotate d parent gparent
    pure node

def insertLoop : Nat → Ptr → Prog (State E D) Unit
  | 0, _ => fault .stuck
  | fuel + 1, node => do
      let parent := (← load node).rbParent
      if ← isRedAt parent then do
        let gparent := (← load parent).rbParent
        let next ← insertStep ((← load gparent).sideOf parent) node parent gparent
        insertLoop fuel next
      else pure ()

def rbInsertColor (node : Ptr) : Prog (State E D) Unit := do
  insertLoop (← cells) node
  assign (← readRoot) Node.setBlack

def eraseSibling (d : Side) (parent : Ptr) : Prog (State E D) Ptr := do
  let other := (← load parent).child d.flip
  if (← load other).rbIsRed then do
    assign other Node.setBlack
    assign parent Node.setRed
    rotate d.flip parent
    pure ((← load parent).child d.flip)
  else pure other

def eraseNephew (d : Side) (parent other : Ptr) : Prog (State E D) Ptr := do
  if ← isRedAt ((← load other).child d.flip) then pure other
  else do
    assign ((← load other).child d) Node.setBlack
    assign other Node.setRed
    rotate d other
    pure ((← load parent).child d.flip)

def eraseFinish (d : Side) (parent other : Ptr) : Prog (State E D) Unit := do
  assign other (Node.setColor (← load parent).rbColor)
  assign parent Node.setBlack
  assign ((← load other).child d.flip) Node.setBlack
  rotate d.flip parent

/-- The loop body of `__rb_erase_color` for a node on side `d` of `parent`. The result
is the next `node` and whether the loop goes on. -/
def eraseStep (d : Side) (parent : Ptr) : Prog (State E D) (Ptr × Bool) := do
  let other ← eraseSibling d parent
  let left ← isRedAt (← load other).rbLeft
  let right ← isRedAt (← load other).rbRight
  if !left && !right then do
    assign other Node.setRed
    pure (parent, true)
  else do
    eraseFinish d parent (← eraseNephew d parent other)
    pure (← readRoot, false)

def eraseLoop : Nat → Ptr → Ptr → Prog (State E D) Ptr
  | 0, _, _ => fault .stuck
  | fuel + 1, node, parent => do
      let red ← isRedAt node
      if !red && node ≠ (← readRoot) then do
        let (next, more) ← eraseStep ((← load parent).sideOf node) parent
        if more then eraseLoop fuel next (← load next).rbParent else pure next
      else pure node

def rbEraseColor (node parent : Ptr) : Prog (State E D) Unit := do
  let node ← eraseLoop ((← cells) + 1) node parent
  onlyIf node.isSome (assign node Node.setBlack)

def leftmost : Nat → Ptr → Prog (State E D) Ptr
  | 0, _ => fault .stuck
  | fuel + 1, node => do
      let left := (← load node).rbLeft
      if left ≠ none then leftmost fuel left else pure node

/-- The part of `rb_erase` that takes the successor `node` of `old` out of the right
subtree, when it is not the root of that subtree. -/
def eraseDetach (old node child parent : Ptr) : Prog (State E D) Unit := do
  onlyIf child.isSome (assign child (Node.setParent parent))
  assign parent (Node.setChild .left child)
  let right := (← load old).rbRight
  assign node (Node.setChild .right right)
  assign right (Node.setParent node)

/-- The part of `rb_erase` that gives `node` the parent, the colour and the left
subtree of `old`. -/
def eraseTakeOver (old node : Ptr) : Prog (State E D) Unit := do
  let word := (← load old).rbParentColor
  assign node fun n => { n with rbParentColor := word }
  let left := (← load old).rbLeft
  assign node (Node.setChild .left left)
  assign left (Node.setParent node)

/-- `rb_erase` of a node with two children. The result is `child`, `parent` and `color`
at the label `color`. -/
def eraseSplice (old : Ptr) : Prog (State E D) (Ptr × Ptr × Nat) := do
  let node ← leftmost (← cells) (← load old).rbRight
  replaceChild .left (← load old).rbParent old node
  let child := (← load node).rbRight
  let parent := (← load node).rbParent
  let color := (← load node).rbColor
  onlyIf (parent ≠ old) (eraseDetach old node child parent)
  eraseTakeOver old node
  pure (child, if parent = old then node else parent, color)

def eraseUnlink (node child : Ptr) : Prog (State E D) (Ptr × Ptr × Nat) := do
  let parent := (← load node).rbParent
  let color := (← load node).rbColor
  onlyIf child.isSome (assign child (Node.setParent parent))
  replaceChild .left parent node child
  pure (child, parent, color)

def eraseNode (node : Ptr) : Prog (State E D) (Ptr × Ptr × Nat) := do
  let n ← load node
  if n.rbLeft = none then eraseUnlink node n.rbRight
  else if n.rbRight = none then eraseUnlink node n.rbLeft
  else eraseSplice node

def rbErase (node : Ptr) : Prog (State E D) Unit := do
  let (child, parent, color) ← eraseNode node
  onlyIf (color = 1) (rbEraseColor child parent)

structure Label (D : Type) where
  addr : Nat
  color : Color
  entry : D
  deriving DecidableEq, Repr

def bit : Color → Nat
  | .red => 0
  | .black => 1

def layout : Layout (Label D) (Node D) :=
  ⟨Label.addr, fun a l r p => ⟨word p + bit a.color, r, l, a.entry⟩⟩

def Label.paint (a : Label D) (c : Color) : Label D := { a with color := c }

def Label.core (a : Label D) : Nat × D := (a.addr, a.entry)

theorem color_paint (a : Label D) (c : Color) : (a.paint c).color = c := rfl

theorem pointer_word (p : Ptr) : pointer (word p) = p := by
  cases p with
  | none => rfl
  | some a =>
      have positive : 8 * (a + 1) ≠ 0 := by omega
      simp [pointer, word, positive]

theorem word_aligned (p : Ptr) : ∃ k, word p = 8 * k := by
  cases p with
  | none => exact ⟨0, rfl⟩
  | some a => exact ⟨a + 1, rfl⟩

theorem bit_le (c : Color) : bit c ≤ 1 := by cases c <;> decide

theorem word_or_bit (p : Ptr) (c : Color) : word p ||| bit c = word p + bit c := by
  obtain ⟨k, aligned⟩ := word_aligned p
  have small : bit c < 2 ^ 3 := by
    have := bit_le c
    omega
  rw [aligned]
  exact (Nat.two_pow_add_eq_or_of_lt small k).symm

@[simp] theorem cell_rbLeft (a : Label D) (l r p : Ptr) : (layout.cell a l r p).rbLeft = l := by
  simp [layout]

@[simp] theorem cell_rbRight (a : Label D) (l r p : Ptr) : (layout.cell a l r p).rbRight = r := by
  simp [layout]

@[simp] theorem cell_entry (a : Label D) (l r p : Ptr) : (layout.cell a l r p).entry = a.entry := by
  simp [layout]

@[simp] theorem side_child (d : Side) (a : Label D) (x y p : Ptr) :
    (layout.side d a x y p).child d = x := by cases d <;> rfl

@[simp] theorem side_child_flip (d : Side) (a : Label D) (x y p : Ptr) :
    (layout.side d a x y p).child d.flip = y := by cases d <;> rfl

@[simp] theorem setChild_side (d : Side) (a : Label D) (x y p q : Ptr) :
    (layout.side d a x y p).setChild d q = layout.side d a q y p := by cases d <;> rfl

@[simp] theorem setChild_side_flip (d : Side) (a : Label D) (x y p q : Ptr) :
    (layout.side d a x y p).setChild d.flip q = layout.side d a x q p := by cases d <;> rfl

theorem side_word (d : Side) (a : Label D) (x y p : Ptr) :
    (layout.side d a x y p).rbParentColor = word p + bit a.color := by cases d <;> rfl

@[simp] theorem side_rbParent (d : Side) (a : Label D) (x y p : Ptr) :
    (layout.side d a x y p).rbParent = p := by
  obtain ⟨k, aligned⟩ := word_aligned p
  have small := bit_le a.color
  have cleared : (word p + bit a.color) / 4 * 4 = word p := by omega
  rw [Node.rbParent, side_word, cleared, pointer_word]

@[simp] theorem side_rbColor (d : Side) (a : Label D) (x y p : Ptr) :
    (layout.side d a x y p).rbColor = bit a.color := by
  obtain ⟨k, aligned⟩ := word_aligned p
  have small := bit_le a.color
  rw [Node.rbColor, side_word]
  omega

@[simp] theorem side_rbIsRed (d : Side) (a : Label D) (x y p : Ptr) :
    (layout.side d a x y p).rbIsRed = decide (a.color = .red) := by
  rw [Node.rbIsRed, side_rbColor]
  cases a.color <;> rfl

@[simp] theorem cell_rbParent (a : Label D) (l r p : Ptr) : (layout.cell a l r p).rbParent = p :=
  side_rbParent .left a l r p

@[simp] theorem cell_rbColor (a : Label D) (l r p : Ptr) :
    (layout.cell a l r p).rbColor = bit a.color := side_rbColor .left a l r p

@[simp] theorem cell_rbIsRed (a : Label D) (l r p : Ptr) :
    (layout.cell a l r p).rbIsRed = decide (a.color = .red) := side_rbIsRed .left a l r p

theorem side_with_word (d : Side) (a b : Label D) (x y p q : Ptr) (w : Nat)
    (packed : w = word q + bit b.color) (entry : b.entry = a.entry) :
    ({ layout.side d a x y p with rbParentColor := w } : Node D) = layout.side d b x y q := by
  subst packed
  cases d <;> simp [Layout.side, layout, entry]

@[simp] theorem setParent_side (d : Side) (a : Label D) (x y p q : Ptr) :
    (layout.side d a x y p).setParent q = layout.side d a x y q := by
  obtain ⟨k, aligned⟩ := word_aligned p
  have small := bit_le a.color
  have low : (word p + bit a.color) % 4 = bit a.color := by omega
  apply side_with_word _ _ _ _ _ _ _ _ _ rfl
  rw [side_word, low, Nat.or_comm, word_or_bit]

theorem setBlack_side (d : Side) (a : Label D) (x y p : Ptr) :
    (layout.side d a x y p).setBlack = layout.side d (a.paint .black) x y p := by
  refine side_with_word d a (a.paint .black) x y p p _ ?_ rfl
  rw [side_word, ← word_or_bit, Nat.or_assoc]
  cases a.color <;> exact word_or_bit p .black

theorem setColor_side (d : Side) (a : Label D) (c : Color) (x y p : Ptr) :
    (layout.side d a x y p).setColor (bit c) = layout.side d (a.paint c) x y p := by
  obtain ⟨k, aligned⟩ := word_aligned p
  have small := bit_le a.color
  have cleared : (word p + bit a.color) / 2 * 2 = word p := by omega
  refine side_with_word d a (a.paint c) x y p p _ ?_ rfl
  rw [side_word, cleared]
  exact word_or_bit p c

theorem setRed_side (d : Side) (a : Label D) (x y p : Ptr) :
    (layout.side d a x y p).setRed = layout.side d (a.paint .red) x y p := by
  rw [← setColor_side]
  simp [Node.setRed, Node.setColor, bit]

/-- What the tree operations leave alone: the other variables and the cells outside
the tree. -/
structure Env (E D : Type) where
  ext : E
  frame : Nat → Option (Node D)

structure Stored (e : Env E D) (s : State E D) (t : BinaryTree (Label D)) : Prop where
  held : Holds layout s t
  glob : s.glob = ⟨layout.root t, e.ext⟩
  frame : ∀ a, a ∉ layout.addrs t → s.cell a = e.frame a

theorem wp_isRedAt (s : State E D) (p : Ptr) (t : BinaryTree (Label D))
    (linked : layout.Linked s.cell p t) (post : Bool → State E D → Prop) :
    wp (isRedAt (layout.root t)) post s ↔ post (decide (tint Label.color t = .red)) s := by
  cases t with
  | nil => rfl
  | node a l r =>
      simp only [isRedAt, root_node, reduceCtorEq, if_false, wp_bind, wp_load, linked.1,
        Option.some.injEq, exists_eq_left', wp_pure, cell_rbIsRed]
      rfl

theorem wp_paint (e : Env E D) (s : State E D) (trail : Trail (Label D)) (d : Side) (a : Label D)
    (x y : BinaryTree (Label D)) (c : Color) (f : Node D → Node D)
    (paints : ∀ p, f (layout.side d a (layout.root x) (layout.root y) p) =
      layout.side d (a.paint c) (layout.root x) (layout.root y) p)
    (stored : Stored e s (plug trail (join d a x y))) :
    wp (assign (some (layout.addr a)) f) (fun _ s' =>
      Stored e s' (plug trail (join d (a.paint c) x y))) s := by
  have focus := (holds_plug s trail _).mp stored.held
  obtain ⟨cellA, _⟩ := (linked_join _ _ d a x y).mp focus.subtree
  simp only [wp_assign, cellA, Option.some.injEq, exists_eq_left', paints]
  refine ⟨focus.relabeled rfl rfl (Store.put_cell_self _ _ _) ?_, ?_, ?_⟩
  · intro b other
    exact Store.put_cell_of_ne _ _ _ _ other
  · rw [Store.put_glob, stored.glob, root_plug trail _ (join d (a.paint c) x y) (by simp; rfl)]
  · intro b outside
    have address : layout.addr (a.paint c) = layout.addr a := rfl
    simp only [mem_addrs_plug, mem_addrs_join, address] at outside
    rw [Store.put_cell_of_ne _ _ _ _ (by tauto)]
    exact stored.frame b (by simpa [mem_addrs_plug] using outside)

theorem setBlack_spec (e : Env E D) (s : State E D) (trail : Trail (Label D)) (d : Side) (a : Label D)
    (x y : BinaryTree (Label D)) (stored : Stored e s (plug trail (join d a x y))) :
    wp (assign (some (layout.addr a)) Node.setBlack) (fun _ s' =>
      Stored e s' (plug trail (join d (a.paint .black) x y))) s :=
  wp_paint e s trail d a x y .black _ (fun _ => setBlack_side _ _ _ _ _) stored

theorem setRed_spec (e : Env E D) (s : State E D) (trail : Trail (Label D)) (d : Side) (a : Label D)
    (x y : BinaryTree (Label D)) (stored : Stored e s (plug trail (join d a x y))) :
    wp (assign (some (layout.addr a)) Node.setRed) (fun _ s' =>
      Stored e s' (plug trail (join d (a.paint .red) x y))) s :=
  wp_paint e s trail d a x y .red _ (fun _ => setRed_side _ _ _ _ _) stored

/-- `replaceChild` moves the pointer above the focus from the root of `t` to that of `u`. -/
theorem wp_replaceChild (e : E) (s : State E D) (d : Side) (trail : Trail (Label D)) (hole : Nat)
    (t u : BinaryTree (Label D))
    (linked : layout.LinkedTrail s.cell none (some hole) trail)
    (apart : hole ∉ layout.trailAddrs trail) (distinct : (layout.trailAddrs trail).Nodup)
    (rooted : s.glob = ⟨layout.root (plug trail t), e⟩) (post : Unit → State E D → Prop)
    (continues : ∀ s', layout.LinkedTrail s'.cell none (layout.root u) trail →
      (∀ a, a ∉ layout.trailAddrs trail → s'.cell a = s.cell a) → s'.brk = s.brk →
      s'.glob = ⟨layout.root (plug trail u), e⟩ → post () s') :
    wp (replaceChild d (layout.top none trail) (some hole) (layout.root u)) post s := by
  cases trail with
  | nil =>
      simp only [replaceChild, top_nil, Option.isSome_none, Bool.false_eq_true, if_false, wp_writeGlob]
      exact continues _ (linkedTrail_nil _ _ _) (fun _ _ => rfl) rfl (by rw [rooted]; rfl)
  | cons f up =>
      simp only [replaceChild, top_cons, Option.isSome_some, if_true]
      apply wp_repoint s none f up hole (layout.root u) d (fun n => n.child d)
        (Node.setChild d (layout.root u)) (Node.setChild d.flip (layout.root u))
        (fun _ _ _ _ => side_child _ _ _ _ _) (fun _ _ _ _ => setChild_side _ _ _ _ _ _)
        (fun _ _ _ _ => setChild_side_flip _ _ _ _ _ _) linked
        (fun member => apart (by simp [member])) distinct
      intro s' relinked touches
      refine continues s' relinked ?_ touches.brk ?_
      · intro a outside
        simp only [mem_trailAddrs_cons, not_or] at outside
        exact touches.cell a (by simpa using outside.1)
      · rw [touches.glob, rooted]
        exact congrArg (Globals.mk · e) (root_plug up _ _ (by simp))

theorem rotate_spec (e : Env E D) (s : State E D) (trail : Trail (Label D)) (d : Side) (P T : Label D)
    (A B C : BinaryTree (Label D))
    (stored : Stored e s (plug trail (join d P (join d T A B) C))) :
    wp (rotate d (some (layout.addr P))) (fun _ s' =>
      Stored e s' (plug trail (join d T A (join d P B C)))) s := by
  have focus := (holds_plug s trail _).mp stored.held
  have apart := focus.apart
  obtain ⟨cellP, ⟨cellT, _, linkedB⟩, _⟩ := by simpa using focus.subtree
  unfold rotate
  simp only [wp_bind, wp_load, wp_assign, cellP, cellT, Option.some.injEq, exists_eq_left', side_child,
    side_child_flip, side_rbParent, setChild_side]
  refine wp_reparent _ B (some (layout.addr T)) (some (layout.addr P))
    (Node.setParent (some (layout.addr P))) (fun _ _ _ => setParent_side .left _ _ _ _ _)
    ?_ apart.nodupB _ ?_
  · simpa [apart.B_P] using linkedB
  intro s₁ linkedB₁ touches₁
  have cellP₁ := touches₁.cell _ apart.B_P
  have cellT₁ := touches₁.cell _ apart.B_T
  simp only [Store.put_cell_self, Store.put_cell_of_ne _ _ _ _ apart.ne.symm, cellT] at cellP₁ cellT₁
  have around₁ := touches₁.linkedTrail none (some (layout.addr P)) trail
    (fun a inside member => apart.trail_B a member inside)
    (by simpa [apart.trailP] using focus.around)
  simp only [wp_bind, wp_assign, cellT₁, Option.some.injEq, exists_eq_left', Store.put_cell_self,
    setChild_side_flip, setParent_side]
  have rooted₁ : s₁.glob = ⟨layout.root (plug trail (join d P (join d T A B) C)), e.ext⟩ := by
    rw [touches₁.glob, Store.put_glob, stored.glob]
  have pointed : layout.root (join d T A (join d P B C)) = some (layout.addr T) := root_join _ _ _ _
  rw [← pointed]
  refine wp_replaceChild e.ext _ d.flip trail (layout.addr P) (join d P (join d T A B) C)
    (join d T A (join d P B C)) ?_ apart.trailP apart.nodupTrail (by simpa using rooted₁) _ ?_
  · simpa [apart.trailT] using around₁
  intro s₂ around₂ keeps₂ brk₂ glob₂
  have cellP₂ := keeps₂ _ apart.trailP
  have cellT₂ := keeps₂ _ apart.trailT
  simp only [Store.put_cell_self, Store.put_cell_of_ne _ _ _ _ apart.ne] at cellP₂ cellT₂
  simp only [cellP₂, cellP₁, wp_assign, Option.some.injEq, exists_eq_left', setParent_side, pointed]
  have keeps (a : Nat) (awayP : a ≠ layout.addr P) (awayT : a ≠ layout.addr T)
      (awayB : a ∉ layout.addrs B) (awayTrail : a ∉ layout.trailAddrs trail) :
      (s₂.put (layout.addr P) (layout.side d P (layout.root B) (layout.root C)
        (some (layout.addr T)))).cell a = s.cell a := by
    rw [Store.put_cell_of_ne _ _ _ _ awayP, keeps₂ a awayTrail, Store.put_cell_of_ne _ _ _ _ awayT,
      Store.put_cell_of_ne _ _ _ _ awayT, touches₁.cell a awayB, Store.put_cell_of_ne _ _ _ _ awayP]
  refine ⟨focus.rotated rfl rfl ?_ ?_ ?_ ?_ ?_ keeps, glob₂, ?_⟩
  · simp [brk₂, touches₁.brk]
  · simp
  · simpa [apart.ne.symm] using cellT₂
  · rw [linked_put _ _ _ _ _ apart.B_P]
    refine (linked_congr _ _ _ _ ?_).mpr linkedB₁
    intro a member
    rw [keeps₂ a (apart.trail_B a member), Store.put_cell_of_ne, Store.put_cell_of_ne]
    · rintro rfl
      exact apart.B_T member
    · rintro rfl
      exact apart.B_T member
  · rw [linkedTrail_put _ _ _ _ _ _ apart.trailP]
    simpa using around₂
  · intro a outside
    simp only [mem_addrs_plug, mem_addrs_join, not_or] at outside
    obtain ⟨awayTrail, awayT, awayA, awayP, awayB, awayC⟩ := outside
    rw [keeps a awayP awayT awayB awayTrail]
    apply stored.frame
    simp [mem_addrs_plug, awayTrail, awayT, awayA, awayP, awayB, awayC]

end DataStructure.RbTree
