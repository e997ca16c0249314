import DataStructure.Tree.RbUnlink

/-! Walking a red-black tree: search, the place of a new node, `rb_first` and `rb_next`. -/

namespace DataStructure.RbTree

open DataStructure.Program DataStructure.Heap DataStructure.Zipper DataStructure.LinkedTree
  DataStructure.KeyedTree DataStructure.RedBlack

variable {E D : Type}

inductive Link where
  | root
  | child (d : Side) (p : Ptr)
  deriving DecidableEq, Repr

def readLink : Link → Prog (State E D) Ptr
  | .root => readRoot
  | .child d p => do pure ((← load p).child d)

def writeLink : Link → Ptr → Prog (State E D) Unit
  | .root, q => writeGlob fun g => { g with rbNode := q }
  | .child d p, q => assign p (Node.setChild d q)

def rbLinkNode (node parent : Ptr) (link : Link) : Prog (State E D) Unit := do
  assign node fun n => { n with rbParentColor := word parent }
  assign node fun n => { n with rbRight := none, rbLeft := none }
  writeLink link node

/-- The walk of an insertion to an empty link; `cmp` compares the new entry with the
entry of a node. No result means that an equal entry was met. -/
def walk (cmp : D → Ordering) : Nat → Link → Ptr → Prog (State E D) (Option (Link × Ptr))
  | 0, _, _ => fault .stuck
  | fuel + 1, link, parent => do
      let this ← readLink link
      if this = none then pure (some (link, parent))
      else match cmp (← load this).entry with
        | .lt => walk cmp fuel (.child .left this) this
        | .gt => walk cmp fuel (.child .right this) this
        | .eq => pure none

def lookup (cmp : D → Ordering) : Nat → Ptr → Prog (State E D) Ptr
  | 0, _ => fault .stuck
  | fuel + 1, node =>
      if node = none then pure none
      else do
        let n ← load node
        match cmp n.entry with
        | .lt => lookup cmp fuel n.rbLeft
        | .gt => lookup cmp fuel n.rbRight
        | .eq => pure node

/-- `while ((parent = rb_parent(node)) && node == parent->rb_right) node = parent;` -/
def nextUp : Nat → Ptr → Prog (State E D) Ptr
  | 0, _ => fault .stuck
  | fuel + 1, node => do
      let parent := (← load node).rbParent
      if parent = none then pure none
      else if (← load parent).rbRight = node then nextUp fuel parent
      else pure parent

def rbFirst : Prog (State E D) Ptr := do
  let n ← readRoot
  if n = none then pure none else leftmost (← cells) n

def rbNext (node : Ptr) : Prog (State E D) Ptr := do
  let n ← load node
  if n.rbParent = node then pure none
  else if n.rbRight ≠ none then leftmost (← cells) n.rbRight
  else nextUp (← cells) node

def linkOf : Trail (Label D) → Link
  | [] => .root
  | f :: _ => .child f.side (some (layout.addr f.label))

theorem wp_readLink (e : Env E D) (s : State E D) (up : Trail (Label D)) (t : BinaryTree (Label D))
    (stored : Stored e s (plug up t)) (post : Ptr → State E D → Prop) :
    wp (readLink (linkOf up)) post s ↔ post (layout.root t) s := by
  cases up with
  | nil => simp only [linkOf, readLink, readRoot, wp_bind, wp_readGlob, stored.glob, wp_pure, plug_nil]
  | cons f up =>
      obtain ⟨cellF, _⟩ := ((holds_plug s (f :: up) t).mp stored.held).around
      simp only [linkOf, readLink, wp_bind, wp_load, cellF, Option.some.injEq, exists_eq_left',
        side_child, wp_pure]

def walked : Trail (Label D) × BinaryTree (Label D) → Option (Link × Ptr)
  | (up, .nil) => some (linkOf up, layout.top none up)
  | (_, .node _ _ _) => none

theorem walk_spec (cmp : D → Ordering) (e : Env E D) (fuel : Nat) (s : State E D) (up : Trail (Label D))
    (t : BinaryTree (Label D)) (stored : Stored e s (plug up t)) (enough : (inorder t).length < fuel) :
    wp (walk cmp fuel (linkOf up) (layout.top none up)) (fun q s' => s' = s ∧
      q = walked (descend (fun a => cmp a.entry) up t)) s := by
  induction t generalizing fuel up with
  | nil =>
      obtain _ | fuel := fuel
      · simp at enough
      simp only [walk, wp_bind]
      rw [wp_readLink e s up _ stored]
      exact ⟨rfl, rfl⟩
  | node a l r ihl ihr =>
      obtain _ | fuel := fuel
      · simp at enough
      simp only [inorder_node, List.length_append, List.length_cons] at enough
      obtain ⟨cellA, _⟩ := ((holds_plug s up _).mp stored.held).subtree
      simp only [walk, wp_bind]
      rw [wp_readLink e s up _ stored]
      simp only [root_node, reduceCtorEq, if_false, wp_bind, wp_load, cellA, Option.some.injEq,
        exists_eq_left', cell_entry, descend]
      cases cmp a.entry with
      | lt => exact ihl fuel (⟨.left, a, r⟩ :: up) stored (by omega)
      | gt => exact ihr fuel (⟨.right, a, l⟩ :: up) stored (by omega)
      | eq => exact ⟨rfl, rfl⟩

theorem lookup_spec (cmp : D → Ordering) (fuel : Nat) (s : State E D) (p : Ptr) (up : Trail (Label D))
    (t : BinaryTree (Label D)) (linked : layout.Linked s.cell p t) (enough : (inorder t).length < fuel) :
    wp (lookup cmp fuel (layout.root t)) (fun q s' => s' = s ∧
      q = layout.root (descend (fun a => cmp a.entry) up t).2) s := by
  induction t generalizing fuel p up with
  | nil =>
      obtain _ | fuel := fuel
      · simp at enough
      exact ⟨rfl, rfl⟩
  | node a l r ihl ihr =>
      obtain _ | fuel := fuel
      · simp at enough
      simp only [inorder_node, List.length_append, List.length_cons] at enough
      obtain ⟨cellA, linkedL, linkedR⟩ := linked
      simp only [lookup, root_node, reduceCtorEq, if_false, wp_bind, wp_load, cellA, Option.some.injEq,
        exists_eq_left', cell_entry, cell_rbLeft, cell_rbRight, descend]
      cases cmp a.entry with
      | lt => exact ihl fuel _ _ linkedL (by omega)
      | gt => exact ihr fuel _ _ linkedR (by omega)
      | eq => exact ⟨rfl, rfl⟩

theorem rbLinkNode_spec (e : Env E D) (s : State E D) (up : Trail (Label D)) (a : Nat) (n : Node D)
    (stored : Stored e s (plug up .nil)) (cellA : s.cell a = some n)
    (fresh : a ∉ layout.trailAddrs up) (bound : a < s.brk) :
    wp (rbLinkNode (some a) (layout.top none up) (linkOf up)) (fun _ s' =>
      Stored e s' (plug up (.node ⟨a, .red, n.entry⟩ .nil .nil))) s := by
  simp only [rbLinkNode, wp_bind, wp_assign, cellA, Option.some.injEq, exists_eq_left',
    Store.put_cell_self]
  cases up with
  | nil =>
      simp only [linkOf, writeLink, wp_writeGlob]
      refine ⟨⟨⟨Store.put_cell_self _ _ _, trivial, trivial⟩, by simp, ?_⟩, ?_, ?_⟩
      · intro b member
        obtain rfl : b = a := List.mem_singleton.mp member
        exact bound
      · simp only [Store.put_glob, stored.glob]
        rfl
      · intro b outside
        have away : b ≠ a := fun same => outside (List.mem_singleton.mpr same)
        change ((s.put a _).put a _).cell b = _
        rw [Store.put_cell_of_ne _ _ _ _ away, Store.put_cell_of_ne _ _ _ _ away]
        exact stored.frame b List.not_mem_nil
  | cons f up =>
      have focus := (holds_plug s (f :: up) _).mp stored.held
      obtain ⟨cellF, _⟩ := focus.around
      have different : layout.addr f.label ≠ a := by
        rintro rfl
        exact fresh (by simp)
      simp only [linkOf, writeLink, wp_assign, Store.put_cell_of_ne _ _ _ _ different, cellF,
        Option.some.injEq, exists_eq_left', setChild_side]
      have keeps (b : Nat) (away : b ≠ a) (parent : b ≠ layout.addr f.label) (n₁ n₂ n₃ : Node D) :
          (((s.put a n₁).put a n₂).put (layout.addr f.label) n₃).cell b = s.cell b := by
        rw [Store.put_cell_of_ne _ _ _ _ parent, Store.put_cell_of_ne _ _ _ _ away,
          Store.put_cell_of_ne _ _ _ _ away]
      refine ⟨focus.grown fresh bound (le_refl _) ?_ (Store.put_cell_self _ _ _) ?_, ?_, ?_⟩
      · exact (Store.put_cell_of_ne _ _ _ _ different.symm).trans (Store.put_cell_self _ _ _)
      · intro b away parent
        exact keeps b away parent _ _ _
      · simp only [Store.put_glob, stored.glob]
        exact congrArg (Globals.mk · e.ext) (root_plug up _ _ (by simp))
      · intro b outside
        simp only [mem_addrs_plug, mem_trailAddrs_cons, addrs_node, addrs_nil, List.nil_append,
          List.mem_singleton, not_or] at outside
        rw [keeps b outside.2 outside.1.1]
        apply stored.frame
        rw [mem_addrs_plug, mem_trailAddrs_cons]
        simp [outside.1]

/-- Linking a node into an empty place of a red-black tree and repairing the colours. -/
theorem insertNode_spec (e : Env E D) (s : State E D) (up : Trail (Label D)) (a : Nat) (n : Node D)
    (stored : Stored e s (plug up .nil)) (whole : IsRedBlack Label.color (plug up .nil))
    (cellA : s.cell a = some n) (fresh : a ∉ layout.trailAddrs up) (bound : a < s.brk) :
    wp (do
      rbLinkNode (some a) (layout.top none up) (linkOf up)
      rbInsertColor (some a)) (fun _ s' => ∃ t, Stored e s' t ∧ IsRedBlack Label.color t ∧
        row Label.core t = row Label.core (plug up (.node ⟨a, .red, n.entry⟩ .nil .nil))) s := by
  obtain ⟨m, trail, rfl, _⟩ := (isRedBlack_plug _ _ _).mp whole
  have leaf : Colored Label.color (join .left (⟨a, .red, n.entry⟩ : Label D) .nil .nil) 0 :=
    (colored_red _ _ _ _ _ _ rfl).mpr ⟨rfl, rfl, rfl, rfl⟩
  refine wp_seq _ _ _ _ s (rbLinkNode_spec e s up a n stored cellA fresh bound) ?_
  intro _ s₁ stored₁
  exact rbInsertColor_spec e s₁ up _ stored₁ ⟨0, trail, leaf, rfl⟩

theorem rbFirst_spec (e : Env E D) (s : State E D) (t : BinaryTree (Label D)) (stored : Stored e s t) :
    wp rbFirst (fun q s' => s' = s ∧ q = (inorder t).head?.map layout.addr) s := by
  simp only [rbFirst, readRoot, wp_bind, wp_readGlob, stored.glob, wp_pure, wp_ite, wp_cells]
  by_cases empty : t = .nil
  · subst empty
    rw [if_pos root_nil]
    exact ⟨trivial, rfl⟩
  · rw [if_neg (by simpa [root_eq_none] using empty)]
    refine wp_mono _ _ _ s (leftmost_spec s.brk s none t empty stored.held.linked
      stored.held.numNodes_le) ?_
    intro q s' result
    obtain ⟨kept, lefts, b, c, shape, left, here⟩ := result
    refine ⟨kept, ?_⟩
    rw [here, shape, inorder_plug, before_of_left lefts left]
    simp

theorem nextUp_spec (e : Env E D) (fuel : Nat) (s : State E D) (up : Trail (Label D))
    (t : BinaryTree (Label D)) (stored : Stored e s (plug up t)) (nonempty : t ≠ .nil)
    (enough : up.length < fuel) :
    wp (nextUp fuel (layout.root t)) (fun q s' => s' = s ∧
      q = (after up).head?.map layout.addr) s := by
  induction up generalizing fuel t with
  | nil =>
      obtain _ | fuel := fuel
      · omega
      obtain _ | ⟨a, l, r⟩ := t
      · exact absurd rfl nonempty
      simp only [nextUp, root_node, wp_bind, wp_load, stored.held.linked.1, Option.some.injEq,
        exists_eq_left', cell_rbParent, if_true]
      exact ⟨rfl, rfl⟩
  | cons f up ih =>
      obtain _ | fuel := fuel
      · omega
      obtain _ | ⟨a, l, r⟩ := t
      · exact absurd rfl nonempty
      have focus := (holds_plug s (f :: up) _).mp stored.held
      have apart := root_ne_of_focus s f up _ (Or.inl nonempty) focus
      obtain ⟨cellA, _⟩ := focus.subtree
      obtain ⟨cellF, _⟩ := focus.around
      simp only [nextUp, root_node, wp_bind, wp_load, cellA, cellF, Option.some.injEq,
        exists_eq_left', cell_rbParent, top_cons, reduceCtorEq, if_false]
      obtain ⟨side, b, other⟩ := f
      simp only [List.length_cons] at enough
      cases side with
      | left =>
          rw [root_node] at apart
          simp only [Layout.side, cell_rbRight, apart, if_false]
          exact ⟨rfl, rfl⟩
      | right =>
          simp only [Layout.side, cell_rbRight, if_true]
          exact ih fuel (join .right b (.node a l r) other) stored (join_ne_nil _ _ _ _) (by omega)

/-- `rb_next` finds the label that follows in the in-order sequence. -/
theorem rbNext_spec (e : Env E D) (s : State E D) (t : BinaryTree (Label D)) (xs ys : List (Label D))
    (a : Label D) (stored : Stored e s t) (split : inorder t = xs ++ a :: ys) :
    wp (rbNext (some (layout.addr a))) (fun q s' => s' = s ∧ q = ys.head?.map layout.addr) s := by
  obtain ⟨up, l, r, whole, _, rest⟩ := focus_of_inorder [] t xs ys a split
  rw [plug_nil] at whole
  rw [after, List.append_nil] at rest
  rw [← whole] at stored
  have focus := (holds_plug s up _).mp stored.held
  obtain ⟨cellA, _, linkedR⟩ := focus.subtree
  have above : layout.top none up ≠ some (layout.addr a) := by
    cases up with
    | nil => simp
    | cons f up =>
        rw [top_cons]
        intro same
        have inside : layout.addr a ∈ layout.trailAddrs (f :: up) := by simp [Option.some.inj same]
        exact (List.nodup_append'.mp focus.distinct).2.2 inside (by simp)
  have size := stored.held.numNodes_le
  have deep := trail_length_le up (.node a l r)
  simp only [rbNext, wp_bind, wp_load, cellA, Option.some.injEq, exists_eq_left', cell_rbParent, above,
    if_false, cell_rbRight, wp_ite, wp_cells]
  by_cases empty : r = .nil
  · subst empty
    rw [if_neg (by simp)]
    obtain rfl : after up = ys := by simpa using rest
    simp only [inorder_node, inorder_nil, List.length_append, List.length_cons] at deep
    exact nextUp_spec e s.brk s up (.node a l .nil) stored (by simp) (by omega)
  · rw [if_pos (by simpa [root_eq_none] using empty)]
    have enough : (inorder r).length ≤ s.brk := by
      simp only [inorder_node, List.length_append, List.length_cons] at deep
      omega
    refine wp_mono _ _ _ s (leftmost_spec s.brk s _ r empty linkedR enough) ?_
    rintro q s' ⟨kept, lefts, b, c, rfl, left, rfl⟩
    refine ⟨kept, ?_⟩
    rw [← rest, inorder_plug, before_of_left lefts left]
    simp

end DataStructure.RbTree
