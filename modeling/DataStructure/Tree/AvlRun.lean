import DataStructure.Tree.AvlBalance

/-! Insertion into the AVL tree, and whole runs of it. -/

namespace DataStructure.Avl

open DataStructure.Program DataStructure.Heap DataStructure.Zipper DataStructure.LinkedTree
  DataStructure.KeyedTree

/-- In place of the tree in focus the store holds `t`, and `q` points to its root. -/
def Becomes (trail : Trail Label) (t : BinaryTree Label) (q : Ptr) (s : State) : Prop :=
  Holds layout s (plug trail t) ∧ q = layout.root t

theorem rotate_becomes (s : State) (trail : Trail Label) (d : Side) (P T : Label)
    (A B C : BinaryTree Label)
    (held : Holds layout s (plug trail (join d P (join d T A B) C))) :
    wp (rotate d (some (layout.addr P))) (Becomes trail (refit d T A (refit d P B C))) s := by
  refine wp_mono _ _ _ s (rotate_spec s trail d P T A B C held) ?_
  rintro q s' ⟨rfl, held'⟩
  exact ⟨held', by simp [refit]; rfl⟩

theorem lean_spec (s : State) (trail : Trail Label) (d : Side) (P : Label)
    (near C : BinaryTree Label) (held : Holds layout s (plug trail (join d P near C)))
    (heights : Heighted near) (high : 1 < ht near) :
    wp (lean d (some (layout.addr P))) (Becomes trail (leanTree d (join d P near C))) s := by
  have focus := (holds_plug s trail _).mp held
  have leans := leanTree_cases d P near C heights high
  generalize leanTree d (join d P near C) = t at leans ⊢
  cases leans with
  | single T A B outer =>
      obtain ⟨cellP, ⟨cellT, linkedA, linkedB⟩, _⟩ := by simpa using focus.subtree
      simp only [lean, wp_bind, wp_load, cellP, cellT, Option.some.injEq, exists_eq_left', side_child]
      rw [wp_height s _ A linkedA]
      simp only [wp_bind, wp_load, cellT, Option.some.injEq, exists_eq_left', side_child_flip]
      rw [wp_height s _ B linkedB, if_pos outer]
      exact rotate_becomes s trail d P T A B C held
  | double T U A X Y inner =>
      obtain ⟨cellP, ⟨cellT, linkedA, linkedB⟩, _⟩ := by simpa only [linked_join] using focus.subtree
      simp only [root_join] at cellP
      simp only [lean, wp_bind, wp_load, cellP, cellT, Option.some.injEq, exists_eq_left', side_child]
      rw [wp_height s _ A linkedA]
      simp only [wp_bind, wp_load, cellT, Option.some.injEq, exists_eq_left', side_child_flip]
      rw [wp_height s _ (join d.flip U X Y) ((linked_join _ _ _ _ _ _).mpr linkedB), if_neg (not_lt.mpr inner)]
      have lower : Holds layout s (plug (⟨d, P, C⟩ :: trail) (join d.flip T (join d.flip U X Y) A)) := by
        simpa [Frame.attach, join_flip] using held
      refine wp_seq _ _ _ _ s (rotate_spec s _ d.flip T U X Y A lower) ?_
      rintro _ s₁ ⟨_, held₁⟩
      have raised : refit d.flip U X (refit d.flip T Y A) =
          join d (U.refit X (refit d.flip T Y A)) (refit d.flip T Y A) X := join_flip _ _ _ _
      rw [plug_cons, raised] at held₁
      exact rotate_becomes s₁ trail d P (U.refit X (refit d.flip T Y A)) _ _ _ held₁

theorem balance_spec (s : State) (trail : Trail Label) (d : Side) (a : Label)
    (x y : BinaryTree Label) (held : Holds layout s (plug trail (join d a x y)))
    (heightsX : Heighted x) (heightsY : Heighted y) :
    wp (balance (some (layout.addr a))) (Becomes trail (balanceTree (join d a x y))) s := by
  obtain ⟨l, r, same, heightsL, heightsR⟩ : ∃ l r, join d a x y = .node a l r ∧
      Heighted l ∧ Heighted r := by
    cases d with
    | left => exact ⟨x, y, rfl, heightsX, heightsY⟩
    | right => exact ⟨y, x, rfl, heightsY, heightsX⟩
  rw [same] at held ⊢
  have focus := (holds_plug s trail _).mp held
  obtain ⟨cellA, linkedL, linkedR⟩ := focus.subtree
  have depthL := ht_nonneg l heightsL
  have depthR := ht_nonneg r heightsR
  simp only [balance, wp_bind, wp_load, cellA, Option.some.injEq, exists_eq_left', cell_left]
  rw [wp_height s _ l linkedL]
  simp only [wp_bind, wp_load, cellA, Option.some.injEq, exists_eq_left', cell_right]
  rw [wp_height s _ r linkedR]
  rw [show balanceTree (.node a l r) = _ from balanceTree_join .left a l r]
  simp only [wp_ite]
  by_cases left : 1 < ht l - ht r
  · rw [if_pos left, if_pos left]
    exact lean_spec s trail .left a l r held heightsL (by omega)
  · rw [if_neg left, if_neg left]
    by_cases right : 1 < ht r - ht l
    · rw [if_pos right, if_pos right]
      exact lean_spec s trail .right a r l held heightsR (by omega)
    · rw [if_neg right, if_neg right]
      exact ⟨held, rfl⟩

theorem leans_heighted (d : Side) (P : Label) (C near t : BinaryTree Label)
    (leans : Leans d P C near t) (heights : Heighted near) (heightsC : Heighted C) : Heighted t := by
  cases leans with
  | single T A B outer =>
      obtain ⟨_, heightsA, heightsB⟩ := (heighted_join d T A B).mp heights
      simp [heightsA, heightsB, heightsC]
  | double T U A X Y inner =>
      simp only [heighted_join] at heights
      simp [heights, heightsC]

theorem balanceTree_heighted (d : Side) (a : Label) (x y : BinaryTree Label) (heightsX : Heighted x)
    (heightsY : Heighted y) : Heighted (balanceTree (refit d a x y)) := by
  have depthX := ht_nonneg x heightsX
  have depthY := ht_nonneg y heightsY
  rw [refit, balanceTree_join]
  split_ifs with near far
  · exact leans_heighted _ _ _ _ _ (leanTree_cases d _ x y heightsX (by omega)) heightsX heightsY
  · rw [← join_flip]
    exact leans_heighted _ _ _ _ _ (leanTree_cases d.flip _ y x heightsY (by omega)) heightsY heightsX
  · exact (heighted_refit d a x y).mpr ⟨heightsX, heightsY⟩

theorem balanceTree_ne_nil (t : BinaryTree Label) (nonempty : t ≠ .nil) : balanceTree t ≠ .nil := by
  intro empty
  have same := congrArg List.length (row_balanceTree t)
  rw [empty] at same
  cases t with
  | nil => exact nonempty rfl
  | node a l r => simp at same

theorem climb_step (s : State) (f : Frame Label) (up : Trail Label) (t : BinaryTree Label)
    (held : Holds layout s (plug (f :: up) t)) (heights : Heighted t) (other : Heighted f.other) :
    wp (adjustHeight (some (layout.addr f.label))) (fun _ =>
      wp (balance (some (layout.addr f.label)))
        (Becomes up (balanceTree (refit f.side f.label t f.other)))) s := by
  refine wp_mono _ _ _ s (adjustHeight_spec s up f.side f.label t f.other held) ?_
  intro _ s₁ held₁
  exact balance_spec s₁ up f.side (f.label.refit t f.other) t f.other held₁ heights other

/-- The second loop of `insert` carries out `climbTree`. -/
theorem climb_spec (fuel : Nat) (s : State) (f : Frame Label) (up : Trail Label)
    (t : BinaryTree Label) (held : Holds layout s (plug (f :: up) t)) (nonempty : t ≠ .nil)
    (heights : Heighted t) (others : ∀ g ∈ f :: up, Heighted g.other) (enough : up.length < fuel) :
    wp (climb fuel (layout.root t)) (Becomes [] (climbTree (f :: up) t)) s := by
  induction fuel generalizing s f up t with
  | zero => omega
  | succ fuel ih =>
      have heightsOther := others f List.mem_cons_self
      have step := climb_step s f up t held heights heightsOther
      have heights₂ := balanceTree_heighted f.side f.label t f.other heights heightsOther
      have nonempty₂ : balanceTree (refit f.side f.label t f.other) ≠ .nil :=
        balanceTree_ne_nil _ (join_ne_nil _ _ _ _)
      obtain _ | ⟨T, l, r⟩ := t
      · exact absurd rfl nonempty
      obtain ⟨cellT, _⟩ := ((holds_plug s (f :: up) _).mp held).subtree
      simp only [climb, root_node, wp_bind, wp_load, cellT, Option.some.injEq, exists_eq_left',
        cell_parent, top_cons]
      rw [climbTree]
      refine wp_mono _ _ _ s step ?_
      intro _ s₁ balanced
      rw [wp_bind]
      refine wp_mono _ _ _ s₁ balanced ?_
      generalize balanceTree (refit f.side f.label (.node T l r) f.other) = t₂ at heights₂ nonempty₂ ⊢
      rintro q s₂ ⟨held₂, rfl⟩
      obtain _ | ⟨T₂, l₂, r₂⟩ := t₂
      · exact absurd rfl nonempty₂
      obtain ⟨cellT₂, _⟩ := ((holds_plug s₂ up _).mp held₂).subtree
      simp only [root_node, wp_bind, wp_load, cellT₂, Option.some.injEq, exists_eq_left',
        cell_parent, wp_ite]
      cases up with
      | nil => exact ⟨held₂, rfl⟩
      | cons g up =>
          rw [top_cons, if_pos (by simp)]
          simp only [List.length_cons] at enough
          exact ih s₂ g up _ held₂ nonempty₂ heights₂ (fun h member => others h (by simp [member]))
            (by omega)

/-- The insertion walk ends at the node holding `val` or, if there is none, at a new
leaf in the place where the search fell off the tree. -/
def Placed (val : Int) (s : State) (q : Option Ptr) (s' : State) :
    Trail Label × BinaryTree Label → Prop
  | (up, .nil) => q = some (some s.brk) ∧
      Holds layout s' (plug up (.node ⟨s.brk, val, 1⟩ .nil .nil))
  | (_, .node a _ _) => q = some (some (layout.addr a)) ∧ s' = s

theorem hang_spec (fuel : Nat) (s : State) (f : Frame Label) (up : Trail Label) (val : Int)
    (held : Holds layout s (plug (f :: up) .nil)) (enough : 0 < fuel) :
    wp (makeNode val (some (layout.addr f.label)) >>= fun q =>
      assign (some (layout.addr f.label)) (fun n => n.setChild f.side q) >>= fun _ =>
        insertLoop val fuel q) (fun q s' => Placed val s q s' (f :: up, .nil)) s := by
  obtain _ | fuel := fuel
  · omega
  apply wp_hang s f up ⟨s.brk, val, 1⟩ _ (fun q n => n.setChild f.side q) _ _ rfl rfl _ held
  · intro s' held' _
    obtain ⟨cellT, _⟩ := ((holds_plug s' (f :: up) _).mp held').subtree
    simp only [insertLoop, wp_bind, wp_load, cellT, Option.some.injEq, exists_eq_left', cell_val,
      if_true]
    exact ⟨rfl, held'⟩
  · intro q x y p
    exact setChild_side _ _ _ _ _ _

theorem insertLoop_spec (val : Int) (fuel : Nat) (s : State) (trail : Trail Label)
    (t : BinaryTree Label) (held : Holds layout s (plug trail t)) (nonempty : t ≠ .nil)
    (enough : (inorder t).length < fuel) :
    wp (insertLoop val fuel (layout.root t)) (fun q s' =>
      Placed val s q s' (descend (order Label.val val) trail t)) s := by
  induction t generalizing fuel trail with
  | nil => exact absurd rfl nonempty
  | node a l r ihl ihr =>
      obtain ⟨cellA, _⟩ := ((holds_plug s trail _).mp held).subtree
      obtain _ | fuel := fuel
      · simp at enough
      simp only [inorder_node, List.length_append, List.length_cons] at enough
      simp only [insertLoop, root_node, wp_bind, wp_load, cellA, Option.some.injEq,
        exists_eq_left', cell_val, cell_left, cell_right, wp_ite]
      rcases lt_trichotomy val a.val with less | equal | greater
      · simp only [less.ne', less, if_false, if_true, descend, (order_lt _ val a).mpr less]
        by_cases empty : l = .nil
        · subst empty
          rw [if_neg (by simp)]
          exact (wp_bind _ _ _ _).mp (hang_spec fuel s ⟨.left, a, r⟩ trail val held (by omega))
        · rw [if_pos (by simpa [root_eq_none] using empty)]
          exact ihl fuel (⟨.left, a, r⟩ :: trail) held empty (by omega)
      · simp only [equal.symm, if_true, descend, (order_eq _ val a).mpr equal.symm]
        exact ⟨rfl, rfl⟩
      · simp only [greater.ne, greater.not_gt, greater, if_false, if_true, descend,
          (order_gt _ val a).mpr greater]
        by_cases empty : r = .nil
        · subst empty
          rw [if_neg (by simp)]
          exact (wp_bind _ _ _ _).mp (hang_spec fuel s ⟨.right, a, l⟩ trail val held (by omega))
        · rw [if_pos (by simpa [root_eq_none] using empty)]
          exact ihr fuel (⟨.right, a, l⟩ :: trail) held empty (by omega)

theorem findLoop_spec (val : Int) (fuel : Nat) (s : State) (p : Ptr) (trail : Trail Label)
    (t : BinaryTree Label) (linked : layout.Linked s.cell p t) (enough : (inorder t).length < fuel) :
    wp (findLoop val fuel (layout.root t)) (fun q s' => s' = s ∧
      q = layout.root (descend (order Label.val val) trail t).2) s := by
  induction t generalizing fuel p trail with
  | nil =>
      obtain _ | fuel := fuel
      · simp at enough
      simp [findLoop, descend]
  | node a l r ihl ihr =>
      obtain ⟨cellA, linkedL, linkedR⟩ := linked
      obtain _ | fuel := fuel
      · simp at enough
      simp only [inorder_node, List.length_append, List.length_cons] at enough
      simp only [findLoop, root_node, wp_bind, wp_load, cellA, Option.some.injEq, reduceCtorEq,
        if_false, exists_eq_left', cell_val, cell_left, cell_right, wp_ite]
      rcases lt_trichotomy val a.val with less | equal | greater
      · simp only [less, if_true, descend, (order_lt _ val a).mpr less]
        exact ihl fuel _ _ linkedL (by omega)
      · simp only [equal, lt_irrefl, if_false, descend, (order_eq _ _ a).mpr rfl]
        exact ⟨rfl, rfl⟩
      · simp only [greater.not_gt, greater, if_false, if_true, descend,
          (order_gt _ val a).mpr greater]
        exact ihr fuel _ _ linkedR (by omega)

def TrueHeights : BinaryTree Label → Prop
  | .nil => True
  | .node a l r => a.height = 1 + max (l.height : Int) r.height ∧ TrueHeights l ∧ TrueHeights r

def HeightBalanced : BinaryTree Label → Prop
  | .nil => True
  | .node _ l r => |(l.height : Int) - r.height| ≤ 1 ∧ HeightBalanced l ∧ HeightBalanced r

theorem TrueHeights.ht_eq {t : BinaryTree Label} (heights : TrueHeights t) : ht t = t.height := by
  cases t with
  | nil => rfl
  | node a l r =>
      rw [ht, heights.1, BinaryTree.height]
      push_cast
      rw [add_comm]

/-- The balance that the code keeps on its stored heights is that of the tree. -/
theorem balanced_iff (t : BinaryTree Label) : Balanced t ↔ TrueHeights t ∧ HeightBalanced t := by
  induction t with
  | nil => simp [Balanced, TrueHeights, HeightBalanced]
  | node a l r ihl ihr =>
      simp only [Balanced, TrueHeights, HeightBalanced, ihl, ihr, abs_le]
      constructor
      · rintro ⟨stored, low, high, ⟨heightsL, left⟩, heightsR, right⟩
        rw [heightsL.ht_eq, heightsR.ht_eq] at *
        exact ⟨⟨stored, heightsL, heightsR⟩, ⟨by omega, by omega⟩, left, right⟩
      · rintro ⟨⟨stored, heightsL, heightsR⟩, ⟨low, high⟩, left, right⟩
        rw [heightsL.ht_eq, heightsR.ht_eq]
        exact ⟨stored, by omega, by omega, ⟨heightsL, left⟩, heightsR, right⟩

/-- The tree `t` reached from `root` is an AVL tree with consistent parent links on
the values `S`. -/
structure Valid (s : State) (root : Ptr) (t : BinaryTree Label) (S : Finset Int) : Prop where
  held : Holds layout s t
  rooted : root = layout.root t
  search : SearchTree (Less Label.val) t
  values : keys Label.val t = S
  heights : TrueHeights t
  balanced : HeightBalanced t

theorem BalancedTrail.heighted {h : Int} {trail : Trail Label} (balanced : BalancedTrail h trail) :
    ∀ f ∈ trail, Heighted f.other := by
  induction trail generalizing h with
  | nil => simp
  | cons f up ih =>
      obtain ⟨_, _, other, above⟩ := balanced
      intro g member
      rcases List.mem_cons.mp member with rfl | member
      · exact other.heighted
      · exact ih above g member

theorem grown_leaf (a : Label) (height : a.height = 1) : Grown 0 (.node a .nil .nil) :=
  ⟨⟨height, by decide, by decide, trivial, trivial⟩, Or.inr ⟨height, fun _ _ => height⟩⟩

theorem insert_spec (s : State) (root : Ptr) (t : BinaryTree Label) (S : Finset Int) (val : Int)
    (valid : Valid s root t S) (nonempty : S.Nonempty) (fresh : val ∉ S) :
    wp (insert root val) (fun root' s' => ∃ t', Valid s' root' t' (S ∪ {val})) s := by
  obtain ⟨held, rfl, search, rfl, heights, balanced⟩ := valid
  have inhabited : t ≠ .nil := by
    rintro rfl
    simp [keys] at nonempty
  have enough := held.numNodes_le
  simp only [insert, wp_bind, wp_cells]
  refine wp_mono _ _ _ s (insertLoop_spec val (s.brk + 1) s [] t held inhabited (by omega)) ?_
  intro q s₁ placed
  have missed := (descend_iff_mem Label.val val t search).not.mpr fresh
  rw [not_not] at missed
  obtain ⟨up, place⟩ : ∃ up, descend (order Label.val val) [] t = (up, .nil) :=
    ⟨_, Prod.ext rfl missed⟩
  rw [place] at placed
  obtain ⟨rfl, held₁⟩ := placed
  have whole := plug_descend (order Label.val val) [] t
  rw [place, plug_nil] at whole
  obtain ⟨search₁, keys₁⟩ := searchTree_grow Label.val val t ⟨s.brk, val, 1⟩ rfl up place search
  have before := (balanced_iff t).mpr ⟨heights, balanced⟩
  rw [← whole] at before
  obtain ⟨above, _⟩ := balanced_plug up .nil before
  have leaf := grown_leaf ⟨s.brk, val, 1⟩ rfl
  obtain _ | ⟨f, up⟩ := up
  · exact absurd whole.symm inhabited
  have deep := trail_length_le (f :: up) (.node (⟨s.brk, val, 1⟩ : Label) .nil .nil)
  have large := held₁.numNodes_le
  simp only [List.length_cons] at deep
  simp only [wp_bind, wp_cells]
  refine wp_mono _ _ _ s₁ (climb_spec s₁.brk s₁ f up _ held₁ (by simp) leaf.1.heighted
    above.heighted (by omega)) ?_
  rintro root' s₂ ⟨held₂, rfl⟩
  have row₂ := row_climbTree (f :: up) (.node ⟨s.brk, val, 1⟩ .nil .nil)
  obtain ⟨heights₂, balanced₂⟩ := (balanced_iff _).mp (climbTree_balanced 0 (f :: up) _ above leaf)
  exact ⟨_, held₂, rfl, searchTree_of_row _ _ _ row₂ search₁, (keys_of_row _ _ _ row₂).trans keys₁,
    heights₂, balanced₂⟩

theorem find_spec (s : State) (root : Ptr) (t : BinaryTree Label) (S : Finset Int) (x : Int)
    (valid : Valid s root t S) :
    wp (find root x) (fun q s' => s' = s ∧
      (x ∈ S → ∃ a ∈ inorder t, q = some (layout.addr a) ∧ a.val = x) ∧ (x ∉ S → q = none)) s := by
  obtain ⟨held, rfl, search, rfl, _, _⟩ := valid
  have enough := held.numNodes_le
  simp only [find, wp_bind, wp_cells]
  refine wp_mono _ _ _ s (findLoop_spec x (s.brk + 1) s none [] t held.linked (by omega)) ?_
  rintro q s' ⟨kept, rfl⟩
  have found := descend_iff_mem Label.val x t search
  refine ⟨kept, ?_, ?_⟩
  · intro member
    have whole := congrArg inorder (plug_descend (order Label.val x) [] t)
    rw [inorder_plug, plug_nil] at whole
    cases ends : (descend (order Label.val x) [] t).2 with
    | nil => exact absurd ends (found.mpr member)
    | node a l r =>
        refine ⟨a, ?_, rfl, (order_eq _ _ _).mp (descend_found _ [] t a l r ends)⟩
        rw [← whole, ends]
        simp
  · intro absent
    rw [root_eq_none]
    exact not_not.mp (found.not.mpr absent)

def insertAll : List Int → Ptr → Prog State Ptr
  | [], root => pure root
  | v :: vs, root => do insertAll vs (← insert root v)

def build (v : Int) (vs : List Int) : Prog State Ptr := do
  insertAll vs (← makeNode v none)

def init : State := ⟨fun _ => none, 0, ()⟩

theorem insertAll_spec (vs : List Int) (s : State) (root : Ptr) (t : BinaryTree Label)
    (S : Finset Int) (valid : Valid s root t S) (nonempty : S.Nonempty) (distinct : vs.Nodup)
    (fresh : ∀ v ∈ vs, v ∉ S) :
    wp (insertAll vs root) (fun root' s' => ∃ t', Valid s' root' t' (S ∪ vs.toFinset)) s := by
  induction vs generalizing s root t S with
  | nil => exact ⟨t, by simpa using valid⟩
  | cons v vs ih =>
      obtain ⟨absent, distinct⟩ := List.nodup_cons.mp distinct
      refine wp_seq _ _ _ _ s (insert_spec s root t S v valid nonempty (fresh v (by simp))) ?_
      rintro root₁ s₁ ⟨t₁, valid₁⟩
      have rest := ih s₁ root₁ t₁ _ valid₁ (by simp) distinct (by
        intro w member
        have different : w ≠ v := by
          rintro rfl
          exact absent member
        simp [fresh w (by simp [member]), different])
      rwa [Finset.union_assoc, ← Finset.insert_eq, ← List.toFinset_cons] at rest

theorem valid_makeNode (v : Int) :
    wp (makeNode v none) (fun root s => ∃ t, Valid s root t {v}) init := by
  refine ⟨.node ⟨0, v, 1⟩ .nil .nil, ⟨⟨rfl, trivial, trivial⟩, by simp, ?_⟩,
    rfl, by simp [SearchTree], by simp [keys], by simp [TrueHeights], by simp [HeightBalanced]⟩
  intro a member
  obtain rfl : a = 0 := List.mem_singleton.mp member
  exact Nat.lt_succ_self 0

/-- After the insertion of any sequence of distinct values the tree is an AVL tree
on exactly these values, and `find` decides membership in them. -/
theorem avl_tree_run (v : Int) (vs : List Int) (distinct : (v :: vs).Nodup) :
    ∃ root s t, (build v vs).run init = .ok (root, s) ∧ Valid s root t (v :: vs).toFinset ∧
      ∀ x, ∃ q, (find root x).run s = .ok (q, s) ∧
        (x ∈ v :: vs → ∃ a ∈ inorder t, q = some (layout.addr a) ∧ a.val = x) ∧
        (x ∉ v :: vs → q = none) := by
  have built : wp (build v vs) (fun root s => ∃ t, Valid s root t (v :: vs).toFinset) init := by
    refine wp_seq _ _ _ _ init (valid_makeNode v) ?_
    rintro root s ⟨t, valid⟩
    obtain ⟨absent, distinct⟩ := List.nodup_cons.mp distinct
    have all := insertAll_spec vs s root t {v} valid (by simp) distinct (by
      intro w member
      simp only [Finset.mem_singleton]
      rintro rfl
      exact absent member)
    rwa [← Finset.insert_eq, ← List.toFinset_cons] at all
  obtain ⟨root, s, ran, t, valid⟩ := (wp_iff_run _ _ _).mp built
  refine ⟨root, s, t, ran, valid, ?_⟩
  intro x
  obtain ⟨q, s', found, rfl, answer⟩ := (wp_iff_run _ _ _).mp (find_spec s root t _ x valid)
  simp only [List.mem_toFinset] at answer
  exact ⟨q, found, answer⟩

theorem avl_tree_run_three_one_two : [(3 : Int), 1, 2].Nodup ∧
    ∃ root s t, (build 3 [1, 2]).run init = .ok (root, s) ∧ Valid s root t {3, 1, 2} ∧
      ∀ x, ∃ q, (find root x).run s = .ok (q, s) ∧
        (x ∈ [(3 : Int), 1, 2] → ∃ a ∈ inorder t, q = some (layout.addr a) ∧ a.val = x) ∧
        (x ∉ [(3 : Int), 1, 2] → q = none) :=
  ⟨by decide, avl_tree_run 3 [1, 2] (by decide)⟩

end DataStructure.Avl
