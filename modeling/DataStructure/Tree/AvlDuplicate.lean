import DataStructure.Tree.AvlRun

/-! Insertion of a value that the AVL tree already holds.

The loop that climbs to the root starts at the parent of the node that was found. It adjusts
heights that are right and finds nothing to rotate; the root has no parent to start from. -/

namespace DataStructure.Avl

open DataStructure.Program DataStructure.Heap DataStructure.Zipper DataStructure.LinkedTree
  DataStructure.KeyedTree

theorem adjustHeight_same (s : State) (trail : Trail Label) (d : Side) (a : Label)
    (x y : BinaryTree Label) (held : Holds layout s (plug trail (join d a x y)))
    (stored : a.height = 1 + max (ht x) (ht y)) :
    wp (adjustHeight (some (layout.addr a))) (fun _ s' => s' = s) s := by
  refine wp_mono _ _ _ s (adjustHeight_put s trail d a x y held) ?_
  intro _ s' changed
  have right : a.refit x y = a := by rw [Label.refit, ← stored]
  have focus := (holds_plug s trail _).mp held
  obtain ⟨cellA, -, -⟩ := by simpa using focus.subtree
  rw [changed, right]
  exact Store.put_same s _ _ cellA

theorem balance_same (s : State) (trail : Trail Label) (d : Side) (a : Label)
    (x y : BinaryTree Label) (held : Holds layout s (plug trail (join d a x y)))
    (near : ht x ≤ ht y + 1) (far : ht y ≤ ht x + 1) :
    wp (balance (some (layout.addr a))) (fun q s' => q = some (layout.addr a) ∧ s' = s) s := by
  obtain ⟨l, r, same, left, right⟩ : ∃ l r, join d a x y = .node a l r ∧
      ht l ≤ ht r + 1 ∧ ht r ≤ ht l + 1 := by
    cases d with
    | left => exact ⟨x, y, rfl, near, far⟩
    | right => exact ⟨y, x, rfl, far, near⟩
  rw [same] at held
  obtain ⟨cellA, linkedL, linkedR⟩ := ((holds_plug s trail _).mp held).subtree
  simp only [balance, wp_bind, wp_load, cellA, Option.some.injEq, exists_eq_left', cell_left]
  rw [wp_height s _ l linkedL]
  simp only [wp_bind, wp_load, cellA, Option.some.injEq, exists_eq_left', cell_right]
  rw [wp_height s _ r linkedR]
  simp only [wp_ite]
  rw [if_neg (by omega), if_neg (by omega)]
  exact ⟨rfl, rfl⟩

/-- In a balanced tree the climb changes nothing and ends at the root. -/
theorem climb_same (fuel : Nat) (s : State) (f : Frame Label) (up : Trail Label)
    (t : BinaryTree Label) (held : Holds layout s (plug (f :: up) t)) (nonempty : t ≠ .nil)
    (balanced : Balanced (plug (f :: up) t)) (enough : up.length < fuel) :
    wp (climb fuel (layout.root t)) (fun q s' => q = layout.root (plug (f :: up) t) ∧ s' = s) s := by
  induction fuel generalizing f up t with
  | zero => omega
  | succ fuel ih =>
      obtain ⟨-, whole⟩ := balanced_plug up (f.attach t) balanced
      obtain ⟨stored, near, far, -, -⟩ := (balanced_join f.side f.label t f.other).mp whole
      obtain _ | ⟨T, l, r⟩ := t
      · exact absurd rfl nonempty
      obtain ⟨cellT, -⟩ := ((holds_plug s (f :: up) _).mp held).subtree
      simp only [climb, root_node, wp_bind, wp_load, cellT, Option.some.injEq, exists_eq_left',
        cell_parent, top_cons]
      refine wp_mono _ _ _ s (adjustHeight_same s up f.side f.label _ f.other held stored) ?_
      intro _ s₁ unchanged
      subst unchanged
      rw [wp_bind]
      refine wp_mono _ _ _ s₁ (balance_same s₁ up f.side f.label _ f.other held near far) ?_
      intro q s₂ stays
      obtain ⟨here, unchanged⟩ := stays
      subst here unchanged
      have focus := (holds_plug s₂ up (join f.side f.label _ f.other)).mp held
      obtain ⟨cellF, -, -⟩ := by simpa using focus.subtree
      simp only [wp_bind, wp_load, cellF, Option.some.injEq, exists_eq_left', side_parent, wp_ite]
      cases up with
      | nil =>
          rw [if_neg (by simp), plug_cons, plug_nil, root_attach]
          exact ⟨rfl, rfl⟩
      | cons g up =>
          rw [List.length_cons] at enough
          rw [top_cons, if_pos (by simp), ← root_attach f (.node T l r)]
          exact ih g up (f.attach (.node T l r)) held (join_ne_nil _ _ _ _) balanced (by omega)

theorem descend_mem (s : State) (root : Ptr) (t : BinaryTree Label) (S : Finset Int) (val : Int)
    (valid : Valid s root t S) (member : val ∈ S) :
    ∃ up a l r, descend (order Label.val val) [] t = (up, .node a l r) ∧ a.val = val ∧
      plug up (.node a l r) = t := by
  have found := (descend_iff_mem Label.val val t valid.search).mpr (valid.values ▸ member)
  have whole := plug_descend (order Label.val val) [] t
  cases ends : (descend (order Label.val val) [] t).2 with
  | nil => exact absurd ends found
  | node a l r =>
      rw [ends] at whole
      exact ⟨_, a, l, r, Prod.ext rfl ends, (order_eq _ _ _).mp (descend_found _ [] t a l r ends), whole⟩

theorem insertLoop_found (s : State) (root : Ptr) (t : BinaryTree Label) (S : Finset Int) (val : Int)
    (valid : Valid s root t S) (up : Trail Label) (a : Label) (l r : BinaryTree Label)
    (place : descend (order Label.val val) [] t = (up, .node a l r)) :
    wp (insertLoop val (s.brk + 1) root) (fun q s' =>
      q = some (some (layout.addr a)) ∧ s' = s) s := by
  have enough := valid.held.numNodes_le
  have nonempty : t ≠ .nil := by
    intro empty
    rw [empty, descend] at place
    cases place
  rw [valid.rooted]
  refine wp_mono _ _ _ s (insertLoop_spec val (s.brk + 1) s [] t valid.held nonempty (by omega)) ?_
  intro q s' placed
  rw [place] at placed
  exact placed

theorem insert_same (s : State) (root : Ptr) (a : Label) (l r : BinaryTree Label) (S : Finset Int)
    (val : Int) (valid : Valid s root (.node a l r) S) (member : val ∈ S) (other : a.val ≠ val) :
    wp (insert root val) (fun root' s' => root' = root ∧ s' = s) s := by
  obtain ⟨up, b, bl, br, place, value, whole⟩ := descend_mem s root _ S val valid member
  simp only [insert, wp_bind, wp_cells]
  refine wp_mono _ _ _ s (insertLoop_found s root _ S val valid up b bl br place) ?_
  intro q s' found
  obtain ⟨here, unchanged⟩ := found
  subst here unchanged
  obtain _ | ⟨f, up⟩ := up
  · cases whole
    exact absurd value other
  have balanced := (balanced_iff _).mpr ⟨valid.heights, valid.balanced⟩
  have held := valid.held
  have deep := trail_length_le (f :: up) (.node b bl br)
  have large := held.numNodes_le
  rw [← whole] at balanced held large
  rw [List.length_cons] at deep
  simp only [wp_bind, wp_cells]
  rw [valid.rooted, ← whole]
  exact climb_same s'.brk s' f up (.node b bl br) held (by simp) balanced (by omega)

/-- The value of the root is found, and its missing parent is accessed. -/
theorem insert_root (s : State) (root : Ptr) (a : Label) (l r : BinaryTree Label) (S : Finset Int)
    (valid : Valid s root (.node a l r) S) (post : Ptr → State → Prop) :
    ¬wp (insert root a.val) post s := by
  have place : descend (order Label.val a.val) [] (.node a l r) = ([], .node a l r) := by
    rw [descend, (order_eq _ _ a).mpr rfl]
  obtain ⟨cellA, -, -⟩ := valid.held.linked
  simp only [insert, wp_bind, wp_cells]
  rw [← wp_bind]
  refine not_wp_seq _ _ _ _ s (insertLoop_found s root _ S a.val valid [] a l r place) ?_
  intro q s' found
  obtain ⟨here, unchanged⟩ := found
  subst here unchanged
  simp only [wp_bind, wp_cells]
  cases s'.brk with
  | zero => simp [climb]
  | succ fuel => simp [climb, adjustHeight, cellA]

theorem node_of_member (s : State) (root : Ptr) (t : BinaryTree Label) (S : Finset Int) (val : Int)
    (valid : Valid s root t S) (member : val ∈ S) : ∃ a l r, t = .node a l r := by
  cases t with
  | nil =>
      have empty : S = ∅ := valid.values.symm
      rw [empty] at member
      exact absurd member (Finset.notMem_empty val)
  | node a l r => exact ⟨a, l, r, rfl⟩

theorem insert_returned (s s' : State) (root root' : Ptr) (t : BinaryTree Label) (S : Finset Int)
    (val : Int) (valid : Valid s root t S) (member : val ∈ S)
    (ran : (insert root val).run s = .ok (root', s')) : root' = root ∧ s' = s := by
  obtain ⟨a, l, r, shape⟩ := node_of_member s root t S val valid member
  subst shape
  by_cases same : a.val = val
  · subst same
    exact absurd ((wp_of_run ran).mpr trivial) (insert_root s root a l r S valid fun _ _ => True)
  · exact (wp_of_run ran).mp (insert_same s root a l r S val valid member same)

/-- A value that the tree holds can be inserted exactly when it is not that of the root. -/
theorem insert_member (s : State) (root : Ptr) (t : BinaryTree Label) (S : Finset Int) (val : Int)
    (valid : Valid s root t S) (member : val ∈ S) :
    (insert root val).run s = .ok (root, s) ↔
      ∃ a n, root = some a ∧ s.cell a = some n ∧ n.val ≠ val := by
  obtain ⟨a, l, r, shape⟩ := node_of_member s root t S val valid member
  subst shape
  obtain ⟨cellA, -, -⟩ := valid.held.linked
  have rooted : root = some (layout.addr a) := valid.rooted
  by_cases same : a.val = val
  · subst same
    refine iff_of_false ?_ ?_
    · intro ran
      exact insert_root s root a l r S valid (fun _ _ => True) ((wp_of_run ran).mpr trivial)
    · intro away
      obtain ⟨b, n, here, cell, other⟩ := away
      rw [rooted, Option.some.injEq] at here
      subst here
      rw [cellA, Option.some.injEq] at cell
      subst cell
      exact other (cell_val a _ _ _)
  · refine iff_of_true ?_ ⟨layout.addr a, _, rooted, cellA, by rwa [cell_val]⟩
    obtain ⟨root', s', ran, here, unchanged⟩ :=
      (wp_iff_run _ _ _).mp (insert_same s root a l r S val valid member same)
    subst here unchanged
    exact ran

theorem insertAll_returned (vs : List Int) (s s' : State) (root root' : Ptr) (t : BinaryTree Label)
    (S : Finset Int) (valid : Valid s root t S) (nonempty : S.Nonempty)
    (ran : (insertAll vs root).run s = .ok (root', s')) :
    ∃ t', Valid s' root' t' (S ∪ vs.toFinset) := by
  induction vs generalizing s root t S with
  | nil =>
      cases ran
      exact ⟨t, by simpa using valid⟩
  | cons v vs ih =>
      obtain ⟨root₁, s₁, first, later⟩ := run_bind_ok ran
      have valid₁ : ∃ t₁, Valid s₁ root₁ t₁ (S ∪ {v}) := by
        by_cases member : v ∈ S
        · obtain ⟨here, there⟩ := insert_returned s s₁ root root₁ t S v valid member first
          subst here there
          rw [Finset.union_eq_left.mpr (Finset.singleton_subset_iff.mpr member)]
          exact ⟨t, valid⟩
        · exact (wp_of_run first).mp (insert_spec s root t S v valid nonempty member)
      obtain ⟨t₁, valid₁⟩ := valid₁
      have result := ih s₁ root₁ t₁ _ valid₁ (by simp) later
      rwa [Finset.union_assoc, ← Finset.insert_eq, ← List.toFinset_cons] at result

theorem build_returned (v : Int) (vs : List Int) (root : Ptr) (s : State)
    (built : (build v vs).run init = .ok (root, s)) :
    ∃ t, Valid s root t (v :: vs).toFinset := by
  obtain ⟨root₁, s₁, first, later⟩ := run_bind_ok built
  obtain ⟨t, valid⟩ := (wp_of_run first).mp (valid_makeNode v)
  have result := insertAll_returned vs s₁ s root₁ root t {v} valid (by simp) later
  rwa [← Finset.insert_eq, ← List.toFinset_cons] at result

/-- In every tree that insertions build, inserting a value again returns the same root and
changes nothing exactly when the value is not that of the root. -/
theorem duplicate_insert_iff (v : Int) (vs : List Int) (root : Ptr) (s : State)
    (built : (build v vs).run init = .ok (root, s)) (w : Int) (member : w ∈ v :: vs) :
    (insert root w).run s = .ok (root, s) ↔
      ∃ a n, root = some a ∧ s.cell a = some n ∧ n.val ≠ w := by
  obtain ⟨t, valid⟩ := build_returned v vs root s built
  exact insert_member s root t _ w valid (List.mem_toFinset.mpr member)

theorem duplicate_insert_below_root :
    ∃ root s, ((build 5 [3, 8]).run init = .ok (root, s) ∧ (3 : Int) ∈ [(5 : Int), 3, 8]) ∧
      ((insert root 3).run s = .ok (root, s) ↔
        ∃ a n, root = some a ∧ s.cell a = some n ∧ n.val ≠ 3) :=
  ⟨_, _, ⟨rfl, by decide⟩, duplicate_insert_iff 5 [3, 8] _ _ rfl 3 (by decide)⟩

theorem duplicate_insert_root_faults :
    ∃ root s, (build 5 []).run init = .ok (root, s) ∧ (insert root 5).run s = .error .segv :=
  ⟨_, _, rfl, rfl⟩

end DataStructure.Avl
