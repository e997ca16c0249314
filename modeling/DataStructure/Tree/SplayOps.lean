import DataStructure.Tree.Splay

/-! What each operation of the splay tree does to the tree in the store. -/

namespace DataStructure.Splay

open DataStructure.Program DataStructure.Heap DataStructure.Zipper DataStructure.LinkedTree
  DataStructure.KeyedTree

/-- In place of a subtree with in-order sequence `labels`, the store `s'` holds one
with the same sequence and root `T`; nothing was allocated and `root` is as in `s`. -/
def Raised (T : Label) (labels : List Label) (up : Trail Label) (s s' : State) : Prop :=
  ∃ l r, Holds layout s' (plug up (.node T l r)) ∧ inorder (.node T l r) = labels ∧
    s'.brk = s.brk ∧ s'.glob = s.glob

theorem raised_of_join (T : Label) (labels : List Label) (up : Trail Label) (s s' : State)
    (d : Side) (x y : BinaryTree Label) (held : Holds layout s' (plug up (join d T x y)))
    (same : inorder (join d T x y) = labels) (brk : s'.brk = s.brk) (glob : s'.glob = s.glob) :
    Raised T labels up s s' := by
  cases d with
  | left => exact ⟨x, y, held, same, brk, glob⟩
  | right => exact ⟨y, x, held, same, brk, glob⟩

theorem left_child_iff (f : Frame Label) (t : Nat) (q : Ptr) (apart : t ∉ layout.addrs f.other) :
    (layout.side f.side f.label (some t) (layout.root f.other) q).l = some t ↔ f.side = .left := by
  obtain ⟨side, a, other⟩ := f
  cases side with
  | left => simp [Layout.side, layout]
  | right =>
      have missed : layout.root other ≠ some t := fun pointed => apart (root_mem_addrs _ _ pointed)
      simpa [Layout.side, layout] using missed

theorem focus_apart_other (s : State) (f : Frame Label) (up : Trail Label) (t : BinaryTree Label)
    (a : Nat) (focus : Focus layout s (f :: up) t) (member : a ∈ layout.addrs t) :
    a ∉ layout.addrs f.other := by
  intro inside
  exact (List.nodup_append'.mp focus.distinct).2.2 (by simp [inside]) member

theorem rotate_frame (s : State) (f : Frame Label) (up : Trail Label) (T : Label)
    (x y : BinaryTree Label) (held : Holds layout s (plug (f :: up) (.node T x y))) :
    wp (rotate f.side (some (layout.addr f.label))) (fun _ s' =>
      Holds layout s' (plug up (join f.side T (f.side.pick x y)
        (join f.side f.label (f.side.flip.pick x y) f.other))) ∧
        s'.brk = s.brk ∧ s'.glob = s.glob) s := by
  apply rotate_spec
  rw [join_pick]
  exact held

theorem zig_spec (s : State) (f : Frame Label) (T : Label) (x y : BinaryTree Label)
    (held : Holds layout s (plug [f] (.node T x y))) :
    wp (zig (some (layout.addr T)) (some (layout.addr f.label))) (fun _ s' =>
      Raised T (inorder (f.attach (.node T x y))) [] s s') s := by
  have focus := (holds_plug s [f] _).mp held
  have apart := focus_apart_other s f [] _ (layout.addr T) focus (by simp)
  have rotated : wp (rotate f.side (some (layout.addr f.label))) (fun _ s' =>
      Raised T (inorder (f.attach (.node T x y))) [] s s') s := by
    refine wp_mono _ _ _ s (rotate_frame s f [] T x y held) ?_
    rintro _ s' ⟨held', brk, glob⟩
    refine raised_of_join T _ [] s s' f.side _ _ held' ?_ brk glob
    rw [inorder_rotate, join_pick, Frame.attach]
  obtain ⟨cellP, _⟩ := focus.around
  simp only [zig, wp_bind, wp_load, cellP, root_node, Option.some.injEq, exists_eq_left', wp_ite,
    left_child_iff f _ _ apart]
  split
  · rename_i left
    rwa [left] at rotated
  · rename_i right
    rwa [eq_flip_of_ne _ _ right] at rotated

/-- The double rotation written with the sides of the two frames. -/
theorem zigzag_eq (s : State) (f g : Frame Label) (up : Trail Label) (T : Label)
    (x y : BinaryTree Label) (focus : Focus layout s (f :: g :: up) (.node T x y))
    (post : Unit → State → Prop) :
    wp (zigzag (some (layout.addr T)) (some (layout.addr f.label)) (some (layout.addr g.label))) post s ↔
      if f.side = g.side then
        wp (rotate g.side (some (layout.addr g.label))) (fun _ =>
          wp (rotate f.side (some (layout.addr f.label))) post) s
      else
        wp (rotate f.side (some (layout.addr f.label))) (fun _ =>
          wp (rotate g.side (some (layout.addr g.label))) post) s := by
  have apartT := focus_apart_other s f _ _ (layout.addr T) focus (by simp)
  have raised : Focus layout s (g :: up) (f.attach (.node T x y)) :=
    (holds_plug s (g :: up) _).mp ((holds_plug s (f :: g :: up) _).mpr focus)
  have apartP := focus_apart_other s g up _ (layout.addr f.label) raised (by simp [Frame.attach])
  obtain ⟨cellP, _, cellG, _⟩ := focus.around
  simp only [zigzag, wp_bind, wp_load, cellP, cellG, root_node, Option.some.injEq,
    exists_eq_left', wp_ite, left_child_iff f _ _ apartT, left_child_iff g _ _ apartP]
  cases sideF : f.side <;> cases sideG : g.side <;> simp [rightRotate, leftRotate]

theorem zigzag_spec (s : State) (f g : Frame Label) (up : Trail Label) (T : Label)
    (x y : BinaryTree Label) (held : Holds layout s (plug (f :: g :: up) (.node T x y))) :
    wp (zigzag (some (layout.addr T)) (some (layout.addr f.label)) (some (layout.addr g.label)))
      (fun _ s' => Raised T (inorder (g.attach (f.attach (.node T x y)))) up s s') s := by
  have focus := (holds_plug s (f :: g :: up) _).mp held
  rw [zigzag_eq s f g up T x y focus]
  split
  · rename_i same
    -- zig-zig: the parent is raised above the grandparent, then `T` above the parent
    have outer : Holds layout s (plug up (join g.side g.label
        (join g.side f.label (.node T x y) f.other) g.other)) := by
      simpa [Frame.attach, same] using held
    refine wp_mono _ _ _ s (rotate_spec s up g.side g.label f.label _ _ _ outer) ?_
    rintro _ s₁ ⟨held₁, brk₁, glob₁⟩
    refine wp_mono _ _ _ s₁ (rotate_frame s₁ ⟨f.side, f.label, join g.side g.label f.other g.other⟩
      up T x y (by simpa [Frame.attach, same] using held₁)) ?_
    rintro _ s₂ ⟨held₂, brk₂, glob₂⟩
    refine raised_of_join T _ up s s₂ f.side _ _ held₂ ?_ (brk₂.trans brk₁) (glob₂.trans glob₁)
    rw [inorder_rotate, join_pick, same, inorder_rotate]
    simp [Frame.attach, same]
  · rename_i different
    -- zig-zag: `T` is raised above the parent, then above the grandparent
    have sideF := eq_flip_of_ne _ _ different
    refine wp_mono _ _ _ s (rotate_frame s f (g :: up) T x y held) ?_
    rintro _ s₁ ⟨held₁, brk₁, glob₁⟩
    rw [plug_cons, Frame.attach, sideF, join_flip g.side T] at held₁
    refine wp_mono _ _ _ s₁ (rotate_spec s₁ up g.side g.label T _ _ _ held₁) ?_
    rintro _ s₂ ⟨held₂, brk₂, glob₂⟩
    refine raised_of_join T _ up s s₂ g.side _ _ held₂ ?_ (brk₂.trans brk₁) (glob₂.trans glob₁)
    rw [inorder_double_rotate, join_pick, Frame.attach, Frame.attach, sideF]

/-- The loop brings `T` to the root within as many iterations as its depth plus one. -/
theorem splayLoop_spec (fuel : Nat) (s : State) (trail : Trail Label) (T : Label)
    (x y : BinaryTree Label) (held : Holds layout s (plug trail (.node T x y)))
    (enough : trail.length < fuel) :
    wp (splayLoop fuel (some (layout.addr T))) (fun _ s' =>
      Raised T (inorder (plug trail (.node T x y))) [] s s') s := by
  induction fuel generalizing s trail x y with
  | zero => omega
  | succ fuel ih =>
      have focus := (holds_plug s trail _).mp held
      obtain ⟨cellT, _⟩ := focus.subtree
      match trail with
      | [] =>
          simp only [splayLoop, wp_bind, wp_load, cellT, Option.some.injEq, exists_eq_left', cell_p]
          exact ⟨x, y, held, rfl, rfl, rfl⟩
      | [f] =>
          obtain ⟨cellP, _⟩ := focus.around
          simp only [splayLoop, wp_bind, wp_load, cellT, cellP, Option.some.injEq, exists_eq_left',
            cell_p, side_p, top_cons, top_nil, wp_ite, if_true, reduceCtorEq, if_false]
          exact zig_spec s f T x y held
      | f :: g :: up =>
          obtain ⟨cellP, _⟩ := focus.around
          simp only [splayLoop, wp_bind, wp_load, cellT, cellP, Option.some.injEq, exists_eq_left',
            cell_p, side_p, top_cons, wp_ite, reduceCtorEq, if_false]
          refine wp_mono _ _ _ s (zigzag_spec s f g up T x y held) ?_
          rintro _ s₁ ⟨x₁, y₁, held₁, same₁, brk₁, glob₁⟩
          simp only [List.length_cons] at enough
          refine wp_mono _ _ _ s₁ (ih s₁ up x₁ y₁ held₁ (by omega)) ?_
          rintro _ s₂ ⟨x₂, y₂, held₂, same₂, brk₂, glob₂⟩
          refine ⟨x₂, y₂, held₂, ?_, brk₂.trans brk₁, glob₂.trans glob₁⟩
          rw [same₂, plug_cons, plug_cons]
          exact inorder_plug_congr up _ _ same₁

theorem splay_spec (s : State) (trail : Trail Label) (T : Label) (x y : BinaryTree Label)
    (held : Holds layout s (plug trail (.node T x y))) :
    wp (splay (some (layout.addr T))) (fun _ s' =>
      ∃ l r, Holds layout s' (.node T l r) ∧
        inorder (.node T l r) = inorder (plug trail (.node T x y)) ∧ s'.brk = s.brk ∧
        s'.glob.root = some (layout.addr T)) s := by
  have deep := trail_length_le trail (.node T x y)
  have large := held.numNodes_le
  have positive : 0 < (inorder (.node T x y)).length := by simp
  simp only [splay, wp_bind, wp_cells]
  refine wp_mono _ _ _ s (splayLoop_spec s.brk s trail T x y held (by omega)) ?_
  rintro _ s' ⟨l, r, held', same, brk, _⟩
  exact ⟨l, r, ⟨held'.linked, held'.distinct, held'.allocated⟩, same, brk, rfl⟩

/-- `Splay(T)` on a node of a tree whose parent links are consistent terminates with `T` as the
root of a tree of the same nodes in the same order, whose parent links are consistent. -/
theorem splay_raises_node (s : State) (t : BinaryTree Label) (T : Label) (held : Holds layout s t)
    (node : T ∈ inorder t) :
    ∃ s' l r, (splay (some T.addr)).run s = .ok ((), s') ∧ Holds layout s' (.node T l r) ∧
      inorder (.node T l r) = inorder t ∧ s'.glob.root = some T.addr ∧
      (s'.cell T.addr).map Node.p = some none := by
  obtain ⟨xs, ys, split⟩ := List.append_of_mem node
  obtain ⟨up, x, y, whole, _⟩ := focus_of_inorder [] t xs ys T split
  rw [plug_nil] at whole
  subst whole
  obtain ⟨_, s', ran, l, r, held', same, _, root⟩ :=
    (wp_iff_run _ _ _).mp (splay_spec s up T x y held)
  refine ⟨s', l, r, ran, held', same, root, ?_⟩
  obtain ⟨cell, _⟩ := held'.linked
  rw [show s'.cell T.addr = _ from cell, Option.map_some, cell_p]

def pairTree : BinaryTree Label := .node ⟨0, 2⟩ (.node ⟨1, 1⟩ .nil .nil) .nil

def pairStore : State where
  cell a := if a = 0 then some ⟨some 1, none, none, 2⟩ else if a = 1 then some ⟨none, none, some 0, 1⟩ else none
  brk := 2
  glob := ⟨some 0⟩

theorem splay_raises_node_pair : Holds layout pairStore pairTree ∧ ⟨1, 1⟩ ∈ inorder pairTree ∧
    ∃ s', (splay (some 1)).run pairStore = .ok ((), s') ∧ s'.glob.root = some 1 := by
  have held : Holds layout pairStore pairTree := by
    refine ⟨?_, by decide, by decide⟩
    simp [pairTree, pairStore, layout]
  have node : (⟨1, 1⟩ : Label) ∈ inorder pairTree := by decide
  obtain ⟨s', _, _, ran, _, _, root, _⟩ := splay_raises_node pairStore pairTree ⟨1, 1⟩ held node
  exact ⟨held, node, s', ran, root⟩

theorem hang_spec (s : State) (f : Frame Label) (up : Trail Label) (v : Int)
    (held : Holds layout s (plug (f :: up) .nil)) :
    wp (malloc ⟨none, none, some (layout.addr f.label), v⟩ >>= fun q =>
      assign (some (layout.addr f.label)) (fun n => n.setChild f.side q) >>= fun _ => pure q)
      (fun q s' => q = some s.brk ∧
        Holds layout s' (plug (f :: up) (.node ⟨s.brk, v⟩ .nil .nil)) ∧ s'.glob = s.glob) s := by
  apply wp_hang s f up ⟨s.brk, v⟩ _ (fun q n => n.setChild f.side q) _ _ rfl rfl _ held
  · intro s' held' glob
    exact ⟨rfl, held', glob⟩
  · intro q x y p
    exact setChild_side _ _ _ _ _ _

/-- The insertion walk ends at the node holding `v` or, if there is none, at a new
node in the place where the search fell off the tree. -/
def Placed (v : Int) (s : State) (q : Ptr) (s' : State) : Trail Label × BinaryTree Label → Prop
  | (up, .nil) => q = some s.brk ∧ Holds layout s' (plug up (.node ⟨s.brk, v⟩ .nil .nil)) ∧
      s'.glob = s.glob
  | (_, .node a _ _) => q = some (layout.addr a) ∧ s' = s

def descendLoop (v : Int) (missing : Side → Ptr → Prog State Ptr) : Nat → Ptr → Prog State Ptr
  | 0, _ => fault .stuck
  | fuel + 1, P => do
      let n ← load P
      if n.v = v then pure P
      else if v < n.v then
        if n.l ≠ none then descendLoop v missing fuel n.l else missing .left P
      else
        if n.r ≠ none then descendLoop v missing fuel n.r else missing .right P

theorem descendLoop_spec (v : Int) (missing : Side → Ptr → Prog State Ptr)
    (post : Trail Label × BinaryTree Label → Ptr → State → Prop) (fuel : Nat) (s : State)
    (trail : Trail Label) (t : BinaryTree Label) (held : Holds layout s (plug trail t))
    (nonempty : t ≠ .nil) (enough : (inorder t).length ≤ fuel)
    (found : ∀ up a l r, a.v = v → post (up, .node a l r) (some (layout.addr a)) s)
    (falls : ∀ f up, Holds layout s (plug (f :: up) .nil) → f.label.v ≠ v →
      wp (missing f.side (some (layout.addr f.label))) (post (f :: up, .nil)) s) :
    wp (descendLoop v missing fuel (layout.root t)) (post (descend (order Label.v v) trail t)) s := by
  induction t generalizing fuel trail with
  | nil => exact absurd rfl nonempty
  | node a l r ihl ihr =>
      have focus := (holds_plug s trail _).mp held
      obtain ⟨cellA, _⟩ := focus.subtree
      obtain _ | fuel := fuel
      · simp at enough
      simp only [inorder_node, List.length_append, List.length_cons] at enough
      simp only [descendLoop, root_node, wp_bind, wp_load, cellA, Option.some.injEq,
        exists_eq_left', cell_v, cell_l, cell_r, wp_ite]
      rcases lt_trichotomy v a.v with less | equal | greater
      · simp only [less.ne', less, if_false, if_true, descend, (order_lt _ v a).mpr less]
        by_cases empty : l = .nil
        · subst empty
          rw [if_neg (by simp)]
          exact falls ⟨.left, a, r⟩ trail held less.ne'
        · rw [if_pos (by simpa [root_eq_none] using empty)]
          exact ihl fuel (⟨.left, a, r⟩ :: trail) held empty (by omega)
      · simp only [equal.symm, if_true, descend, (order_eq _ v a).mpr equal.symm]
        exact found trail a l r equal.symm
      · simp only [greater.ne, greater.not_gt, if_false, descend, (order_gt _ v a).mpr greater]
        by_cases empty : r = .nil
        · subst empty
          rw [if_neg (by simp)]
          exact falls ⟨.right, a, l⟩ trail held greater.ne
        · rw [if_pos (by simpa [root_eq_none] using empty)]
          exact ihr fuel (⟨.right, a, l⟩ :: trail) held empty (by omega)

theorem insertLoop_eq (v : Int) (fuel : Nat) (P : Ptr) :
    insertLoop v fuel P = descendLoop v (fun d P => do
      let q ← malloc ⟨none, none, P, v⟩
      assign P fun n => n.setChild d q
      pure q) fuel P := by
  induction fuel generalizing P with
  | zero => rfl
  | succ fuel ih =>
      simp only [insertLoop, descendLoop, ih]
      rfl

theorem insertLoop_spec (v : Int) (fuel : Nat) (s : State) (trail : Trail Label)
    (t : BinaryTree Label) (held : Holds layout s (plug trail t)) (nonempty : t ≠ .nil)
    (enough : (inorder t).length ≤ fuel) :
    wp (insertLoop v fuel (layout.root t)) (fun q s' =>
      Placed v s q s' (descend (order Label.v v) trail t)) s := by
  rw [insertLoop_eq]
  apply descendLoop_spec v _ (fun place q s' => Placed v s q s' place) fuel s trail t held nonempty
    enough
  · intro up a l r _
    exact ⟨rfl, rfl⟩
  · intro f up held' _
    exact hang_spec s f up v held'

theorem findLoop_eq (v : Int) (fuel : Nat) (P : Ptr) :
    findLoop v fuel P = descendLoop v (fun _ P => pure P) fuel P := by
  induction fuel generalizing P with
  | zero => rfl
  | succ fuel ih => simp only [findLoop, descendLoop, ih]

/-- The search walk ends at the node holding `v` or at a node next to its place. -/
theorem findLoop_spec (v : Int) (fuel : Nat) (s : State) (trail : Trail Label)
    (t : BinaryTree Label) (held : Holds layout s (plug trail t)) (nonempty : t ≠ .nil)
    (enough : (inorder t).length ≤ fuel) :
    wp (findLoop v fuel (layout.root t)) (fun q s' => s' = s ∧ ∃ up T x y,
      q = some (layout.addr T) ∧ plug up (.node T x y) = plug trail t ∧
      (T.v = v ↔ (descend (order Label.v v) trail t).2 ≠ .nil)) s := by
  rw [findLoop_eq, ← plug_descend (order Label.v v) trail t]
  apply descendLoop_spec v _ (fun place q s' => s' = s ∧ ∃ up T x y,
    q = some (layout.addr T) ∧ plug up (.node T x y) = plug place.1 place.2 ∧
    (T.v = v ↔ place.2 ≠ .nil)) fuel s trail t held nonempty enough
  · intro up a l r here
    exact ⟨rfl, up, a, l, r, rfl, rfl, by simp [here]⟩
  · intro f up _ other
    obtain ⟨d, T, rest⟩ := f
    cases d with
    | left => exact ⟨rfl, up, T, .nil, rest, rfl, rfl, by simpa using other⟩
    | right => exact ⟨rfl, up, T, rest, .nil, rfl, rfl, by simpa using other⟩

end DataStructure.Splay
