import DataStructure.Tree.RbErase

/-! Taking a node out of a red-black tree. -/

namespace DataStructure.RbTree

open DataStructure.Program DataStructure.Heap DataStructure.Zipper DataStructure.LinkedTree
  DataStructure.KeyedTree DataStructure.RedBlack

variable {E D : Type}

def Env.release (e : Env E D) (a : Nat) (n : Node D) : Env E D :=
  { e with frame := Function.update e.frame a (some n) }

theorem Stored.released {e : Env E D} {s s' : State E D} {old new : BinaryTree (Label D)} {a : Nat}
    {n : Node D} (stored : Stored e s old) (held : Holds layout s' new)
    (glob : s'.glob = ⟨layout.root new, e.ext⟩) (cellA : s.cell a = some n)
    (keeps : ∀ x, x ∉ layout.addrs new → s'.cell x = s.cell x)
    (covers : ∀ x, x ∉ layout.addrs new → x ≠ a → x ∉ layout.addrs old) :
    Stored (e.release a n) s' new := by
  refine ⟨held, glob, ?_⟩
  intro x outside
  rw [keeps x outside]
  by_cases same : x = a
  · subst same
    simp [Env.release, cellA]
  · simp only [Env.release, Function.update_of_ne same]
    exact stored.frame x (covers x outside same)

/-- A node with at most one child is replaced by that child. -/
theorem eraseUnlink_spec (e : Env E D) (s : State E D) (up : Trail (Label D)) (d : Side) (a : Label D)
    (c : BinaryTree (Label D)) (stored : Stored e s (plug up (join d a .nil c))) :
    wp (eraseUnlink (some (layout.addr a)) (layout.root c)) (fun result s' =>
      result = (layout.root c, layout.top none up, bit a.color) ∧
      Stored (e.release (layout.addr a) (layout.side d a none (layout.root c) (layout.top none up))) s'
        (plug up c)) s := by
  have focus := (holds_plug s up _).mp stored.held
  obtain ⟨distinctUp, tree, disjoint⟩ := List.nodup_append'.mp focus.distinct
  obtain ⟨_, distinctC, _, absentC, _⟩ := (nodup_addrs_join d a .nil c).mp tree
  obtain ⟨cellA, _, linkedC⟩ := (linked_join _ _ _ _ _ _).mp focus.subtree
  have outsideA : layout.addr a ∉ layout.trailAddrs up := fun inside => disjoint inside (by simp)
  have outsideC (b : Nat) (member : b ∈ layout.addrs c) : b ∉ layout.trailAddrs up :=
    fun inside => disjoint inside (by simp [member])
  simp only [eraseUnlink, wp_bind, wp_load, cellA, Option.some.injEq, exists_eq_left', side_rbParent,
    side_rbColor]
  refine wp_reparent s c (some (layout.addr a)) (layout.top none up) (Node.setParent (layout.top none up))
    (fun _ _ _ => setParent_side .left _ _ _ _ _) linkedC distinctC _ ?_
  intro s₁ linkedC₁ touches₁
  have around₁ := touches₁.linkedTrail none _ up (fun b inside member => outsideC b member inside)
    focus.around
  rw [root_join] at around₁
  rw [wp_bind]
  refine wp_replaceChild e.ext s₁ .left up (layout.addr a) (join d a .nil c) c around₁ outsideA distinctUp
    (touches₁.glob.trans stored.glob) _ ?_
  intro s₂ around₂ keeps₂ brk₂ glob₂
  refine ⟨rfl, stored.released (focus.replaced ?_ (brk₂.trans touches₁.brk) around₂ ?_) glob₂ cellA
    ?_ ?_⟩
  · cases d <;> simp [join]
  · exact (linked_congr _ _ _ _ fun b member => keeps₂ b (outsideC b member)).mpr linkedC₁
  · intro x outside
    rw [mem_addrs_plug, not_or] at outside
    rw [keeps₂ x outside.1, touches₁.cell x outside.2]
  · intro x outside away
    rw [mem_addrs_plug, not_or] at outside
    simp [mem_addrs_plug, outside, away]

theorem leftmost_spec (fuel : Nat) (s : State E D) (p : Ptr) (r : BinaryTree (Label D))
    (nonempty : r ≠ .nil) (linked : layout.Linked s.cell p r) (enough : (inorder r).length ≤ fuel) :
    wp (leftmost fuel (layout.root r)) (fun q s' => s' = s ∧ ∃ lefts b c,
      r = plug lefts (.node b .nil c) ∧ (∀ f ∈ lefts, f.side = .left) ∧
      q = some (layout.addr b)) s := by
  induction r generalizing fuel p with
  | nil => exact absurd rfl nonempty
  | node b l c ih _ =>
      obtain ⟨cellB, linkedL, _⟩ := linked
      obtain _ | fuel := fuel
      · simp at enough
      simp only [inorder_node, List.length_append, List.length_cons] at enough
      simp only [leftmost, root_node, wp_bind, wp_load, cellB, Option.some.injEq, exists_eq_left',
        cell_rbLeft, wp_ite]
      by_cases empty : l = .nil
      · subst empty
        rw [if_neg (by simp)]
        exact ⟨rfl, [], b, c, rfl, by simp, rfl⟩
      · rw [if_pos (by simpa [root_eq_none] using empty)]
        refine wp_mono _ _ _ s (ih fuel _ empty linkedL (by omega)) ?_
        rintro q s' ⟨kept, lefts, b', c', shape, left, rfl⟩
        refine ⟨kept, lefts ++ [⟨.left, b, c⟩], b', c', ?_, ?_, rfl⟩
        · rw [plug_append, ← shape]
          rfl
        · intro f member
          rcases List.mem_append.mp member with member | member
          · exact left f member
          · rw [List.mem_singleton.mp member]

theorem linked_detach {s s₁ : State E D} {a : Nat} {b : Label D} {f : Frame (Label D)}
    {lefts : Trail (Label D)} {c : BinaryTree (Label D)} (left : f.side = .left)
    (linked : layout.Linked s.cell (some a) (plug (f :: lefts) (.node b .nil c)))
    (distinct : (layout.addrs (plug (f :: lefts) c)).Nodup)
    (linkedC : layout.Linked s₁.cell (some (layout.addr f.label)) c)
    (touches : Touches (layout.addrs c) s s₁) :
    layout.Linked (s₁.put (layout.addr f.label) (layout.side .left f.label (layout.root c)
      (layout.root f.other) (layout.top (some a) lefts))).cell (some a) (plug (f :: lefts) c) := by
  obtain ⟨⟨_, other, higher⟩, _⟩ := (linked_plug _ _ _ _).mp linked
  obtain ⟨distinctT, _, disjoint⟩ :=
    List.nodup_append'.mp ((addrs_plug_perm (f :: lefts) c).nodup_iff.mp distinct)
  obtain ⟨absentOther, absentUp⟩ := not_mem_of_nodup_trail f lefts distinctT
  refine (linked_plug _ _ _ _).mpr ⟨⟨?_, ?_, ?_⟩, ?_⟩
  · rw [left]
    exact Store.put_cell_self _ _ _
  · rw [linked_put _ _ _ _ _ absentOther]
    exact touches.linked _ _ (fun x inside member => disjoint (by simp [inside]) member) other
  · rw [linkedTrail_put _ _ _ _ _ _ absentUp]
    exact touches.linkedTrail _ _ _ (fun x inside member => disjoint (by simp [inside]) member) higher
  · rw [linked_put _ _ _ _ _ fun member => disjoint (by simp) member]
    exact linkedC

/-- The successor `b` is taken out from below `f.label` and gets the rest of the right
subtree as its right child. -/
theorem eraseDetach_spec (s : State E D) (a : Nat) (b : Label D) (f : Frame (Label D))
    (lefts : Trail (Label D)) (c : BinaryTree (Label D)) (old : Node D) (left : f.side = .left)
    (cellA : s.cell a = some old) (right : old.rbRight = layout.root (plug (f :: lefts) (.node b .nil c)))
    (linked : layout.Linked s.cell (some a) (plug (f :: lefts) (.node b .nil c)))
    (outside : a ∉ layout.addrs (plug (f :: lefts) (.node b .nil c)))
    (distinct : (layout.addrs (plug (f :: lefts) (.node b .nil c))).Nodup) :
    wp (eraseDetach (some a) (some (layout.addr b)) (layout.root c) (some (layout.addr f.label)))
      (fun _ s' => layout.Linked s'.cell (some (layout.addr b)) (plug (f :: lefts) c) ∧
        s'.cell (layout.addr b) = some (layout.cell b none (layout.root (plug (f :: lefts) c))
          (some (layout.addr f.label))) ∧
        Touches (layout.addrs (plug (f :: lefts) (.node b .nil c))) s s') s := by
  obtain ⟨⟨cellF, _, _⟩, cellB, _, linkedC⟩ := (linked_plug _ _ _ _).mp linked
  have perm := addrs_plug_node_perm (L := layout) (f :: lefts) b c
  obtain ⟨absentB, distinctRest⟩ := List.nodup_cons.mp (perm.nodup_iff.mp distinct)
  obtain ⟨_, distinctC, disjoint⟩ :=
    List.nodup_append'.mp ((addrs_plug_perm (f :: lefts) c).nodup_iff.mp distinctRest)
  have insideC (x : Nat) (member : x ∈ layout.addrs c) : x ∈ layout.addrs (plug (f :: lefts) c) :=
    (mem_addrs_plug _ _ _).mpr (Or.inr member)
  have insideR (x : Nat) (member : x ∈ layout.addrs (plug (f :: lefts) c)) :
      x ∈ layout.addrs (plug (f :: lefts) (.node b .nil c)) :=
    perm.mem_iff.mpr (List.mem_cons_of_mem _ member)
  have neFA := label_ne_of_not_mem f lefts _ a outside
  have neFB := label_ne_of_not_mem f lefts c (layout.addr b) absentB
  simp only [eraseDetach, wp_bind]
  refine wp_reparent s c (some (layout.addr b)) (some (layout.addr f.label))
    (Node.setParent (some (layout.addr f.label))) (fun _ _ _ => setParent_side .left _ _ _ _ _)
    linkedC distinctC _ ?_
  intro s₁ linkedC₁ touches₁
  have cellF₁ := (touches₁.cell _ fun member => disjoint (by simp) member).trans cellF
  rw [left] at cellF₁
  simp only [wp_bind, wp_assign, cellF₁, Option.some.injEq, exists_eq_left', setChild_side]
  have linked₂ := linked_detach left linked distinctRest linkedC₁ touches₁
  have sameRoot : old.rbRight = layout.root (plug (f :: lefts) c) :=
    right.trans (root_plug lefts _ _ (by simp))
  have cellB₁ := (touches₁.cell _ fun member => absentB (insideC _ member)).trans cellB
  have cellA₁ := (touches₁.cell a fun member => outside (insideR _ (insideC _ member))).trans cellA
  simp only [wp_load, Store.put_cell_of_ne _ _ _ _ neFA.symm, cellA₁, Option.some.injEq,
    exists_eq_left', sameRoot]
  simp only [wp_bind, wp_assign, Store.put_cell_of_ne _ _ _ _ neFB.symm, cellB₁, Option.some.injEq,
    exists_eq_left']
  refine wp_reparent_root _ (plug (f :: lefts) c) (some a) (some (layout.addr b))
    (Node.setParent (some (layout.addr b))) (fun _ _ _ => setParent_side .left _ _ _ _ _) ?_
    ((linked_put _ _ _ _ _ absentB).mpr linked₂) distinctRest _ ?_
  · intro empty
    have pointed := (root_plug_mem (L := layout) f lefts c)
    simp [empty] at pointed
  intro s₃ linked₃ touches₃
  refine ⟨linked₃, ?_, ?_, ?_, ?_⟩
  · rw [touches₃.cell _ absentB, Store.put_cell_self]
    rfl
  · intro x away
    rw [perm.mem_iff, List.mem_cons, not_or] at away
    rw [touches₃.cell x away.2, Store.put_cell_of_ne _ _ _ _ away.1,
      Store.put_cell_of_ne _ _ _ _ (label_ne_of_not_mem f lefts c x away.2).symm,
      touches₁.cell x fun member => away.2 (insideC x member)]
  · simp [touches₃.brk, touches₁.brk]
  · simp [touches₃.glob, touches₁.glob]

theorem addrs_of_lefts (lefts : Trail (Label D)) (b : Label D) (c : BinaryTree (Label D))
    (left : ∀ f ∈ lefts, f.side = .left) :
    layout.addrs (plug lefts (.node b .nil c)) = layout.addr b :: layout.addrs (plug lefts c) := by
  simp [Layout.addrs, inorder_plug, before_of_left lefts left]

theorem eraseDetach_if (s : State E D) (a b : Label D) (lefts : Trail (Label D))
    (c : BinaryTree (Label D)) (old : Node D) (left : ∀ f ∈ lefts, f.side = .left)
    (cellA : s.cell (layout.addr a) = some old)
    (right : old.rbRight = layout.root (plug lefts (.node b .nil c)))
    (linked : layout.Linked s.cell (some (layout.addr a)) (plug lefts (.node b .nil c)))
    (outside : layout.addr a ∉ layout.addrs (plug lefts (.node b .nil c)))
    (distinct : (layout.addrs (plug lefts (.node b .nil c))).Nodup) :
    wp (onlyIf (layout.top (some (layout.addr a)) lefts ≠ some (layout.addr a))
        (eraseDetach (some (layout.addr a)) (some (layout.addr b)) (layout.root c)
          (layout.top (some (layout.addr a)) lefts)))
      (fun _ s' => layout.Linked s'.cell (some (layout.addr b)) (plug lefts c) ∧
        (∃ p, s'.cell (layout.addr b) = some (layout.cell b none (layout.root (plug lefts c)) p)) ∧
        Touches (layout.addrs (plug lefts (.node b .nil c))) s s') s := by
  rw [wp_onlyIf]
  cases lefts with
  | nil =>
      obtain ⟨cellB, _, linkedC⟩ := linked
      simp only [top_nil, ne_eq, not_true_eq_false, decide_false, Bool.false_eq_true, if_false]
      exact ⟨linkedC, ⟨_, cellB⟩, Touches.refl _ _⟩
  | cons f lefts =>
      have different : some (layout.addr f.label) ≠ some (layout.addr a) :=
        fun same => label_ne_of_not_mem f lefts _ _ outside (Option.some.inj same)
      simp only [top_cons, ne_eq, different, not_false_eq_true, decide_true, if_true]
      refine wp_mono _ _ _ s (eraseDetach_spec s (layout.addr a) b f lefts c old
        (left f List.mem_cons_self) cellA right linked outside distinct) ?_
      rintro _ s' ⟨linked', cellB', touches⟩
      exact ⟨linked', ⟨_, cellB'⟩, touches⟩

/-- The successor gets the parent, the colour and the left subtree of the old node. -/
theorem eraseTakeOver_spec (s : State E D) (a b : Label D) (l r : BinaryTree (Label D)) (rest up p : Ptr)
    (cellA : s.cell (layout.addr a) = some (layout.cell a (layout.root l) rest up))
    (cellB : s.cell (layout.addr b) = some (layout.cell b none (layout.root r) p))
    (linkedL : layout.Linked s.cell (some (layout.addr a)) l) (nonempty : l ≠ .nil)
    (distinct : (layout.addrs l).Nodup) (absentB : layout.addr b ∉ layout.addrs l)
    (different : layout.addr a ≠ layout.addr b) :
    wp (eraseTakeOver (some (layout.addr a)) (some (layout.addr b))) (fun _ s' =>
      s'.cell (layout.addr b) =
        some (layout.cell (b.paint a.color) (layout.root l) (layout.root r) up) ∧
      layout.Linked s'.cell (some (layout.addr b)) l ∧
      Touches (layout.addr b :: layout.addrs l) s s') s := by
  simp only [eraseTakeOver, wp_bind, wp_load, wp_assign, cellA, cellB, Option.some.injEq,
    exists_eq_left', Store.put_cell_of_ne _ _ _ _ different, Store.put_cell_self, cell_rbLeft]
  refine wp_reparent_root _ l (some (layout.addr a)) (some (layout.addr b))
    (Node.setParent (some (layout.addr b))) (fun _ _ _ => setParent_side .left _ _ _ _ _) nonempty
    ?_ distinct _ ?_
  · simpa [absentB] using linkedL
  intro s' linked' touches
  refine ⟨?_, linked', ?_, touches.brk, touches.glob⟩
  · rw [touches.cell _ absentB, Store.put_cell_self]
    rfl
  · intro x away
    rw [List.mem_cons, not_or] at away
    rw [touches.cell x away.2, Store.put_cell_of_ne _ _ _ _ away.1, Store.put_cell_of_ne _ _ _ _ away.1]

/-- The old node `a`, what lies above it, its left subtree `l` and its right subtree, from which the
successor `b` is taken, share no cell. -/
structure Parts (up : Trail (Label D)) (a : Label D) (l : BinaryTree (Label D)) (lefts : Trail (Label D))
    (b : Label D) (c : BinaryTree (Label D)) : Prop where
  addrsR : layout.addrs (plug lefts (.node b .nil c)) = layout.addr b :: layout.addrs (plug lefts c)
  distinctL : (layout.addrs l).Nodup
  distinctR : (layout.addrs (plug lefts (.node b .nil c))).Nodup
  absentR : layout.addr a ∉ layout.addrs (plug lefts (.node b .nil c))
  apartL : ∀ x ∈ layout.addrs l, x ∉ layout.addrs (plug lefts (.node b .nil c))
  outsideUp : ∀ x, x = layout.addr a ∨ x ∈ layout.addrs l ∨
    x ∈ layout.addrs (plug lefts (.node b .nil c)) → x ∉ layout.trailAddrs up

theorem parts_of_focus {s : State E D} {up : Trail (Label D)} {a : Label D} {l : BinaryTree (Label D)}
    {lefts : Trail (Label D)} {b : Label D} {c : BinaryTree (Label D)}
    (focus : Focus layout s up (.node a l (plug lefts (.node b .nil c))))
    (left : ∀ f ∈ lefts, f.side = .left) : Parts up a l lefts b c := by
  obtain ⟨_, tree, disjoint⟩ := List.nodup_append'.mp focus.distinct
  obtain ⟨distinctL, distinctR, _, absentR, disjointLR⟩ := (nodup_addrs_join .left a l _).mp tree
  exact ⟨addrs_of_lefts lefts b c left, distinctL, distinctR, absentR,
    fun x member inside => disjointLR member inside,
    fun x member inside => disjoint inside ((mem_addrs_join .left a _ _ x).mpr member)⟩

section Splice

variable {up : Trail (Label D)} {a : Label D} {l : BinaryTree (Label D)} {lefts : Trail (Label D)}
  {b : Label D} {c : BinaryTree (Label D)} (parts : Parts up a l lefts b c)
include parts

theorem Parts.memberB : layout.addr b ∈ layout.addrs (plug lefts (.node b .nil c)) := by
  rw [parts.addrsR]
  exact List.mem_cons_self

theorem Parts.apartRest (x : Nat) (member : x ∈ layout.addrs (plug lefts c)) :
    x ∉ layout.addr b :: layout.addrs l := by
  have distinct := parts.distinctR
  rw [parts.addrsR] at distinct
  rw [List.mem_cons, not_or]
  refine ⟨?_, fun inside => parts.apartL x inside ?_⟩
  · rintro rfl
    exact (List.nodup_cons.mp distinct).1 member
  · rw [parts.addrsR]
    exact List.mem_cons_of_mem _ member

theorem Parts.top : (if layout.top (some (layout.addr a)) lefts = some (layout.addr a)
      then some (layout.addr b) else layout.top (some (layout.addr a)) lefts) =
    layout.top none (lefts ++ ⟨.right, b.paint a.color, l⟩ :: up) := by
  cases lefts with
  | nil =>
      rw [top_nil, if_pos rfl, List.nil_append, top_cons]
      rfl
  | cons f lefts =>
      have outer : some (layout.addr f.label) ≠ some (layout.addr a) :=
        fun same => label_ne_of_not_mem f lefts _ _ parts.absentR (Option.some.inj same)
      rw [top_cons, if_neg outer, List.cons_append, top_cons]

/-- After `replaceChild`, the detaching of `b` and its taking over, `b` stands in the place of `a`. -/
theorem Parts.stored {e : Env E D} {s s₁ s₂ s₃ : State E D}
    (stored : Stored e s (plug up (.node a l (plug lefts (.node b .nil c)))))
    (around : layout.LinkedTrail s₁.cell none
      (layout.root (.node (b.paint a.color) l (plug lefts c))) up)
    (keeps : ∀ x, x ∉ layout.trailAddrs up → s₁.cell x = s.cell x) (brk : s₁.brk = s.brk)
    (glob : s₁.glob = ⟨layout.root (plug up (.node (b.paint a.color) l (plug lefts c))), e.ext⟩)
    (linkedR : layout.Linked s₂.cell (some (layout.addr b)) (plug lefts c))
    (detached : Touches (layout.addrs (plug lefts (.node b .nil c))) s₁ s₂)
    (cellB : s₃.cell (layout.addr b) = some (layout.cell (b.paint a.color) (layout.root l)
      (layout.root (plug lefts c)) (layout.top none up)))
    (linkedL : layout.Linked s₃.cell (some (layout.addr b)) l)
    (taken : Touches (layout.addr b :: layout.addrs l) s₂ s₃) :
    Stored (e.release (layout.addr a) (layout.cell a (layout.root l)
      (layout.root (plug lefts (.node b .nil c))) (layout.top none up))) s₃
      (plug up (.node (b.paint a.color) l (plug lefts c))) := by
  have focus := (holds_plug s up _).mp stored.held
  have label : layout.addr (b.paint a.color) = layout.addr b := rfl
  refine stored.released (focus.replaced ?_ (taken.brk.trans (detached.brk.trans brk)) ?_ ?_)
    (taken.glob.trans (detached.glob.trans glob)) focus.subtree.1 ?_ ?_
  · rw [addrs_node, addrs_node, parts.addrsR]
    exact List.Sublist.append_left (List.sublist_cons_self _ _) _
  · refine (linkedTrail_congr _ _ _ _ _ ?_).mpr around
    intro x inside
    rw [taken.cell x, detached.cell x]
    · exact fun member => parts.outsideUp x (Or.inr (Or.inr member)) inside
    · rw [List.mem_cons, not_or]
      refine ⟨?_, fun member => parts.outsideUp x (Or.inr (Or.inl member)) inside⟩
      rintro rfl
      exact parts.outsideUp _ (Or.inr (Or.inr parts.memberB)) inside
  · exact ⟨cellB, linkedL, taken.linked _ _ parts.apartRest linkedR⟩
  · intro x outside
    rw [mem_addrs_plug, addrs_node, List.mem_append, List.mem_cons, label] at outside
    simp only [not_or] at outside
    obtain ⟨awayUp, awayL, awayB, awayRest⟩ := outside
    rw [taken.cell x, detached.cell x, keeps x awayUp]
    · rw [parts.addrsR, List.mem_cons, not_or]
      exact ⟨awayB, awayRest⟩
    · rw [List.mem_cons, not_or]
      exact ⟨awayB, awayL⟩
  · intro x outside away
    rw [mem_addrs_plug, addrs_node, List.mem_append, List.mem_cons] at outside ⊢
    rw [parts.addrsR, List.mem_cons]
    tauto

end Splice

theorem eraseSplice_spec (e : Env E D) (s : State E D) (up : Trail (Label D)) (a : Label D)
    (l r : BinaryTree (Label D)) (stored : Stored e s (plug up (.node a l r)))
    (nonemptyL : l ≠ .nil) (nonemptyR : r ≠ .nil) :
    wp (eraseSplice (some (layout.addr a))) (fun result s' => ∃ lefts b c,
      r = plug lefts (.node b .nil c) ∧ (∀ f ∈ lefts, f.side = .left) ∧
      result = (layout.root c, layout.top none (lefts ++ ⟨.right, b.paint a.color, l⟩ :: up),
        bit b.color) ∧
      Stored (e.release (layout.addr a) (layout.cell a (layout.root l) (layout.root r) (layout.top none up)))
        s' (plug (lefts ++ ⟨.right, b.paint a.color, l⟩ :: up) c)) s := by
  have focus := (holds_plug s up _).mp stored.held
  obtain ⟨distinctUp, _, _⟩ := List.nodup_append'.mp focus.distinct
  obtain ⟨cellA, linkedL, linkedR⟩ := focus.subtree
  have size := stored.held.numNodes_le
  simp only [eraseSplice, wp_bind, wp_cells, wp_load, cellA, Option.some.injEq, exists_eq_left',
    cell_rbRight]
  have enough : (inorder r).length ≤ s.brk := by
    have part : (inorder r).length ≤ (inorder (plug up (.node a l r))).length := by
      simp [inorder_plug]
      omega
    omega
  refine wp_mono _ _ _ s (leftmost_spec s.brk s _ r nonemptyR linkedR enough) ?_
  rintro _ s₀ ⟨kept, lefts, b, c, rfl, left, rfl⟩
  subst s₀
  have parts := parts_of_focus focus left
  have outsideUp := parts.outsideUp
  simp only [wp_bind, wp_load, cellA, Option.some.injEq, exists_eq_left', cell_rbParent]
  refine wp_replaceChild e.ext s .left up (layout.addr a) (.node a l (plug lefts (.node b .nil c)))
    (.node (b.paint a.color) l (plug lefts c)) focus.around (outsideUp _ (Or.inl rfl)) distinctUp
    stored.glob _ ?_
  intro s₁ around₁ keeps₁ brk₁ glob₁
  have cellA₁ := (keeps₁ _ (outsideUp _ (Or.inl rfl))).trans cellA
  have linkedL₁ := (linked_congr _ _ _ _ fun x member => keeps₁ x
    (outsideUp x (Or.inr (Or.inl member)))).mpr linkedL
  have linkedR₁ := (linked_congr _ _ _ _ fun x member => keeps₁ x
    (outsideUp x (Or.inr (Or.inr member)))).mpr linkedR
  obtain ⟨_, cellB₁, _⟩ := (linked_plug _ _ _ _).mp linkedR₁
  simp only [wp_bind, wp_load, cellB₁, Option.some.injEq, exists_eq_left', cell_rbRight,
    cell_rbParent, cell_rbColor]
  refine wp_mono _ _ _ s₁ (eraseDetach_if s₁ a b lefts c _ left cellA₁ (cell_rbRight _ _ _ _) linkedR₁
    parts.absentR parts.distinctR) ?_
  rintro _ s₂ ⟨linkedR₂, ⟨p, cellB₂⟩, touches₂⟩
  have different : layout.addr a ≠ layout.addr b := by
    intro same
    exact parts.absentR (same ▸ parts.memberB)
  rw [wp_bind]
  refine wp_mono _ _ _ s₂ (eraseTakeOver_spec s₂ a b l (plug lefts c) _ _ p
    ((touches₂.cell _ parts.absentR).trans cellA₁) cellB₂ (touches₂.linked _ l parts.apartL linkedL₁)
    nonemptyL parts.distinctL (fun member => parts.apartL _ member parts.memberB) different) ?_
  rintro _ s₃ ⟨cellB₃, linkedL₃, touches₃⟩
  have shape : plug (lefts ++ ⟨.right, b.paint a.color, l⟩ :: up) c =
      plug up (.node (b.paint a.color) l (plug lefts c)) := by
    rw [plug_append]
    rfl
  refine ⟨lefts, b, c, rfl, left, ?_, ?_⟩
  · rw [parts.top]
  · rw [shape]
    exact parts.stored stored around₁ keeps₁ brk₁ glob₁ linkedR₂ touches₂ cellB₃ linkedL₃ touches₃

/-- What is left for the repair once a node is out: nothing if its place was red, and
a lack of one black node if it was black. `rest` are the nodes that stay. -/
def Unlinked (e : Env E D) (rest : List (Nat × D)) : Ptr × Ptr × Nat → State E D → Prop
  | (child, parent, color), s => ∃ up c tone, child = layout.root c ∧ parent = layout.top none up ∧
      color = bit tone ∧ Stored e s (plug up c) ∧ row Label.core (plug up c) = rest ∧
      (tone = .red → IsRedBlack Label.color (plug up c)) ∧
      (tone = .black → ∃ n, ColoredTrail Label.color up (n + 1) ∧ Lacks Label.color c n)

theorem unlinked_of_stored (e : Env E D) (s : State E D) (up : Trail (Label D)) (d : Side) (b : Label D)
    (c : BinaryTree (Label D)) (n : Nat) (rest : List (Nat × D)) (stored : Stored e s (plug up c))
    (trail : ColoredTrail Label.color up n) (colored : Colored Label.color (join d b .nil c) n)
    (same : row Label.core (plug up c) = rest) :
    Unlinked e rest (layout.root c, layout.top none up, bit b.color) s :=
  ⟨up, c, b.color, rfl, rfl, rfl, stored, same, remove_red trail colored, remove_black trail colored⟩

def others (up : Trail (Label D)) (l r : BinaryTree (Label D)) : List (Nat × D) :=
  (before up).map Label.core ++ row Label.core l ++ row Label.core r ++ (after up).map Label.core

theorem eraseNode_spec (e : Env E D) (s : State E D) (up : Trail (Label D)) (a : Label D)
    (l r : BinaryTree (Label D)) (stored : Stored e s (plug up (.node a l r)))
    (whole : IsRedBlack Label.color (plug up (.node a l r))) :
    wp (eraseNode (some (layout.addr a))) (Unlinked (e.release (layout.addr a)
      (layout.cell a (layout.root l) (layout.root r) (layout.top none up))) (others up l r)) s := by
  obtain ⟨cellA, _⟩ := ((holds_plug s up _).mp stored.held).subtree
  simp only [eraseNode, wp_bind, wp_load, cellA, Option.some.injEq, exists_eq_left', cell_rbLeft,
    cell_rbRight, wp_ite]
  by_cases emptyL : l = .nil
  · subst emptyL
    rw [if_pos root_nil]
    obtain ⟨n, trail, colored, _⟩ := (isRedBlack_plug _ _ _).mp whole
    refine wp_mono _ _ _ s (eraseUnlink_spec e s up .left a r stored) ?_
    rintro _ s' ⟨rfl, stored'⟩
    exact unlinked_of_stored _ s' up .left a r n _ stored' trail colored (by simp [row_plug, others])
  rw [if_neg (by simpa [root_eq_none] using emptyL)]
  by_cases emptyR : r = .nil
  · subst emptyR
    rw [if_pos root_nil]
    obtain ⟨n, trail, colored, _⟩ := (isRedBlack_plug _ _ _).mp whole
    refine wp_mono _ _ _ s (eraseUnlink_spec e s up .right a l stored) ?_
    rintro _ s' ⟨rfl, stored'⟩
    exact unlinked_of_stored _ s' up .right a l n _ stored' trail colored (by simp [row_plug, others])
  rw [if_neg (by simpa [root_eq_none] using emptyR)]
  refine wp_mono _ _ _ s (eraseSplice_spec e s up a l r stored emptyL emptyR) ?_
  rintro _ s' ⟨lefts, b, c, rfl, left, rfl, stored'⟩
  have shape : plug up (.node a l (plug lefts (.node b .nil c))) =
      plug (lefts ++ ⟨.right, a, l⟩ :: up) (.node b .nil c) := by
    rw [plug_append]
    rfl
  rw [shape, isRedBlack_plug] at whole
  obtain ⟨n, trail, colored, _⟩ := whole
  refine unlinked_of_stored _ s' _ .left b c n _ stored' ?_ colored ?_
  · exact coloredTrail_relabel _ lefts up .right a (b.paint a.color) l n rfl trail
  · rw [plug_append, plug_cons]
    simp [row_plug, others, before_of_left lefts left, Frame.attach, join, Label.core, Label.paint]

theorem addrs_eq_row (t : BinaryTree (Label D)) :
    layout.addrs t = (row Label.core t).map Prod.fst := by
  simp only [Layout.addrs, row, List.map_map]
  rfl

theorem absent_of_others (s : State E D) (up : Trail (Label D)) (a : Label D)
    (l r t : BinaryTree (Label D)) (held : Holds layout s (plug up (.node a l r)))
    (rest : row Label.core t = others up l r) : layout.addr a ∉ layout.addrs t := by
  have distinct := held.distinct
  have split : layout.addrs (plug up (.node a l r)) =
      ((before up).map layout.addr ++ layout.addrs l) ++
        layout.addr a :: (layout.addrs r ++ (after up).map layout.addr) := by
    simp [Layout.addrs, inorder_plug]
  have left : layout.addrs t = ((before up).map layout.addr ++ layout.addrs l) ++
      (layout.addrs r ++ (after up).map layout.addr) := by
    rw [addrs_eq_row, rest, others, addrs_eq_row, addrs_eq_row]
    simp only [List.map_append, List.map_map, List.append_assoc]
    rfl
  rw [split] at distinct
  rw [left]
  exact (List.nodup_middle.mp distinct).notMem

/-- `rb_erase` of any node of a red-black tree leaves a red-black tree of the others. -/
theorem rbErase_spec (e : Env E D) (s : State E D) (up : Trail (Label D)) (a : Label D)
    (l r : BinaryTree (Label D)) (stored : Stored e s (plug up (.node a l r)))
    (whole : IsRedBlack Label.color (plug up (.node a l r))) :
    wp (rbErase (some (layout.addr a))) (fun _ s' => ∃ t, Stored (e.release (layout.addr a)
      (layout.cell a (layout.root l) (layout.root r) (layout.top none up))) s' t ∧
      IsRedBlack Label.color t ∧ row Label.core t = others up l r ∧
      layout.addr a ∉ layout.addrs t) s := by
  have absent (t : BinaryTree (Label D)) := absent_of_others s up a l r t stored.held
  refine wp_seq _ _ _ _ s (eraseNode_spec e s up a l r stored whole) ?_
  rintro ⟨_, _, _⟩ s₁ ⟨up₁, c, tone, rfl, rfl, rfl, stored₁, same₁, red, black⟩
  rw [wp_onlyIf]
  cases tone with
  | red => exact ⟨_, stored₁, red rfl, same₁, absent _ same₁⟩
  | black =>
      obtain ⟨n, trail, lacks⟩ := black rfl
      simp only [bit, decide_true, if_true]
      refine wp_mono _ _ _ s₁ (rbEraseColor_spec _ s₁ up₁ c n stored₁ trail lacks) ?_
      rintro _ s₂ ⟨t, stored₂, whole₂, same₂⟩
      exact ⟨t, stored₂, whole₂, same₂.trans same₁, absent _ (same₂.trans same₁)⟩

end DataStructure.RbTree
