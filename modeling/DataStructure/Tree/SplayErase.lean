import DataStructure.Tree.SplayOps

/-! Removal of the root: the two subtrees are joined by hand. -/

namespace DataStructure.Splay

open DataStructure.Program DataStructure.Heap DataStructure.Zipper DataStructure.LinkedTree

theorem rightmost_spec (fuel : Nat) (s : State) (p : Ptr) (l : BinaryTree Label)
    (linked : layout.Linked s.cell p l) (nonempty : l ≠ .nil)
    (enough : (inorder l).length ≤ fuel) :
    wp (rightmost fuel (layout.root l)) (fun q s' => s' = s ∧
      ∃ P, (inorder l).getLast? = some P ∧ q = some (layout.addr P)) s := by
  induction l generalizing fuel p with
  | nil => exact absurd rfl nonempty
  | node a x y _ ih =>
      obtain ⟨cellA, _, right⟩ := linked
      obtain _ | fuel := fuel
      · simp at enough
      simp only [inorder_node, List.length_append, List.length_cons] at enough
      simp only [rightmost, root_node, wp_bind, wp_load, cellA, Option.some.injEq,
        exists_eq_left', cell_r, wp_ite]
      by_cases empty : y = .nil
      · subst empty
        rw [if_neg (by simp)]
        exact ⟨rfl, a, by simp, rfl⟩
      · rw [if_pos (by simpa [root_eq_none] using empty)]
        refine wp_mono _ _ _ s (ih fuel _ right empty (by omega)) ?_
        rintro q s' ⟨kept, P, last, pointed⟩
        refine ⟨kept, P, ?_, pointed⟩
        rw [inorder_node, List.getLast?_append, List.getLast?_cons, last]
        simp

theorem replaceRoot_spec (s : State) (N : Label) (p : Ptr) (t : BinaryTree Label)
    (linked : layout.Linked s.cell p t) (distinct : (layout.addrs t).Nodup)
    (allocated : ∀ a ∈ layout.addrs t, a < s.brk) (nonempty : t ≠ .nil)
    (live : ∃ n, s.cell (layout.addr N) = some n) (outside : layout.addr N ∉ layout.addrs t) :
    wp (replaceRoot (some (layout.addr N)) (layout.root t)) (fun result s' =>
      result = 1 ∧ Holds layout s' t ∧ s'.glob.root = layout.root t) s := by
  cases t with
  | nil => exact absurd rfl nonempty
  | node a l r =>
      have ne : layout.addr N ≠ layout.addr a := by
        intro same
        exact outside (by simp [same])
      obtain ⟨n, cellN⟩ := live
      simp only [replaceRoot, wp_bind, wp_writeGlob, wp_readGlob, root_node, wp_assign, linked.1,
        Option.some.injEq, exists_eq_left', wp_free, wp_pure]
      refine ⟨⟨n, (Store.put_cell_of_ne _ _ _ _ ne).trans cellN⟩, trivial, ?_, rfl⟩
      have moved := linked_reparent s a l r p none linked distinct
      refine Holds.frame ⟨moved, distinct, allocated⟩ ?_ (le_refl _)
      intro b member
      exact Function.update_of_ne (by rintro rfl; exact outside member) _ _

/-- The right subtree `r` of the root is hung below the last node of the left one. -/
theorem hangLast_spec (s : State) (N P : Label) (l r : BinaryTree Label)
    (held : Holds layout s (.node N l r)) (last : (inorder l).getLast? = some P) :
    wp (onlyIf (layout.root r).isSome do
      assign (some (layout.addr P)) fun n => { n with r := layout.root r }
      assign (layout.root r) fun n => { n with p := some (layout.addr P) })
      (fun _ s' => layout.Linked s'.cell (some (layout.addr N)) (hangLast l r) ∧
        s'.cell (layout.addr N) = s.cell (layout.addr N) ∧ s'.brk = s.brk) s := by
  obtain ⟨cellN, linkedL, linkedR⟩ := held.linked
  have distinct := held.distinct
  simp only [addrs_node, List.nodup_append', List.nodup_cons, List.disjoint_cons_right] at distinct
  obtain ⟨distinctL, ⟨absentR, distinctR⟩, absentL, disjoint⟩ := distinct
  have memberP : layout.addr P ∈ layout.addrs l := List.mem_map_of_mem (List.mem_of_getLast? last)
  rw [wp_onlyIf]
  cases r with
  | nil =>
      rw [hangLast_nil]
      exact ⟨linkedL, rfl, rfl⟩
  | node b u w =>
      obtain ⟨_, _, _, cellP⟩ := linked_live _ _ _ P linkedL (List.mem_of_getLast? last)
      have apartB (a : Nat) (member : a ∈ layout.addrs l) : a ≠ layout.addr b := by
        rintro rfl
        exact disjoint member (by simp)
      have apartP : layout.addr b ≠ layout.addr P := (apartB _ memberP).symm
      simp only [root_node, Option.isSome_some, if_true, wp_bind, wp_assign, cellP,
        Option.some.injEq, exists_eq_left', Store.put_cell_of_ne _ _ _ _ apartP, linkedR.1]
      have outsideP : layout.addr P ∉ layout.addrs (.node b u w) := fun member => disjoint memberP member
      refine ⟨?_, ?_, rfl⟩
      · refine linked_hangLast s.cell _ _ l (.node b u w) P (fun n => { n with r := layout.root (.node b u w) })
          (fun _ _ _ _ => rfl) last distinctL linkedL ?_ ?_ ?_
        · rw [Store.put_cell_of_ne _ _ _ _ apartP.symm, Store.put_cell_self, cellP]
          rfl
        · intro a member away
          rw [Store.put_cell_of_ne _ _ _ _ (apartB a member), Store.put_cell_of_ne _ _ _ _ away]
        · exact linked_reparent _ b u w (some (layout.addr N)) _
            ((linked_put _ _ _ _ _ outsideP).mpr linkedR) distinctR
      · have ne : layout.addr N ≠ layout.addr b := by
          intro same
          exact absentR (by simp [same])
        have neP : layout.addr N ≠ layout.addr P := by
          intro same
          exact absentL (same ▸ memberP)
        rw [Store.put_cell_of_ne _ _ _ _ ne, Store.put_cell_of_ne _ _ _ _ neP]

theorem eraseRoot_spec (s : State) (N : Label) (l r : BinaryTree Label)
    (held : Holds layout s (.node N l r)) (more : l ≠ .nil ∨ r ≠ .nil) :
    wp (eraseRoot (some (layout.addr N))) (fun result s' => result = 1 ∧
      ∃ t, Holds layout s' t ∧ inorder t = inorder l ++ inorder r ∧
        s'.glob.root = layout.root t) s := by
  obtain ⟨cellN, linkedL, linkedR⟩ := held.linked
  have distinct := held.distinct
  simp only [addrs_node, List.nodup_append', List.nodup_cons, List.disjoint_cons_right] at distinct
  obtain ⟨distinctL, ⟨absentR, distinctR⟩, absentL, disjoint⟩ := distinct
  simp only [eraseRoot, wp_bind, wp_load, cellN, Option.some.injEq, exists_eq_left', cell_l, cell_r,
    wp_ite]
  by_cases empty : l = .nil
  · subst empty
    have nonempty : r ≠ .nil := by simpa using more
    rw [if_pos root_nil]
    refine wp_mono _ _ _ _ (replaceRoot_spec s N _ r linkedR distinctR
      (fun a member => held.allocated a (by simp [member])) nonempty ⟨_, cellN⟩ absentR) ?_
    rintro result s' ⟨one, held', rooted⟩
    exact ⟨one, r, held', rfl, rooted⟩
  · rw [if_neg (by simpa [root_eq_none] using empty)]
    have size := held.numNodes_le
    simp only [inorder_node, List.length_append, List.length_cons] at size
    simp only [wp_bind, wp_cells]
    refine wp_mono _ _ _ s (rightmost_spec s.brk s _ l linkedL empty (by omega)) ?_
    rintro q s₀ ⟨kept, P, last, rfl⟩
    subst s₀
    simp only [wp_bind, wp_load, cellN, Option.some.injEq, exists_eq_left', cell_r]
    refine wp_mono _ _ _ s (hangLast_spec s N P l r held last) ?_
    rintro _ s₁ ⟨linked₁, cellN₁, brk₁⟩
    simp only [wp_bind, wp_load, cellN₁, cellN, Option.some.injEq, exists_eq_left', cell_l]
    rw [← root_hangLast l r empty]
    have addrs := addrs_hangLast (L := layout) l r
    refine wp_mono _ _ _ s₁ (replaceRoot_spec s₁ N _ (hangLast l r) linked₁ ?_ ?_ ?_ ?_ ?_) ?_
    · rw [addrs]
      exact List.nodup_append'.mpr ⟨distinctL, distinctR, disjoint⟩
    · rw [addrs, brk₁]
      intro a member
      exact held.allocated a (by simpa using Or.imp_right Or.inr (List.mem_append.mp member))
    · intro nothing
      exact empty ((root_eq_none (L := layout) l).mp (by rw [← root_hangLast l r empty, nothing]; rfl))
    · exact ⟨_, cellN₁.trans cellN⟩
    · simp [addrs, absentL, absentR]
    · rintro result s' ⟨one, held', rooted⟩
      exact ⟨one, _, held', inorder_hangLast l r, rooted⟩

end DataStructure.Splay
