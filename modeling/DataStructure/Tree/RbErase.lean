import DataStructure.Tree.RbInsert

/-! The repair of a red-black tree after a removal. -/

namespace DataStructure.RbTree

open DataStructure.Program DataStructure.Heap DataStructure.Zipper DataStructure.LinkedTree
  DataStructure.KeyedTree DataStructure.RedBlack

variable {E D : Type}

theorem colored_join_of_succ (d : Side) (t : BinaryTree (Label D)) (n : Nat)
    (colored : Colored Label.color t (n + 1)) : ∃ a x y, t = join d a x y := by
  cases t with
  | nil => simp at colored
  | node a l r => exact ⟨a, _, _, (join_pick d a l r).symm⟩

theorem red_join (d : Side) (t : BinaryTree (Label D)) (red : tint Label.color t = .red) :
    ∃ a x y, t = join d a x y ∧ a.color = .red := by
  cases t with
  | nil => simp at red
  | node a l r => exact ⟨a, _, _, (join_pick d a l r).symm, red⟩

theorem cells_of_frame (e : Env E D) (s : State E D) (d : Side) (P S : Label D)
    (near far t : BinaryTree (Label D)) (up : Trail (Label D))
    (stored : Stored e s (plug (⟨d, P, join d S near far⟩ :: up) t)) :
    s.cell (layout.addr P) =
        some (layout.side d P (layout.root t) (some (layout.addr S)) (layout.top none up)) ∧
      s.cell (layout.addr S) =
        some (layout.side d S (layout.root near) (layout.root far) (some (layout.addr P))) ∧
      layout.Linked s.cell (some (layout.addr S)) near ∧
      layout.Linked s.cell (some (layout.addr S)) far := by
  obtain ⟨cellP, other, _⟩ := ((holds_plug s _ t).mp stored.held).around
  obtain ⟨cellS, linkedNear, linkedFar⟩ := (linked_join _ _ _ _ _ _).mp other
  exact ⟨by simpa using cellP, cellS, linkedNear, linkedFar⟩

/-- After the first part of the loop body the sibling is black. -/
theorem eraseSibling_spec (e : Env E D) (s : State E D) (d : Side) (P : Label D)
    (S t : BinaryTree (Label D)) (up : Trail (Label D)) (n : Nat)
    (stored : Stored e s (plug (⟨d, P, S⟩ :: up) t))
    (trail : ColoredTrail Label.color (⟨d, P, S⟩ :: up) (n + 1)) :
    wp (eraseSibling d (some (layout.addr P))) (fun q s' => ∃ P' S' up',
      layout.addr P' = layout.addr P ∧ q = layout.root S' ∧
      Stored e s' (plug (⟨d, P', S'⟩ :: up') t) ∧
      ColoredTrail Label.color (⟨d, P', S'⟩ :: up') (n + 1) ∧ tint Label.color S' = .black ∧
      row Label.core (plug (⟨d, P', S'⟩ :: up') t) = row Label.core (plug (⟨d, P, S⟩ :: up) t) ∧
      (P'.color = .red ∨ up' = up)) s := by
  obtain ⟨So, near, far, rfl⟩ := colored_join_of_succ d S n trail.1
  obtain ⟨cellP, cellS, _⟩ := cells_of_frame e s d P So near far t up stored
  simp only [eraseSibling, wp_bind, wp_load, cellP, cellS, Option.some.injEq, exists_eq_left',
    side_child_flip, side_rbIsRed, decide_eq_true_eq, wp_ite]
  by_cases red : So.color = .red
  · rw [if_pos red]
    have sibling : Stored e s (plug (⟨d.flip, P, t⟩ :: up) (join d So near far)) := by
      simpa [Frame.attach, join_flip] using stored
    refine wp_mono _ _ _ s (setBlack_spec e s _ d So near far sibling) ?_
    intro _ s₁ stored₁
    have parent : Stored e s₁ (plug up (join d P t (join d (So.paint .black) near far))) := by
      simpa [Frame.attach, join_flip] using stored₁
    refine wp_seq _ _ _ _ s₁ (setRed_spec e s₁ up d P _ _ parent) ?_
    intro _ s₂ stored₂
    have leaning : Stored e s₂ (plug up (join d.flip (P.paint .red)
        (join d.flip (So.paint .black) far near) t)) := by
      simpa [join_flip] using stored₂
    refine wp_seq _ _ _ _ s₂ (rotate_spec e s₂ up d.flip (P.paint .red) (So.paint .black) far near t leaning) ?_
    intro _ s₃ stored₃
    have raised : Stored e s₃ (plug (⟨d, P.paint .red, near⟩ :: ⟨d, So.paint .black, far⟩ :: up) t) := by
      simpa [Frame.attach, join_flip] using stored₃
    obtain ⟨trail₃, black⟩ := erase_raise trail red (color_paint P .red)
      (color_paint So .black)
    obtain ⟨cellP₃, _⟩ := ((holds_plug s₃ _ t).mp raised.held).around
    have address : layout.addr (P.paint .red) = layout.addr P := rfl
    rw [address] at cellP₃
    simp only [wp_bind, wp_load, cellP₃, Option.some.injEq, exists_eq_left', side_child_flip, wp_pure]
    refine ⟨P.paint .red, near, _, rfl, rfl, raised, trail₃, black, ?_, Or.inl rfl⟩
    simp only [plug_cons]
    apply row_plug_congr
    cases d <;> simp [Frame.attach, join, Label.core, Label.paint]
  · rw [if_neg red]
    exact ⟨P, _, up, rfl, (root_join _ _ _ _).symm, stored, trail,
      by simpa using Color.ne_red.mp red, rfl, Or.inr rfl⟩

/-- After the second part the far nephew is red. -/
theorem eraseNephew_spec (e : Env E D) (s : State E D) (d : Side) (P S : Label D)
    (near far t : BinaryTree (Label D)) (up : Trail (Label D)) (n : Nat)
    (stored : Stored e s (plug (⟨d, P, join d S near far⟩ :: up) t))
    (trail : ColoredTrail Label.color (⟨d, P, join d S near far⟩ :: up) (n + 1))
    (black : S.color = .black)
    (nephew : tint Label.color near = .red ∨ tint Label.color far = .red) :
    wp (eraseNephew d (some (layout.addr P)) (some (layout.addr S))) (fun q s' => ∃ M inner F x y,
      q = some (layout.addr M) ∧
      Stored e s' (plug (⟨d, P, join d M inner (join d F x y)⟩ :: up) t) ∧
      ColoredTrail Label.color (⟨d, P, join d M inner (join d F x y)⟩ :: up) (n + 1) ∧
      M.color = .black ∧ F.color = .red ∧
      row Label.core (plug (⟨d, P, join d M inner (join d F x y)⟩ :: up) t) =
        row Label.core (plug (⟨d, P, join d S near far⟩ :: up) t)) s := by
  obtain ⟨_, cellS, _, linkedFar⟩ := cells_of_frame e s d P S near far t up stored
  simp only [eraseNephew, wp_bind, wp_load, cellS, Option.some.injEq, exists_eq_left', side_child_flip]
  rw [wp_isRedAt s _ _ linkedFar]
  by_cases red : tint Label.color far = .red
  · simp only [red, decide_true, if_true, wp_pure]
    obtain ⟨F, x, y, rfl, redF⟩ := red_join d far red
    exact ⟨S, near, F, x, y, rfl, stored, trail, black, redF, rfl⟩
  · obtain ⟨U, x, y, rfl, redU⟩ := red_join d near (nephew.resolve_right red)
    simp only [red, decide_false, Bool.false_eq_true, if_false, wp_bind, wp_load, cellS,
      Option.some.injEq, exists_eq_left', side_child, root_join]
    have inner : Stored e s (plug (⟨d, S, far⟩ :: ⟨d.flip, P, t⟩ :: up) (join d U x y)) := by
      simpa [Frame.attach, join_flip] using stored
    refine wp_mono _ _ _ s (setBlack_spec e s _ d U x y inner) ?_
    intro _ s₁ stored₁
    refine wp_seq _ _ _ _ s₁ (setRed_spec e s₁ (⟨d.flip, P, t⟩ :: up) d S _ far stored₁) ?_
    intro _ s₂ stored₂
    refine wp_seq _ _ _ _ s₂ (rotate_spec e s₂ _ d (S.paint .red) (U.paint .black) x y far stored₂) ?_
    intro _ s₃ stored₃
    have raised : Stored e s₃ (plug (⟨d, P, join d (U.paint .black) x (join d (S.paint .red) y far)⟩ :: up) t) := by
      simpa [Frame.attach, join_flip] using stored₃
    obtain ⟨cellP₃, _⟩ := cells_of_frame e s₃ d P _ _ _ t up raised
    simp only [wp_bind, wp_load, cellP₃, Option.some.injEq, exists_eq_left', side_child_flip, wp_pure]
    refine ⟨U.paint .black, x, S.paint .red, y, far, rfl, raised,
      erase_inner trail black redU (Color.ne_red.mp red) rfl rfl, rfl, rfl, ?_⟩
    simp only [plug_cons]
    apply row_plug_congr
    cases d <;> simp [Frame.attach, join, Label.core, Label.paint]

theorem eraseFinish_spec (e : Env E D) (s : State E D) (d : Side) (P M F : Label D)
    (inner x y t : BinaryTree (Label D)) (up : Trail (Label D))
    (stored : Stored e s (plug (⟨d, P, join d M inner (join d F x y)⟩ :: up) t)) :
    wp (eraseFinish d (some (layout.addr P)) (some (layout.addr M))) (fun _ s' =>
      Stored e s' (plug up (join d (M.paint P.color) (join d (P.paint .black) t inner)
        (join d (F.paint .black) x y)))) s := by
  obtain ⟨cellP, _⟩ := cells_of_frame e s d P M inner _ t up stored
  simp only [eraseFinish, wp_bind, wp_load, cellP, Option.some.injEq, exists_eq_left', side_rbColor]
  have sibling : Stored e s (plug (⟨d.flip, P, t⟩ :: up) (join d M inner (join d F x y))) := by
    simpa [Frame.attach, join_flip] using stored
  refine wp_mono _ _ _ s (wp_paint e s _ d M _ _ P.color _
    (fun _ => setColor_side _ _ _ _ _ _) sibling) ?_
  intro _ s₁ stored₁
  have parent : Stored e s₁ (plug up (join d P t (join d (M.paint P.color) inner (join d F x y)))) := by
    simpa [Frame.attach, join_flip] using stored₁
  refine wp_seq _ _ _ _ s₁ (setBlack_spec e s₁ up d P _ _ parent) ?_
  intro _ s₂ stored₂
  obtain ⟨_, cellM₂, _⟩ := cells_of_frame e s₂ d (P.paint .black) (M.paint P.color) inner _ t up stored₂
  have address : layout.addr (M.paint P.color) = layout.addr M := rfl
  rw [address] at cellM₂
  simp only [wp_bind, wp_load, cellM₂, Option.some.injEq, exists_eq_left', side_child_flip, root_join]
  have nephew : Stored e s₂ (plug (⟨d.flip, M.paint P.color, inner⟩ :: ⟨d.flip, P.paint .black, t⟩ :: up)
      (join d F x y)) := by
    simpa [Frame.attach, join_flip] using stored₂
  refine wp_mono _ _ _ s₂ (setBlack_spec e s₂ _ d F x y nephew) ?_
  intro _ s₃ stored₃
  have leaning : Stored e s₃ (plug up (join d.flip (P.paint .black)
      (join d.flip (M.paint P.color) (join d (F.paint .black) x y) inner) t)) := by
    simpa [Frame.attach, join_flip] using stored₃
  refine wp_mono _ _ _ s₃ (rotate_spec e s₃ up d.flip (P.paint .black) (M.paint P.color) _ inner t leaning) ?_
  intro _ s₄ stored₄
  simpa [join_flip] using stored₄

/-- What the loop body leaves behind: a lack of one black node nearer to the root, or
a red-black tree. -/
def Repaired (e : Env E D) (whole : BinaryTree (Label D)) (up : Trail (Label D)) :
    Ptr × Bool → State E D → Prop
  | (q, true), s => ∃ up' t n, Stored e s (plug up' t) ∧ q = layout.root t ∧
      ColoredTrail Label.color up' (n + 1) ∧ Lacks Label.color t n ∧ t ≠ .nil ∧
      row Label.core (plug up' t) = row Label.core whole ∧ (tint Label.color t = .red ∨ up' = up)
  | (q, false), s => ∃ t, Stored e s t ∧ q = layout.root t ∧ IsRedBlack Label.color t ∧
      row Label.core t = row Label.core whole

theorem eraseStep_spec (e : Env E D) (s : State E D) (d : Side) (P : Label D)
    (S t : BinaryTree (Label D)) (up : Trail (Label D)) (n : Nat)
    (stored : Stored e s (plug (⟨d, P, S⟩ :: up) t))
    (trail : ColoredTrail Label.color (⟨d, P, S⟩ :: up) (n + 1)) (focus : Colored Label.color t n) :
    wp (eraseStep d (some (layout.addr P))) (Repaired e (plug (⟨d, P, S⟩ :: up) t) up) s := by
  refine wp_seq _ _ _ _ s (eraseSibling_spec e s d P S t up n stored trail) ?_
  rintro _ s₁ ⟨P₁, S₁, up₁, address, rfl, stored₁, trail₁, black, same₁, nearer⟩
  obtain _ | ⟨So, l, r⟩ := S₁
  · obtain ⟨_, _, _, empty⟩ := colored_join_of_succ d _ n trail₁.1
    exact absurd empty.symm (join_ne_nil _ _ _ _)
  have shape := join_pick d So l r
  obtain ⟨_, ⟨cellS, linkedL, linkedR⟩, _⟩ := ((holds_plug s₁ _ t).mp stored₁.held).around
  simp only [root_node, wp_bind, wp_load, cellS, Option.some.injEq, exists_eq_left', cell_rbLeft]
  rw [wp_isRedAt s₁ _ _ linkedL]
  simp only [wp_bind, wp_load, cellS, Option.some.injEq, exists_eq_left', cell_rbRight]
  rw [wp_isRedAt s₁ _ _ linkedR]
  rw [tint_node] at black
  rw [← shape] at stored₁ trail₁ same₁
  rw [← address]
  by_cases both : tint Label.color (d.pick l r) = .black ∧ tint Label.color (d.flip.pick l r) = .black
  · have none : tint Label.color l = .black ∧ tint Label.color r = .black := by
      cases d
      · exact both
      · exact both.symm
    simp only [none, reduceCtorEq, decide_false, Bool.not_false, Bool.and_self, if_true]
    have sibling : Stored e s₁ (plug (⟨d.flip, P₁, t⟩ :: up₁)
        (join d So (d.pick l r) (d.flip.pick l r))) := by
      simpa only [plug_cons, Frame.attach, join_flip] using stored₁
    refine wp_seq _ _ _ _ s₁ (setRed_spec e s₁ _ d So _ _ sibling) ?_
    intro _ s₂ stored₂
    obtain ⟨m, outside, lacks⟩ := erase_recolor trail₁ focus black both.1 both.2
      (color_paint So .red)
    refine ⟨up₁, _, m, by simpa only [plug_cons, Frame.attach, join_flip] using stored₂,
      (root_join _ _ _ _).symm, outside, lacks, join_ne_nil _ _ _ _, ?_, ?_⟩
    · rw [← same₁, plug_cons]
      exact row_plug_congr _ _ _ _ (row_join _ _ _ _ _ _ _ rfl rfl (row_join _ _ _ _ _ _ _ rfl rfl rfl))
    · simpa using nearer
  · have some : tint Label.color (d.pick l r) = .red ∨ tint Label.color (d.flip.pick l r) = .red := by
      by_contra neither
      simp only [not_or, ← ne_eq, Color.ne_red] at neither
      exact both neither
    have either : (!decide (tint Label.color l = .red) && !decide (tint Label.color r = .red)) = false := by
      cases d <;> rcases some with red | red <;> simp only [Side.pick, Side.flip] at red <;> simp [red]
    simp only [either, Bool.false_eq_true, if_false]
    refine wp_seq _ _ _ _ s₁ (eraseNephew_spec e s₁ d P₁ So _ _ t up₁ n stored₁ trail₁ black some) ?_
    rintro _ s₂ ⟨M, inner, F, x, y, rfl, stored₂, trail₂, blackM, redF, same₂⟩
    refine wp_seq _ _ _ _ s₂ (eraseFinish_spec e s₂ d P₁ M F inner x y t up₁ stored₂) ?_
    intro _ s₃ stored₃
    simp only [readRoot, wp_bind, wp_readGlob, wp_pure, stored₃.glob]
    refine ⟨_, stored₃, rfl, erase_outer trail₂ focus blackM redF rfl rfl rfl, ?_⟩
    rw [← same₁, ← same₂]
    simp only [plug_cons]
    apply row_plug_congr
    cases d <;> simp [Frame.attach, join, Label.core, Label.paint]

def blacken : BinaryTree (Label D) → BinaryTree (Label D)
  | .nil => .nil
  | .node a l r => .node (a.paint .black) l r

theorem row_blacken (t : BinaryTree (Label D)) : row Label.core (blacken t) = row Label.core t := by
  cases t with
  | nil => rfl
  | node a l r => exact row_join .left _ _ _ _ _ _ rfl rfl rfl

theorem isRedBlack_blacken (t : BinaryTree (Label D)) (n : Nat) (colored : Colored Label.color t n) :
    IsRedBlack Label.color (blacken t) := by
  rw [isRedBlack_iff]
  cases t with
  | nil => exact ⟨rfl, n, colored⟩
  | node a l r => exact ⟨rfl, colored_blacken (d := .left) colored rfl⟩

theorem blacken_of_black (t : BinaryTree (Label D)) (black : tint Label.color t = .black) :
    blacken t = t := by
  cases t with
  | nil => rfl
  | node a l r =>
      rw [tint_node] at black
      rw [blacken, Label.paint, ← black]

/-- What the loop ends with: painting `node` black completes the repair. -/
def Mended (e : Env E D) (whole : BinaryTree (Label D)) (q : Ptr) (s : State E D) : Prop :=
  ∃ up t, Stored e s (plug up t) ∧ q = layout.root t ∧
    IsRedBlack Label.color (plug up (blacken t)) ∧ row Label.core (plug up t) = row Label.core whole

theorem eraseLoop_red (e : Env E D) (fuel : Nat) (s : State E D) (up : Trail (Label D))
    (t : BinaryTree (Label D)) (n : Nat) (p : Ptr) (stored : Stored e s (plug up t))
    (trail : ColoredTrail Label.color up (n + 1)) (lacks : Lacks Label.color t n)
    (red : tint Label.color t = .red) (enough : 0 < fuel) :
    wp (eraseLoop fuel (layout.root t) p) (Mended e (plug up t)) s := by
  obtain _ | fuel := fuel
  · omega
  simp only [eraseLoop, wp_bind]
  rw [wp_isRedAt s _ t ((holds_plug s up t).mp stored.held).subtree]
  simp only [red, readRoot, wp_bind, wp_readGlob, wp_pure, decide_true, Bool.not_true,
    Bool.false_and, Bool.false_eq_true, if_false]
  refine ⟨up, t, stored, rfl, ?_, rfl⟩
  cases t with
  | nil => simp at red
  | node a l r => exact erase_blacken (d := .left) trail lacks red rfl

theorem root_whole_ne (s : State E D) (f : Frame (Label D)) (up : Trail (Label D))
    (t : BinaryTree (Label D)) (focus : Focus layout s (f :: up) t) :
    layout.root t ≠ layout.root (plug (f :: up) t) := by
  obtain ⟨a, member, pointed⟩ := root_plug_mem (L := layout) f up t
  rw [pointed]
  intro same
  exact (List.nodup_append'.mp focus.distinct).2.2 member (root_mem_addrs t a same)

theorem eraseLoop_spec (e : Env E D) (fuel : Nat) (s : State E D) (up : Trail (Label D))
    (t : BinaryTree (Label D)) (n : Nat) (stored : Stored e s (plug up t))
    (trail : ColoredTrail Label.color up (n + 1)) (lacks : Lacks Label.color t n)
    (enough : up.length < fuel) :
    wp (eraseLoop fuel (layout.root t) (layout.top none up)) (Mended e (plug up t)) s := by
  induction fuel generalizing s up t n with
  | zero => omega
  | succ fuel ih =>
      by_cases red : tint Label.color t = .red
      · exact eraseLoop_red e _ s up t n _ stored trail lacks red (by omega)
      have black := Color.ne_red.mp red
      have colored := (lacks_black _ _ _ black).mp lacks
      simp only [eraseLoop, wp_bind]
      rw [wp_isRedAt s _ t ((holds_plug s up t).mp stored.held).subtree]
      simp only [red, readRoot, wp_bind, wp_readGlob, wp_pure, decide_false, Bool.not_false,
        Bool.true_and, stored.glob]
      cases up with
      | nil =>
          simp only [plug_nil, ne_eq, not_true_eq_false, decide_false, Bool.false_eq_true, if_false]
          exact ⟨[], t, stored, rfl, isRedBlack_blacken t n colored, rfl⟩
      | cons f up =>
          have focus := (holds_plug s (f :: up) t).mp stored.held
          have inside := root_whole_ne s f up t focus
          obtain ⟨cellP, _⟩ := focus.around
          have sibling : f.other ≠ .nil := by
            obtain ⟨_, _, _, shape⟩ := colored_join_of_succ .left _ n trail.1
            rw [shape]
            exact join_ne_nil _ _ _ _
          have apart := root_ne_of_focus s f up t (Or.inr sibling) focus
          simp only [inside, ne_eq, not_false_eq_true, decide_true, if_true, wp_bind, wp_load, top_cons,
            cellP, Option.some.injEq, exists_eq_left', sideOf_side f _ _ apart]
          refine wp_mono _ _ _ s (eraseStep_spec e s f.side f.label f.other t up n stored trail colored) ?_
          rintro ⟨q, more⟩ s₁ repaired
          cases more with
          | false =>
              obtain ⟨t₁, stored₁, rfl, whole, same⟩ := repaired
              simp only [Bool.false_eq_true, if_false, wp_pure]
              exact ⟨[], t₁, stored₁, rfl, by rwa [plug_nil, blacken_of_black _ whole.rootBlack], same⟩
          | true =>
              obtain ⟨up₁, t₁, m, stored₁, rfl, trail₁, lacks₁, nonempty, same, nearer⟩ := repaired
              obtain _ | ⟨a, l, r⟩ := t₁
              · exact absurd rfl nonempty
              simp only [if_true, root_node, wp_bind, wp_load,
                ((holds_plug s₁ up₁ _).mp stored₁.held).subtree.1, Option.some.injEq, exists_eq_left',
                cell_rbParent]
              simp only [List.length_cons] at enough
              have rest : wp (eraseLoop fuel (layout.root (.node a l r)) (layout.top none up₁))
                  (Mended e (plug up₁ (.node a l r))) s₁ := by
                rcases nearer with red₁ | rfl
                · exact eraseLoop_red e fuel s₁ up₁ _ m _ stored₁ trail₁ lacks₁ red₁ (by omega)
                · exact ih s₁ up₁ _ m stored₁ trail₁ lacks₁ (by omega)
              refine wp_mono _ _ _ s₁ rest ?_
              rintro q s₂ ⟨up₂, t₂, stored₂, pointed, whole, same₂⟩
              exact ⟨up₂, t₂, stored₂, pointed, whole, same₂.trans same⟩

/-- `__rb_erase_color` turns a tree that lacks one black node at the focus into a
red-black tree. -/
theorem rbEraseColor_spec (e : Env E D) (s : State E D) (up : Trail (Label D)) (t : BinaryTree (Label D))
    (n : Nat) (stored : Stored e s (plug up t)) (trail : ColoredTrail Label.color up (n + 1))
    (lacks : Lacks Label.color t n) :
    wp (rbEraseColor (layout.root t) (layout.top none up)) (fun _ s' => ∃ t', Stored e s' t' ∧
      IsRedBlack Label.color t' ∧ row Label.core t' = row Label.core (plug up t)) s := by
  have deep := trail_length_le up t
  have large := stored.held.numNodes_le
  simp only [rbEraseColor, wp_bind, wp_cells]
  refine wp_mono _ _ _ s (eraseLoop_spec e _ s up t n stored trail lacks (by omega)) ?_
  rintro _ s₁ ⟨up₁, t₁, stored₁, rfl, whole, same⟩
  rw [wp_onlyIf]
  obtain _ | ⟨a, l, r⟩ := t₁
  · exact ⟨_, stored₁, whole, same⟩
  · simp only [root_node, Option.isSome_some, if_true]
    refine wp_mono _ _ _ s₁ (setBlack_spec e s₁ up₁ .left a l r stored₁) ?_
    intro _ s₂ stored₂
    refine ⟨_, stored₂, whole, ?_⟩
    rw [← same]
    exact row_plug_congr _ _ _ _ (row_blacken (.node a l r))

end DataStructure.RbTree
