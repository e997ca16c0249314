import DataStructure.Tree.RbTree

/-! The repair of a red-black tree after an insertion. -/

namespace DataStructure.RbTree

open DataStructure.Program DataStructure.Heap DataStructure.Zipper DataStructure.LinkedTree
  DataStructure.KeyedTree DataStructure.RedBlack

variable {E D : Type}

/-- A red focus in a tree that breaks the invariant there at most. -/
def Rising (up : Trail (Label D)) (t : BinaryTree (Label D)) : Prop :=
  ∃ n, ColoredTrail Label.color up n ∧ Colored Label.color t n ∧ tint Label.color t = .red

theorem sideOf_side (f : Frame (Label D)) (q p : Ptr) (apart : layout.root f.other ≠ q) :
    (layout.side f.side f.label q (layout.root f.other) p).sideOf q = f.side := by
  obtain ⟨side, a, other⟩ := f
  cases side with
  | left => exact if_pos rfl
  | right => exact if_neg apart

theorem root_ne_of_focus (s : State E D) (f : Frame (Label D)) (up : Trail (Label D))
    (t : BinaryTree (Label D)) (nonempty : t ≠ .nil ∨ f.other ≠ .nil)
    (focus : Focus layout s (f :: up) t) : layout.root f.other ≠ layout.root t := by
  intro same
  cases pointed : layout.root t with
  | none =>
      rw [pointed, root_eq_none] at same
      rw [root_eq_none] at pointed
      simp [same, pointed] at nonempty
  | some a =>
      have inside : a ∈ layout.addrs f.other := root_mem_addrs _ _ (same.trans pointed)
      have around : a ∈ layout.trailAddrs (f :: up) := by simp [inside]
      exact (List.nodup_append'.mp focus.distinct).2.2 around (root_mem_addrs _ _ pointed)

theorem row_join (d : Side) (a b : Label D) (w x y z : BinaryTree (Label D))
    (label : a.core = b.core) (near : row Label.core w = row Label.core x)
    (far : row Label.core y = row Label.core z) :
    row Label.core (join d a w y) = row Label.core (join d b x z) := by
  cases d <;> simp [join, label, near, far]

theorem insertRotate_spec (e : Env E D) (s : State E D) (up : Trail (Label D)) (d : Side) (G T : Label D)
    (near far other : BinaryTree (Label D))
    (stored : Stored e s (plug up (join d G (join d T near far) other))) :
    wp (insertRotate d (some (layout.addr T)) (some (layout.addr G))) (fun _ s' =>
      Stored e s' (plug up (join d (T.paint .black) near (join d (G.paint .red) far other)))) s := by
  refine wp_seq _ _ _ _ s (setBlack_spec e s (⟨d, G, other⟩ :: up) d T near far stored) ?_
  intro _ s₁ stored₁
  refine wp_seq _ _ _ _ s₁ (setRed_spec e s₁ up d G _ other stored₁) ?_
  intro _ s₂ stored₂
  exact rotate_spec e s₂ up d (G.paint .red) (T.paint .black) near far other stored₂

section Step

variable (e : Env E D) (s : State E D) (up : Trail (Label D)) (d : Side) (P G : Label D)
  (S other t : BinaryTree (Label D))

def Raised (e : Env E D) (whole : BinaryTree (Label D)) (depth : Nat) (q : Ptr) (s : State E D) : Prop :=
  ∃ up t, Stored e s (plug up t) ∧ q = layout.root t ∧ Rising up t ∧
    row Label.core (plug up t) = row Label.core whole ∧ up.length < depth

theorem insertStep_recolor (side : Side) (U : Label D) (x y : BinaryTree (Label D))
    (stored : Stored e s (plug (⟨side, P, S⟩ :: ⟨d, G, join d U x y⟩ :: up) t))
    (rising : Rising (⟨side, P, S⟩ :: ⟨d, G, join d U x y⟩ :: up) t)
    (redP : P.color = .red) (redU : U.color = .red) :
    wp (insertStep d (layout.root t) (some (layout.addr P)) (some (layout.addr G)))
      (Raised e (plug (⟨side, P, S⟩ :: ⟨d, G, join d U x y⟩ :: up) t) (up.length + 2)) s := by
  obtain ⟨n, trail, focus, _⟩ := rising
  have upper : Stored e s (plug up (join d G (join side P t S) (join d U x y))) := stored
  obtain ⟨cellG, _, linkedU⟩ :=
    (linked_join _ _ _ _ _ _).mp ((holds_plug s up _).mp upper.held).subtree
  simp only [insertStep, wp_bind, wp_load, cellG, Option.some.injEq, exists_eq_left', side_child_flip]
  rw [wp_isRedAt s _ _ linkedU]
  simp only [tint_join, redU, decide_true, if_true, root_join]
  have uncle : Stored e s (plug (⟨d.flip, G, join side P t S⟩ :: up) (join d U x y)) := by
    simpa [Frame.attach, join_flip] using upper
  refine wp_seq _ _ _ _ s (setBlack_spec e s _ d U x y uncle) ?_
  intro _ s₁ stored₁
  have parent : Stored e s₁ (plug (⟨d, G, join d (U.paint .black) x y⟩ :: up) (join side P t S)) := by
    simpa [Frame.attach, join_flip] using stored₁
  refine wp_seq _ _ _ _ s₁ (setBlack_spec e s₁ _ side P t S parent) ?_
  intro _ s₂ stored₂
  refine wp_seq _ _ _ _ s₂ (setRed_spec e s₂ up d G _ _ stored₂) ?_
  intro _ s₃ stored₃
  obtain ⟨outside, colored⟩ := insert_recolor trail focus redP redU (color_paint P .black)
    (color_paint G .red) (color_paint U .black)
  refine ⟨up, _, stored₃, by simp; rfl, ⟨n + 1, outside, colored, by simp [Label.paint]⟩, ?_, by omega⟩
  exact row_plug_congr _ _ _ _ (row_join _ _ _ _ _ _ _ rfl
    (row_join _ _ _ _ _ _ _ rfl rfl rfl) (row_join _ _ _ _ _ _ _ rfl rfl rfl))

theorem insertStep_outer (stored : Stored e s (plug (⟨d, P, S⟩ :: ⟨d, G, other⟩ :: up) t))
    (rising : Rising (⟨d, P, S⟩ :: ⟨d, G, other⟩ :: up) t)
    (redP : P.color = .red) (blackO : tint Label.color other = .black) :
    wp (insertStep d (layout.root t) (some (layout.addr P)) (some (layout.addr G)))
      (Raised e (plug (⟨d, P, S⟩ :: ⟨d, G, other⟩ :: up) t) (up.length + 2)) s := by
  obtain ⟨n, trail, focus, red⟩ := rising
  have nonempty : t ≠ .nil := by
    rintro rfl
    simp at red
  have apart := root_ne_of_focus s _ _ t (Or.inl nonempty) ((holds_plug s _ t).mp stored.held)
  have upper : Stored e s (plug up (join d G (join d P t S) other)) := stored
  obtain ⟨cellG, ⟨cellP, _⟩, linkedO⟩ := by
    simpa only [linked_join] using ((holds_plug s up _).mp upper.held).subtree
  simp only [insertStep, wp_bind, wp_load, cellG, Option.some.injEq, exists_eq_left', side_child_flip]
  rw [wp_isRedAt s _ _ linkedO]
  simp only [blackO, reduceCtorEq, decide_false, Bool.false_eq_true, if_false, wp_bind, wp_load, cellP,
    Option.some.injEq, exists_eq_left', side_child_flip, apart]
  refine wp_mono _ _ _ s (insertRotate_spec e s up d G P t S other upper) ?_
  intro _ s₁ stored₁
  refine ⟨⟨d, P.paint .black, join d (G.paint .red) S other⟩ :: up, t, stored₁, rfl,
    ⟨n, insert_outer trail redP blackO rfl rfl, focus, red⟩, ?_, by simp⟩
  simp only [plug_cons]
  apply row_plug_congr
  cases d <;> simp [Frame.attach, join, Label.core, Label.paint]

theorem insertStep_inner (stored : Stored e s (plug (⟨d.flip, P, S⟩ :: ⟨d, G, other⟩ :: up) t))
    (rising : Rising (⟨d.flip, P, S⟩ :: ⟨d, G, other⟩ :: up) t)
    (redP : P.color = .red) (blackO : tint Label.color other = .black) :
    wp (insertStep d (layout.root t) (some (layout.addr P)) (some (layout.addr G)))
      (Raised e (plug (⟨d.flip, P, S⟩ :: ⟨d, G, other⟩ :: up) t) (up.length + 2)) s := by
  obtain ⟨n, trail, focus, red⟩ := rising
  obtain ⟨T, x, y, rfl⟩ : ∃ T x y, t = join d.flip T x y := by
    cases t with
    | nil => simp at red
    | node T l r => exact ⟨T, _, _, (join_pick d.flip T l r).symm⟩
  rw [tint_join] at red
  have upper : Stored e s (plug up (join d G (join d.flip P (join d.flip T x y) S) other)) := stored
  obtain ⟨cellG, linkedP, linkedO⟩ :=
    (linked_join _ _ _ _ _ _).mp ((holds_plug s up _).mp upper.held).subtree
  obtain ⟨cellP, _⟩ := (linked_join _ _ _ _ _ _).mp linkedP
  simp only [insertStep, wp_bind, wp_load, cellG, Option.some.injEq, exists_eq_left', side_child_flip]
  rw [wp_isRedAt s _ _ linkedO]
  simp only [blackO, reduceCtorEq, decide_false, Bool.false_eq_true, if_false, wp_bind, wp_load, cellP,
    Option.some.injEq, exists_eq_left', side_child, if_true, root_join]
  refine wp_mono _ _ _ s (rotate_spec e s (⟨d, G, other⟩ :: up) d.flip P T x y S stored) ?_
  intro _ s₁ stored₁
  have raised : Stored e s₁ (plug up (join d G (join d T (join d P S y) x) other)) := by
    simpa [Frame.attach, join_flip] using stored₁
  rw [wp_bind]
  refine wp_mono _ _ _ s₁ (insertRotate_spec e s₁ up d G T _ x other raised) ?_
  intro _ s₂ stored₂
  obtain ⟨outside, colored⟩ := insert_inner trail focus redP red blackO
    (color_paint T .black) (color_paint G .red)
  refine ⟨⟨d, T.paint .black, join d (G.paint .red) x other⟩ :: up, join d P S y, stored₂,
    (root_join _ _ _ _).symm, ⟨n, outside, colored, by simpa using redP⟩, ?_, by simp⟩
  simp only [plug_cons]
  apply row_plug_congr
  cases d <;> simp [Frame.attach, join, Side.flip, Label.core, Label.paint]

end Step

/-- One turn of the loop of `rb_insert_color`, below a red parent. -/
theorem insertStep_spec (e : Env E D) (s : State E D) (f g : Frame (Label D)) (up : Trail (Label D))
    (t : BinaryTree (Label D)) (stored : Stored e s (plug (f :: g :: up) t))
    (rising : Rising (f :: g :: up) t) (red : f.label.color = .red) :
    wp (insertStep g.side (layout.root t) (some (layout.addr f.label)) (some (layout.addr g.label)))
      (Raised e (plug (f :: g :: up) t) (up.length + 2)) s := by
  obtain ⟨side, P, S⟩ := f
  obtain ⟨d, G, other⟩ := g
  cases uncle : tint Label.color other with
  | red =>
      obtain _ | ⟨U, l, r⟩ := other
      · simp at uncle
      rw [← join_pick d U l r] at stored rising ⊢
      exact insertStep_recolor e s up d P G S t side U _ _ stored rising red uncle
  | black =>
      by_cases same : side = d
      · subst same
        exact insertStep_outer e s up side P G S other t stored rising red uncle
      · obtain rfl := eq_flip_of_ne _ _ same
        exact insertStep_inner e s up d P G S other t stored rising red uncle

theorem insertLoop_spec (e : Env E D) (fuel : Nat) (s : State E D) (up : Trail (Label D))
    (t : BinaryTree (Label D)) (stored : Stored e s (plug up t)) (rising : Rising up t)
    (enough : up.length < fuel) :
    wp (insertLoop fuel (layout.root t)) (fun _ s' => ∃ t' n, Stored e s' t' ∧
      Colored Label.color t' n ∧ row Label.core t' = row Label.core (plug up t)) s := by
  induction fuel generalizing s up t with
  | zero => omega
  | succ fuel ih =>
      obtain ⟨n, trail, focus, red⟩ := id rising
      obtain _ | ⟨T, l, r⟩ := t
      · simp at red
      simp only [insertLoop, root_node, wp_bind, wp_load,
        ((holds_plug s up _).mp stored.held).subtree.1, Option.some.injEq, exists_eq_left',
        cell_rbParent]
      cases up with
      | nil =>
          simp only [top_nil, isRedAt, if_true, wp_pure, Bool.false_eq_true, if_false]
          exact ⟨_, n, stored, focus, rfl⟩
      | cons f up =>
          have higher := ((holds_plug s up _).mp stored.held).subtree
          have pointed : layout.top none (f :: up) = layout.root (f.attach (.node T l r)) := by simp
          rw [pointed, wp_isRedAt s _ _ higher]
          simp only [Frame.attach, tint_join, root_join]
          cases tinted : f.label.color with
          | black =>
              have whole : IsRedBlack Label.color (plug (f :: up) (.node T l r)) := by
                rw [isRedBlack_plug]
                exact ⟨n, trail, focus, by simp [Fits, tinted]⟩
              obtain ⟨_, m, colored⟩ := (isRedBlack_iff _ _).mp whole
              simp only [reduceCtorEq, decide_false, Bool.false_eq_true, if_false, wp_pure]
              exact ⟨_, m, stored, colored, rfl⟩
          | red =>
              obtain ⟨_, _, blackG, _⟩ := (coloredTrail_red _ _ _ _ tinted).mp trail
              obtain _ | ⟨g, up⟩ := up
              · simp at blackG
              have around := ((holds_plug s (f :: g :: up) _).mp stored.held).around
              obtain ⟨cellP, _, cellG, _⟩ := around
              have apart := root_ne_of_focus s g up (f.attach (.node T l r))
                (Or.inl (join_ne_nil _ _ _ _))
                ((holds_plug s (g :: up) _).mp stored.held)
              rw [root_attach] at apart
              simp only [decide_true, if_true, wp_bind, wp_load, cellP, cellG, Option.some.injEq,
                exists_eq_left', side_rbParent, top_cons, sideOf_side g _ _ apart]
              have step := insertStep_spec e s f g up (.node T l r) stored rising tinted
              refine wp_mono _ _ _ s step ?_
              rintro q s₁ ⟨up₁, t₁, stored₁, rfl, rising₁, same₁, nearer⟩
              simp only [List.length_cons] at enough
              refine wp_mono _ _ _ s₁ (ih s₁ up₁ t₁ stored₁ rising₁ (by omega)) ?_
              rintro _ s₂ ⟨t₂, m, stored₂, colored₂, same₂⟩
              exact ⟨t₂, m, stored₂, colored₂, same₂.trans same₁⟩

/-- `rb_insert_color` turns a tree whose only fault is a red focus into a red-black tree. -/
theorem rbInsertColor_spec (e : Env E D) (s : State E D) (up : Trail (Label D)) (t : BinaryTree (Label D))
    (stored : Stored e s (plug up t)) (rising : Rising up t) :
    wp (rbInsertColor (layout.root t)) (fun _ s' => ∃ t', Stored e s' t' ∧
      IsRedBlack Label.color t' ∧ row Label.core t' = row Label.core (plug up t)) s := by
  have deep := trail_length_le up t
  have large := stored.held.numNodes_le
  have nonempty : inorder t ≠ [] := by
    obtain ⟨_, _, _, red⟩ := rising
    cases t with
    | nil => simp at red
    | node a l r => simp
  have positive := List.length_pos_iff.mpr nonempty
  simp only [rbInsertColor, wp_bind, wp_cells]
  refine wp_mono _ _ _ s (insertLoop_spec e s.brk s up t stored rising (by omega)) ?_
  rintro _ s₁ ⟨t₁, n, stored₁, colored₁, same₁⟩
  obtain _ | ⟨a, l, r⟩ := t₁
  · have size := congrArg List.length same₁
    simp [row] at size
    omega
  simp only [readRoot, wp_bind, wp_readGlob, stored₁.glob, wp_pure, root_node]
  refine wp_mono _ _ _ s₁ (setBlack_spec e s₁ [] .left a l r stored₁) ?_
  intro _ s₂ stored₂
  obtain ⟨m, colored₂⟩ := colored_blacken (d := .left) colored₁ (color_paint a .black)
  refine ⟨_, stored₂, (isRedBlack_iff _ _).mpr ⟨rfl, m, colored₂⟩, ?_⟩
  rw [← same₁]
  exact row_join .left _ _ _ _ _ _ rfl rfl rfl

end DataStructure.RbTree
