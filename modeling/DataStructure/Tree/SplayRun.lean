import DataStructure.Tree.SplayErase

/-! Whole runs of the splay tree against an ideal set of keys. -/

namespace DataStructure.Splay

open DataStructure.Program DataStructure.Heap DataStructure.Zipper DataStructure.LinkedTree
  DataStructure.KeyedTree

/-- The global `root` is the root of a strict search tree with consistent parent
links whose key set is `S`. -/
def Valid (s : State) (S : Finset Int) : Prop :=
  ∃ t, Holds layout s t ∧ s.glob.root = layout.root t ∧ SearchTree (Less Label.v) t ∧ keys Label.v t = S

def PointsTo (s : State) (q : Ptr) (v : Int) : Prop :=
  ∃ a n, q = some a ∧ s.cell a = some n ∧ n.v = v

theorem root_pointsTo (s : State) (T : Label) (l r : BinaryTree Label)
    (held : Holds layout s (.node T l r)) : PointsTo s (some (layout.addr T)) T.v :=
  ⟨_, _, rfl, held.linked.1, cell_v _ _ _ _⟩

theorem valid_splay (s : State) (S : Finset Int) (up : Trail Label) (T : Label)
    (x y : BinaryTree Label) (held : Holds layout s (plug up (.node T x y)))
    (search : SearchTree (Less Label.v) (plug up (.node T x y))) (same : keys Label.v (plug up (.node T x y)) = S) :
    wp (splay (some (layout.addr T))) (fun _ s' => Valid s' S ∧ PointsTo s' s'.glob.root T.v ∧
      ∃ l r, Holds layout s' (.node T l r) ∧ s'.glob.root = some (layout.addr T) ∧
        SearchTree (Less Label.v) (.node T l r) ∧ keys Label.v (.node T l r) = S) s := by
  refine wp_mono _ _ _ s (splay_spec s up T x y held) ?_
  rintro _ s' ⟨l, r, held', inorder', _, rooted⟩
  have row' := congrArg (List.map Label.v) inorder'
  have search' : SearchTree (Less Label.v) (.node T l r) := searchTree_of_row _ _ _ row' search
  have same' : keys Label.v (.node T l r) = S := (keys_of_row _ _ _ row').trans same
  refine ⟨⟨_, held', rooted, search', same'⟩, ?_, l, r, held', rooted, search', same'⟩
  rw [rooted]
  exact root_pointsTo s' T l r held'

theorem insert_spec (s : State) (S : Finset Int) (v : Int) (valid : Valid s S) :
    wp (insert v) (fun _ s' => Valid s' (S ∪ {v}) ∧ PointsTo s' s'.glob.root v) s := by
  obtain ⟨t, held, rooted, search, same⟩ := valid
  simp only [insert, wp_bind, wp_readGlob, rooted, wp_ite]
  by_cases empty : t = .nil
  · subst empty
    rw [if_pos root_nil]
    simp only [wp_malloc, wp_writeGlob]
    refine ⟨⟨.node ⟨s.brk, v⟩ .nil .nil, ⟨?_, by simp, ?_⟩, rfl, ?_, ?_⟩, ?_⟩
    · exact ⟨Store.put_cell_self _ _ _, trivial, trivial⟩
    · intro a member
      obtain rfl : a = s.brk := List.mem_singleton.mp member
      exact Nat.lt_succ_self _
    · simp [SearchTree]
    · simp [← same, keys, row]
    · exact ⟨s.brk, _, rfl, Store.put_cell_self _ _ _, rfl⟩
  · rw [if_neg (by simpa [root_eq_none] using empty)]
    simp only [wp_bind, wp_cells]
    refine wp_mono _ _ _ s (insertLoop_spec v s.brk s [] t held empty held.numNodes_le) ?_
    intro q s₁ placed
    rcases found : descend (order Label.v v) [] t with ⟨up, _ | ⟨a, l, r⟩⟩
    · rw [found] at placed
      obtain ⟨rfl, held₁, _⟩ := placed
      obtain ⟨search₁, keys₁⟩ := searchTree_grow Label.v v t ⟨s.brk, v⟩ rfl up found search
      refine wp_mono _ _ _ s₁ (valid_splay s₁ _ up _ _ _ held₁ search₁ keys₁) ?_
      rintro _ s₂ ⟨valid₂, pointed, _⟩
      exact ⟨by rwa [same] at valid₂, pointed⟩
    · rw [found] at placed
      obtain ⟨rfl, rfl⟩ := placed
      have whole := plug_descend (order Label.v v) [] t
      rw [found, plug_nil] at whole
      have value : a.v = v := (order_eq _ v a).mp (descend_found _ [] t a l r (by rw [found]))
      have present : v ∈ S := by
        rw [← same, ← descend_iff_mem Label.v v t search, found]
        simp
      rw [← whole] at held search same
      refine wp_mono _ _ _ s₁ (valid_splay s₁ S up a l r held search same) ?_
      rintro _ s₂ ⟨valid₂, pointed, _⟩
      rw [Finset.union_eq_left.mpr (by simpa using present), ← value]
      exact ⟨valid₂, pointed⟩

theorem find_spec (s : State) (S : Finset Int) (v : Int) (valid : Valid s S) :
    wp (find v) (fun q s' => Valid s' S ∧
      (v ∈ S → q = s'.glob.root ∧ PointsTo s' s'.glob.root v ∧
        ∃ T l r, Holds layout s' (.node T l r) ∧ q = some (layout.addr T) ∧ T.v = v ∧ SearchTree (Less Label.v) (.node T l r) ∧ keys Label.v (.node T l r) = S) ∧
      (v ∉ S → q = none)) s := by
  obtain ⟨t, held, rooted, search, same⟩ := valid
  simp only [find, wp_bind, wp_readGlob, rooted, wp_ite]
  by_cases empty : t = .nil
  · subst empty
    rw [if_pos root_nil]
    refine ⟨⟨.nil, held, rooted, search, same⟩, ?_, fun _ => rfl⟩
    intro member
    simp [← same, keys, row] at member
  · rw [if_neg (by simpa [root_eq_none] using empty)]
    simp only [wp_bind, wp_cells]
    refine wp_mono _ _ _ s (findLoop_spec v s.brk s [] t held empty held.numNodes_le) ?_
    rintro q s₀ ⟨kept, up, T, x, y, rfl, whole, value⟩
    subst s₀
    rw [descend_iff_mem Label.v v t search, same] at value
    rw [plug_nil] at whole
    rw [← whole] at held search same
    refine wp_seq _ _ _ _ s (valid_splay s S up T x y held search same) ?_
    rintro _ s₁ ⟨valid₁, pointed, l, r, held₁, rooted₁, search₁, same₁⟩
    simp only [wp_bind, wp_load, held₁.linked.1, Option.some.injEq, exists_eq_left', cell_v, wp_ite]
    by_cases present : v ∈ S
    · have equal := value.mpr present
      rw [if_pos equal]
      rw [equal] at pointed
      refine ⟨valid₁, fun _ => ⟨rooted₁.symm, pointed, T, l, r, held₁, rfl, equal, search₁, same₁⟩, ?_⟩
      intro absent
      exact absurd present absent
    · rw [if_neg (fun equal => present (value.mp equal))]
      exact ⟨valid₁, fun member => absurd member present, fun _ => rfl⟩

theorem erase_spec (s : State) (S : Finset Int) (v : Int) (valid : Valid s S) (more : S ≠ {v}) :
    wp (erase v) (fun result s' => Valid s' (S.erase v) ∧
      result = if v ∈ S then 1 else 0) s := by
  simp only [erase, wp_bind]
  refine wp_mono _ _ _ s (find_spec s S v valid) ?_
  rintro q s₁ ⟨valid₁, found, missed⟩
  by_cases present : v ∈ S
  · obtain ⟨_, _, T, l, r, held₁, rfl, value, search₁, same₁⟩ := found present
    simp only [reduceCtorEq, if_false, wp_bind, present, if_true]
    refine wp_mono _ _ _ s₁ (valid_splay s₁ S [] T l r held₁ search₁ same₁) ?_
    rintro _ s₂ ⟨_, _, l₂, r₂, held₂, _, search₂, same₂⟩
    refine wp_mono _ _ _ s₂ (eraseRoot_spec s₂ T l₂ r₂ held₂ ?_) ?_
    · by_contra nothing
      obtain ⟨rfl, rfl⟩ := by simpa using nothing
      exact more (by simp [← same₂, keys, row, value])
    · rintro result s₃ ⟨one, t, held₃, inorder₃, rooted₃⟩
      obtain ⟨search₃, keys₃⟩ := searchTree_remove Label.v _ t _ _ T.v (row_node _ T l₂ r₂)
        (by simp [row, inorder₃]) search₂
      rw [same₂, value] at keys₃
      exact ⟨⟨t, held₃, rooted₃, search₃, keys₃⟩, one⟩
  · rw [missed present, Finset.erase_eq_of_notMem present, if_neg present]
    exact ⟨valid₁, rfl⟩

inductive Call where
  | insert (v : Int)
  | find (v : Int)
  | erase (v : Int)
  deriving DecidableEq, Repr

inductive Reply where
  | done
  | node (q : Ptr)
  | status (n : Int)
  deriving DecidableEq, Repr

def Call.exec : Call → Prog State Reply
  | .insert v => do
      Splay.insert v
      pure .done
  | .find v => do
      let q ← Splay.find v
      pure (.node q)
  | .erase v => do
      let n ← Splay.erase v
      pure (.status n)

def init : State := ⟨fun _ => none, 0, ⟨none⟩⟩

def Call.ideal : Call → Finset Int → Finset Int
  | .insert v, S => S ∪ {v}
  | .find _, S => S
  | .erase v, S => S.erase v

def idealSet (calls : List Call) : Finset Int := calls.foldl (fun S call => call.ideal S) ∅

def KeepsOne (calls : List Call) : Prop :=
  ∀ earlier v, earlier ++ [Call.erase v] <+: calls → idealSet earlier ≠ {v}

/-- The result of a call on a tree with key set `S`, and where it leaves the root. -/
def Answers (S : Finset Int) : Call → Reply → State → Prop
  | .insert v, .done, s => PointsTo s s.glob.root v
  | .find v, .node q, s =>
      (v ∈ S → q = s.glob.root ∧ PointsTo s s.glob.root v) ∧ (v ∉ S → q = none)
  | .erase v, .status n, _ => n = if v ∈ S then 1 else 0
  | _, _, _ => False

theorem exec_spec (s : State) (S : Finset Int) (call : Call) (valid : Valid s S)
    (keeps : ∀ v, call = .erase v → S ≠ {v}) :
    wp call.exec (fun reply s' => Valid s' (call.ideal S) ∧ Answers S call reply s') s := by
  cases call with
  | insert v =>
      refine wp_seq _ _ _ _ s (insert_spec s S v valid) ?_
      rintro _ s' ⟨valid', pointed⟩
      exact ⟨valid', pointed⟩
  | find v =>
      refine wp_seq _ _ _ _ s (find_spec s S v valid) ?_
      rintro q s' ⟨valid', found, missed⟩
      exact ⟨valid', fun member => ⟨(found member).1, (found member).2.1⟩, missed⟩
  | erase v =>
      refine wp_seq _ _ _ _ s (erase_spec s S v valid (keeps v rfl)) ?_
      rintro n s' ⟨valid', status⟩
      exact ⟨valid', status⟩

theorem valid_init : Valid init ∅ :=
  ⟨.nil, ⟨trivial, List.nodup_nil, by simp⟩, rfl, trivial, rfl⟩

theorem idealSet_append (earlier : List Call) (call : Call) :
    idealSet (earlier ++ [call]) = call.ideal (idealSet earlier) := by
  simp [idealSet]

/-- After every call of a sequence in which no `Erase` removes the last key the
tree is a strict search tree with consistent parent links on the ideal key set,
and the call answered as the ideal set does. -/
theorem splay_tree_run (earlier rest : List Call) (call : Call)
    (keeps : KeepsOne (earlier ++ call :: rest)) :
    ∃ s reply s', (runCalls Call.exec earlier).run init = .ok ((), s) ∧
      call.exec.run s = .ok (reply, s') ∧
      Valid s' (idealSet (earlier ++ [call])) ∧ Answers (idealSet earlier) call reply s' := by
  refine runCalls_every Call.exec KeepsOne (fun calls s => Valid s (idealSet calls))
    (fun calls call _ reply s => Answers (idealSet calls) call reply s) init ?_ valid_init ?_
    earlier rest call keeps
  · intro shorter longer initial keeps first v reached
    exact keeps first v (reached.trans initial)
  · intro calls call s keeps valid
    rw [idealSet_append]
    exact exec_spec s _ call valid (by rintro v rfl; exact keeps calls v (List.prefix_refl _))

theorem splay_tree_run_insert_insert_erase :
    KeepsOne [.insert 2, .insert 1, .erase 2, .find 2] ∧
      ∃ s reply s', (runCalls Call.exec [.insert 2, .insert 1]).run init = .ok ((), s) ∧
        (Call.erase 2).exec.run s = .ok (reply, s') ∧ Valid s' {1} ∧
        Answers {2, 1} (.erase 2) reply s' := by
  have keeps : KeepsOne [.insert 2, .insert 1, .erase 2, .find 2] := by
    rintro earlier v ⟨tail, cut⟩
    obtain _ | ⟨a, _ | ⟨b, _ | ⟨c, _ | ⟨d, _ | e⟩⟩⟩⟩ := earlier <;> simp at cut
    obtain ⟨rfl, rfl, rfl, rfl⟩ := cut
    decide
  exact ⟨keeps, splay_tree_run [.insert 2, .insert 1] [.find 2] (.erase 2) keeps⟩

end DataStructure.Splay
