import DataStructure.Tree.SplayRun

/-! Erasing all keys of the splay tree.

`Erase` clears the parent link of the new root, which is NULL after the last key. -/

namespace DataStructure.Splay

open DataStructure.Program DataStructure.Heap DataStructure.Zipper DataStructure.LinkedTree
  DataStructure.KeyedTree

theorem not_wp_eraseRoot_leaf (s : State) (N : Label) (held : Holds layout s (.node N .nil .nil))
    (post : Int → State → Prop) : ¬wp (eraseRoot (some (layout.addr N))) post s := by
  obtain ⟨cellN, -, -⟩ := held.linked
  simp [eraseRoot, replaceRoot, cellN]

/-- The erasure of the only key accesses the root that is left. -/
theorem not_wp_erase_last (s : State) (v : Int) (valid : Valid s {v}) (post : Int → State → Prop) :
    ¬wp (erase v) post s := by
  refine not_wp_seq _ _ _ _ s (find_spec s {v} v valid) ?_
  intro q s₁ result
  obtain ⟨-, found, -⟩ := result
  obtain ⟨-, -, T, l, r, held₁, here, -, search₁, same₁⟩ := found (Finset.mem_singleton_self v)
  rw [here, if_neg (by simp)]
  refine not_wp_seq _ _ _ _ s₁ (valid_splay s₁ {v} [] T l r held₁ search₁ same₁) ?_
  intro _ s₂ splayed
  obtain ⟨-, -, l₂, r₂, held₂, -, search₂, same₂⟩ := splayed
  obtain ⟨left, right⟩ := leaf_of_keys_singleton Label.v v T l₂ r₂ search₂ same₂
  subst left right
  exact not_wp_eraseRoot_leaf s₂ T held₂ post

theorem runCalls_returned (calls : List Call) (s s' : State) (S : Finset Int) (valid : Valid s S)
    (ran : (runCalls Call.exec calls).run s = .ok ((), s')) :
    Valid s' (calls.foldl (fun S call => call.ideal S) S) := by
  induction calls generalizing s S with
  | nil =>
      cases ran
      exact valid
  | cons call calls ih =>
      obtain ⟨reply, s₁, first, rest⟩ := run_bind_ok ran
      have keeps : ∀ v, call = .erase v → S ≠ {v} := by
        intro v isErase only
        subst isErase only
        obtain ⟨n, s₂, erased, -⟩ := run_bind_ok first
        exact not_wp_erase_last s v valid (fun _ _ => True) ((wp_of_run erased).mpr trivial)
      exact ih s₁ _ ((wp_of_run first).mp (exec_spec s S call valid keeps)).1 rest

def eraseAll : List Int → Prog State (List Int)
  | [] => pure []
  | v :: vs => do
      let n ← erase v
      let ns ← eraseAll vs
      pure (n :: ns)

theorem not_wp_eraseAll (order : List Int) (s : State) (distinct : order.Nodup) (some : order ≠ [])
    (valid : Valid s order.toFinset) (post : List Int → State → Prop) :
    ¬wp (eraseAll order) post s := by
  induction order generalizing s post with
  | nil => exact absurd rfl some
  | cons v vs ih =>
      obtain ⟨fresh, distinct⟩ := List.nodup_cons.mp distinct
      rw [eraseAll]
      by_cases last : vs = []
      · subst last
        intro whole
        rw [wp_bind] at whole
        exact not_wp_erase_last s v valid _ whole
      · have more : (v :: vs).toFinset ≠ {v} := by
          intro only
          obtain ⟨w, member⟩ := List.exists_mem_of_ne_nil vs last
          have inside : w ∈ (v :: vs).toFinset := by simp [member]
          rw [only, Finset.mem_singleton] at inside
          exact fresh (inside ▸ member)
        refine not_wp_seq _ _ _ _ s (erase_spec s _ v valid more) ?_
        intro n s' erased
        have rest : Valid s' vs.toFinset := by
          have valid' := erased.1
          rwa [List.toFinset_cons, Finset.erase_insert (by simpa using fresh)] at valid'
        intro whole
        rw [wp_bind] at whole
        exact ih s' distinct last rest _ whole

/-- The erasure of all keys in some order, each with the result 1, to an empty tree. -/
def Emptied (s : State) (order : List Int) : Prop :=
  ∃ s', (eraseAll order).run s = .ok (order.map fun _ => 1, s') ∧ s'.glob.root = none

/-- A tree can be emptied by erasing its keys only if it has none: the last `Erase` always
accesses NULL. -/
theorem splay_emptied_iff (calls : List Call) (s : State)
    (reached : (runCalls Call.exec calls).run init = .ok ((), s)) (order : List Int)
    (distinct : order.Nodup) (all : order.toFinset = idealSet calls) :
    Emptied s order ↔ idealSet calls = ∅ := by
  have valid : Valid s (idealSet calls) := runCalls_returned calls init s ∅ valid_init reached
  rw [← all] at valid ⊢
  by_cases none : order = []
  · subst none
    refine iff_of_true ⟨s, rfl, ?_⟩ rfl
    obtain ⟨t, -, rooted, -, same⟩ := valid
    cases t with
    | nil => exact rooted
    | node a l r => simp [keys] at same
  · refine iff_of_false ?_ (by simpa using none)
    intro emptied
    obtain ⟨s', ran, -⟩ := emptied
    exact not_wp_eraseAll order s distinct none valid (fun _ _ => True) ((wp_of_run ran).mpr trivial)

theorem splay_emptied_two_keys :
    ∃ s, (runCalls Call.exec [.insert 2, .insert 1]).run init = .ok ((), s) ∧
      (Emptied s [2, 1] ↔ idealSet [.insert 2, .insert 1] = ∅) :=
  ⟨_, rfl, splay_emptied_iff [.insert 2, .insert 1] _ rfl [2, 1] (by decide) (by decide)⟩

theorem erase_only_key_faults :
    ∃ s, (runCalls Call.exec [.insert 1]).run init = .ok ((), s) ∧ (erase 1).run s = .error .segv :=
  ⟨_, rfl, rfl⟩

end DataStructure.Splay
