import DataStructure.Tree.CommQueue

/-! The loop of `tree/rbtree/rbtree-data.c` over all nodes of the command queue. -/

namespace DataStructure.CommQueue

open DataStructure.Program DataStructure.Heap DataStructure.Zipper DataStructure.LinkedTree
  DataStructure.KeyedTree DataStructure.RbTree

/-- `for (node = rb_first(&mytree); node; node = rb_next(node))`, with the nodes it visits and the
entries it prints. -/
def traverse : Prog State (List (Nat × Entry)) := do
  forEach rbNext (fun a => return (a, (← load (some a)).entry)) ((← cells) + 1) (← rbFirst)

theorem traverse_spec (s : State) (t : BinaryTree (Label Entry)) (S : Finset Seq)
    (valid : Valid s t S) :
    wp traverse (fun visited s' => s' = s ∧ visited = row Label.core t) s := by
  have enough := valid.held.numNodes_le
  simp only [traverse, wp_bind, wp_cells]
  refine wp_mono _ _ _ s (rbFirst_spec _ s t valid.stored) ?_
  intro q s₁ first
  obtain ⟨kept, here⟩ := first
  subst kept here
  apply forEach_spec rbNext _ layout.addr Label.core s₁ (inorder t) (s₁.brk + 1) (by omega)
  · intro a member
    obtain ⟨left, right, parent, cellA⟩ := linked_live s₁.cell none t a valid.held.linked member
    simp only [wp_bind, wp_load, cellA, Option.some.injEq, exists_eq_left', cell_entry]
    exact ⟨rfl, rfl⟩
  · intro xs a ys split
    exact rbNext_spec _ s₁ t xs ys a valid.stored split

def storedEntries (calls : List Call) : List Entry :=
  calls.foldl (fun es call => call.update es) []

theorem update_perm (call : Call) (es fs : List Entry) (perm : es.Perm fs) :
    (call.update es).Perm (call.update fs) := by
  cases call with
  | insert data =>
      have known := (perm.map Entry.sequence).mem_iff (a := data.entry.sequence)
      simp only [Call.update, known]
      split
      · exact perm
      · exact perm.cons data.entry
  | erase seq => exact perm.filter _

theorem runCalls_entries (calls : List Call) :
    wp (runCalls Call.exec calls) (fun _ s =>
      ∃ t, Valid s t (idealSet calls) ∧ (entries t).Perm (storedEntries calls)) init := by
  refine wp_runCalls Call.exec (fun _ => True)
    (fun calls s => ∃ t, Valid s t (idealSet calls) ∧ (entries t).Perm (storedEntries calls))
    (fun _ _ _ _ _ => True) init (fun _ _ _ _ => trivial)
    ⟨.nil, valid_init, List.Perm.refl []⟩ ?_ calls trivial
  intro earlier call s _ invariant
  obtain ⟨t, valid, perm⟩ := invariant
  have set : idealSet (earlier ++ [call]) = call.ideal (idealSet earlier) := by simp [idealSet]
  have list : storedEntries (earlier ++ [call]) = call.update (storedEntries earlier) := by
    simp [storedEntries]
  rw [set, list]
  refine wp_mono _ _ _ s (exec_spec s t _ call valid) ?_
  intro reply s' done
  obtain ⟨⟨t', valid', perm'⟩, -⟩ := done
  exact ⟨⟨t', valid', perm'.trans (update_perm call _ _ perm)⟩, trivial⟩

/-- In the tree after any sequence of calls the loop ends; it visits each node once, with all
stored entries in ascending `strcmp` order. -/
theorem traverse_visits_all (calls : List Call) :
    ∃ s visited, (runCalls Call.exec calls).run init = .ok ((), s) ∧
      traverse.run s = .ok (visited, s) ∧ (visited.map Prod.fst).Nodup ∧
      (visited.map Prod.snd).Perm (storedEntries calls) ∧
      visited.Pairwise fun x y => x.2.sequence.strcmp y.2.sequence < 0 := by
  obtain ⟨_, s, ran, t, valid, perm⟩ := (wp_iff_run _ _ _).mp (runCalls_entries calls)
  obtain ⟨visited, s', traversed, kept, all⟩ := (wp_iff_run _ _ _).mp (traverse_spec s t _ valid)
  subst kept all
  refine ⟨s', row Label.core t, ran, traversed, ?_, ?_, ?_⟩
  · rw [← addrs_eq_row]
    exact valid.held.distinct
  · rw [← entries_of_core t _ rfl]
    exact perm
  · have sorted : SearchTree (Less key) t := less_eq_before ▸ valid.search
    rw [searchTree_iff_sorted, row, List.pairwise_map] at sorted
    rw [row, List.pairwise_map]
    exact sorted.imp fun less => (strcmp_spec _ _).2.1.mpr less

end DataStructure.CommQueue
