import DataStructure.Lib.Zipper

/-! Search trees over labels that carry a key.

Labels may hold more than their key, and the rest of a label may change while the
tree is rebuilt. Everything here depends on the sequence of keys only. -/

namespace DataStructure.KeyedTree

open DataStructure.Zipper

variable {α K : Type} (key : α → K)

def row (t : BinaryTree α) : List K := (inorder t).map key

@[simp] theorem row_nil : row key .nil = [] := rfl

@[simp] theorem row_node (a : α) (l r : BinaryTree α) :
    row key (.node a l r) = row key l ++ key a :: row key r := by
  simp [row]

theorem row_plug (trail : Trail α) (t : BinaryTree α) :
    row key (plug trail t) = (before trail).map key ++ row key t ++ (after trail).map key := by
  simp [row, inorder_plug]

theorem row_plug_congr (trail : Trail α) (t u : BinaryTree α) (same : row key t = row key u) :
    row key (plug trail t) = row key (plug trail u) := by
  rw [row_plug, row_plug, same]

variable [LinearOrder K]

def Less (a b : α) : Prop := key a < key b

def keys (t : BinaryTree α) : Finset K := (row key t).toFinset

def order (k : K) (a : α) : Ordering := compare k (key a)

theorem order_lt (k : K) (a : α) : order key k a = .lt ↔ k < key a := compare_lt_iff_lt

theorem order_gt (k : K) (a : α) : order key k a = .gt ↔ key a < k := compare_gt_iff_gt

theorem order_eq (k : K) (a : α) : order key k a = .eq ↔ key a = k := by
  rw [order, compare_eq_iff_eq, eq_comm]

theorem mem_keys (t : BinaryTree α) (k : K) : k ∈ keys key t ↔ ∃ a ∈ inorder t, key a = k := by
  simp [keys, row]

theorem searchTree_iff_sorted (t : BinaryTree α) :
    SearchTree (Less key) t ↔ (row key t).Pairwise (· < ·) := by
  have trans (a b c : α) (first : Less key a b) (second : Less key b c) : Less key a c :=
    lt_trans (α := K) first second
  rw [searchTree_iff_pairwise _ trans, row, List.pairwise_map]
  rfl

theorem searchTree_of_row (t u : BinaryTree α) (same : row key u = row key t)
    (search : SearchTree (Less key) t) : SearchTree (Less key) u := by
  rw [searchTree_iff_sorted] at search ⊢
  rwa [same]

theorem keys_of_row (t u : BinaryTree α) (same : row key u = row key t) : keys key u = keys key t := by
  rw [keys, keys, same]

theorem splits_of_searchTree (k : K) (t : BinaryTree α) (search : SearchTree (Less key) t) :
    Splits (order key k) (inorder t) := by
  rw [searchTree_iff_sorted, row, List.pairwise_map] at search
  refine search.imp ?_
  intro a b less
  simp only [ne_eq, order_lt, order_gt, not_lt]
  exact ⟨fun above => less.trans_le above, fun below => below.trans_lt less⟩

theorem leaf_of_keys_singleton (k : K) (a : α) (l r : BinaryTree α)
    (search : SearchTree (Less key) (.node a l r)) (one : keys key (.node a l r) = {k}) :
    l = .nil ∧ r = .nil := by
  obtain ⟨below, above, -, -⟩ := search
  have same : ∀ x ∈ inorder (.node a l r), key x = k := by
    intro x member
    have inside : key x ∈ keys key (.node a l r) := (mem_keys key _ _).mpr ⟨x, member, rfl⟩
    rw [one] at inside
    exact Finset.mem_singleton.mp inside
  have top : key a = k := same a (by simp)
  constructor
  · cases l with
    | nil => rfl
    | node b bl br =>
        have less : key b < key a := below b (by simp)
        exact absurd (same b (by simp)) (by rw [← top]; exact less.ne)
  · cases r with
    | nil => rfl
    | node b bl br =>
        have less : key a < key b := above b (by simp)
        exact absurd (same b (by simp)) (by rw [← top]; exact less.ne')

theorem descend_iff_mem (k : K) (t : BinaryTree α) (search : SearchTree (Less key) t) :
    (descend (order key k) [] t).2 ≠ .nil ↔ k ∈ keys key t := by
  rw [ne_eq, descend_missed_iff _ t (splits_of_searchTree key k t search), mem_keys]
  simp [order_eq]

/-- A new label in the place where the search for its key ended. -/
theorem searchTree_grow (k : K) (t : BinaryTree α) (T : α) (value : key T = k)
    (up : Trail α) (missed : descend (order key k) [] t = (up, .nil))
    (search : SearchTree (Less key) t) :
    SearchTree (Less key) (plug up (.node T .nil .nil)) ∧
      keys key (plug up (.node T .nil .nil)) = keys key t ∪ {k} := by
  have whole := congrArg (row key) (plug_descend (order key k) [] t)
  simp only [missed, row_plug, row_nil, List.append_nil, plug_nil] at whole
  obtain ⟨below, above⟩ := descend_missed (order key k) [] t (splits_of_searchTree key k t search)
    (by simp [before]) (by simp [after]) (by rw [missed])
  simp only [missed, order_gt, order_lt] at below above
  have grown : row key (plug up (.node T .nil .nil)) =
      (before up).map key ++ k :: (after up).map key := by
    simp [row_plug, value]
  constructor
  · rw [searchTree_iff_sorted] at search ⊢
    rw [← whole] at search
    rw [grown]
    exact pairwise_middle _ _ _ k search (by simpa using below) (by simpa using above)
  · ext w
    simp only [keys, grown, ← whole, List.mem_toFinset, List.mem_append, List.mem_cons,
      Finset.mem_union, Finset.mem_singleton]
    tauto

theorem searchTree_remove (t u : BinaryTree α) (xs ys : List K) (k : K)
    (was : row key t = xs ++ k :: ys) (now : row key u = xs ++ ys)
    (search : SearchTree (Less key) t) :
    SearchTree (Less key) u ∧ keys key u = (keys key t).erase k := by
  rw [searchTree_iff_sorted, was] at search
  constructor
  · rw [searchTree_iff_sorted, now]
    exact search.sublist (List.Sublist.append_left (List.sublist_cons_self _ _) _)
  · have distinct : (xs ++ k :: ys).Nodup := search.imp ne_of_lt
    have absent : k ∉ xs ++ ys := (List.nodup_middle.mp distinct).notMem
    ext w
    simp only [keys, was, now, Finset.mem_erase, List.mem_toFinset, List.mem_append,
      List.mem_cons]
    constructor
    · intro member
      refine ⟨?_, by tauto⟩
      rintro rfl
      exact absent (List.mem_append.mpr member)
    · tauto

end DataStructure.KeyedTree
