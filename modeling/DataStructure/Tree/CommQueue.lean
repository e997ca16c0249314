import DataStructure.Lib.CharArray
import DataStructure.Tree.RbWalk

/-! The command queue of `tree/rbtree/rbtree-data.c`: a red-black tree of entries that
are ordered by their sequence strings. -/

namespace DataStructure.CommQueue

open DataStructure.Program DataStructure.Heap DataStructure.Zipper DataStructure.LinkedTree
  DataStructure.KeyedTree DataStructure.RedBlack DataStructure.RbTree

structure Seq where
  bytes : List UInt8
  nonzero : ∀ b ∈ bytes, b ≠ 0

/-- The part of a `struct commqueue` behind its `rb_node`; `sequence` is a `char[32]`. -/
structure Entry where
  sequence : Seq
  short : sequence.bytes.length ≤ 31
  sockFrom : Int
  commandId : Int

abbrev State := RbTree.State Unit Entry

def Seq.strcmp (a b : Seq) : Int := (CharArray.strcmp (a.bytes ++ [0]) (b.bytes ++ [0])).getD 0

def branch (seq : Seq) (data : Entry) : Ordering :=
  let result := seq.strcmp data.sequence
  if result < 0 then .lt else if 0 < result then .gt else .eq

def search (seq : Seq) : Prog State Ptr := do
  lookup (branch seq) ((← cells) + 1) (← readRoot)

def insertAt (data : Ptr) : Option (Link × Ptr) → Prog State Int
  | none => pure 0
  | some (link, parent) => do
      rbLinkNode data parent link
      rbInsertColor data
      pure 1

def insert (data : Ptr) : Prog State Int := do
  let seq := (← load data).entry.sequence
  insertAt data (← walk (branch seq) ((← cells) + 1) .root none)

def commqueueFree (node : Ptr) : Prog State Unit := onlyIf node.isSome (free node)

def Seq.digits (seq : Seq) : List Nat := seq.bytes.map UInt8.toNat

theorem digits_injective : Function.Injective Seq.digits := by
  rintro ⟨xs, _⟩ ⟨ys, _⟩ same
  obtain rfl : xs = ys := List.map_injective_iff.mpr (fun _ _ => UInt8.toNat_inj.mp) same
  rfl

instance : LinearOrder Seq := LinearOrder.lift' Seq.digits digits_injective

theorem strcmp_spec (a b : Seq) :
    CharArray.strcmp (a.bytes ++ [0]) (b.bytes ++ [0]) = some (a.strcmp b) ∧
      (a.strcmp b < 0 ↔ a < b) ∧ (0 < a.strcmp b ↔ b < a) := by
  obtain ⟨order, ran, less, greater⟩ := CharArray.strcmp_order (fun zero => a.nonzero 0 zero rfl)
    (fun zero => b.nonzero 0 zero rfl)
  have result : a.strcmp b = order := by rw [Seq.strcmp, ran, Option.getD_some]
  rw [result]
  exact ⟨ran, less, greater⟩

def key (a : Label Entry) : Seq := a.entry.sequence

theorem branch_eq (seq : Seq) (a : Label Entry) : branch seq a.entry = order key seq a := by
  obtain ⟨_, less, greater⟩ := strcmp_spec seq a.entry.sequence
  rcases lt_trichotomy seq (key a) with below | equal | above
  · rw [(order_lt key seq a).mpr below]
    simp [branch, less.mpr below]
  · rw [(order_eq key seq a).mpr equal.symm, branch]
    have first : ¬seq.strcmp a.entry.sequence < 0 := by
      rw [less]
      exact equal.not_lt
    have second : ¬0 < seq.strcmp a.entry.sequence := by
      rw [greater]
      exact equal.not_gt
    simp [first, second]
  · rw [(order_gt key seq a).mpr above]
    have first : ¬seq.strcmp a.entry.sequence < 0 := by
      rw [less]
      exact above.not_gt
    simp [branch, first, greater.mpr above]

def Before (a b : Label Entry) : Prop := a.entry.sequence.strcmp b.entry.sequence < 0

theorem less_eq_before : Less key = Before := by
  funext a b
  exact propext (strcmp_spec _ _).2.1.symm

/-- The tree `t` below the root is a red-black search tree with consistent parent links
on the sequences `S`. -/
structure Valid (s : State) (t : BinaryTree (Label Entry)) (S : Finset Seq) : Prop where
  held : Holds layout s t
  rooted : s.glob.rbNode = layout.root t
  search : SearchTree Before t
  redBlack : IsRedBlack Label.color t
  sequences : keys key t = S

theorem Valid.stored {s : State} {t : BinaryTree (Label Entry)} {S : Finset Seq}
    (valid : Valid s t S) : Stored ⟨(), s.cell⟩ s t :=
  ⟨valid.held, by rw [← valid.rooted], fun _ _ => rfl⟩

def entries (t : BinaryTree (Label Entry)) : List Entry := row Label.entry t

theorem entries_of_core (t : BinaryTree (Label Entry)) (cores : List (Nat × Entry))
    (same : row Label.core t = cores) : entries t = cores.map Prod.snd := by
  rw [← same, entries, row, row, List.map_map]
  rfl

theorem row_key_eq (t : BinaryTree (Label Entry)) : row key t = (entries t).map Entry.sequence := by
  rw [entries, row, row, List.map_map]
  rfl

theorem mem_sequences (t : BinaryTree (Label Entry)) (seq : Seq) :
    seq ∈ keys key t ↔ seq ∈ (entries t).map Entry.sequence := by
  rw [keys, List.mem_toFinset, row_key_eq]

theorem entries_without (t u : BinaryTree (Label Entry)) (a : Label Entry)
    (search : SearchTree (Less key) t) (perm : (entries t).Perm (a.entry :: entries u)) :
    (entries u).Perm ((entries t).filter fun e => e.sequence ≠ key a) := by
  have distinct : ((entries t).map Entry.sequence).Nodup := by
    rw [← row_key_eq]
    exact ((searchTree_iff_sorted key t).mp search).imp fun less => less.ne
  have fresh := (perm.map Entry.sequence).nodup_iff.mp distinct
  rw [List.map_cons, List.nodup_cons] at fresh
  have rest : (a.entry :: entries u).filter (fun e => e.sequence ≠ key a) = entries u := by
    rw [List.filter_cons_of_neg (by simp [key]), List.filter_eq_self]
    intro e member
    have other : e.sequence ≠ key a := by
      intro same
      exact fresh.1 (List.mem_map.mpr ⟨e, member, same⟩)
    simpa using other
  have filtered := perm.filter fun e => e.sequence ≠ key a
  rw [rest] at filtered
  exact filtered.symm

theorem row_key (t u : BinaryTree (Label Entry)) (same : row Label.core t = row Label.core u) :
    row key t = row key u := by
  have mapped := congrArg (List.map fun c => c.2.sequence) same
  simp only [row, List.map_map] at mapped
  exact mapped

theorem search_spec (s : State) (t : BinaryTree (Label Entry)) (S : Finset Seq) (seq : Seq)
    (valid : Valid s t S) :
    wp (CommQueue.search seq) (fun q s' => s' = s ∧
      (seq ∈ S → ∃ up a l r, plug up (.node a l r) = t ∧ q = some (layout.addr a) ∧ key a = seq) ∧
      (seq ∉ S → q = none)) s := by
  obtain ⟨held, rooted, sorted, _, rfl⟩ := valid
  rw [← less_eq_before] at sorted
  have enough := held.numNodes_le
  simp only [CommQueue.search, readRoot, wp_bind, wp_cells, wp_readGlob, wp_pure, rooted]
  refine wp_mono _ _ _ s (lookup_spec (branch seq) (s.brk + 1) s none [] t held.linked (by omega)) ?_
  rintro q s' ⟨kept, rfl⟩
  simp only [branch_eq]
  have found := descend_iff_mem key seq t sorted
  have whole := plug_descend (order key seq) [] t
  refine ⟨kept, ?_, ?_⟩
  · intro member
    rcases ends : descend (order key seq) [] t with ⟨up, _ | ⟨a, l, r⟩⟩
    · exact absurd (by rw [ends]) (found.mpr member)
    · rw [ends, plug_nil] at whole
      exact ⟨up, a, l, r, whole, rfl, (order_eq _ _ _).mp (descend_found _ [] t a l r (by rw [ends]))⟩
  · intro absent
    rw [root_eq_none]
    exact not_not.mp (found.not.mpr absent)

theorem insert_spec (s : State) (t : BinaryTree (Label Entry)) (S : Finset Seq) (a : Nat)
    (n : Node Entry) (valid : Valid s t S) (cellA : s.cell a = some n)
    (fresh : a ∉ layout.addrs t) (bound : a < s.brk) :
    wp (insert (some a)) (fun result s' =>
      if n.entry.sequence ∈ S then result = 0 ∧ s' = s
      else result = 1 ∧ ∃ t', Valid s' t' (S ∪ {n.entry.sequence}) ∧
        (entries t').Perm (n.entry :: entries t)) s := by
  have stored := valid.stored
  obtain ⟨held, _, sorted, redBlack, rfl⟩ := valid
  rw [← less_eq_before] at sorted
  have enough := held.numNodes_le
  simp only [insert, wp_bind, wp_load, cellA, Option.some.injEq, exists_eq_left', wp_cells]
  refine wp_mono _ _ _ s (walk_spec (branch n.entry.sequence) _ (s.brk + 1) s [] t stored (by omega)) ?_
  rintro _ s₀ ⟨kept, rfl⟩
  subst s₀
  simp only [branch_eq]
  have found := descend_iff_mem key n.entry.sequence t sorted
  have whole := plug_descend (order key n.entry.sequence) [] t
  rcases ends : descend (order key n.entry.sequence) [] t with ⟨up, _ | ⟨b, l, r⟩⟩
  · rw [ends, plug_nil] at whole
    have absent : n.entry.sequence ∉ keys key t := by
      rw [← found, ends]
      simp
    simp only [absent, if_false, walked, insertAt]
    have place : Stored ⟨(), s.cell⟩ s (plug up .nil) := whole ▸ stored
    have outside : a ∉ layout.trailAddrs up := by
      rw [← whole, mem_addrs_plug, not_or] at fresh
      exact fresh.1
    rw [← bind_assoc]
    refine wp_seq _ _ _ _ s (insertNode_spec _ s up a n place (whole ▸ redBlack) cellA outside bound) ?_
    rintro _ s₂ ⟨t₂, stored₂, redBlack₂, same₂⟩
    obtain ⟨sorted₂, keys₂⟩ := searchTree_grow key n.entry.sequence t ⟨a, .red, n.entry⟩ rfl up ends sorted
    have row₂ := row_key _ _ same₂
    refine ⟨rfl, t₂, ⟨stored₂.held, by rw [stored₂.glob], ?_, redBlack₂, ?_⟩, ?_⟩
    · rw [← less_eq_before]
      exact searchTree_of_row _ _ _ row₂ sorted₂
    · rw [← keys₂]
      exact keys_of_row _ _ _ row₂
    · rw [entries_of_core t₂ _ same₂, ← whole, entries, row_plug, row_plug]
      simp [Label.core, Function.comp_def, List.perm_middle]
  · have present : n.entry.sequence ∈ keys key t := by
      rw [← found, ends]
      simp
    simp only [present, if_true, walked, insertAt]
    exact ⟨rfl, rfl⟩

/-- `rb_erase` of a node that `search` found, which is then freed. -/
def eraseFound (seq : Seq) : Prog State Ptr := do
  let data ← CommQueue.search seq
  onlyIf data.isSome do
    rbErase data
    commqueueFree data
  pure data

theorem row_key_of_others (up : Trail (Label Entry)) (l r t : BinaryTree (Label Entry))
    (rest : row Label.core t = others up l r) :
    row key t = ((before up).map key ++ row key l) ++ (row key r ++ (after up).map key) := by
  have mapped := congrArg (List.map fun c => c.2.sequence) rest
  simp only [others, row, List.map_append, List.map_map, List.append_assoc] at mapped ⊢
  exact mapped

theorem entries_of_others (up : Trail (Label Entry)) (l r : BinaryTree (Label Entry)) :
    (others up l r).map Prod.snd =
      ((before up).map Label.entry ++ row Label.entry l) ++
        (row Label.entry r ++ (after up).map Label.entry) := by
  simp only [others, row, List.map_append, List.map_map, List.append_assoc]
  rfl

theorem erase_spec (s : State) (t : BinaryTree (Label Entry)) (S : Finset Seq) (seq : Seq)
    (valid : Valid s t S) :
    wp (eraseFound seq) (fun q s' => (∃ t', Valid s' t' (S.erase seq) ∧
      (entries t').Perm ((entries t).filter fun e => e.sequence ≠ seq)) ∧ (q ≠ none ↔ seq ∈ S)) s := by
  refine wp_seq _ _ _ _ s (search_spec s t S seq valid) ?_
  rintro q s₀ ⟨kept, found, missed⟩
  subst s₀
  by_cases present : seq ∈ S
  · obtain ⟨up, a, l, r, rfl, rfl, value⟩ := found present
    simp only [wp_bind, wp_onlyIf, Option.isSome_some, if_true]
    have stored := valid.stored
    obtain ⟨held, _, sorted, redBlack, rfl⟩ := valid
    rw [← less_eq_before] at sorted
    refine wp_mono _ _ _ s (rbErase_spec _ s up a l r stored redBlack) ?_
    rintro _ s₁ ⟨t₁, stored₁, redBlack₁, same₁, absent⟩
    have live := stored₁.frame _ absent
    simp only [Env.release, Function.update_self] at live
    simp only [commqueueFree, wp_onlyIf, Option.isSome_some, if_true, wp_free, wp_pure]
    obtain ⟨sorted₁, keys₁⟩ := searchTree_remove key (plug up (.node a l r)) t₁
      ((before up).map key ++ row key l) (row key r ++ (after up).map key) seq
      (by simp [row_plug, value]) (row_key_of_others _ _ _ _ same₁) sorted
    refine ⟨⟨_, live⟩, ⟨t₁, ⟨?_, by rw [stored₁.glob], less_eq_before ▸ sorted₁, redBlack₁, keys₁⟩, ?_⟩, ?_⟩
    · refine stored₁.held.frame ?_ (le_refl _)
      intro b member
      exact Function.update_of_ne (by rintro rfl; exact absent member) _ _
    · subst value
      apply entries_without _ t₁ a sorted
      rw [entries_of_core t₁ _ same₁, entries_of_others, entries, row_plug, row_node, List.append_assoc,
        List.append_assoc, List.cons_append, ← List.append_assoc]
      exact List.perm_middle
    · simpa using present
  · rw [missed present, Finset.erase_eq_of_notMem present]
    refine ⟨⟨t, valid, ?_⟩, by simp [present]⟩
    rw [← valid.sequences, mem_sequences] at present
    rw [List.filter_eq_self.mpr]
    intro e member
    have other : e.sequence ≠ seq := by
      intro same
      exact present (List.mem_map.mpr ⟨e, member, same⟩)
    simpa using other

inductive Call where
  | insert (data : Node Entry)
  | erase (seq : Seq)

inductive Reply where
  | status (n : Int)
  | node (q : Ptr)

def Call.exec : Call → Prog State Reply
  | .insert data => do
      let n ← CommQueue.insert (← malloc data)
      pure (.status n)
  | .erase seq => do
      let q ← eraseFound seq
      pure (.node q)

def init : State := ⟨fun _ => none, 0, ⟨none, ()⟩⟩

def Call.ideal : Call → Finset Seq → Finset Seq
  | .insert data, S => S ∪ {data.entry.sequence}
  | .erase seq, S => S.erase seq

def Call.update : Call → List Entry → List Entry
  | .insert data, es =>
      if data.entry.sequence ∈ es.map Entry.sequence then es else data.entry :: es
  | .erase seq, es => es.filter fun e => e.sequence ≠ seq

def idealSet (calls : List Call) : Finset Seq := calls.foldl (fun S call => call.ideal S) ∅

def Unchanged (s s' : State) : Prop := s'.glob = s.glob ∧ ∀ a < s.brk, s'.cell a = s.cell a

def Answers (S : Finset Seq) (s s' : State) : Call → Reply → Prop
  | .insert data, .status n =>
      if data.entry.sequence ∈ S then n = 0 ∧ Unchanged s s' else n = 1
  | .erase seq, .node q => q ≠ none ↔ seq ∈ S
  | _, _ => False

def Searches (s : State) (t : BinaryTree (Label Entry)) (S : Finset Seq) : Prop :=
  ∀ seq, ∃ q, (CommQueue.search seq).run s = .ok (q, s) ∧
    (seq ∈ S → ∃ a ∈ inorder t, q = some (layout.addr a) ∧ key a = seq) ∧ (seq ∉ S → q = none)

theorem Valid.searches {s : State} {t : BinaryTree (Label Entry)} {S : Finset Seq}
    (valid : Valid s t S) : Searches s t S := by
  intro seq
  obtain ⟨q, s', ran, rfl, found, missed⟩ := (wp_iff_run _ _ _).mp (search_spec s t S seq valid)
  refine ⟨q, ran, ?_, missed⟩
  intro present
  obtain ⟨up, a, l, r, rfl, pointer, value⟩ := found present
  exact ⟨a, by simp [inorder_plug], pointer, value⟩

theorem Valid.allocated {s : State} {t : BinaryTree (Label Entry)} {S : Finset Seq}
    (valid : Valid s t S) (data : Node Entry) :
    Valid { s.put s.brk data with brk := s.brk + 1 } t S ∧ s.brk ∉ layout.addrs t := by
  have outside : s.brk ∉ layout.addrs t := fun member =>
    absurd (valid.held.allocated _ member) (lt_irrefl _)
  refine ⟨⟨?_, valid.rooted, valid.search, valid.redBlack, valid.sequences⟩, outside⟩
  apply valid.held.frame
  · intro a member
    exact Function.update_of_ne (by rintro rfl; exact outside member) _ _
  · exact Nat.le_succ _

theorem exec_spec (s : State) (t : BinaryTree (Label Entry)) (S : Finset Seq) (call : Call)
    (valid : Valid s t S) :
    wp call.exec (fun reply s' => (∃ t', Valid s' t' (call.ideal S) ∧
      (entries t').Perm (call.update (entries t))) ∧ Answers S s s' call reply) s := by
  cases call with
  | insert data =>
      obtain ⟨allocated, outside⟩ := valid.allocated data
      simp only [Call.exec, wp_bind, wp_malloc]
      apply wp_mono _ _ _ _ (insert_spec _ t S s.brk data allocated (by simp) outside (by simp))
      intro n s' done
      have known := mem_sequences t data.entry.sequence
      rw [valid.sequences] at known
      by_cases present : data.entry.sequence ∈ S
      · rw [if_pos present] at done
        obtain ⟨zero, rfl⟩ := done
        have same : S ∪ {data.entry.sequence} = S :=
          Finset.union_eq_left.mpr (Finset.singleton_subset_iff.mpr present)
        have unchanged : Unchanged s { s.put s.brk data with brk := s.brk + 1 } :=
          ⟨rfl, fun a below => Function.update_of_ne (Nat.ne_of_lt below) _ _⟩
        simp only [wp_pure, Call.ideal, Call.update, Answers, same, present, ← known, if_true]
        exact ⟨⟨t, allocated, List.Perm.refl _⟩, zero, unchanged⟩
      · rw [if_neg present] at done
        obtain ⟨one, grown⟩ := done
        simp only [wp_pure, Call.ideal, Call.update, Answers, present, ← known, if_false]
        exact ⟨grown, one⟩
  | erase seq =>
      refine wp_seq _ _ _ _ s (erase_spec s t S seq valid) ?_
      intro q s' done
      exact done

theorem valid_init : Valid init .nil ∅ where
  held := ⟨trivial, List.nodup_nil, by simp⟩
  rooted := rfl
  search := trivial
  redBlack := ⟨rfl, trivial, by simp [blackCounts]⟩
  sequences := rfl

/-- After every call of any sequence the tree is a red-black search tree, in `strcmp`
order and with consistent parent links, on the ideal set of sequences; the call answered
as the ideal set does, and so does `search` then for every sequence. -/
theorem comm_queue_run (earlier : List Call) (call : Call) :
    ∃ s reply s' t, (runCalls Call.exec earlier).run init = .ok ((), s) ∧
      call.exec.run s = .ok (reply, s') ∧
      Valid s' t (idealSet (earlier ++ [call])) ∧
      Searches s' t (idealSet (earlier ++ [call])) ∧
      Answers (idealSet earlier) s s' call reply := by
  obtain ⟨s, reply, s', ran, answered, ⟨t, valid⟩, answer⟩ := runCalls_every Call.exec
    (fun _ => True) (fun calls s => ∃ t, Valid s t (idealSet calls))
    (fun calls call s reply s' => Answers (idealSet calls) s s' call reply) init
    (fun _ _ _ _ => trivial) ⟨.nil, valid_init⟩ (by
      intro calls call s _ valid
      have ideal : idealSet (calls ++ [call]) = call.ideal (idealSet calls) := by simp [idealSet]
      obtain ⟨t, valid⟩ := valid
      rw [ideal]
      refine wp_mono _ _ _ s (exec_spec s t _ call valid) ?_
      intro reply s' done
      obtain ⟨⟨t', valid', -⟩, answer⟩ := done
      exact ⟨⟨t', valid'⟩, answer⟩) earlier [] call trivial
  exact ⟨s, reply, s', t, ran, answered, valid, valid.searches, answer⟩

end DataStructure.CommQueue
