import DataStructure.Lib.StableOrder
import DataStructure.Tree.RbWalk

/-! The timer queue of `tree/rbtree/rbtree-list.c`: a red-black tree ordered by `expires`
with the first node cached in `next`. The calls of `WARN_ON_ONCE` only print. -/

namespace DataStructure.TimerQueue

open DataStructure.Program DataStructure.Heap DataStructure.Zipper DataStructure.LinkedTree
  DataStructure.KeyedTree DataStructure.RedBlack DataStructure.RbTree DataStructure.StableOrder

/-- The entry of a node is its `expires`, the variable next to the root is `head->next`. -/
abbrev State := RbTree.State Ptr Int

def timerqueueGetnext : Prog State Ptr := do pure (← readGlob).ext

def timerqueueInit (node : Ptr) : Prog State Unit := assign node (Node.setParent node)

def timerqueueInitHead : Prog State Unit := writeGlob fun _ => ⟨none, none⟩

def branch (expires : Int) (ptr : Int) : Ordering := if expires < ptr then .lt else .gt

def comesFirst (node next : Ptr) : Prog State Bool :=
  if next = none then pure true
  else do pure (decide ((← load node).entry < (← load next).entry))

def linkAt (node : Ptr) : Option (Link × Ptr) → Prog State Unit
  -- `branch` never answers that two entries are equal
  | none => fault .stuck
  | some (link, parent) => do
      rbLinkNode node parent link
      rbInsertColor node

def timerqueueAdd (node : Ptr) : Prog State Unit := do
  let expires := (← load node).entry
  linkAt node (← walk (branch expires) ((← cells) + 1) .root none)
  let first ← comesFirst node (← timerqueueGetnext)
  onlyIf first (writeGlob fun g => { g with ext := node })

def timerqueueDel (node : Ptr) : Prog State Unit := do
  let next ← timerqueueGetnext
  onlyIf (next = node) do
    let rbn ← rbNext node
    writeGlob fun g => { g with ext := rbn }
  rbErase node
  timerqueueInit node

def timerqueueIterateNext (node : Ptr) : Prog State Ptr :=
  if node = none then pure none else rbNext node

def iterate : Nat → Ptr → Prog State (List Nat)
  | 0, _ => fault .stuck
  | _ + 1, none => pure []
  | fuel + 1, some a => do
      let rest ← iterate fuel (← timerqueueIterateNext (some a))
      pure (a :: rest)

def visit : Prog State (List Nat) := do iterate ((← cells) + 1) (← timerqueueGetnext)

/-- The queue with the nodes `arrived`, in the order they were added: a red-black tree
that lists them stably sorted, and the cached first node. -/
structure Valid (s : State) (t : BinaryTree (Label Int)) (arrived : List (Nat × Int)) : Prop where
  held : Holds layout s t
  glob : s.glob = ⟨layout.root t, (row Label.core t).head?.map Prod.fst⟩
  redBlack : IsRedBlack Label.color t
  sorted : StablySorted Prod.snd arrived (row Label.core t)

theorem Valid.stored {s : State} {t : BinaryTree (Label Int)} {arrived : List (Nat × Int)}
    (valid : Valid s t arrived) : Stored ⟨(row Label.core t).head?.map Prod.fst, s.cell⟩ s t :=
  ⟨valid.held, valid.glob, fun _ _ => rfl⟩

theorem expires_of_row (s : State) (t : BinaryTree (Label Int)) (a : Nat) (expires : Int)
    (held : Holds layout s t) (member : (a, expires) ∈ row Label.core t) :
    ∃ n, s.cell a = some n ∧ n.entry = expires := by
  obtain ⟨b, inside, same⟩ := List.mem_map.mp member
  obtain ⟨rfl, rfl⟩ := Prod.mk.inj same
  obtain ⟨left, right, parent, cellB⟩ := linked_live s.cell none t b held.linked inside
  exact ⟨_, cellB, cell_entry _ _ _ _⟩

/-- The walk of `timerqueue_add` ends behind the nodes that do not expire later. -/
theorem descend_branch (t : BinaryTree (Label Int)) (expires : Int)
    (ordered : (row Label.core t).Pairwise fun a b => a.2 ≤ b.2) :
    ∃ up, descend (fun a => branch expires a.entry) [] t = (up, .nil) ∧ plug up .nil = t ∧
      (∀ x ∈ (before up).map Label.core, x.2 ≤ expires) ∧
      ∀ x ∈ (after up).map Label.core, expires < x.2 := by
  have missed : (descend (fun a => branch expires a.entry) [] t).2 = .nil := by
    cases found : (descend (fun a => branch expires a.entry) [] t).2 with
    | nil => rfl
    | node a l r =>
        have equal := descend_found _ [] t a l r found
        simp only [branch] at equal
        split at equal <;> simp at equal
  have splits : Splits (fun a : Label Int => branch expires a.entry) (inorder t) := by
    apply (List.pairwise_map.mp ordered).imp
    intro x y le
    simp only [Label.core] at le
    simp only [branch]
    grind
  have whole := plug_descend (fun a => branch expires a.entry) [] t
  obtain ⟨below, above⟩ := descend_missed _ [] t splits (by simp [before]) (by simp [after]) missed
  rw [missed, plug_nil] at whole
  refine ⟨_, Prod.ext rfl missed, whole, ?_, ?_⟩
  · intro x member
    obtain ⟨a, inside, rfl⟩ := List.mem_map.mp member
    have answer := below a inside
    simp only [branch] at answer
    split at answer
    · simp at answer
    · exact not_lt.mp (by assumption)
  · intro x member
    obtain ⟨a, inside, rfl⟩ := List.mem_map.mp member
    have answer := above a inside
    simp only [branch] at answer
    split at answer
    · assumption
    · simp at answer

theorem comesFirst_spec (s : State) (t : BinaryTree (Label Int)) (a : Nat) (expires : Int)
    (next : Option (Nat × Int)) (held : Holds layout s t) (new : (a, expires) ∈ row Label.core t)
    (old : ∀ b ∈ next, b ∈ row Label.core t) :
    wp (comesFirst (some a) (next.map Prod.fst)) (fun first s' => s' = s ∧
      (if first then some (a, expires) else next) = some (undercut Prod.snd (a, expires) next)) s := by
  cases next with
  | none => simp [comesFirst, undercut]
  | some b =>
      obtain ⟨n, cellA, rfl⟩ := expires_of_row s t a expires held new
      obtain ⟨m, cellB, entryB⟩ := expires_of_row s t b.1 b.2 held (old b rfl)
      simp only [comesFirst, Option.map_some, reduceCtorEq, if_false, wp_bind, wp_load, cellA, cellB,
        Option.some.injEq, exists_eq_left', wp_pure, entryB, decide_eq_true_eq, undercut, true_and]
      split <;> rfl

theorem timerqueueAdd_spec (s : State) (t : BinaryTree (Label Int)) (arrived : List (Nat × Int))
    (a : Nat) (n : Node Int) (valid : Valid s t arrived) (cellA : s.cell a = some n)
    (fresh : a ∉ layout.addrs t) (bound : a < s.brk) :
    wp (timerqueueAdd (some a)) (fun _ s' => ∃ t', Valid s' t' (arrived ++ [(a, n.entry)])) s := by
  have stored := valid.stored
  obtain ⟨held, _, redBlack, sorted⟩ := valid
  have enough := held.numNodes_le
  obtain ⟨up, ends, whole, below, above⟩ := descend_branch t n.entry sorted.ordered
  simp only [timerqueueAdd, wp_bind, wp_load, cellA, Option.some.injEq, exists_eq_left', wp_cells]
  refine wp_mono _ _ _ s (walk_spec (branch n.entry) _ (s.brk + 1) s [] t stored (by omega)) ?_
  rintro _ s₀ ⟨kept, rfl⟩
  subst s₀
  have outside : a ∉ layout.trailAddrs up := by
    rw [← whole, mem_addrs_plug, not_or] at fresh
    exact fresh.1
  have split : row Label.core t = (before up).map Label.core ++ (after up).map Label.core := by
    rw [← whole, row_plug, row_nil, List.append_nil]
  rw [ends]
  simp only [walked, linkAt]
  rw [← whole] at redBlack
  have place : Stored ⟨(row Label.core t).head?.map Prod.fst, s.cell⟩ s (plug up .nil) := by
    rw [whole]
    exact stored
  refine wp_seq _ _ _ _ s (insertNode_spec _ s up a n place redBlack cellA outside bound) ?_
  rintro _ s₁ ⟨t₁, stored₁, redBlack₁, same₁⟩
  have row₁ : row Label.core t₁ =
      (before up).map Label.core ++ (a, n.entry) :: (after up).map Label.core := by
    rw [same₁, row_plug]
    simp [Label.core]
  have head₁ := head_arrive Prod.snd _ _ (a, n.entry) below above
  rw [← row₁, ← split] at head₁
  have sorted₁ := StablySorted.arrive Prod.snd (split ▸ sorted) (a, n.entry) below above
  simp only [timerqueueGetnext, wp_bind, wp_readGlob, wp_pure, stored₁.glob]
  refine wp_mono _ _ _ s₁ (comesFirst_spec s₁ t₁ a n.entry _ stored₁.held (by simp [row₁]) ?_) ?_
  · intro b first
    have inside := List.mem_of_head? first
    rw [split, List.mem_append] at inside
    simpa [row₁] using inside.imp_right Or.inr
  · rintro first s₂ ⟨kept, answer⟩
    subst s₂
    rw [← head₁] at answer
    rw [wp_onlyIf]
    cases first with
    | true =>
        refine ⟨t₁, stored₁.held.frame (fun _ _ => rfl) (le_refl _), ?_, redBlack₁, row₁ ▸ sorted₁⟩
        simp only [stored₁.glob, ← answer, if_true]
        rfl
    | false =>
        refine ⟨t₁, stored₁.held, ?_, redBlack₁, row₁ ▸ sorted₁⟩
        simp only [stored₁.glob, ← answer, if_false, Bool.false_eq_true]

theorem filter_others (xs ys : List (Nat × Int)) (a : Nat) (expires : Int)
    (distinct : ((xs ++ (a, expires) :: ys).map Prod.fst).Nodup) :
    (xs ++ (a, expires) :: ys).filter (fun b => b.1 ≠ a) = xs ++ ys := by
  rw [List.map_append, List.map_cons] at distinct
  have absent := (List.nodup_middle.mp distinct).notMem
  rw [← List.map_append] at absent
  have stays (b : Nat × Int) (member : b ∈ xs ++ ys) : b.1 ≠ a := by
    intro same
    exact absent (List.mem_map.mpr ⟨b, member, same⟩)
  have left : xs.filter (fun b => b.1 ≠ a) = xs :=
    List.filter_eq_self.mpr fun b member => by simpa using stays b (by simp [member])
  have right : ys.filter (fun b => b.1 ≠ a) = ys :=
    List.filter_eq_self.mpr fun b member => by simpa using stays b (by simp [member])
  rw [List.filter_append, left, List.filter_cons, right]
  simp

/-- The first part of `timerqueue_del` leaves in `next` the first of the other nodes. -/
theorem next_spec (s : State) (t : BinaryTree (Label Int)) (arrived : List (Nat × Int))
    (xs ys : List (Label Int)) (a : Label Int) (valid : Valid s t arrived)
    (split : inorder t = xs ++ a :: ys) :
    wp (do
      let next ← timerqueueGetnext
      onlyIf (next = some (layout.addr a)) do
        let rbn ← rbNext (some (layout.addr a))
        writeGlob fun g => { g with ext := rbn }) (fun _ s' =>
      Stored ⟨(xs ++ ys).head?.map layout.addr, s.cell⟩ s' t) s := by
  have next : s.glob.ext = (xs ++ a :: ys).head?.map layout.addr := by
    rw [valid.glob, row, split, List.head?_map, Option.map_map]
    rfl
  simp only [timerqueueGetnext, wp_bind, wp_readGlob, wp_pure, wp_onlyIf, next, decide_eq_true_eq]
  cases xs with
  | nil =>
      rw [if_pos (by simp)]
      refine wp_mono _ _ _ s (rbNext_spec _ s t [] ys a valid.stored split) ?_
      rintro q s₀ ⟨kept, rfl⟩
      subst s₀
      refine ⟨valid.held.frame (fun _ _ => rfl) (le_refl _), ?_, fun _ _ => rfl⟩
      simp only [valid.glob]
      rfl
  | cons x xs =>
      have distinct := valid.held.distinct
      have apart : layout.addr x ≠ layout.addr a := by
        rw [Layout.addrs, split, List.cons_append, List.map_cons, List.nodup_cons] at distinct
        intro same
        exact distinct.1 (by simp [same])
      rw [if_neg (by simpa using apart)]
      refine ⟨valid.held, ?_, fun _ _ => rfl⟩
      rw [valid.glob] at next ⊢
      exact congrArg (Globals.mk (layout.root t)) next

theorem timerqueueDel_spec (s : State) (t : BinaryTree (Label Int)) (arrived : List (Nat × Int))
    (a : Nat) (valid : Valid s t arrived) (queued : a ∈ arrived.map Prod.fst) :
    wp (timerqueueDel (some a)) (fun _ s' =>
      ∃ t', Valid s' t' (arrived.filter fun b => b.1 ≠ a)) s := by
  obtain ⟨⟨_, expires⟩, member, rfl⟩ := List.mem_map.mp queued
  obtain ⟨b, inside, same⟩ := List.mem_map.mp (valid.sorted.perm.mem_iff.mpr member)
  obtain ⟨rfl, rfl⟩ := Prod.mk.inj same
  obtain ⟨xs, ys, split⟩ := List.append_of_mem inside
  obtain ⟨up, l, r, whole, front, back⟩ := focus_of_inorder [] t xs ys b split
  rw [plug_nil] at whole
  simp only [before, after, List.nil_append, List.append_nil] at front back
  have rest : others up l r = (xs ++ ys).map Label.core := by
    rw [← front, ← back]
    simp [others, row]
  have sorted := StablySorted.filter Prod.snd valid.sorted fun c => c.1 ≠ layout.addr b
  have remaining : (row Label.core t).filter (fun c => c.1 ≠ layout.addr b) =
      (xs ++ ys).map Label.core := by
    have distinct := valid.held.distinct
    rw [addrs_eq_row] at distinct
    rw [row, split, List.map_append, List.map_cons] at distinct ⊢
    rw [List.map_append]
    exact filter_others _ _ _ _ distinct
  rw [timerqueueDel, ← bind_assoc]
  refine wp_seq _ _ _ _ s (next_spec s t arrived xs ys b valid split) ?_
  intro _ s₁ stored₁
  refine wp_seq _ _ _ _ s₁ (rbErase_spec _ s₁ up b l r (whole.symm ▸ stored₁)
    (whole.symm ▸ valid.redBlack)) ?_
  rintro _ s₂ ⟨t₂, stored₂, redBlack₂, same₂, absent⟩
  have live := stored₂.frame _ absent
  simp only [Env.release, Function.update_self] at live
  rw [timerqueueInit, wp_assign]
  rw [rest] at same₂
  refine ⟨_, live, t₂, ?_, ?_, redBlack₂, ?_⟩
  · refine stored₂.held.frame ?_ (le_refl _)
    intro x member
    exact Store.put_cell_of_ne _ _ _ _ (by rintro rfl; exact absent member)
  · rw [Store.put_glob, stored₂.glob, same₂, List.head?_map, Option.map_map]
    rfl
  · rw [same₂, ← remaining]
    exact sorted

theorem iterate_eq (fuel : Nat) (p : Ptr) :
    iterate fuel p = forEach timerqueueIterateNext (fun a => pure a) fuel p := by
  induction fuel generalizing p with
  | zero => rfl
  | succ fuel ih =>
      cases p with
      | none => rfl
      | some a => simp only [iterate, forEach, ih, pure_bind]

theorem iterate_spec (s : State) (t : BinaryTree (Label Int)) (arrived : List (Nat × Int))
    (valid : Valid s t arrived) (fuel : Nat) (enough : (inorder t).length < fuel) :
    wp (iterate fuel ((inorder t).head?.map layout.addr)) (fun visited s' =>
      s' = s ∧ visited = (inorder t).map layout.addr) s := by
  rw [iterate_eq]
  apply forEach_spec _ _ layout.addr layout.addr s (inorder t) fuel enough
  · intro a _
    exact ⟨rfl, rfl⟩
  · intro xs a ys split
    rw [timerqueueIterateNext, if_neg (by simp)]
    exact rbNext_spec _ s t xs ys a valid.stored split

theorem visit_spec (s : State) (t : BinaryTree (Label Int)) (arrived : List (Nat × Int))
    (valid : Valid s t arrived) :
    wp visit (fun visited s' => s' = s ∧ visited = (row Label.core t).map Prod.fst) s := by
  have enough := valid.held.numNodes_le
  have iterated := iterate_spec s t arrived valid (s.brk + 1) (by omega)
  have next : s.glob.ext = (inorder t).head?.map layout.addr := by
    rw [valid.glob, row, List.head?_map, Option.map_map]
    rfl
  simp only [visit, timerqueueGetnext, wp_bind, wp_cells, wp_readGlob, wp_pure, next]
  rw [← addrs_eq_row]
  exact iterated

inductive Call where
  | add (a : Nat) (n : Node Int)
  | del (a : Nat)
  deriving DecidableEq, Repr

def place (a : Nat) (n : Node Int) : Prog State Ptr := fun s =>
  .ok (some a, { s.put a n with brk := max s.brk (a + 1) })

def Call.exec : Call → Prog State Unit
  | .add a n => do timerqueueAdd (← place a n)
  | .del a => timerqueueDel (some a)

def Call.queue : Call → List (Nat × Int) → List (Nat × Int)
  | .add a n, arrived => arrived ++ [(a, n.entry)]
  | .del a, arrived => arrived.filter fun b => b.1 ≠ a

def queued (calls : List Call) : List (Nat × Int) :=
  calls.foldl (fun arrived call => call.queue arrived) []

def Call.Allowed (arrived : List (Nat × Int)) : Call → Prop
  | .add a _ => a ∉ arrived.map Prod.fst
  | .del a => a ∈ arrived.map Prod.fst

instance (arrived : List (Nat × Int)) : (call : Call) → Decidable (call.Allowed arrived)
  | .add a _ => inferInstanceAs (Decidable (a ∉ arrived.map Prod.fst))
  | .del a => inferInstanceAs (Decidable (a ∈ arrived.map Prod.fst))

/-- Nodes are added when they are not queued and deleted when they are. -/
def Admissible (calls : List Call) : Prop :=
  ∀ earlier call, earlier ++ [call] <+: calls → call.Allowed (queued earlier)

def Caches (next : Ptr) (arrived : List (Nat × Int)) : Prop :=
  (next = none ↔ arrived = []) ∧
    ∀ a, next = some a → ∃ expires, (∀ b ∈ arrived, expires ≤ b.2) ∧
      (arrived.filter (fun b => b.2 = expires)).head? = some (a, expires)

theorem Valid.caches {s : State} {t : BinaryTree (Label Int)} {arrived : List (Nat × Int)}
    (valid : Valid s t arrived) : Caches s.glob.ext arrived := by
  have sorted := valid.sorted
  rw [valid.glob]
  cases served : row Label.core t with
  | nil =>
      rw [served] at sorted
      simp [Caches, sorted.perm.symm.eq_nil]
  | cons b rest =>
      rw [served] at sorted
      have some : arrived ≠ [] := by
        rintro rfl
        exact List.cons_ne_nil _ _ sorted.perm.eq_nil
      refine ⟨by simp [some], ?_⟩
      rintro a ⟨⟩
      exact ⟨b.2, StablySorted.head Prod.snd sorted⟩

theorem addrs_of_valid (s : State) (t : BinaryTree (Label Int)) (arrived : List (Nat × Int))
    (valid : Valid s t arrived) (a : Nat) : a ∈ layout.addrs t ↔ a ∈ arrived.map Prod.fst := by
  rw [addrs_eq_row]
  exact (valid.sorted.perm.map Prod.fst).mem_iff

theorem exec_spec (s : State) (arrived : List (Nat × Int)) (call : Call)
    (valid : ∃ t, Valid s t arrived) (allowed : call.Allowed arrived) :
    wp call.exec (fun _ s' => ∃ t, Valid s' t (call.queue arrived)) s := by
  obtain ⟨t, valid⟩ := valid
  cases call with
  | add a n =>
      have outside : a ∉ layout.addrs t := by
        rw [addrs_of_valid s t arrived valid]
        exact allowed
      have placed : Valid { s.put a n with brk := max s.brk (a + 1) } t arrived := by
        refine ⟨?_, valid.glob, valid.redBlack, valid.sorted⟩
        apply valid.held.frame _ (le_max_left _ _)
        intro x member
        exact Function.update_of_ne (by rintro rfl; exact outside member) _ _
      exact timerqueueAdd_spec _ t arrived a n placed (by simp) outside (by simp)
  | del a => exact timerqueueDel_spec s t arrived a valid allowed

def run (calls : List Call) : Prog State Unit := do
  timerqueueInitHead
  runCalls Call.exec calls

theorem valid_init (s : State) : Valid { s with glob := ⟨none, none⟩ } .nil [] where
  held := ⟨trivial, List.nodup_nil, by simp⟩
  glob := rfl
  redBlack := ⟨rfl, trivial, by simp [blackCounts]⟩
  sorted := stablySorted_nil _

theorem run_spec (s : State) (calls : List Call) (admissible : Admissible calls) :
    wp (run calls) (fun _ s' => ∃ t, Valid s' t (queued calls)) s := by
  simp only [run, timerqueueInitHead, wp_bind, wp_writeGlob]
  apply wp_runCalls Call.exec Admissible (fun calls s => ∃ t, Valid s t (queued calls))
    (fun _ _ _ _ _ => True) _ _ ⟨.nil, valid_init s⟩ _ calls admissible
  · intro shorter longer initial admissible first call reached
    exact admissible first call (reached.trans initial)
  · intro calls call s admissible valid
    have next : queued (calls ++ [call]) = call.queue (queued calls) := by simp [queued]
    rw [next]
    apply wp_mono _ _ _ s (exec_spec s _ call valid (admissible calls call (List.prefix_refl _)))
    intro _ s' valid'
    exact ⟨valid', trivial⟩

/-- After any calls that add nodes which are not queued and delete nodes which are, the
cached node is the first to expire, and iterating from it visits every queued node once,
stably sorted. -/
theorem timer_queue_run (s : State) (calls : List Call) (admissible : Admissible calls) :
    ∃ s' served, (run calls).run s = .ok ((), s') ∧
      Caches s'.glob.ext (queued calls) ∧
      visit.run s' = .ok (served.map Prod.fst, s') ∧ (served.map Prod.fst).Nodup ∧
      StablySorted Prod.snd (queued calls) served := by
  obtain ⟨_, s₁, ran, t, valid⟩ := (wp_iff_run _ _ _).mp (run_spec s calls admissible)
  obtain ⟨_, s₂, visited, rfl, rfl⟩ := (wp_iff_run _ _ _).mp (visit_spec s₁ t _ valid)
  have distinct := valid.held.distinct
  rw [addrs_eq_row] at distinct
  exact ⟨s₂, _, ran, valid.caches, visited, distinct, valid.sorted⟩

def tied : List Call :=
  [.add 0 ⟨0, none, none, 7⟩, .add 1 ⟨0, none, none, 7⟩, .add 2 ⟨0, none, none, 3⟩, .del 2]

theorem timer_queue_run_tied :
    Admissible tied ∧ queued tied = [(0, 7), (1, 7)] ∧
      ∃ s' served, (run tied).run ⟨fun _ => none, 0, ⟨none, none⟩⟩ = .ok ((), s') ∧
        Caches s'.glob.ext (queued tied) ∧
        visit.run s' = .ok (served.map Prod.fst, s') ∧ (served.map Prod.fst).Nodup ∧
        StablySorted Prod.snd (queued tied) served := by
  have admissible : Admissible tied := by
    rintro earlier call ⟨tail, cut⟩
    obtain _ | ⟨a, _ | ⟨b, _ | ⟨c, _ | ⟨d, _ | e⟩⟩⟩⟩ := earlier <;> simp [tied] at cut
    · obtain ⟨rfl, _⟩ := cut
      decide
    · obtain ⟨rfl, rfl, _⟩ := cut
      decide
    · obtain ⟨rfl, rfl, rfl, _⟩ := cut
      decide
    · obtain ⟨rfl, rfl, rfl, rfl, _⟩ := cut
      decide
  exact ⟨admissible, by decide, timer_queue_run _ tied admissible⟩

end DataStructure.TimerQueue
