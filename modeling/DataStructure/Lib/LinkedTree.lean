import DataStructure.Lib.Heap
import DataStructure.Lib.Zipper

/-! Binary trees linked through left, right and parent pointers.

A layout says which cell represents a label once its two children and its parent
are known. `Linked` and `LinkedTrail` describe a subtree and the rest of the tree
around it; both speak only of their own addresses, so an update elsewhere keeps
them. -/

namespace DataStructure.LinkedTree

open DataStructure.Program DataStructure.Heap DataStructure.Zipper

structure Layout (α N : Type) where
  addr : α → Nat
  cell : α → Ptr → Ptr → Ptr → N

variable {α N G : Type}

namespace Layout

variable (L : Layout α N)

def side (d : Side) (a : α) (near far parent : Ptr) : N :=
  match d with
  | .left => L.cell a near far parent
  | .right => L.cell a far near parent

def root : BinaryTree α → Ptr
  | .nil => none
  | .node a _ _ => some (L.addr a)

/-- The cell above the focus of a trail: `base` stands above the outermost frame. -/
def top (base : Ptr) : Trail α → Ptr
  | [] => base
  | f :: _ => some (L.addr f.label)

def addrs (t : BinaryTree α) : List Nat := (inorder t).map L.addr

def trailAddrs (trail : Trail α) : List Nat := (before trail ++ after trail).map L.addr

def Linked (c : Nat → Option N) : Ptr → BinaryTree α → Prop
  | _, .nil => True
  | parent, .node a l r => c (L.addr a) = some (L.cell a (L.root l) (L.root r) parent) ∧
      Linked c (some (L.addr a)) l ∧ Linked c (some (L.addr a)) r

def LinkedTrail (c : Nat → Option N) (base : Ptr) : Ptr → Trail α → Prop
  | _, [] => True
  | hole, f :: up =>
      c (L.addr f.label) = some (L.side f.side f.label hole (L.root f.other) (L.top base up)) ∧
      L.Linked c (some (L.addr f.label)) f.other ∧ LinkedTrail c base (some (L.addr f.label)) up

end Layout

variable {L : Layout α N}

@[simp] theorem root_nil : L.root .nil = none := rfl

@[simp] theorem root_node (a : α) (l r : BinaryTree α) : L.root (.node a l r) = some (L.addr a) := rfl

@[simp] theorem root_join (d : Side) (a : α) (x y : BinaryTree α) :
    L.root (join d a x y) = some (L.addr a) := by cases d <;> rfl

@[simp] theorem root_attach (f : Frame α) (t : BinaryTree α) :
    L.root (f.attach t) = some (L.addr f.label) := root_join _ _ _ _

theorem root_eq_none (t : BinaryTree α) : L.root t = none ↔ t = .nil := by
  cases t <;> simp

@[simp] theorem top_nil (base : Ptr) : L.top base [] = base := rfl

@[simp] theorem top_cons (base : Ptr) (f : Frame α) (up : Trail α) :
    L.top base (f :: up) = some (L.addr f.label) := rfl

theorem root_plug (trail : Trail α) (t u : BinaryTree α) (same : L.root t = L.root u) :
    L.root (plug trail t) = L.root (plug trail u) := by
  induction trail generalizing t u with
  | nil => exact same
  | cons f up ih => exact ih _ _ (by simp)

theorem side_flip (d : Side) (a : α) (x y p : Ptr) : L.side d.flip a x y p = L.side d a y x p := by
  cases d <;> rfl

@[simp] theorem addrs_nil : L.addrs .nil = [] := rfl

@[simp] theorem addrs_node (a : α) (l r : BinaryTree α) :
    L.addrs (.node a l r) = L.addrs l ++ L.addr a :: L.addrs r := by
  simp [Layout.addrs]

@[simp] theorem mem_addrs_join (d : Side) (a : α) (x y : BinaryTree α) (b : Nat) :
    b ∈ L.addrs (join d a x y) ↔ b = L.addr a ∨ b ∈ L.addrs x ∨ b ∈ L.addrs y := by
  cases d <;> simp [join] <;> tauto

theorem nodup_addrs_join (d : Side) (a : α) (x y : BinaryTree α) :
    (L.addrs (join d a x y)).Nodup ↔ (L.addrs x).Nodup ∧ (L.addrs y).Nodup ∧
      L.addr a ∉ L.addrs x ∧ L.addr a ∉ L.addrs y ∧ (L.addrs x).Disjoint (L.addrs y) := by
  cases d <;> simp only [join, addrs_node, List.nodup_append', List.nodup_cons,
    List.disjoint_cons_right] <;> grind [List.Disjoint]

theorem root_mem_addrs (t : BinaryTree α) (a : Nat) (pointed : L.root t = some a) : a ∈ L.addrs t := by
  cases t with
  | nil => simp at pointed
  | node b l r =>
      simp only [root_node, Option.some.injEq] at pointed
      simp [pointed]

@[simp] theorem trailAddrs_nil : L.trailAddrs [] = [] := rfl

@[simp] theorem mem_trailAddrs_cons (f : Frame α) (up : Trail α) (b : Nat) :
    b ∈ L.trailAddrs (f :: up) ↔
      b = L.addr f.label ∨ b ∈ L.addrs f.other ∨ b ∈ L.trailAddrs up := by
  obtain ⟨side, a, other⟩ := f
  cases side <;> simp only [Layout.trailAddrs, Layout.addrs, before, after, List.map_append,
    List.mem_append, List.map_cons, List.mem_cons, List.map_nil, List.not_mem_nil] <;> tauto

theorem not_mem_of_nodup_trail (f : Frame α) (up : Trail α)
    (distinct : (L.trailAddrs (f :: up)).Nodup) :
    L.addr f.label ∉ L.addrs f.other ∧ L.addr f.label ∉ L.trailAddrs up := by
  obtain ⟨side, a, t⟩ := f
  cases side <;>
    simp only [Layout.trailAddrs, Layout.addrs, before, after, List.map_append, List.map_cons,
      List.map_nil, List.nodup_append, List.nodup_cons, List.mem_append,
      List.mem_cons] at distinct ⊢ <;>
    grind

theorem addrs_plug_perm (trail : Trail α) (t : BinaryTree α) :
    (L.addrs (plug trail t)).Perm (L.trailAddrs trail ++ L.addrs t) := by
  simp only [Layout.addrs, Layout.trailAddrs, inorder_plug, List.map_append, List.append_assoc]
  exact List.Perm.append_left _ List.perm_append_comm

theorem mem_addrs_plug (trail : Trail α) (t : BinaryTree α) (b : Nat) :
    b ∈ L.addrs (plug trail t) ↔ b ∈ L.trailAddrs trail ∨ b ∈ L.addrs t := by
  rw [(addrs_plug_perm trail t).mem_iff, List.mem_append]

theorem addrs_plug_node_perm (trail : Trail α) (a : α) (t : BinaryTree α) :
    (L.addrs (plug trail (.node a .nil t))).Perm (L.addr a :: L.addrs (plug trail t)) := by
  refine (addrs_plug_perm trail _).trans ?_
  rw [addrs_node, addrs_nil, List.nil_append]
  exact List.perm_middle.trans ((addrs_plug_perm trail t).symm.cons (L.addr a))

theorem label_ne_of_not_mem (f : Frame α) (up : Trail α) (t : BinaryTree α) (a : Nat)
    (outside : a ∉ L.addrs (plug (f :: up) t)) : L.addr f.label ≠ a := by
  intro same
  apply outside
  rw [mem_addrs_plug, ← same]
  exact Or.inl (by simp)

@[simp] theorem linked_nil (c : Nat → Option N) (p : Ptr) : L.Linked c p .nil := trivial

@[simp] theorem linked_node (c : Nat → Option N) (p : Ptr) (a : α) (l r : BinaryTree α) :
    L.Linked c p (.node a l r) ↔ c (L.addr a) = some (L.cell a (L.root l) (L.root r) p) ∧
      L.Linked c (some (L.addr a)) l ∧ L.Linked c (some (L.addr a)) r := Iff.rfl

@[simp] theorem linked_join (c : Nat → Option N) (p : Ptr) (d : Side) (a : α) (x y : BinaryTree α) :
    L.Linked c p (join d a x y) ↔ c (L.addr a) = some (L.side d a (L.root x) (L.root y) p) ∧
      L.Linked c (some (L.addr a)) x ∧ L.Linked c (some (L.addr a)) y := by
  cases d with
  | left => rfl
  | right =>
      simp only [join, Layout.side, linked_node]
      tauto

theorem linked_live (c : Nat → Option N) (p : Ptr) (t : BinaryTree α) (b : α)
    (linked : L.Linked c p t) (member : b ∈ inorder t) :
    ∃ left right parent, c (L.addr b) = some (L.cell b left right parent) := by
  induction t generalizing p with
  | nil => simp at member
  | node a l r ihl ihr =>
      obtain ⟨here, left, right⟩ := linked
      simp only [inorder_node, List.mem_append, List.mem_cons] at member
      rcases member with member | rfl | member
      · exact ihl _ left member
      · exact ⟨_, _, _, here⟩
      · exact ihr _ right member

@[simp] theorem linkedTrail_nil (c : Nat → Option N) (base hole : Ptr) :
    L.LinkedTrail c base hole [] := trivial

@[simp] theorem linkedTrail_cons (c : Nat → Option N) (base hole : Ptr) (f : Frame α) (up : Trail α) :
    L.LinkedTrail c base hole (f :: up) ↔
      c (L.addr f.label) = some (L.side f.side f.label hole (L.root f.other) (L.top base up)) ∧
      L.Linked c (some (L.addr f.label)) f.other ∧
      L.LinkedTrail c base (some (L.addr f.label)) up := Iff.rfl

/-- The whole tree is linked exactly when its focus and its trail are. -/
theorem linked_plug (c : Nat → Option N) (base : Ptr) (trail : Trail α) (t : BinaryTree α) :
    L.Linked c base (plug trail t) ↔
      L.LinkedTrail c base (L.root t) trail ∧ L.Linked c (L.top base trail) t := by
  induction trail generalizing t with
  | nil => simp
  | cons f up ih =>
      rw [plug_cons, ih]
      simp only [Frame.attach, root_join, linked_join, linkedTrail_cons, top_cons]
      tauto

theorem linked_congr (c c' : Nat → Option N) (p : Ptr) (t : BinaryTree α)
    (agree : ∀ a ∈ L.addrs t, c' a = c a) : L.Linked c' p t ↔ L.Linked c p t := by
  induction t generalizing p with
  | nil => rfl
  | node a l r ihl ihr =>
      simp only [addrs_node, List.mem_append, List.mem_cons] at agree
      rw [linked_node, linked_node, agree _ (Or.inr (Or.inl rfl)),
        ihl _ (fun b member => agree b (Or.inl member)),
        ihr _ (fun b member => agree b (Or.inr (Or.inr member)))]

theorem linkedTrail_congr (c c' : Nat → Option N) (base hole : Ptr) (trail : Trail α)
    (agree : ∀ a ∈ L.trailAddrs trail, c' a = c a) :
    L.LinkedTrail c' base hole trail ↔ L.LinkedTrail c base hole trail := by
  induction trail generalizing hole with
  | nil => rfl
  | cons f up ih =>
      simp only [mem_trailAddrs_cons] at agree
      rw [linkedTrail_cons, linkedTrail_cons, agree _ (Or.inl rfl),
        linked_congr c c' _ _ (fun b member => agree b (Or.inr (Or.inl member))),
        ih _ (fun b member => agree b (Or.inr (Or.inr member)))]

@[simp] theorem linked_put (s : Store G N) (b : Nat) (n : N) (p : Ptr) (t : BinaryTree α)
    (outside : b ∉ L.addrs t) : L.Linked (s.put b n).cell p t ↔ L.Linked s.cell p t := by
  apply linked_congr
  intro a member
  exact Store.put_cell_of_ne s b a n (by rintro rfl; exact outside member)

@[simp] theorem linkedTrail_put (s : Store G N) (b : Nat) (n : N) (base hole : Ptr)
    (trail : Trail α) (outside : b ∉ L.trailAddrs trail) :
    L.LinkedTrail (s.put b n).cell base hole trail ↔ L.LinkedTrail s.cell base hole trail := by
  apply linkedTrail_congr
  intro a member
  exact Store.put_cell_of_ne s b a n (by rintro rfl; exact outside member)

@[simp] theorem addrs_hangLast (l r : BinaryTree α) :
    L.addrs (hangLast l r) = L.addrs l ++ L.addrs r := by
  simp [Layout.addrs, inorder_hangLast]

theorem root_hangLast (l r : BinaryTree α) (nonempty : l ≠ .nil) :
    L.root (hangLast l r) = L.root l := by
  cases l with
  | nil => exact absurd rfl nonempty
  | node a x y => rfl

theorem linked_hangLast (c c' : Nat → Option N) (p : Ptr) (l r : BinaryTree α) (P : α) (f : N → N)
    (sets : ∀ a x y q, f (L.cell a x y q) = L.cell a x (L.root r) q)
    (last : (inorder l).getLast? = some P) (distinct : (L.addrs l).Nodup)
    (linked : L.Linked c p l) (rewritten : c' (L.addr P) = (c (L.addr P)).map f)
    (agree : ∀ a ∈ L.addrs l, a ≠ L.addr P → c' a = c a)
    (hung : L.Linked c' (some (L.addr P)) r) : L.Linked c' p (hangLast l r) := by
  induction l generalizing p with
  | nil => simp at last
  | node a x y _ ih =>
      obtain ⟨cellA, left, right⟩ := linked
      simp only [addrs_node, List.nodup_append', List.nodup_cons, List.disjoint_cons_right] at distinct
      obtain ⟨_, ⟨absentY, distinctY⟩, absentX, disjoint⟩ := distinct
      cases y with
      | nil =>
          obtain rfl : a = P := by simpa using last
          refine ⟨by rw [rewritten, cellA, Option.map_some, sets]; rfl, ?_, hung⟩
          refine (linked_congr _ _ _ _ fun b member => agree b (by simp [member]) ?_).mpr left
          rintro rfl
          exact absentX member
      | node b u w =>
          have lastY : (inorder (.node b u w)).getLast? = some P := by
            simpa [List.getLast?_append, List.getLast?_cons] using last
          have memberP : L.addr P ∈ L.addrs (.node b u w) :=
            List.mem_map_of_mem (List.mem_of_getLast? lastY)
          refine ⟨?_, ?_, ih _ lastY distinctY right fun e member => agree e (by simp_all)⟩
          · rw [agree _ (by simp) (by rintro same; exact absentY (same ▸ memberP)), cellA]
            rfl
          · refine (linked_congr _ _ _ _ fun e member => agree e (by simp [member]) ?_).mpr left
            rintro rfl
            exact disjoint member memberP

-- Two stores that differ at most at the listed addresses.

structure Touches (written : List Nat) (s s' : Store G N) : Prop where
  cell : ∀ a, a ∉ written → s'.cell a = s.cell a
  brk : s'.brk = s.brk
  glob : s'.glob = s.glob

theorem Touches.refl (written : List Nat) (s : Store G N) : Touches written s s :=
  ⟨fun _ _ => rfl, rfl, rfl⟩

theorem Touches.linked {written : List Nat} {s s' : Store G N} (touches : Touches written s s')
    (p : Ptr) (t : BinaryTree α) (apart : ∀ a ∈ L.addrs t, a ∉ written)
    (linked : L.Linked s.cell p t) : L.Linked s'.cell p t :=
  (linked_congr _ _ p t (fun a member => touches.cell a (apart a member))).mpr linked

theorem Touches.linkedTrail {written : List Nat} {s s' : Store G N} (touches : Touches written s s')
    (base hole : Ptr) (trail : Trail α) (apart : ∀ a ∈ L.trailAddrs trail, a ∉ written)
    (linked : L.LinkedTrail s.cell base hole trail) : L.LinkedTrail s'.cell base hole trail :=
  (linkedTrail_congr _ _ base hole trail (fun a member => touches.cell a (apart a member))).mpr linked

theorem linked_reparent (s : Store G N) (a : α) (l r : BinaryTree α) (p q : Ptr)
    (linked : L.Linked s.cell p (.node a l r)) (distinct : (L.addrs (.node a l r)).Nodup) :
    L.Linked (s.put (L.addr a) (L.cell a (L.root l) (L.root r) q)).cell q (.node a l r) := by
  obtain ⟨_, left, right⟩ := linked
  simp only [addrs_node, List.nodup_append, List.nodup_cons] at distinct
  obtain ⟨_, ⟨outsideRight, _⟩, outsideLeft⟩ := distinct
  have absent : L.addr a ∉ L.addrs l := fun member => outsideLeft _ member _ (by simp) rfl
  rw [linked_node, linked_put _ _ _ _ _ absent, linked_put _ _ _ _ _ outsideRight]
  exact ⟨Store.put_cell_self _ _ _, left, right⟩

theorem wp_reparent_root (s : Store G N) (t : BinaryTree α) (p q : Ptr) (f : N → N)
    (sets : ∀ a l r, f (L.cell a l r p) = L.cell a l r q) (nonempty : t ≠ .nil)
    (linked : L.Linked s.cell p t) (distinct : (L.addrs t).Nodup) (post : Unit → Store G N → Prop)
    (continues : ∀ s', L.Linked s'.cell q t → Touches (L.addrs t) s s' → post () s') :
    wp (assign (L.root t) f) post s := by
  cases t with
  | nil => exact absurd rfl nonempty
  | node a l r =>
      simp only [root_node, wp_assign]
      refine ⟨_, linked.1, continues _ ?_ ⟨?_, rfl, rfl⟩⟩
      · rw [sets]
        exact linked_reparent s a l r p q linked distinct
      · intro b outside
        exact Store.put_cell_of_ne _ _ _ _ (by rintro rfl; exact outside (by simp))

theorem wp_reparent (s : Store G N) (t : BinaryTree α) (p q : Ptr) (f : N → N)
    (sets : ∀ a l r, f (L.cell a l r p) = L.cell a l r q)
    (linked : L.Linked s.cell p t) (distinct : (L.addrs t).Nodup) (post : Unit → Store G N → Prop)
    (continues : ∀ s', L.Linked s'.cell q t → Touches (L.addrs t) s s' → post () s') :
    wp (onlyIf (L.root t).isSome (assign (L.root t) f)) post s := by
  rw [wp_onlyIf]
  by_cases empty : t = .nil
  · subst empty
    simpa using continues s (linked_nil _ _) (Touches.refl _ _)
  · have live : (L.root t).isSome = true := by
      rw [Option.isSome_iff_ne_none, ne_eq, root_eq_none]
      exact empty
    rw [live, if_pos rfl]
    exact wp_reparent_root s t p q f sets empty linked distinct post continues

/-- The parent's child pointer is moved from `hole` to `q`, the side being found
by comparing the child on side `e` with `hole`. -/
theorem wp_repoint (s : Store G N) (base : Ptr) (f : Frame α) (up : Trail α) (hole : Nat) (q : Ptr)
    (e : Side)
    (get : N → Ptr) (setNear setFar : N → N)
    (gets : ∀ a x y p, get (L.side e a x y p) = x)
    (setsNear : ∀ a x y p, setNear (L.side e a x y p) = L.side e a q y p)
    (setsFar : ∀ a x y p, setFar (L.side e a x y p) = L.side e a x q p)
    (linked : L.LinkedTrail s.cell base (some hole) (f :: up))
    (apart : hole ∉ L.addrs f.other) (distinct : (L.trailAddrs (f :: up)).Nodup)
    (post : Unit → Store G N → Prop)
    (continues : ∀ s', L.LinkedTrail s'.cell base q (f :: up) →
      Touches [L.addr f.label] s s' → post () s') :
    wp (load (some (L.addr f.label)) >>= fun n =>
      if get n = some hole then assign (some (L.addr f.label)) setNear
      else assign (some (L.addr f.label)) setFar) post s := by
  obtain ⟨here, other, above⟩ := linked
  have outside := not_mem_of_nodup_trail f up distinct
  have written (n : N) (value : n = L.side f.side f.label q (L.root f.other) (L.top base up)) :
      post () (s.put (L.addr f.label) n) := by
    subst value
    refine continues _ ⟨Store.put_cell_self _ _ _, ?_, ?_⟩ ⟨?_, rfl, rfl⟩
    · exact (linked_put _ _ _ _ _ outside.1).mpr other
    · exact (linkedTrail_put _ _ _ _ _ _ outside.2).mpr above
    · intro b different
      exact Store.put_cell_of_ne _ _ _ _ (by simpa using different)
  simp only [wp_bind, wp_load, here, Option.some.injEq, exists_eq_left', wp_ite]
  by_cases near : f.side = e
  · subst near
    simp only [gets, if_true, wp_assign, here, Option.some.injEq, exists_eq_left']
    exact written _ (setsNear _ _ _ _)
  · have far : f.side = e.flip := eq_flip_of_ne _ _ near
    have missed : L.root f.other ≠ some hole := fun pointed => apart (root_mem_addrs _ _ pointed)
    rw [far, side_flip] at here written ⊢
    rw [gets, if_neg missed]
    simp only [wp_assign, here, Option.some.injEq, exists_eq_left']
    exact written _ (setsFar _ _ _ _)

theorem wp_repoint_if (s : Store G N) (trail : Trail α) (hole : Nat) (q : Ptr) (e : Side)
    (get : N → Ptr) (setNear setFar : N → N)
    (gets : ∀ a x y p, get (L.side e a x y p) = x)
    (setsNear : ∀ a x y p, setNear (L.side e a x y p) = L.side e a q y p)
    (setsFar : ∀ a x y p, setFar (L.side e a x y p) = L.side e a x q p)
    (linked : L.LinkedTrail s.cell none (some hole) trail)
    (apart : hole ∉ L.trailAddrs trail) (distinct : (L.trailAddrs trail).Nodup)
    (post : Unit → Store G N → Prop)
    (continues : ∀ s', L.LinkedTrail s'.cell none q trail →
      Touches (L.trailAddrs trail) s s' → post () s') :
    wp (onlyIf (L.top none trail).isSome (load (L.top none trail) >>= fun n =>
      if get n = some hole then assign (L.top none trail) setNear
      else assign (L.top none trail) setFar)) post s := by
  rw [wp_onlyIf]
  cases trail with
  | nil => simpa using continues s (linkedTrail_nil _ _ _) (Touches.refl _ _)
  | cons f up =>
      simp only [top_cons, Option.isSome_some, if_true]
      refine wp_repoint s none f up hole q e get setNear setFar gets setsNear setsFar linked
        (fun member => apart (by simp [member])) distinct post ?_
      intro s' relinked touches
      refine continues s' relinked ⟨fun b outside => touches.cell b ?_, touches.brk, touches.glob⟩
      simp only [mem_trailAddrs_cons, not_or] at outside
      simpa using outside.1

/-- The store holds the tree `t`: its cells are linked to one another and to no
parent above the root, no two labels share a cell, and every cell was allocated. -/
structure Holds (L : Layout α N) (s : Store G N) (t : BinaryTree α) : Prop where
  linked : L.Linked s.cell none t
  distinct : (L.addrs t).Nodup
  allocated : ∀ a ∈ L.addrs t, a < s.brk

structure Focus (L : Layout α N) (s : Store G N) (trail : Trail α) (t : BinaryTree α) : Prop where
  around : L.LinkedTrail s.cell none (L.root t) trail
  subtree : L.Linked s.cell (L.top none trail) t
  distinct : (L.trailAddrs trail ++ L.addrs t).Nodup
  allocated : ∀ a ∈ L.trailAddrs trail ++ L.addrs t, a < s.brk

theorem holds_plug (s : Store G N) (trail : Trail α) (t : BinaryTree α) :
    Holds L s (plug trail t) ↔ Focus L s trail t := by
  have perm := addrs_plug_perm (L := L) trail t
  constructor
  · intro held
    obtain ⟨above, below⟩ := (linked_plug s.cell none trail t).mp held.linked
    exact ⟨above, below, perm.nodup_iff.mp held.distinct,
      fun a member => held.allocated a (perm.mem_iff.mpr member)⟩
  · intro focus
    exact ⟨(linked_plug s.cell none trail t).mpr ⟨focus.around, focus.subtree⟩,
      perm.nodup_iff.mpr focus.distinct,
      fun a member => focus.allocated a (perm.mem_iff.mp member)⟩

/-- A store that keeps the addresses in place and links them as `t'` holds `t'`. -/
theorem Holds.relink {s s' : Store G N} {t t' : BinaryTree α} (held : Holds L s t)
    (same : L.addrs t' = L.addrs t) (brk : s'.brk = s.brk)
    (linked : L.Linked s'.cell none t') : Holds L s' t' := by
  refine ⟨linked, ?_, ?_⟩
  · rw [same]
    exact held.distinct
  · rw [same, brk]
    exact held.allocated

theorem Holds.frame {s s' : Store G N} {t : BinaryTree α} (held : Holds L s t)
    (agree : ∀ a ∈ L.addrs t, s'.cell a = s.cell a) (brk : s.brk ≤ s'.brk) : Holds L s' t :=
  ⟨(linked_congr _ _ _ _ agree).mpr held.linked, held.distinct,
    fun a member => (held.allocated a member).trans_le brk⟩

/-- The parts of a tree that a rotation at `P` takes apart occupy disjoint cells. -/
structure Apart (L : Layout α N) (trail : Trail α) (P T : α) (A B C : BinaryTree α) : Prop where
  nodupTrail : (L.trailAddrs trail).Nodup
  nodupB : (L.addrs B).Nodup
  ne : L.addr P ≠ L.addr T
  trailP : L.addr P ∉ L.trailAddrs trail
  trailT : L.addr T ∉ L.trailAddrs trail
  A_P : L.addr P ∉ L.addrs A
  A_T : L.addr T ∉ L.addrs A
  B_P : L.addr P ∉ L.addrs B
  B_T : L.addr T ∉ L.addrs B
  C_P : L.addr P ∉ L.addrs C
  C_T : L.addr T ∉ L.addrs C
  trail_A : ∀ a ∈ L.addrs A, a ∉ L.trailAddrs trail
  trail_B : ∀ a ∈ L.addrs B, a ∉ L.trailAddrs trail
  trail_C : ∀ a ∈ L.addrs C, a ∉ L.trailAddrs trail
  B_A : ∀ a ∈ L.addrs A, a ∉ L.addrs B
  B_C : ∀ a ∈ L.addrs C, a ∉ L.addrs B

theorem Focus.apart {s : Store G N} {trail : Trail α} {d : Side} {P T : α} {A B C : BinaryTree α}
    (focus : Focus L s trail (join d P (join d T A B) C)) : Apart L trail P T A B C := by
  obtain ⟨nodupTrail, tree, disjoint⟩ := List.nodup_append'.mp focus.distinct
  simp only [nodup_addrs_join, mem_addrs_join, not_or] at tree
  obtain ⟨⟨_, nodupB, absentTA, absentTB, disjointAB⟩, _, ⟨ne, absentPA, absentPB⟩, absentPC,
    disjointC⟩ := tree
  have outside (a : Nat) (member : a ∈ L.addrs (join d P (join d T A B) C)) :
      a ∉ L.trailAddrs trail := fun inside => disjoint inside member
  exact {
    nodupTrail := nodupTrail
    nodupB := nodupB
    ne := ne
    trailP := outside _ (by simp)
    trailT := outside _ (by simp)
    A_P := absentPA
    A_T := absentTA
    B_P := absentPB
    B_T := absentTB
    C_P := absentPC
    C_T := fun inside => disjointC (by simp) inside
    trail_A := fun a member => outside a (by simp [member])
    trail_B := fun a member => outside a (by simp [member])
    trail_C := fun a member => outside a (by simp [member])
    B_A := fun a member inside => disjointAB member inside
    B_C := fun a member inside => disjointC (by simp [inside]) member }

/-- A rotation is correct once the two cells it rewrites, the subtree it moves and
the pointer above are as the rotated tree has them. The labels of the two cells
may change, their addresses may not. -/
theorem Focus.rotated {s s' : Store G N} {trail : Trail α} {d : Side} {P T P' T' : α}
    {A B C : BinaryTree α} (focus : Focus L s trail (join d P (join d T A B) C))
    (addrP : L.addr P' = L.addr P) (addrT : L.addr T' = L.addr T) (brk : s'.brk = s.brk)
    (cellP : s'.cell (L.addr P) =
      some (L.side d P' (L.root B) (L.root C) (some (L.addr T))))
    (cellT : s'.cell (L.addr T) =
      some (L.side d T' (L.root A) (some (L.addr P)) (L.top none trail)))
    (linkedB : L.Linked s'.cell (some (L.addr P)) B)
    (around : L.LinkedTrail s'.cell none (some (L.addr T)) trail)
    (keeps : ∀ a, a ≠ L.addr P → a ≠ L.addr T → a ∉ L.addrs B → a ∉ L.trailAddrs trail →
      s'.cell a = s.cell a) :
    Holds L s' (plug trail (join d T' A (join d P' B C))) := by
  have apart := focus.apart
  obtain ⟨_, ⟨_, linkedA, _⟩, linkedC⟩ := by simpa only [linked_join] using focus.subtree
  have keepsA (a : Nat) (member : a ∈ L.addrs A) : s'.cell a = s.cell a :=
    keeps a (by rintro rfl; exact apart.A_P member) (by rintro rfl; exact apart.A_T member)
      (apart.B_A a member) (apart.trail_A a member)
  have keepsC (a : Nat) (member : a ∈ L.addrs C) : s'.cell a = s.cell a :=
    keeps a (by rintro rfl; exact apart.C_P member) (by rintro rfl; exact apart.C_T member)
      (apart.B_C a member) (apart.trail_C a member)
  refine ((holds_plug s trail _).mpr focus).relink ?_ brk ?_
  · simp only [Layout.addrs, inorder_plug, List.map_append]
    cases d <;> simp [join, addrP, addrT]
  · rw [linked_plug]
    simp only [root_join, linked_join, addrP, addrT]
    exact ⟨around, cellT, (linked_congr _ _ _ _ keepsA).mpr linkedA, cellP, linkedB,
      (linked_congr _ _ _ _ keepsC).mpr linkedC⟩

theorem Focus.relabeled {s s' : Store G N} {trail : Trail α} {d : Side} {a a' : α}
    {x y : BinaryTree α} (focus : Focus L s trail (join d a x y)) (addr : L.addr a' = L.addr a)
    (brk : s'.brk = s.brk)
    (cell : s'.cell (L.addr a) = some (L.side d a' (L.root x) (L.root y) (L.top none trail)))
    (keeps : ∀ b, b ≠ L.addr a → s'.cell b = s.cell b) :
    Holds L s' (plug trail (join d a' x y)) := by
  obtain ⟨_, tree, disjoint⟩ := List.nodup_append'.mp focus.distinct
  obtain ⟨_, _, absentX, absentY, _⟩ := (nodup_addrs_join d a x y).mp tree
  obtain ⟨_, linkedX, linkedY⟩ := (linked_join _ _ d a x y).mp focus.subtree
  have keepsIn (b : Nat) (bs : List Nat) (absent : L.addr a ∉ bs) (member : b ∈ bs) :
      s'.cell b = s.cell b := keeps b (by rintro rfl; exact absent member)
  have outside : L.addr a ∉ L.trailAddrs trail := fun inside => disjoint inside (by simp)
  refine ((holds_plug s trail _).mpr focus).relink ?_ brk ?_
  · simp only [Layout.addrs, inorder_plug, List.map_append]
    cases d <;> simp [join, addr]
  · rw [linked_plug]
    simp only [root_join, linked_join, addr]
    refine ⟨?_, cell, ?_, ?_⟩
    · exact (linkedTrail_congr _ _ _ _ _ fun b => keepsIn b _ outside).mpr (by simpa using focus.around)
    · exact (linked_congr _ _ _ _ fun b => keepsIn b _ absentX).mpr linkedX
    · exact (linked_congr _ _ _ _ fun b => keepsIn b _ absentY).mpr linkedY

theorem Focus.replaced {s s' : Store G N} {trail : Trail α} {t u : BinaryTree α}
    (focus : Focus L s trail t) (fewer : (L.addrs u).Sublist (L.addrs t)) (brk : s'.brk = s.brk)
    (around : L.LinkedTrail s'.cell none (L.root u) trail)
    (subtree : L.Linked s'.cell (L.top none trail) u) : Holds L s' (plug trail u) := by
  have sub : (L.trailAddrs trail ++ L.addrs u).Sublist (L.trailAddrs trail ++ L.addrs t) :=
    List.Sublist.append_left fewer _
  rw [holds_plug]
  refine ⟨around, subtree, focus.distinct.sublist sub, ?_⟩
  intro a member
  rw [brk]
  exact focus.allocated a (sub.subset member)

theorem root_plug_mem (f : Frame α) (up : Trail α) (t : BinaryTree α) :
    ∃ a ∈ L.trailAddrs (f :: up), L.root (plug (f :: up) t) = some a := by
  induction up generalizing f t with
  | nil => exact ⟨L.addr f.label, by simp, by simp⟩
  | cons g up ih =>
      obtain ⟨a, member, pointed⟩ := ih g (f.attach t)
      exact ⟨a, (mem_trailAddrs_cons _ _ _).mpr (Or.inr (Or.inr member)), pointed⟩

theorem Focus.grown {s s' : Store G N} {f : Frame α} {up : Trail α} {T : α}
    (focus : Focus L s (f :: up) .nil) (fresh : L.addr T ∉ L.trailAddrs (f :: up))
    (bound : L.addr T < s'.brk) (brk : s.brk ≤ s'.brk)
    (cellT : s'.cell (L.addr T) = some (L.cell T none none (some (L.addr f.label))))
    (above : s'.cell (L.addr f.label) =
      some (L.side f.side f.label (some (L.addr T)) (L.root f.other) (L.top none up)))
    (keeps : ∀ a, a ≠ L.addr T → a ≠ L.addr f.label → s'.cell a = s.cell a) :
    Holds L s' (plug (f :: up) (.node T .nil .nil)) := by
  obtain ⟨_, other, higher⟩ := focus.around
  have distinct : (L.trailAddrs (f :: up)).Nodup := by simpa using focus.distinct
  obtain ⟨absentOther, absentUp⟩ := not_mem_of_nodup_trail f up distinct
  simp only [mem_trailAddrs_cons, not_or] at fresh
  rw [holds_plug]
  refine ⟨⟨above, ?_, ?_⟩, ⟨cellT, linked_nil _ _, linked_nil _ _⟩, ?_, ?_⟩
  · refine (linked_congr _ _ _ _ fun a member => keeps a ?_ ?_).mpr other
    · rintro rfl
      exact fresh.2.1 member
    · rintro rfl
      exact absentOther member
  · refine (linkedTrail_congr _ _ _ _ _ fun a member => keeps a ?_ ?_).mpr higher
    · rintro rfl
      exact fresh.2.2 member
    · rintro rfl
      exact absentUp member
  · simp only [addrs_node, addrs_nil, List.nil_append, List.nodup_append', List.nodup_singleton,
      List.disjoint_singleton]
    exact ⟨distinct, trivial, by simp [fresh]⟩
  · intro a member
    simp only [addrs_node, addrs_nil, List.nil_append, List.mem_append, List.mem_singleton] at member
    rcases member with member | rfl
    · exact lt_of_lt_of_le (focus.allocated a (by simpa using member)) brk
    · exact bound

/-- A new cell is allocated with the parent `f.label` and then hung into the empty
place below it. -/
theorem wp_hang {β : Type} (s : Store G N) (f : Frame α) (up : Trail α) (T : α) (n : N)
    (set : Ptr → N → N) (next : Ptr → Prog (Store G N) β) (post : β → Store G N → Prop)
    (fresh : L.addr T = s.brk) (cellT : n = L.cell T none none (some (L.addr f.label)))
    (sets : ∀ q x y p, set q (L.side f.side f.label x y p) = L.side f.side f.label q y p)
    (held : Holds L s (plug (f :: up) .nil))
    (continues : ∀ s', Holds L s' (plug (f :: up) (.node T .nil .nil)) → s'.glob = s.glob →
      wp (next (some (L.addr T))) post s') :
    wp (malloc n >>= fun q => assign (some (L.addr f.label)) (set q) >>= fun _ => next q) post s := by
  have focus := (holds_plug s (f :: up) _).mp held
  obtain ⟨cellP, _⟩ := focus.around
  have old : L.addr f.label < s.brk := focus.allocated _ (by simp)
  simp only [wp_bind, wp_malloc, wp_assign, Store.put_cell_of_ne _ _ _ _ old.ne, cellP,
    Option.some.injEq, exists_eq_left', sets]
  rw [← fresh]
  refine continues _ (focus.grown ?_ (Nat.lt_succ_self _) (fresh ▸ Nat.le_succ _) ?_ ?_ ?_) rfl
  · intro member
    have bound := focus.allocated _ (List.mem_append_left _ member)
    omega
  · rw [Store.put_cell_of_ne _ _ _ _ (by omega), ← cellT]
    exact Store.put_cell_self _ _ _
  · exact Store.put_cell_self _ _ _
  · intro b different parent
    exact (Store.put_cell_of_ne _ _ _ _ parent).trans (Store.put_cell_of_ne _ _ _ _ different)

/-- Linked cells are distinct allocated cells, so the tree is no larger than `brk`. -/
theorem Holds.numNodes_le {s : Store G N} {t : BinaryTree α} (held : Holds L s t) :
    (inorder t).length ≤ s.brk := by
  have bounded : (L.addrs t).toFinset ⊆ Finset.range s.brk := by
    intro a member
    simpa using held.allocated a (by simpa using member)
  have card := Finset.card_le_card bounded
  rw [List.toFinset_card_of_nodup held.distinct, Finset.card_range] at card
  simpa [Layout.addrs] using card

theorem trail_length_le (trail : Trail α) (t : BinaryTree α) :
    trail.length + (inorder t).length ≤ (inorder (plug trail t)).length := by
  induction trail generalizing t with
  | nil => simp
  | cons f up ih =>
      have step := ih (f.attach t)
      have grows : (inorder t).length + 1 ≤ (inorder (f.attach t)).length := by
        obtain ⟨side, a, other⟩ := f
        cases side <;> simp [Frame.attach, join]
      simp only [List.length_cons, plug_cons]
      omega

end DataStructure.LinkedTree
