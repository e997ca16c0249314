import DataStructure.List.ListHead

/-! Sequences of calls of `list/gap_mclist.h` on any number of lists, against ideal sequences. -/

namespace DataStructure.ListHead

open Program Heap DoublyLinked

abbrev Lists := Nat → Option (List Nat)

def placeAfter (e p l : Nat) (xs : List Nat) : List Nat :=
  if p = l then e :: xs
  else xs.flatMap fun x => if x = p then [x, e] else [x]

def placeBefore (e p l : Nat) (xs : List Nat) : List Nat :=
  if p = l then xs ++ [e]
  else xs.flatMap fun x => if x = p then [e, x] else [x]

def renamed (old new : Nat) (i : Lists) : Lists :=
  match i old with
  | some xs => Function.update (Function.update i old none) new (some xs)
  | none => fun l => (i l).map (List.map fun x => if x = old then new else x)

inductive Call where
  | initListHead (list : Nat)
  | listAdd (nelm head : Nat)
  | listAddTail (nelm head : Nat)
  | listDel (entry : Nat)
  | listReplace (old nelm : Nat)
  | listReplaceInit (old nelm : Nat)
  | listMove (list head : Nat)
  | listMoveTail (list head : Nat)
  | listDelIf (head : Nat) (chosen : Nat → Bool)

def Call.exec : Call → Prog Memory Unit
  | initListHead list => ListHead.initListHead (some list)
  | listAdd nelm head => ListHead.listAdd (some nelm) (some head)
  | listAddTail nelm head => ListHead.listAddTail (some nelm) (some head)
  | listDel entry => ListHead.listDel (some entry)
  | listReplace old nelm => ListHead.listReplace (some old) (some nelm)
  | listReplaceInit old nelm => ListHead.listReplaceInit (some old) (some nelm)
  | listMove list head => ListHead.listMove (some list) (some head)
  | listMoveTail list head => ListHead.listMoveTail (some list) (some head)
  | listDelIf head chosen => ListHead.listDelIf head chosen

def addAfter (e p : Nat) (i : Lists) : Lists := fun l =>
  (i l).map fun xs => if p ∈ l :: xs then placeAfter e p l xs else xs

def addBefore (e p : Nat) (i : Lists) : Lists := fun l =>
  (i l).map fun xs => if p ∈ l :: xs then placeBefore e p l xs else xs

def erased (e : Nat) (i : Lists) : Lists := fun l => (i l).map (·.erase e)

def Call.ideal (i : Lists) : Call → Lists
  | initListHead list => Function.update i list (some [])
  | listAdd nelm head => addAfter nelm head i
  | listAddTail nelm head => addBefore nelm head i
  | listDel entry => erased entry i
  | listReplace old nelm => renamed old nelm i
  | listReplaceInit old nelm => Function.update (renamed old nelm i) old (some [])
  | listMove list head => addAfter list head (erased list i)
  | listMoveTail list head => addBefore list head (erased list i)
  | listDelIf head chosen => Function.update i head ((i head).map (·.filter fun x => !chosen x))

def Linked (i : Lists) (a : Nat) : Prop := ∃ l xs, i l = some xs ∧ a ∈ l :: xs

def Listed (i : Lists) (a : Nat) : Prop := ∃ l xs, i l = some xs ∧ a ∈ xs

/-- What the calls ask of their arguments, which are nodes below `count`. -/
def Call.Valid (count : Nat) (i : Lists) : Call → Prop
  | initListHead list => list < count ∧ ¬Linked i list
  | listAdd nelm head | listAddTail nelm head => nelm < count ∧ ¬Linked i nelm ∧ Linked i head
  | listDel entry => Listed i entry
  | listReplace old nelm | listReplaceInit old nelm => Linked i old ∧ nelm < count ∧ ¬Linked i nelm
  | listMove list head | listMoveTail list head => Listed i list ∧ Linked i head ∧ list ≠ head
  | listDelIf head _ => ∃ xs, i head = some xs

def Admissible (count : Nat) (i : Lists) : List Call → Prop
  | [] => True
  | call :: rest => call.Valid count i ∧ Admissible count (call.ideal i) rest

theorem flatMap_singletons {f : Nat → List Nat} {xs : List Nat} (same : ∀ x ∈ xs, f x = [x]) :
    xs.flatMap f = xs := by
  induction xs with
  | nil => rfl
  | cons x xs ih =>
      rw [List.flatMap_cons, same x List.mem_cons_self,
        ih fun y inside => same y (List.mem_cons_of_mem x inside)]
      rfl

theorem placeAfter_split {e h l : Nat} {p q before : List Nat} (distinct : (l :: (p ++ q)).Nodup)
    (front : l :: p = before ++ [h]) : placeAfter e h l (p ++ q) = p ++ e :: q := by
  rw [placeAfter]
  rcases List.eq_nil_or_concat' p with rfl | ⟨r, z, rfl⟩
  · have first : l = h := by
      have single : [] ++ [l] = before ++ [h] := front
      exact (List.cons.inj (List.append_inj' single rfl).2).1
    rw [if_pos first.symm]
    rfl
  · have last : z = h := by
      have whole : (l :: r) ++ [z] = before ++ [h] := front
      exact (List.cons.inj (List.append_inj' whole rfl).2).1
    subst last
    simp only [List.append_assoc, List.singleton_append, List.nodup_cons, List.mem_append,
      List.mem_cons, not_or, List.nodup_append] at distinct
    obtain ⟨⟨_, head, _⟩, _, ⟨here, _⟩, apart⟩ := distinct
    have earlier : ∀ x ∈ r, x ≠ z := fun x inside => apart x inside z (.inl rfl)
    have later : ∀ x ∈ q, x ≠ z := fun x inside same => here (same ▸ inside)
    rw [if_neg (Ne.symm head), List.flatMap_append, List.flatMap_append,
      flatMap_singletons fun x inside => if_neg (earlier x inside),
      flatMap_singletons fun x inside => if_neg (later x inside)]
    simp

theorem placeBefore_split {e h l : Nat} {p q after : List Nat} (distinct : (l :: (p ++ q)).Nodup)
    (rear : q ++ [l] = h :: after) : placeBefore e h l (p ++ q) = p ++ e :: q := by
  rw [placeBefore]
  cases q with
  | nil =>
      have first : l = h := (List.cons.inj rear).1
      rw [if_pos first.symm, List.append_nil]
  | cons z q =>
      have first : z = h := (List.cons.inj rear).1
      subst first
      simp only [List.nodup_cons, List.mem_append, List.mem_cons, not_or, List.nodup_append] at distinct
      obtain ⟨⟨_, head, _⟩, _, ⟨here, _⟩, apart⟩ := distinct
      have earlier : ∀ x ∈ p, x ≠ z := fun x inside => apart x inside z (.inl rfl)
      have later : ∀ x ∈ q, x ≠ z := fun x inside same => here (same ▸ inside)
      rw [if_neg (Ne.symm head), List.flatMap_append, List.flatMap_cons,
        flatMap_singletons fun x inside => if_neg (earlier x inside),
        flatMap_singletons fun x inside => if_neg (later x inside)]
      simp

theorem split_at {l h : Nat} {xs : List Nat} (inside : h ∈ l :: xs) :
    (∃ p q before, xs = p ++ q ∧ l :: p = before ++ [h]) ∧
      ∃ p q after, xs = p ++ q ∧ q ++ [l] = h :: after := by
  rcases List.mem_cons.1 inside with rfl | member
  · exact ⟨⟨[], xs, [], rfl, rfl⟩, xs, [], [], (List.append_nil xs).symm, rfl⟩
  · obtain ⟨p, q, rfl⟩ := List.append_of_mem member
    exact ⟨⟨p ++ [h], q, l :: p, by simp, rfl⟩, p, h :: q, q ++ [l], rfl, rfl⟩

structure Holds (i : Lists) (s : Memory) : Prop where
  node : ∀ a < s.brk, (links s).node a = true
  below : ∀ l xs, i l = some xs → ∀ a ∈ l :: xs, a < s.brk
  ring : ∀ l xs, i l = some xs → Ring (links s).next (links s).prev l xs
  apart : ∀ l xs l' ys, i l = some xs → i l' = some ys → l ≠ l' → ∀ a ∈ l :: xs, a ∉ l' :: ys

section State

variable {i : Lists} {s : Memory} (holds : Holds i s)
include holds

theorem held {l : Nat} {xs : List Nat} (known : i l = some xs) {a : Nat} (inside : a ∈ l :: xs) :
    (links s).node a = true :=
  holds.node a (holds.below l xs known a inside)

theorem holds_forget (l : Nat) : Holds (Function.update i l none) s := by
  have old : ∀ {l' xs}, Function.update i l none l' = some xs → i l' = some xs := by
    intro l' xs known
    by_cases self : l' = l
    · rw [self, Function.update_self] at known
      cases known
    · rwa [Function.update_of_ne self] at known
  exact ⟨holds.node, fun l' xs known => holds.below l' xs (old known),
    fun l' xs known => holds.ring l' xs (old known),
    fun l' xs k ys first second => holds.apart l' xs k ys (old first) (old second)⟩

/-- One list is changed, and only nodes of `touched` are relinked. -/
theorem holds_update {s' : Memory} (l : Nat) (xs touched : List Nat) (brk : s'.brk = s.brk)
    (node : (links s').node = (links s).node)
    (onward : ∀ a, a ∉ touched → (links s').next a = (links s).next a)
    (back : ∀ a, a ∉ touched → (links s').prev a = (links s).prev a)
    (away : ∀ l' ys, l' ≠ l → i l' = some ys → ∀ a ∈ l' :: ys, a ∉ touched)
    (inside : ∀ a ∈ l :: xs, a ∈ touched ∧ a < s.brk)
    (ring : Ring (links s').next (links s').prev l xs) :
    Holds (Function.update i l (some xs)) s' := by
  have split : ∀ {l' ys}, Function.update i l (some xs) l' = some ys →
      (l' = l ∧ ys = xs) ∨ (l' ≠ l ∧ i l' = some ys) := by
    intro l' ys known
    by_cases self : l' = l
    · rw [self, Function.update_self] at known
      exact .inl ⟨self, (Option.some.inj known).symm⟩
    · rw [Function.update_of_ne self] at known
      exact .inr ⟨self, known⟩
  refine ⟨?_, ?_, ?_, ?_⟩
  · intro a less
    rw [node]
    exact holds.node a (brk ▸ less)
  · intro l' ys known a member
    rw [brk]
    rcases split known with ⟨rfl, rfl⟩ | ⟨other, old⟩
    · exact (inside a member).2
    · exact holds.below l' ys old a member
  · intro l' ys known
    rcases split known with ⟨rfl, rfl⟩ | ⟨other, old⟩
    · exact ring
    · apply ring_frame (holds.ring l' ys old)
      · intro a member
        exact onward a (away l' ys other old a member)
      · intro a member
        exact back a (away l' ys other old a member)
  · intro l' ys k zs first second other a member
    rcases split first with ⟨rfl, rfl⟩ | ⟨otherL, oldL⟩
    · rcases split second with ⟨rfl, _⟩ | ⟨otherK, oldK⟩
      · exact absurd rfl other
      · intro again
        exact away k zs otherK oldK a again (inside a member).1
    · rcases split second with ⟨rfl, rfl⟩ | ⟨_, oldK⟩
      · intro again
        exact away l' ys otherL oldL a member (inside a again).1
      · exact holds.apart l' ys k zs oldL oldK other a member

theorem away_of_unlinked {l e : Nat} {xs : List Nat} (known : i l = some xs) (free : ¬Linked i e) :
    ∀ l' ys, l' ≠ l → i l' = some ys → ∀ a ∈ l' :: ys, a ∉ e :: l :: xs := by
  intro l' ys other known' a member inside
  rcases List.mem_cons.1 inside with rfl | again
  · exact free ⟨l', ys, known', member⟩
  · exact holds.apart l' ys l xs known' known other a member again

theorem holds_inserted {s' : Memory} {l e u w : Nat} {p q before after : List Nat}
    (known : i l = some (p ++ q)) (front : l :: p = before ++ [u]) (rear : q ++ [l] = w :: after)
    (free : ¬Linked i e) (less : e < s.brk) (brk : s'.brk = s.brk)
    (seen : links s' = (links s).inserted e u w) :
    Holds (Function.update i l (some (p ++ e :: q))) s' := by
  have fresh : e ∉ l :: (p ++ q) := fun inside => free ⟨l, p ++ q, known, inside⟩
  have ends := ends_inside front rear
  have otherU : u ≠ e := fun same => fresh (same ▸ ends.1)
  have otherW : w ≠ e := fun same => fresh (same ▸ ends.2)
  have ring := ring_insert (holds.ring l _ known) front rear fresh
  rw [Function.update_comm otherU, Function.update_comm otherW.symm] at ring
  apply holds_update holds l (p ++ e :: q) (e :: l :: (p ++ q)) brk (by rw [seen]; rfl) ?_ ?_
    (away_of_unlinked holds known free)
  · intro a inside
    have listed : a ∈ e :: l :: (p ++ q) := by
      simp only [List.mem_cons, List.mem_append] at inside ⊢
      tauto
    refine ⟨listed, ?_⟩
    rcases List.mem_cons.1 listed with rfl | old
    · exact less
    · exact holds.below l _ known a old
  · rw [seen]
    exact ring
  · intro a outside
    rw [List.mem_cons, not_or] at outside
    rw [seen]
    dsimp only [Links.inserted]
    rw [Function.update_of_ne (ne_of_mem_of_not_mem ends.1 outside.2).symm,
      Function.update_of_ne outside.1]
  · intro a outside
    rw [List.mem_cons, not_or] at outside
    rw [seen]
    dsimp only [Links.inserted]
    rw [Function.update_of_ne outside.1,
      Function.update_of_ne (ne_of_mem_of_not_mem ends.2 outside.2).symm]

theorem holds_joined {s' : Memory} {l e u w : Nat} {p q before after : List Nat}
    (known : i l = some (p ++ e :: q)) (front : l :: p = before ++ [u])
    (rear : q ++ [l] = w :: after) (brk : s'.brk = s.brk)
    (node : (links s').node = (links s).node)
    (onward : ∀ a, a ≠ e → (links s').next a = ((links s).joined u w).next a)
    (back : ∀ a, a ≠ e → (links s').prev a = ((links s).joined u w).prev a) :
    Holds (Function.update i l (some (p ++ q))) s' := by
  have ring := holds.ring l _ known
  have moved : (l :: (p ++ e :: q)).Perm (e :: l :: (p ++ q)) :=
    (List.perm_middle.cons l).trans (.swap e l _)
  have fresh := (List.nodup_cons.1 (moved.nodup_iff.1 ring.distinct)).1
  have ends := ends_inside front rear
  have wider : ∀ a ∈ l :: (p ++ q), a ∈ l :: (p ++ e :: q) :=
    fun a inside => moved.mem_iff.2 (List.mem_cons_of_mem e inside)
  have others : ∀ a ∈ l :: (p ++ q), a ≠ e := fun a inside same => fresh (same ▸ inside)
  apply holds_update holds l (p ++ q) (l :: (p ++ e :: q)) brk node ?_ ?_ ?_
  · intro a inside
    exact ⟨wider a inside, holds.below l _ known a (wider a inside)⟩
  · apply ring_frame (ring_remove ring front rear)
    · intro a inside
      rw [onward a (others a inside), Function.update_of_ne (others a inside)]
      rfl
    · intro a inside
      rw [back a (others a inside), Function.update_of_ne (others a inside)]
      rfl
  · intro a outside
    rw [onward a (ne_of_mem_of_not_mem (moved.mem_iff.2 List.mem_cons_self) outside).symm]
    exact Function.update_of_ne (ne_of_mem_of_not_mem (wider u ends.1) outside).symm _ _
  · intro a outside
    rw [back a (ne_of_mem_of_not_mem (moved.mem_iff.2 List.mem_cons_self) outside).symm]
    exact Function.update_of_ne (ne_of_mem_of_not_mem (wider w ends.2) outside).symm _ _
  · intro l' ys other known' a inside
    exact holds.apart l' ys l _ known' known other a inside

theorem owner_unique {l l' a : Nat} {xs ys : List Nat} (known : i l = some xs) (inside : a ∈ l :: xs)
    (known' : i l' = some ys) (inside' : a ∈ l' :: ys) : l' = l := by
  by_contra other
  exact holds.apart l' ys l xs known' known other a inside' inside

theorem map_owner {l a : Nat} {xs ys : List Nat} (known : i l = some xs) (inside : a ∈ l :: xs)
    (f : Nat → List Nat → List Nat) (changed : f l xs = ys)
    (same : ∀ l' zs, i l' = some zs → a ∉ l' :: zs → f l' zs = zs) :
    (fun l' => (i l').map (f l')) = Function.update i l (some ys) := by
  funext l'
  by_cases self : l' = l
  · rw [self, Function.update_self, known, Option.map_some, changed]
  · rw [Function.update_of_ne self]
    cases found : i l' with
    | none => rfl
    | some zs =>
        rw [Option.map_some, same l' zs found]
        intro inside'
        exact self (owner_unique holds known inside found inside')

theorem addAfter_eq {l e h : Nat} {p q before : List Nat} (known : i l = some (p ++ q))
    (front : l :: p = before ++ [h]) :
    addAfter e h i = Function.update i l (some (p ++ e :: q)) := by
  have inside : h ∈ l :: (p ++ q) := by
    have last : h ∈ l :: p := by simp [front]
    simp only [List.mem_cons, List.mem_append] at last ⊢
    tauto
  apply map_owner holds known inside (fun l xs => if h ∈ l :: xs then placeAfter e h l xs else xs)
  · rw [if_pos inside]
    exact placeAfter_split (holds.ring l _ known).distinct front
  · intro l' zs _ outside
    exact if_neg outside

theorem addBefore_eq {l e h : Nat} {p q after : List Nat} (known : i l = some (p ++ q))
    (rear : q ++ [l] = h :: after) :
    addBefore e h i = Function.update i l (some (p ++ e :: q)) := by
  have inside : h ∈ l :: (p ++ q) := by
    have first : h ∈ q ++ [l] := by simp [rear]
    simp only [List.mem_cons, List.mem_append, List.not_mem_nil, or_false] at first ⊢
    tauto
  apply map_owner holds known inside (fun l xs => if h ∈ l :: xs then placeBefore e h l xs else xs)
  · rw [if_pos inside]
    exact placeBefore_split (holds.ring l _ known).distinct rear
  · intro l' zs _ outside
    exact if_neg outside

theorem erased_eq {l e : Nat} {p q : List Nat} (known : i l = some (p ++ e :: q)) :
    erased e i = Function.update i l (some (p ++ q)) := by
  apply map_owner holds known (by simp : e ∈ l :: (p ++ e :: q)) (fun _ xs => xs.erase e)
  · have distinct := (List.nodup_cons.1 (holds.ring l _ known).distinct).2
    have absent : e ∉ p := fun inside =>
      (List.nodup_append.1 distinct).2.2 e inside e List.mem_cons_self rfl
    rw [List.erase_append_right _ absent, List.erase_cons_head]
  · intro l' zs _ outside
    exact List.erase_of_not_mem fun inside => outside (List.mem_cons_of_mem l' inside)

theorem wp_initListHead {list : Nat} (less : list < s.brk) (free : ¬Linked i list) :
    wp (initListHead (some list)) (fun _ s' =>
      s'.brk = s.brk ∧ Holds (Function.update i list (some [])) s') s := by
  rw [initListHead, wp_bind]
  apply wp_setNext (holds.node list less)
  intro s₁ brk₁ links₁
  apply wp_setPrev (by rw [links₁]; exact holds.node list less)
  intro s₂ brk₂ links₂
  rw [links₁] at links₂
  refine ⟨by omega, ?_⟩
  apply holds_update holds list [] [list] (by omega) (by rw [links₂])
  · intro a outside
    rw [links₂]
    exact Function.update_of_ne (by simpa using outside) _ _
  · intro a outside
    rw [links₂]
    exact Function.update_of_ne (by simpa using outside) _ _
  · intro l' ys _ known a member inside
    rw [List.mem_singleton.1 inside] at member
    exact free ⟨l', ys, known, member⟩
  · intro a inside
    refine ⟨inside, ?_⟩
    rw [List.mem_singleton.1 inside]
    exact less
  · rw [links₂]
    exact ring_empty (Function.update_self ..) (Function.update_self ..)

theorem wp_listAdd {nelm head : Nat} (less : nelm < s.brk) (free : ¬Linked i nelm)
    (linked : Linked i head) :
    wp (listAdd (some nelm) (some head)) (fun _ s' =>
      s'.brk = s.brk ∧ Holds (addAfter nelm head i) s') s := by
  obtain ⟨l, xs, known, inside⟩ := linked
  obtain ⟨p, q, before', rfl, place⟩ := (split_at inside).1
  obtain ⟨before, u, w, after, front, rear, edge⟩ := ring_adjacent (holds.ring l _ known)
  obtain rfl : u = head := by
    have parts := List.append_inj' (front.symm.trans place) rfl
    exact (List.cons.inj parts.2).1
  have ends := ends_inside front rear
  rw [listAdd, wp_bind]
  apply wp_next (held holds known inside)
  rw [edge.1]
  apply wp_listAddBetween (holds.node nelm less) (held holds known ends.1) (held holds known ends.2)
  intro s' brk seen
  refine ⟨brk, ?_⟩
  rw [addAfter_eq holds known place]
  exact holds_inserted holds known front rear free less brk seen

theorem wp_listAddTail {nelm head : Nat} (less : nelm < s.brk) (free : ¬Linked i nelm)
    (linked : Linked i head) :
    wp (listAddTail (some nelm) (some head)) (fun _ s' =>
      s'.brk = s.brk ∧ Holds (addBefore nelm head i) s') s := by
  obtain ⟨l, xs, known, inside⟩ := linked
  obtain ⟨p, q, after', rfl, place⟩ := (split_at inside).2
  obtain ⟨before, u, w, after, front, rear, edge⟩ := ring_adjacent (holds.ring l _ known)
  obtain rfl : w = head := (List.cons.inj (rear.symm.trans place)).1
  have ends := ends_inside front rear
  rw [listAddTail, wp_bind]
  apply wp_prev (held holds known inside)
  rw [edge.2]
  apply wp_listAddBetween (holds.node nelm less) (held holds known ends.1) (held holds known ends.2)
  intro s' brk seen
  refine ⟨brk, ?_⟩
  rw [addBefore_eq holds known place]
  exact holds_inserted holds known front rear free less brk seen

theorem wp_unlink {e l : Nat} {p q : List Nat} (known : i l = some (p ++ e :: q)) {α : Type}
    (rest : Prog Memory α) (post : α → Memory → Prop)
    (after : ∀ s' u w before after, s'.brk = s.brk → links s' = (links s).joined u w →
      l :: p = before ++ [u] → q ++ [l] = w :: after → wp rest post s') :
    wp (do listDelBetween (← prev (some e)) (← next (some e)); rest) post s := by
  have inside : e ∈ l :: (p ++ e :: q) := by simp
  obtain ⟨before, u, w, behind, front, rear, first, second⟩ := ring_neighbours (holds.ring l _ known)
  have wider : ∀ a ∈ l :: (p ++ q), a ∈ l :: (p ++ e :: q) := by
    intro a member
    simp only [List.mem_cons, List.mem_append] at member ⊢
    tauto
  have ends := ends_inside front rear
  rw [wp_bind]
  apply wp_prev (held holds known inside)
  rw [first.2, wp_bind]
  apply wp_next (held holds known inside)
  rw [second.1, wp_bind]
  apply wp_listDelBetween (held holds known (wider u ends.1)) (held holds known (wider w ends.2))
  intro s' brk seen
  exact after s' u w before behind brk seen front rear

theorem wp_listDel {entry : Nat} (listed : Listed i entry) :
    wp (listDel (some entry)) (fun _ s' => s'.brk = s.brk ∧ Holds (erased entry i) s') s := by
  obtain ⟨l, xs, known, inside⟩ := listed
  obtain ⟨p, q, rfl⟩ := List.append_of_mem inside
  have node : (links s).node entry = true := held holds known (by simp)
  rw [erased_eq holds known, listDel]
  apply wp_unlink holds known
  intro s₁ u w before after brk₁ links₁ front rear
  rw [wp_bind]
  apply wp_setNext (by rw [links₁]; exact node)
  intro s₂ brk₂ links₂
  apply wp_setPrev (by rw [links₂, links₁]; exact node)
  intro s₃ brk₃ links₃
  rw [links₂, links₁] at links₃
  refine ⟨by omega, holds_joined holds known front rear (by omega) (by rw [links₃]; rfl) ?_ ?_⟩
  · intro a other
    rw [links₃]
    exact Function.update_of_ne other _ _
  · intro a other
    rw [links₃]
    exact Function.update_of_ne other _ _

theorem unlinked_erased {e : Nat} (listed : Listed i e) : ¬Linked (erased e i) e := by
  obtain ⟨l, xs, known, inside⟩ := listed
  rintro ⟨l', ys, known', inside'⟩
  obtain ⟨zs, found, rfl⟩ := Option.map_eq_some_iff.1 known'
  have member : e ∈ l :: xs := List.mem_cons_of_mem l inside
  have wider : e ∈ l' :: zs := by
    rcases List.mem_cons.1 inside' with here | there
    · exact here ▸ List.mem_cons_self
    · exact List.mem_cons_of_mem l' (List.mem_of_mem_erase there)
  obtain rfl := owner_unique holds known member found wider
  cases known.symm.trans found
  have distinct := List.nodup_cons.1 (holds.ring l' xs known).distinct
  rcases List.mem_cons.1 inside' with rfl | there
  · exact distinct.1 inside
  · exact distinct.2.not_mem_erase there

omit holds in
theorem linked_erased {e h : Nat} (linked : Linked i h) (other : e ≠ h) : Linked (erased e i) h := by
  obtain ⟨l, xs, known, inside⟩ := linked
  refine ⟨l, xs.erase e, by rw [erased, known, Option.map_some], ?_⟩
  rcases List.mem_cons.1 inside with rfl | member
  · exact List.mem_cons_self
  · exact List.mem_cons_of_mem l ((List.mem_erase_of_ne other.symm).2 member)

theorem wp_takeOut {list : Nat} (listed : Listed i list) (rest : Prog Memory Unit)
    (post : Unit → Memory → Prop)
    (after : ∀ s', s'.brk = s.brk → Holds (erased list i) s' → wp rest post s') :
    wp (do listDelBetween (← prev (some list)) (← next (some list)); rest) post s := by
  obtain ⟨l, xs, known, inside⟩ := listed
  obtain ⟨p, q, rfl⟩ := List.append_of_mem inside
  apply wp_unlink holds known
  intro s' u w before behind brk seen front rear
  apply after s' brk
  rw [erased_eq holds known]
  exact holds_joined holds known front rear brk (by rw [seen]; rfl) (fun _ _ => by rw [seen])
    fun _ _ => by rw [seen]

omit holds in
theorem listed_lt (holds : Holds i s) {e : Nat} (listed : Listed i e) : e < s.brk := by
  obtain ⟨l, xs, known, inside⟩ := listed
  exact holds.below l xs known e (List.mem_cons_of_mem l inside)

theorem wp_listMove {list head : Nat} (listed : Listed i list) (linked : Linked i head)
    (other : list ≠ head) :
    wp (listMove (some list) (some head)) (fun _ s' =>
      s'.brk = s.brk ∧ Holds (addAfter list head (erased list i)) s') s := by
  rw [listMove]
  apply wp_takeOut holds listed
  intro s' brk out
  have added := wp_listAdd out (by rw [brk]; exact listed_lt holds listed)
    (unlinked_erased holds listed) (linked_erased linked other)
  rwa [brk] at added

theorem wp_listMoveTail {list head : Nat} (listed : Listed i list) (linked : Linked i head)
    (other : list ≠ head) :
    wp (listMoveTail (some list) (some head)) (fun _ s' =>
      s'.brk = s.brk ∧ Holds (addBefore list head (erased list i)) s') s := by
  rw [listMoveTail]
  apply wp_takeOut holds listed
  intro s' brk out
  have added := wp_listAddTail out (by rw [brk]; exact listed_lt holds listed)
    (unlinked_erased holds listed) (linked_erased linked other)
  rwa [brk] at added

theorem holds_renamed {s' : Memory} {old nelm : Nat} {xs : List Nat} (known : i old = some xs)
    (less : nelm < s.brk) (free : ¬Linked i nelm) (brk : s'.brk = s.brk)
    (node : (links s').node = (links s).node)
    (onward : ∀ a, a ∉ nelm :: old :: xs → (links s').next a = (links s).next a)
    (back : ∀ a, a ∉ nelm :: old :: xs → (links s').prev a = (links s).prev a)
    (ring : Ring (links s').next (links s').prev nelm xs) : Holds (renamed old nelm i) s' := by
  have same : renamed old nelm i = Function.update (Function.update i old none) nelm (some xs) := by
    rw [renamed, known]
  rw [same]
  apply holds_update (holds_forget holds old) nelm xs (nelm :: old :: xs) brk node onward back
  · intro l' ys _ known' a member
    by_cases self : l' = old
    · rw [self, Function.update_self] at known'
      cases known'
    · rw [Function.update_of_ne self] at known'
      exact away_of_unlinked holds known free l' ys self known' a member
  · intro a inside
    rcases List.mem_cons.1 inside with rfl | member
    · exact ⟨List.mem_cons_self, less⟩
    · have wider : a ∈ old :: xs := List.mem_cons_of_mem old member
      exact ⟨List.mem_cons_of_mem nelm wider, holds.below old xs known a wider⟩
  · exact ring

omit holds in
theorem inserted_outside {L : Links} {e u w a : Nat} (new : a ≠ e) (first : a ≠ u) (second : a ≠ w) :
    (L.inserted e u w).next a = L.next a ∧ (L.inserted e u w).prev a = L.prev a := by
  dsimp only [Links.inserted]
  rw [Function.update_of_ne first, Function.update_of_ne new, Function.update_of_ne new,
    Function.update_of_ne second]
  exact ⟨rfl, rfl⟩

theorem wp_replaceHead {old nelm : Nat} {xs : List Nat} (known : i old = some xs)
    (less : nelm < s.brk) (free : ¬Linked i nelm) :
    wp (listReplace (some old) (some nelm)) (fun _ s' =>
      s'.brk = s.brk ∧ Holds (renamed old nelm i) s') s := by
  have ring := holds.ring old xs known
  have nodeO : (links s).node old = true := held holds known List.mem_cons_self
  have nodeN := holds.node nelm less
  have fresh : nelm ∉ old :: xs := fun inside => free ⟨old, xs, known, inside⟩
  cases xs with
  | nil =>
      have alone : (links s).next old = some old := (List.isChain_pair.1 ring.chain).1
      apply wp_listReplace_alone nodeO nodeN alone
      intro s' brk node next prev
      refine ⟨brk, holds_renamed holds known less free brk node ?_ ?_ ?_⟩
      · intro a outside
        simp only [List.mem_cons, List.not_mem_nil, or_false, not_or] at outside
        rw [next, Function.update_of_ne outside.1]
      · intro a outside
        simp only [List.mem_cons, List.not_mem_nil, or_false, not_or] at outside
        rw [prev, Function.update_of_ne outside.1, Function.update_of_ne outside.2]
      · rw [next, prev]
        exact ring_empty (Function.update_self ..) (Function.update_self ..)
  | cons x rest =>
      have turned : Ring (links s).next (links s).prev x (rest ++ old :: []) := ring_rotate (p := []) ring
      obtain ⟨before, u, w, after, front, rear, first, second⟩ := ring_neighbours turned
      obtain rfl : x = w := (List.cons.inj rear).1
      have insideU : u ∈ old :: x :: rest := by
        rw [front]
        simp
      have otherW : x ≠ old := fun same =>
        (List.nodup_cons.1 ring.distinct).1 (same ▸ List.mem_cons_self)
      have freshX : nelm ∉ x :: (rest ++ old :: []) := by
        simp only [List.mem_cons, List.mem_append, List.not_mem_nil, or_false] at fresh ⊢
        tauto
      apply wp_listReplace nodeO nodeN (held holds known insideU) (held holds known (by simp))
        second.1 first.2 otherW
      intro s' brk seen
      have outside : ∀ a, a ∉ nelm :: old :: x :: rest →
          (links s').next a = (links s).next a ∧ (links s').prev a = (links s).prev a := by
        intro a absent
        rw [List.mem_cons, not_or] at absent
        rw [seen]
        exact inserted_outside absent.1 (ne_of_mem_of_not_mem insideU absent.2).symm
          (ne_of_mem_of_not_mem (by simp : x ∈ old :: x :: rest) absent.2).symm
      refine ⟨brk, holds_renamed holds known less free brk (by rw [seen]; rfl)
        (fun a absent => (outside a absent).1) (fun a absent => (outside a absent).2) ?_⟩
      rw [seen]
      exact ring_rotate (q := []) (ring_exchange turned front rear freshX)

theorem renamed_eq {l old nelm : Nat} {p q : List Nat} (known : i l = some (p ++ old :: q)) :
    renamed old nelm i = Function.update i l (some (p ++ nelm :: q)) := by
  have inside : old ∈ l :: (p ++ old :: q) := by simp
  have distinct := List.nodup_cons.1 (holds.ring l _ known).distinct
  have noHead : i old = none := by
    cases found : i old with
    | none => rfl
    | some ys =>
        have same := owner_unique holds known inside found List.mem_cons_self
        exact absurd (by simp [same]) distinct.1
  have parts := List.nodup_append.1 distinct.2
  have earlier : ∀ x ∈ p, x ≠ old := fun x member => parts.2.2 x member old List.mem_cons_self
  have later : ∀ x ∈ q, x ≠ old := fun x member same =>
    (List.nodup_cons.1 parts.2.1).1 (same ▸ member)
  have fixed : ∀ xs : List Nat, (∀ x ∈ xs, x ≠ old) →
      xs.map (fun x => if x = old then nelm else x) = xs := by
    intro xs others
    rw [List.map_congr_left fun x member => if_neg (others x member), List.map_id']
  rw [renamed, noHead]
  apply map_owner holds known inside fun _ xs => xs.map fun x => if x = old then nelm else x
  · rw [List.map_append, List.map_cons, fixed p earlier, fixed q later, if_pos rfl]
  · intro l' zs _ outside
    exact fixed zs fun x member same => outside (List.mem_cons_of_mem l' (same ▸ member))

theorem wp_replaceEntry {old nelm : Nat} (listed : Listed i old) (less : nelm < s.brk)
    (free : ¬Linked i nelm) :
    wp (listReplace (some old) (some nelm)) (fun _ s' =>
      s'.brk = s.brk ∧ Holds (renamed old nelm i) s') s := by
  obtain ⟨l, xs, known, inside⟩ := listed
  obtain ⟨p, q, rfl⟩ := List.append_of_mem inside
  have ring := holds.ring l _ known
  obtain ⟨before, u, w, after, front, rear, first, second⟩ := ring_neighbours ring
  have moved : (l :: (p ++ old :: q)).Perm (old :: l :: (p ++ q)) :=
    (List.perm_middle.cons l).trans (.swap old l _)
  have alone := (List.nodup_cons.1 (moved.nodup_iff.1 ring.distinct)).1
  have wider : ∀ a ∈ l :: (p ++ q), a ∈ l :: (p ++ old :: q) :=
    fun a member => moved.mem_iff.2 (List.mem_cons_of_mem old member)
  have ends := ends_inside front rear
  have fresh : nelm ∉ l :: (p ++ old :: q) := fun member => free ⟨l, _, known, member⟩
  apply wp_listReplace (held holds known (by simp)) (holds.node nelm less)
    (held holds known (wider u ends.1)) (held holds known (wider w ends.2)) second.1 first.2
    (fun same => alone (same ▸ ends.2))
  intro s' brk seen
  have outside : ∀ a, a ∉ nelm :: l :: (p ++ old :: q) →
      (links s').next a = (links s).next a ∧ (links s').prev a = (links s).prev a := by
    intro a absent
    rw [List.mem_cons, not_or] at absent
    rw [seen]
    exact inserted_outside absent.1 (ne_of_mem_of_not_mem (wider u ends.1) absent.2).symm
      (ne_of_mem_of_not_mem (wider w ends.2) absent.2).symm
  rw [renamed_eq holds known]
  refine ⟨brk, holds_update holds l _ (nelm :: l :: (p ++ old :: q)) brk (by rw [seen]; rfl)
    (fun a absent => (outside a absent).1) (fun a absent => (outside a absent).2)
    (away_of_unlinked holds known free) ?_ ?_⟩
  · intro a member
    simp only [List.mem_cons, List.mem_append] at member
    rcases member with rfl | early | rfl | late
    · exact ⟨by simp, holds.below a _ known a List.mem_cons_self⟩
    · exact ⟨by simp [early], holds.below l _ known a (wider a (by simp [early]))⟩
    · exact ⟨by simp, less⟩
    · exact ⟨by simp [late], holds.below l _ known a (wider a (by simp [late]))⟩
  · rw [seen]
    exact ring_exchange ring front rear fresh

theorem wp_listReplace_holds {old nelm : Nat} (linked : Linked i old) (less : nelm < s.brk)
    (free : ¬Linked i nelm) :
    wp (listReplace (some old) (some nelm)) (fun _ s' =>
      s'.brk = s.brk ∧ Holds (renamed old nelm i) s') s := by
  obtain ⟨l, xs, known, inside⟩ := linked
  rcases List.mem_cons.1 inside with rfl | member
  · exact wp_replaceHead holds known less free
  · exact wp_replaceEntry holds ⟨l, xs, known, member⟩ less free

theorem unlinked_renamed {old nelm : Nat} (linked : Linked i old) (free : ¬Linked i nelm) :
    ¬Linked (renamed old nelm i) old := by
  have other : nelm ≠ old := fun same => free (same ▸ linked)
  obtain ⟨l, xs, known, inside⟩ := linked
  rintro ⟨l', ys, known', inside'⟩
  have distinct := List.nodup_cons.1 (holds.ring l xs known).distinct
  rcases List.mem_cons.1 inside with rfl | member
  · rw [renamed, known] at known'
    dsimp only at known'
    by_cases new : l' = nelm
    · rw [new, Function.update_self] at known'
      cases known'
      rcases List.mem_cons.1 inside' with same | again
      · exact other (new.symm.trans same.symm)
      · exact distinct.1 again
    · rw [Function.update_of_ne new] at known'
      by_cases self : l' = old
      · rw [self, Function.update_self] at known'
        cases known'
      · rw [Function.update_of_ne self] at known'
        exact self (owner_unique holds known inside known' inside')
  · obtain ⟨p, q, rfl⟩ := List.append_of_mem member
    rw [renamed_eq holds known] at known'
    by_cases self : l' = l
    · rw [self, Function.update_self] at known'
      cases known'
      have moved : (l :: (p ++ old :: q)).Perm (old :: l :: (p ++ q)) :=
        (List.perm_middle.cons l).trans (.swap old l _)
      have alone := (List.nodup_cons.1 (moved.nodup_iff.1 (holds.ring l _ known).distinct)).1
      rw [self] at inside'
      simp only [List.mem_cons, List.mem_append] at inside' alone
      tauto
    · rw [Function.update_of_ne self] at known'
      exact self (owner_unique holds known inside known' inside')

theorem wp_listReplaceInit {old nelm : Nat} (linked : Linked i old) (less : nelm < s.brk)
    (free : ¬Linked i nelm) :
    wp (listReplaceInit (some old) (some nelm)) (fun _ s' =>
      s'.brk = s.brk ∧ Holds (Function.update (renamed old nelm i) old (some [])) s') s := by
  have lessOld : old < s.brk := by
    obtain ⟨l, xs, known, inside⟩ := linked
    exact holds.below l xs known old inside
  rw [listReplaceInit]
  apply wp_seq _ _ _ _ _ (wp_listReplace_holds holds linked less free)
  rintro _ s' ⟨brk, replaced⟩
  have cleared := wp_initListHead replaced (by rw [brk]; exact lessOld)
    (unlinked_renamed holds linked free)
  rwa [brk] at cleared

theorem length_lt {l : Nat} {xs : List Nat} (known : i l = some xs) : xs.length < s.brk := by
  have sub : (l :: xs).toFinset ⊆ Finset.range s.brk := by
    intro a inside
    rw [List.mem_toFinset] at inside
    exact Finset.mem_range.2 (holds.below l xs known a inside)
  have card := Finset.card_le_card sub
  rw [List.toFinset_card_of_nodup (holds.ring l xs known).distinct, Finset.card_range] at card
  exact card

end State

/-- The loop of `list_for_each_safe`: the nodes in front of `pos` that were not chosen stay, and `n`
is read before `pos` is deleted. -/
theorem wp_visitSafe (l : Nat) (chosen : Nat → Bool) (rest : List Nat) :
    ∀ {i : Lists} {s : Memory} {done after : List Nat} {p fuel : Nat}, Holds i s →
      i l = some (done ++ rest) → rest ++ [l] = p :: after → rest.length < fuel →
      wp (visitSafe l (fun pos => onlyIf (chosen pos) (listDel (some pos))) fuel (some p)
        ((links s).next p)) (fun _ s' => s'.brk = s.brk ∧
          Holds (Function.update i l (some (done ++ rest.filter fun x => !chosen x))) s') s := by
  induction rest with
  | nil =>
      intro i s done after p fuel holds known place enough
      obtain ⟨fuel, rfl⟩ : ∃ k, fuel = k + 1 := ⟨fuel - 1, by simp at enough; omega⟩
      obtain rfl : l = p := (List.cons.inj place).1
      rw [visitSafe, if_pos rfl, List.filter_nil, ← known, Function.update_eq_self]
      exact ⟨rfl, holds⟩
  | cons a rest ih =>
      intro i s done after p fuel holds known place enough
      obtain ⟨fuel, rfl⟩ : ∃ k, fuel = k + 1 := ⟨fuel - 1, by simp at enough; omega⟩
      obtain rfl : a = p := (List.cons.inj place).1
      rw [List.length_cons] at enough
      have ring := holds.ring l _ known
      obtain ⟨_, u, w, after', front, rear, first, second⟩ := ring_neighbours ring
      have other : a ≠ l := by
        rintro rfl
        exact (List.nodup_cons.1 ring.distinct).1 (by simp)
      have insideW : w ∈ l :: (done ++ a :: rest) := by
        have last : w ∈ rest ++ [l] := by simp [rear]
        simp only [List.mem_cons, List.mem_append, List.not_mem_nil, or_false] at last ⊢
        tauto
      have lessW := holds.below l _ known w insideW
      rw [visitSafe, if_neg (by simpa using other), second.1]
      rw [wp_bind, wp_onlyIf]
      cases chose : chosen a with
      | true =>
          rw [if_pos rfl]
          apply wp_mono _ _ _ s (wp_listDel holds ⟨l, _, known, by simp⟩)
          rintro _ s' ⟨brk, deleted⟩
          rw [erased_eq holds known] at deleted
          rw [wp_bind]
          apply wp_next (deleted.node w (by rw [brk]; exact lessW))
          have further := @ih (Function.update i l (some (done ++ rest))) s' done after' w fuel
            deleted (Function.update_self ..) rear (by omega)
          rw [Function.update_idem, brk] at further
          rw [List.filter_cons_of_neg (by simp [chose])]
          exact further
      | false =>
          rw [if_neg (by simp), wp_bind]
          apply wp_next (holds.node w lessW)
          have further := @ih i s (done ++ [a]) after' w fuel holds (by simpa using known) rear (by omega)
          rw [List.append_assoc, List.singleton_append] at further
          rw [List.filter_cons_of_pos (by simp [chose])]
          exact further

theorem wp_listDelIf {i : Lists} {s : Memory} (holds : Holds i s) {l : Nat} {xs : List Nat}
    (chosen : Nat → Bool) (known : i l = some xs) :
    wp (listDelIf l chosen) (fun _ s' => s'.brk = s.brk ∧
      Holds (Function.update i l (some (xs.filter fun x => !chosen x))) s') s := by
  obtain ⟨_, u, w, after, front, rear, edge⟩ := ring_adjacent (p := []) (holds.ring l xs known)
  obtain rfl : u = l := by
    have single : [] ++ [l] = _ ++ [u] := front
    exact (List.cons.inj (List.append_inj' single rfl).2).1.symm
  have insideW : w ∈ u :: xs := by
    have last : w ∈ xs ++ [u] := by simp [rear]
    simp only [List.mem_cons, List.mem_append, List.not_mem_nil, or_false] at last ⊢
    tauto
  rw [listDelIf, listForEachSafe, wp_bind]
  apply wp_next (held holds known List.mem_cons_self)
  rw [edge.1, wp_bind, wp_cells, wp_bind]
  apply wp_next (held holds known insideW)
  exact @wp_visitSafe u chosen xs i s [] after w s.brk holds known rear (length_lt holds known)

theorem call_holds {i : Lists} {s : Memory} (holds : Holds i s) (call : Call)
    (valid : call.Valid s.brk i) :
    wp call.exec (fun _ s' => s'.brk = s.brk ∧ Holds (call.ideal i) s') s := by
  cases call with
  | initListHead list => exact wp_initListHead holds valid.1 valid.2
  | listAdd nelm head => exact wp_listAdd holds valid.1 valid.2.1 valid.2.2
  | listAddTail nelm head => exact wp_listAddTail holds valid.1 valid.2.1 valid.2.2
  | listDel entry => exact wp_listDel holds valid
  | listReplace old nelm => exact wp_listReplace_holds holds valid.1 valid.2.1 valid.2.2
  | listReplaceInit old nelm => exact wp_listReplaceInit holds valid.1 valid.2.1 valid.2.2
  | listMove list head => exact wp_listMove holds valid.1 valid.2.1 valid.2.2
  | listMoveTail list head => exact wp_listMoveTail holds valid.1 valid.2.1 valid.2.2
  | listDelIf head chosen =>
      obtain ⟨xs, known⟩ := valid
      rw [Call.ideal, known]
      exact wp_listDelIf holds chosen known

def ideal (calls : List Call) (i : Lists) : Lists := calls.foldl Call.ideal i

theorem run_holds (calls : List Call) {i : Lists} {s : Memory} (holds : Holds i s)
    (admissible : Admissible s.brk i calls) :
    wp (runCalls Call.exec calls) (fun _ s' => Holds (ideal calls i) s') s := by
  induction calls generalizing i s with
  | nil => exact holds
  | cons call rest ih =>
      rw [runCalls]
      apply wp_seq _ _ _ _ _ (call_holds holds call admissible.1)
      rintro _ s' ⟨brk, after⟩
      exact ih after (by rw [brk]; exact admissible.2)

theorem wp_visit {s : Memory} {l : Nat} {step : Ptr → Prog Memory Ptr} {onward back : Nat → Ptr}
    (steps : ∀ a post, (links s).node a = true → post (onward a) s → wp (step (some a)) post s)
    (rest : List Nat) : ∀ {done after : List Nat} {p fuel : Nat},
      Ring onward back l (done ++ rest) → (∀ a ∈ l :: (done ++ rest), (links s).node a = true) →
      rest ++ [l] = p :: after → rest.length < fuel →
      wp (visit step l fuel (some p)) (fun seen s' => seen = rest ∧ s' = s) s := by
  induction rest with
  | nil =>
      intro done after p fuel ring nodes place enough
      obtain ⟨fuel, rfl⟩ : ∃ k, fuel = k + 1 := ⟨fuel - 1, by simp at enough; omega⟩
      obtain rfl : l = p := (List.cons.inj place).1
      rw [visit, wp_bind]
      apply steps l _ (nodes l List.mem_cons_self)
      rw [if_pos rfl]
      exact ⟨rfl, rfl⟩
  | cons a rest ih =>
      intro done after p fuel ring nodes place enough
      obtain ⟨fuel, rfl⟩ : ∃ k, fuel = k + 1 := ⟨fuel - 1, by simp at enough; omega⟩
      obtain rfl : a = p := (List.cons.inj place).1
      rw [List.length_cons] at enough
      obtain ⟨_, u, w, after', front, rear, first, second⟩ := ring_neighbours ring
      have other : a ≠ l := by
        rintro rfl
        exact (List.nodup_cons.1 ring.distinct).1 (by simp)
      have same : done ++ a :: rest = (done ++ [a]) ++ rest := by simp
      rw [visit, wp_bind]
      apply steps a _ (nodes a (by simp))
      rw [if_neg (by simpa using other), second.1, wp_bind]
      have further := @ih (done ++ [a]) after' w fuel (same ▸ ring) (same ▸ nodes) rear (by omega)
      apply wp_mono _ _ _ s further
      rintro seen s' ⟨rfl, rfl⟩
      exact ⟨rfl, rfl⟩

theorem wp_traverse {s : Memory} {l : Nat} {xs : List Nat} {step : Ptr → Prog Memory Ptr}
    {onward back : Nat → Ptr}
    (steps : ∀ a post, (links s).node a = true → post (onward a) s → wp (step (some a)) post s)
    (ring : Ring onward back l xs) (nodes : ∀ a ∈ l :: xs, (links s).node a = true)
    (less : xs.length < s.brk) :
    wp (do visit step l (← cells) (← step (some l))) (fun seen s' => seen = xs ∧ s' = s) s := by
  obtain ⟨_, u, w, after, front, rear, edge⟩ := ring_adjacent (p := []) ring
  obtain rfl : u = l := by
    have single : [] ++ [l] = _ ++ [u] := front
    exact (List.cons.inj (List.append_inj' single rfl).2).1.symm
  rw [wp_bind, wp_cells, wp_bind]
  apply steps u _ (nodes u List.mem_cons_self)
  rw [edge.1]
  exact @wp_visit s u step onward back steps xs [] after w s.brk ring nodes rear less

theorem run_of_wp {α : Type} {program : Prog Memory α} {s : Memory} {a : α}
    (returned : wp program (fun b s' => b = a ∧ s' = s) s) : program.run s = .ok (a, s) := by
  obtain ⟨_, _, ran, rfl, rfl⟩ := (wp_iff_run _ _ _).mp returned
  exact ran

theorem holds_start {s : Memory} (nodes : ∀ a < s.brk, ∃ n, s.cell a = some n) :
    Holds (fun _ => none) s := by
  refine ⟨?_, ?_, ?_, ?_⟩
  · intro a less
    obtain ⟨n, cell⟩ := nodes a less
    simp [links, cell]
  · intro l xs known
    cases known
  · intro l xs known
    cases known
  · intro l xs l' ys known
    cases known

/-- After any sequence of calls that the preconditions allow, each list is walked in both directions
as the sequence of its nodes, and its ends are told as such. -/
theorem lists_run_as_sequences (calls : List Call) (s : Memory)
    (nodes : ∀ a < s.brk, ∃ n, s.cell a = some n)
    (admissible : Admissible s.brk (fun _ => none) calls) :
    ∃ s', (runCalls Call.exec calls).run s = .ok ((), s') ∧
      ∀ l xs, ideal calls (fun _ => none) l = some xs →
        (listForEach l).run s' = .ok (xs, s') ∧ (listForEachPrev l).run s' = .ok (xs.reverse, s') ∧
        (listEmpty (some l)).run s' = .ok (decide (xs = []), s') ∧
        ∀ a ∈ xs, (listIsLast (some a) (some l)).run s' = .ok (decide (xs.getLast? = some a), s') ∧
          (listIsFirst (some a) (some l)).run s' = .ok (decide (xs.head? = some a), s') := by
  obtain ⟨_, s', ran, holds⟩ :=
    (wp_iff_run _ _ _).mp (run_holds calls (holds_start nodes) admissible)
  refine ⟨s', ran, ?_⟩
  intro l xs known
  have ring := holds.ring l xs known
  have turned := ring_reverse ring
  have held : ∀ a ∈ l :: xs, (links s').node a = true := fun a inside => held holds known inside
  have held' : ∀ a ∈ l :: xs.reverse, (links s').node a = true := by
    intro a inside
    apply held
    simpa using inside
  have less := length_lt holds known
  refine ⟨?_, ?_, ?_, ?_⟩
  · exact run_of_wp (wp_traverse (fun _ post node => wp_next node post) ring held less)
  · exact run_of_wp (wp_traverse (fun _ post node => wp_prev node post) turned held'
      (by rwa [List.length_reverse]))
  · apply run_of_wp
    rw [listEmpty, wp_bind]
    apply wp_next (held l List.mem_cons_self)
    exact ⟨decide_eq_decide.2 (ring_isEmpty ring), rfl⟩
  · intro a inside
    have node := held a (List.mem_cons_of_mem l inside)
    constructor
    · apply run_of_wp
      rw [listIsLast, wp_bind]
      apply wp_next node
      exact ⟨decide_eq_decide.2 (ring_last ring inside), rfl⟩
    · apply run_of_wp
      rw [listIsFirst, wp_bind]
      apply wp_prev node
      refine ⟨decide_eq_decide.2 ?_, rfl⟩
      rw [ring_last turned (List.mem_reverse.2 inside), List.getLast?_reverse]

theorem lists_run_as_sequences_moved :
    ∃ s', (runCalls Call.exec [.initListHead 0, .initListHead 1, .listAddTail 2 0, .listMove 2 1]).run
        ⟨fun a => if a < 3 then some ⟨none, none⟩ else none, 3, ()⟩ = .ok ((), s') ∧
      ∀ l xs, ideal [.initListHead 0, .initListHead 1, .listAddTail 2 0, .listMove 2 1]
          (fun _ => none) l = some xs →
        (listForEach l).run s' = .ok (xs, s') ∧ (listForEachPrev l).run s' = .ok (xs.reverse, s') ∧
        (listEmpty (some l)).run s' = .ok (decide (xs = []), s') ∧
        ∀ a ∈ xs, (listIsLast (some a) (some l)).run s' = .ok (decide (xs.getLast? = some a), s') ∧
          (listIsFirst (some a) (some l)).run s' = .ok (decide (xs.head? = some a), s') := by
  apply lists_run_as_sequences
  · intro a less
    exact ⟨⟨none, none⟩, if_pos less⟩
  · refine ⟨⟨by decide, ?_⟩, ⟨by decide, ?_⟩, ⟨by decide, ?_, 0, [], by decide, by decide⟩,
      ⟨⟨0, [2], by decide, by decide⟩, ⟨1, [], by decide, by decide⟩, by decide⟩, trivial⟩
    · rintro ⟨l, xs, known, _⟩
      cases known
    · rintro ⟨l, xs, known, inside⟩
      simp only [Call.ideal, Function.update_apply] at known
      split at known
      · next first =>
          cases known
          simp [first] at inside
      · cases known
    · rintro ⟨l, xs, known, inside⟩
      simp only [Call.ideal, Function.update_apply] at known
      split at known
      · next second =>
          cases known
          simp [second] at inside
      · split at known
        · next first =>
            cases known
            simp [first] at inside
        · cases known

end DataStructure.ListHead
