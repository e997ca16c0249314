import DataStructure.Go.List

/-! Sequences of calls on lists of `go/study0507/list/list.go`, against ideal sequences.

Lists and elements are named by their handles: the k-th `New` or push returns handle k. -/

namespace DataStructure.GoList

open Program Heap DoublyLinked

variable {V : Type}

inductive Call (V : Type) where
  | new
  | pushBack (l : Nat) (v : V)
  | pushPrev (l : Nat) (v : V)
  | remove (l e : Nat)

inductive Reply (V : Type) where
  | handle (p : Ptr)
  | value (v : V)

def Call.exec [Inhabited V] : Call V → Prog (Memory V) (Reply V)
  | new => return .handle (← GoList.new)
  | pushBack l v => return .handle (← GoList.pushBack (some l) v)
  | pushPrev l v => return .handle (← GoList.pushPrev (some l) v)
  | remove l e => return .value (← removeElement (some l) (some e))

/-- The lists there are, as sequences of elements, and the value each element was pushed with. -/
structure Ideal (V : Type) where
  count : Nat
  lists : Nat → Option (List Nat)
  pushed : Nat → Option V

def Call.ideal (i : Ideal V) : Call V → Ideal V
  | new => ⟨i.count + 1, Function.update i.lists i.count (some []), i.pushed⟩
  | pushBack l v =>
      ⟨i.count + 1, Function.update i.lists l ((i.lists l).map (· ++ [i.count])),
        Function.update i.pushed i.count (some v)⟩
  | pushPrev l v =>
      ⟨i.count + 1, Function.update i.lists l ((i.lists l).map (i.count :: ·)),
        Function.update i.pushed i.count (some v)⟩
  | remove l e => { i with lists := Function.update i.lists l ((i.lists l).map (·.erase e)) }

def Ideal.start : Ideal V := ⟨0, fun _ => none, fun _ => none⟩

def ideal (calls : List (Call V)) : Ideal V :=
  calls.foldl Call.ideal .start

def Ideal.values (i : Ideal V) (l : Nat) : Option (List V) :=
  (i.lists l).map (·.filterMap i.pushed)

/-- The list comes from `New` and the element from a push. -/
def Call.Valid (i : Ideal V) : Call V → Prop
  | new => True
  | pushBack l _ | pushPrev l _ => ∃ xs, i.lists l = some xs
  | remove l e => (∃ xs, i.lists l = some xs) ∧ ∃ v, i.pushed e = some v

def Admissible (i : Ideal V) : List (Call V) → Prop
  | [] => True
  | call :: rest => call.Valid i ∧ Admissible (call.ideal i) rest

def init : Memory V := ⟨fun _ => none, 0, ()⟩

structure Holds (i : Ideal V) (s : Memory V) : Prop where
  brk : s.brk = i.count
  below : ∀ a v, (fields s).value a = some v → a < s.brk
  len : ∀ l xs, i.lists l = some xs → (fields s).len l = some (xs.length : Int)
  root : ∀ l xs, i.lists l = some xs → ∃ v, (fields s).value l = some v
  ring : ∀ l xs, i.lists l = some xs → Ring (fields s).next (fields s).prev l xs
  member : ∀ l xs e, i.lists l = some xs → e ∈ xs → ∃ v, i.pushed e = some v
  value : ∀ e v, i.pushed e = some v → (fields s).value e = some v
  element : ∀ e v, i.pushed e = some v → (fields s).len e = none
  owner : ∀ e v l, i.pushed e = some v →
    ((fields s).list e = some l ↔ ∃ xs, i.lists l = some xs ∧ e ∈ xs)

theorem holds_init : Holds (ideal []) (init : Memory V) where
  brk := rfl
  below := fun _ _ known => by cases known
  len := fun _ _ known => by cases known
  root := fun _ _ known => by cases known
  ring := fun _ _ known => by cases known
  member := fun _ _ _ known => by cases known
  value := fun _ _ known => by cases known
  element := fun _ _ known => by cases known
  owner := fun _ _ _ known => by cases known

theorem owner_update (lists : Nat → Option (List Nat)) (l k e : Nat) (xs : List Nat) :
    (∃ ys, Function.update lists l (some xs) k = some ys ∧ e ∈ ys) ↔
      (k = l ∧ e ∈ xs) ∨ (k ≠ l ∧ ∃ ys, lists k = some ys ∧ e ∈ ys) := by
  by_cases self : k = l
  · simp [self]
  · simp [self]

/-- A change of a list with these nodes touches the links of no other node. -/
structure Relinked (i : Ideal V) (l : Nat) (nodes : List Nat) (F G : Fields V) : Prop where
  next : ∀ a < i.count, a ∉ nodes → G.next a = F.next a
  prev : ∀ a < i.count, a ∉ nodes → G.prev a = F.prev a
  len : ∀ a < i.count, a ≠ l → G.len a = F.len a
  value : ∀ a < i.count, G.value a = F.value a

theorem relinked_created (i : Ideal V) (F : Fields V) (v : V) :
    Relinked i i.count [i.count] F (F.created i.count v) where
  next := fun _ old _ => Function.update_of_ne (Nat.ne_of_lt old) _ _
  prev := fun _ old _ => Function.update_of_ne (Nat.ne_of_lt old) _ _
  len := fun _ _ other => Function.update_of_ne other _ _
  value := fun _ old => Function.update_of_ne (Nat.ne_of_lt old) _ _

theorem relinked_emptied (i : Ideal V) (F : Fields V) {l : Nat} {nodes : List Nat}
    (inside : l ∈ nodes) : Relinked i l nodes F (F.emptied l) where
  next := fun _ _ outside => Function.update_of_ne (ne_of_mem_of_not_mem inside outside).symm _ _
  prev := fun _ _ outside => Function.update_of_ne (ne_of_mem_of_not_mem inside outside).symm _ _
  len := fun _ _ other => Function.update_of_ne other _ _
  value := fun _ _ => rfl

theorem relinked_inserted (i : Ideal V) (F : Fields V) {l u w : Nat} {nodes : List Nat}
    (insideU : u ∈ nodes) (insideW : w ∈ nodes) (v : V) (len : Int) :
    Relinked i l nodes F (F.inserted l i.count u w v len) := by
  constructor
  · intro a old outside
    dsimp only [Fields.inserted]
    rw [Function.update_of_ne (Nat.ne_of_lt old),
      Function.update_of_ne (ne_of_mem_of_not_mem insideU outside).symm,
      Function.update_of_ne (Nat.ne_of_lt old)]
  · intro a old outside
    dsimp only [Fields.inserted]
    rw [Function.update_of_ne (ne_of_mem_of_not_mem insideW outside).symm,
      Function.update_of_ne (Nat.ne_of_lt old), Function.update_of_ne (Nat.ne_of_lt old)]
  · intro a old other
    dsimp only [Fields.inserted]
    rw [Function.update_of_ne other, Function.update_of_ne (Nat.ne_of_lt old)]
  · intro a old
    exact Function.update_of_ne (Nat.ne_of_lt old) _ _

theorem relinked_removed (i : Ideal V) (F : Fields V) {l e u w : Nat} {nodes : List Nat}
    (insideE : e ∈ nodes) (insideU : u ∈ nodes) (insideW : w ∈ nodes) (len : Int) :
    Relinked i l nodes F (F.removed l e u w len) := by
  constructor
  · intro a _ outside
    dsimp only [Fields.removed]
    rw [Function.update_of_ne (ne_of_mem_of_not_mem insideE outside).symm,
      Function.update_of_ne (ne_of_mem_of_not_mem insideU outside).symm]
  · intro a _ outside
    dsimp only [Fields.removed]
    rw [Function.update_of_ne (ne_of_mem_of_not_mem insideE outside).symm,
      Function.update_of_ne (ne_of_mem_of_not_mem insideW outside).symm]
  · intro a _ other
    exact Function.update_of_ne other _ _
  · intro a _
    rfl

section State

variable {i : Ideal V} {s : Memory V} (holds : Holds i s)
include holds

theorem list_lt {l : Nat} {xs : List Nat} (listed : i.lists l = some xs) : l < i.count := by
  obtain ⟨v, held⟩ := holds.root l xs listed
  have below := holds.below l v held
  have brk := holds.brk
  omega

theorem pushed_lt {e : Nat} {v : V} (pushed : i.pushed e = some v) : e < i.count := by
  have below := holds.below e v (holds.value e v pushed)
  have brk := holds.brk
  omega

theorem list_ne_element {l e : Nat} {xs : List Nat} {v : V} (listed : i.lists l = some xs)
    (pushed : i.pushed e = some v) : l ≠ e := by
  rintro rfl
  have len := holds.len l xs listed
  rw [holds.element l v pushed] at len
  cases len

theorem node_held {l : Nat} {xs : List Nat} (listed : i.lists l = some xs) {a : Nat}
    (inside : a ∈ l :: xs) : ∃ v, (fields s).value a = some v := by
  rcases List.mem_cons.1 inside with rfl | member
  · exact holds.root a xs listed
  · obtain ⟨v, pushed⟩ := holds.member l xs a listed member
    exact ⟨v, holds.value a v pushed⟩

theorem node_lt {l : Nat} {xs : List Nat} (listed : i.lists l = some xs) {a : Nat}
    (inside : a ∈ l :: xs) : a < i.count := by
  obtain ⟨v, held⟩ := node_held holds listed inside
  have below := holds.below a v held
  have brk := holds.brk
  omega

theorem lists_apart {l l' : Nat} {xs xs' : List Nat} (listed : i.lists l = some xs)
    (listed' : i.lists l' = some xs') (other : l ≠ l') {a : Nat} (inside : a ∈ l :: xs) :
    a ∉ l' :: xs' := by
  intro again
  rcases List.mem_cons.1 inside with rfl | member
  · rcases List.mem_cons.1 again with same | member'
    · exact other same
    · obtain ⟨v, pushed⟩ := holds.member l' xs' a listed' member'
      exact list_ne_element holds listed pushed rfl
  · obtain ⟨v, pushed⟩ := holds.member l xs a listed member
    rcases List.mem_cons.1 again with rfl | member'
    · exact list_ne_element holds listed' pushed rfl
    · have first := (holds.owner a v l pushed).2 ⟨xs, listed, member⟩
      have second := (holds.owner a v l' pushed).2 ⟨xs', listed', member'⟩
      rw [first] at second
      exact other (Option.some.inj second)

theorem element_kept {l e : Nat} {v : V} {nodes : List Nat} {F : Fields V}
    (relinked : Relinked i l nodes (fields s) F) (pushed : i.pushed e = some v) (other : e ≠ l) :
    F.value e = some v ∧ F.len e = none := by
  have old := pushed_lt holds pushed
  rw [relinked.value e old, relinked.len e old other]
  exact ⟨holds.value e v pushed, holds.element e v pushed⟩

/-- One list is changed, the others and their elements are left alone. -/
theorem holds_update {i' : Ideal V} {s' : Memory V} {F : Fields V} (l : Nat)
    (nodes xs : List Nat) (seen : fields s' = F) (relinked : Relinked i l nodes (fields s) F)
    (away : ∀ l' ys, l' ≠ l → i.lists l' = some ys → ∀ a ∈ l' :: ys, a ∉ nodes)
    (lists : i'.lists = Function.update i.lists l (some xs)) (brk : s'.brk = i'.count)
    (below : ∀ a v, F.value a = some v → a < s'.brk)
    (len : F.len l = some (xs.length : Int)) (root : ∃ v, F.value l = some v)
    (ring : Ring F.next F.prev l xs)
    (members : ∀ e ∈ xs, ∃ v, i'.pushed e = some v)
    (kept : ∀ l' ys e v, l' ≠ l → i.lists l' = some ys → e ∈ ys → i.pushed e = some v →
      i'.pushed e = some v)
    (elements : ∀ e v, i'.pushed e = some v →
      (F.value e = some v ∧ F.len e = none) ∧
        ∀ k, F.list e = some k ↔ ∃ ys, i'.lists k = some ys ∧ e ∈ ys) :
    Holds i' s' := by
  have cases' : ∀ {l' ys}, i'.lists l' = some ys →
      (l' = l ∧ ys = xs) ∨ (l' ≠ l ∧ i.lists l' = some ys) := by
    intro l' ys listed
    rw [lists] at listed
    by_cases self : l' = l
    · rw [self, Function.update_self] at listed
      exact .inl ⟨self, (Option.some.inj listed).symm⟩
    · rw [Function.update_of_ne self] at listed
      exact .inr ⟨self, listed⟩
  subst seen
  refine ⟨brk, below, ?_, ?_, ?_, ?_, ?_, ?_, ?_⟩
  · intro l' ys listed
    rcases cases' listed with ⟨rfl, rfl⟩ | ⟨other, old⟩
    · exact len
    · rw [relinked.len l' (list_lt holds old) other]
      exact holds.len l' ys old
  · intro l' ys listed
    rcases cases' listed with ⟨rfl, rfl⟩ | ⟨other, old⟩
    · exact root
    · rw [relinked.value l' (list_lt holds old)]
      exact holds.root l' ys old
  · intro l' ys listed
    rcases cases' listed with ⟨rfl, rfl⟩ | ⟨other, old⟩
    · exact ring
    · apply ring_frame (holds.ring l' ys old)
      · intro a inside
        exact relinked.next a (node_lt holds old inside) (away l' ys other old a inside)
      · intro a inside
        exact relinked.prev a (node_lt holds old inside) (away l' ys other old a inside)
  · intro l' ys e listed member
    rcases cases' listed with ⟨rfl, rfl⟩ | ⟨other, old⟩
    · exact members e member
    · obtain ⟨v, pushed⟩ := holds.member l' ys e old member
      exact ⟨v, kept l' ys e v other old member pushed⟩
  · exact fun e v pushed => (elements e v pushed).1.1
  · exact fun e v pushed => (elements e v pushed).1.2
  · exact fun e v k pushed => (elements e v pushed).2 k

theorem nodes_away {l : Nat} {xs : List Nat} (listed : i.lists l = some xs) (l' : Nat)
    (ys : List Nat) (other : l' ≠ l) (listed' : i.lists l' = some ys) :
    ∀ a ∈ l' :: ys, a ∉ l :: xs := by
  intro a inside
  exact lists_apart holds listed' listed other inside

theorem below_fresh (v₀ : V) (a : Nat) (v : V)
    (held : Function.update (fields s).value i.count (some v₀) a = some v) : a < i.count + 1 := by
  by_cases self : a = i.count
  · omega
  · rw [Function.update_of_ne self] at held
    have below := holds.below a v held
    have brk := holds.brk
    omega

theorem owner_kept {l e : Nat} {xs ys : List Nat} {v : V} (listed : i.lists l = some xs)
    (pushed : i.pushed e = some v) (same : e ∈ ys ↔ e ∈ xs) (k : Nat) :
    (fields s).list e = some k ↔
      ∃ zs, Function.update i.lists l (some ys) k = some zs ∧ e ∈ zs := by
  rw [holds.owner e v k pushed, owner_update]
  by_cases self : k = l
  · subst self
    simp [listed, same]
  · simp [self]

theorem owner_fresh {l : Nat} {xs : List Nat} (inside : i.count ∈ xs) (k : Nat) :
    some l = some k ↔ ∃ zs, Function.update i.lists l (some xs) k = some zs ∧ i.count ∈ zs := by
  rw [owner_update, Option.some.injEq]
  constructor
  · rintro rfl
    exact .inl ⟨rfl, inside⟩
  · rintro (⟨rfl, _⟩ | ⟨_, ys, listed, member⟩)
    · rfl
    · exact absurd (node_lt holds listed (List.mem_cons_of_mem k member)) (lt_irrefl _)

theorem ring_fresh {l : Nat} {xs : List Nat} (listed : i.lists l = some xs) (p q : Ptr) :
    Ring (Function.update (fields s).next i.count p) (Function.update (fields s).prev i.count q)
      l xs := by
  refine ring_frame (holds.ring l xs listed) ?_ ?_
  · intro a inside
    exact Function.update_of_ne (Nat.ne_of_lt (node_lt holds listed inside)) _ _
  · intro a inside
    exact Function.update_of_ne (Nat.ne_of_lt (node_lt holds listed inside)) _ _

theorem new_holds [Inhabited V] :
    wp (GoList.new : Prog (Memory V) Ptr)
      (fun reply s' => reply = some i.count ∧ Holds (Call.new.ideal i) s') s := by
  apply new_spec
  intro s' brk' fields'
  rw [holds.brk] at brk' fields' ⊢
  have relinked := relinked_created i (fields s) default
  refine ⟨rfl, holds_update holds i.count [i.count] [] fields' relinked ?_ rfl brk' ?_ ?_ ?_ ?_
    (by simp) (fun _ _ _ _ _ _ _ pushed => pushed) ?_⟩
  · intro l ys _ listed a inside
    have old := Nat.ne_of_lt (node_lt holds listed inside)
    simpa using old
  · intro a v held
    rw [brk']
    exact below_fresh holds default a v held
  · exact Function.update_self ..
  · exact ⟨default, Function.update_self ..⟩
  · exact ring_empty (Function.update_self ..) (Function.update_self ..)
  · intro e v pushed
    have old := Nat.ne_of_lt (pushed_lt holds pushed)
    refine ⟨element_kept holds relinked pushed old, ?_⟩
    intro l
    dsimp only [Fields.created]
    rw [Function.update_of_ne old, holds.owner e v l pushed, Call.ideal, owner_update]
    constructor
    · rintro ⟨xs, listed, member⟩
      exact .inr ⟨Nat.ne_of_lt (list_lt holds listed), xs, listed, member⟩
    · rintro (⟨_, none⟩ | ⟨_, held⟩)
      · cases none
      · exact held

theorem members_inserted {l : Nat} {p q : List Nat} (v : V) (listed : i.lists l = some (p ++ q)) :
    ∀ e ∈ p ++ i.count :: q, ∃ ve, Function.update i.pushed i.count (some v) e = some ve := by
  intro e inside
  by_cases self : e = i.count
  · rw [self, Function.update_self]
    exact ⟨v, rfl⟩
  · have member : e ∈ p ++ q := by
      simp only [List.mem_append, List.mem_cons, self, false_or] at inside ⊢
      exact inside
    obtain ⟨ve, pushed⟩ := holds.member l _ e listed member
    exact ⟨ve, (Function.update_of_ne self _ _).trans pushed⟩

theorem removed_unowned {l e : Nat} {p q : List Nat} (listed : i.lists l = some (p ++ e :: q))
    (fresh : e ∉ l :: (p ++ q)) (k : Nat) :
    ¬∃ ys, Function.update i.lists l (some (p ++ q)) k = some ys ∧ e ∈ ys := by
  rw [owner_update]
  intro owned
  rcases owned with here | there
  · exact fresh (List.mem_cons_of_mem l here.2)
  · obtain ⟨other, ys, listed', again⟩ := there
    exact lists_apart holds listed listed' other.symm (by simp) (List.mem_cons_of_mem k again)

theorem push_holds {l u w : Nat} {p q before after : List Nat} (v : V)
    (listed : i.lists l = some (p ++ q)) (front : l :: p = before ++ [u])
    (rear : q ++ [l] = w :: after) (edge : Edge (fields s).next (fields s).prev u w) :
    wp (insertValue (some l) v (some u)) (fun reply s' => reply = some i.count ∧
      (∀ a, a ≠ i.count → (fields s').list a = (fields s).list a) ∧
      Holds ⟨i.count + 1, Function.update i.lists l (some (p ++ i.count :: q)),
        Function.update i.pushed i.count (some v)⟩ s') s := by
  have ends := ends_inside front rear
  have ltU := Nat.ne_of_lt (node_lt holds listed ends.1)
  have ltW := Nat.ne_of_lt (node_lt holds listed ends.2)
  have ltL := Nat.ne_of_lt (list_lt holds listed)
  obtain ⟨vu, heldU⟩ := node_held holds listed ends.1
  obtain ⟨vw, heldW⟩ := node_held holds listed ends.2
  obtain ⟨vl, heldL⟩ := holds.root l _ listed
  have brk := holds.brk
  apply insertValue_spec v heldU heldW edge.1 (holds.len l _ listed) (by rwa [brk]) (by rwa [brk])
    (by rwa [brk])
  intro s' brk' fields'
  rw [brk] at brk' fields' ⊢
  have fresh : i.count ∉ l :: (p ++ q) := by
    intro inside
    exact lt_irrefl _ (node_lt holds listed inside)
  have relinked := relinked_inserted i (fields s) (l := l) ends.1 ends.2 v ((p ++ q).length + 1)
  refine ⟨rfl, ?_, holds_update holds l _ (p ++ i.count :: q) fields' relinked
    (nodes_away holds listed) rfl brk' ?_ ?_ ?_
    (ring_insert (ring_fresh holds listed none none) front rear fresh) ?_ ?_ ?_⟩
  · intro a other
    rw [fields']
    exact inserted_list_of_ne _ v _ other
  · intro a va held
    rw [brk']
    exact below_fresh holds v a va held
  · dsimp only [Fields.inserted]
    rw [Function.update_self]
    simp only [List.length_append, List.length_cons]
    push_cast
    ring_nf
  · exact ⟨vl, (Function.update_of_ne ltL _ _).trans heldL⟩
  · exact members_inserted holds v listed
  · intro _ _ e ve _ _ _ pushed
    exact (Function.update_of_ne (Nat.ne_of_lt (pushed_lt holds pushed)) _ _).trans pushed
  · intro e ve pushed
    dsimp only at pushed ⊢
    by_cases self : e = i.count
    · subst self
      rw [Function.update_self] at pushed
      dsimp only [Fields.inserted]
      rw [Function.update_self, Function.update_of_ne ltL.symm, Function.update_self,
        Function.update_self]
      exact ⟨⟨pushed, rfl⟩, owner_fresh holds (by simp)⟩
    · rw [Function.update_of_ne self] at pushed
      refine ⟨element_kept holds relinked pushed (list_ne_element holds listed pushed).symm, ?_⟩
      rw [inserted_list_of_ne _ v _ self]
      exact owner_kept holds listed pushed (by simp [self])

theorem pushBack_holds {l : Nat} {xs : List Nat} (v : V) (listed : i.lists l = some xs) :
    wp (GoList.pushBack (some l) v) (fun reply s' => reply = some i.count ∧
      (∀ a, a ≠ i.count → (fields s').list a = (fields s).list a) ∧
      Holds ((Call.pushBack l v).ideal i) s') s := by
  obtain ⟨vl, heldL⟩ := holds.root l xs listed
  have ring := holds.ring l xs listed
  rw [← List.append_nil xs] at ring listed
  obtain ⟨before, u, w, after, front, rear, edge⟩ := ring_adjacent ring
  obtain rfl : l = w := by
    rw [List.nil_append] at rear
    exact (List.cons.inj rear).1
  rw [GoList.pushBack, wp_bind]
  apply wp_elem heldL
  dsimp only
  rw [edge.2]
  refine wp_mono _ _ _ s (push_holds holds v listed front rear edge) ?_
  rintro reply s' ⟨handle, owners, after⟩
  refine ⟨handle, owners, ?_⟩
  rw [Call.ideal, listed]
  simpa using after

theorem pushPrev_holds {l : Nat} {xs : List Nat} (v : V) (listed : i.lists l = some xs) :
    wp (GoList.pushPrev (some l) v) (fun reply s' => reply = some i.count ∧
      (∀ a, a ≠ i.count → (fields s').list a = (fields s).list a) ∧
      Holds ((Call.pushPrev l v).ideal i) s') s := by
  have ring : Ring (fields s).next (fields s).prev l ([] ++ xs) := holds.ring l xs listed
  obtain ⟨before, u, w, after, front, rear, edge⟩ := ring_adjacent ring
  obtain rfl : l = u := by
    rw [← List.nil_append [l]] at front
    exact (List.cons.inj (List.append_inj' front rfl).2).1
  rw [GoList.pushPrev]
  refine wp_mono _ _ _ s (push_holds holds (p := []) v listed front rear edge) ?_
  rintro reply s' ⟨handle, owners, after⟩
  refine ⟨handle, owners, ?_⟩
  rw [Call.ideal, listed]
  exact after

theorem remove_holds {l e : Nat} {p q : List Nat} (listed : i.lists l = some (p ++ e :: q)) :
    wp (GoList.remove (some l) (some e)) (fun _ s' => (fields s').value = (fields s).value ∧
      (∀ a, a ≠ e → (fields s').list a = (fields s).list a) ∧
      Holds { i with lists := Function.update i.lists l (some (p ++ q)) } s') s := by
  have ring := holds.ring l _ listed
  obtain ⟨before, u, w, after, front, rear, first, second⟩ := ring_neighbours ring
  have moved : (l :: (p ++ e :: q)).Perm (e :: l :: (p ++ q)) :=
    (List.perm_middle.cons l).trans (.swap e l _)
  have fresh := (List.nodup_cons.1 (moved.nodup_iff.1 ring.distinct)).1
  have inside : ∀ a ∈ l :: (p ++ q), a ∈ l :: (p ++ e :: q) := by
    intro a member
    exact moved.mem_iff.2 (List.mem_cons_of_mem e member)
  have ends := ends_inside front rear
  obtain ⟨vu, heldU⟩ := node_held holds listed (inside u ends.1)
  obtain ⟨vw, heldW⟩ := node_held holds listed (inside w ends.2)
  obtain ⟨ve, pushed⟩ := holds.member l _ e listed (by simp)
  have apart : u ≠ e := by
    rintro rfl
    exact fresh ends.1
  apply remove_spec (holds.value e ve pushed) heldU heldW second.1 first.2 apart
    (holds.len l _ listed)
  intro s' brk' fields'
  have relinked := relinked_removed i (fields s) (l := l) (e := e) (by simp) (inside u ends.1)
    (inside w ends.2) ((p ++ e :: q).length - 1)
  refine ⟨by rw [fields']; rfl, ?_, holds_update holds l _ (p ++ q) fields' relinked
    (nodes_away holds listed) rfl (brk'.trans holds.brk) ?_ ?_ (holds.root l _ listed)
    (ring_remove ring front rear) ?_ (fun _ _ _ _ _ _ _ held => held) ?_⟩
  · intro a other
    rw [fields']
    exact removed_list_of_ne _ _ other
  · intro a v held
    rw [brk']
    exact holds.below a v held
  · dsimp only [Fields.removed]
    rw [Function.update_self]
    simp only [List.length_append, List.length_cons]
    push_cast
    ring_nf
  · intro a member
    refine holds.member l _ a listed ?_
    simp only [List.mem_append, List.mem_cons] at member ⊢
    tauto
  · intro a va held
    refine ⟨element_kept holds relinked held (list_ne_element holds listed held).symm, ?_⟩
    intro k
    by_cases self : a = e
    · subst self
      dsimp only [Fields.removed]
      rw [Function.update_self]
      exact iff_of_false (by simp) (removed_unowned holds listed fresh k)
    · rw [removed_list_of_ne _ _ self]
      exact owner_kept holds listed held (by simp [self]) k

/-- `Remove` returns the element's value; it touches nothing if the element is not in the list. -/
theorem removeElement_holds {l e : Nat} {xs : List Nat} {v : V} (listed : i.lists l = some xs)
    (pushed : i.pushed e = some v) :
    wp (removeElement (some l) (some e)) (fun reply s' => reply = v ∧
      (∀ a, a ≠ e → (fields s').list a = (fields s).list a) ∧
      Holds ((Call.remove l e).ideal i) s' ∧ (e ∉ xs → s' = s)) s := by
  have held := holds.value e v pushed
  have owner : (fields s).list e = some l ↔ e ∈ xs := by
    rw [holds.owner e v l pushed, listed]
    simp
  rw [removeElement, wp_bind]
  apply wp_elem held
  rw [wp_ite]
  split
  · next mine =>
      have member := owner.1 mine
      obtain ⟨p, q, rfl⟩ := List.append_of_mem member
      have distinct := (List.nodup_cons.1 (holds.ring l _ listed).distinct).2
      have erased : (p ++ e :: q).erase e = p ++ q := by
        rw [List.erase_append_right, List.erase_cons_head]
        intro before
        exact (List.nodup_append.1 distinct).2.2 e before e (by simp) rfl
      rw [wp_bind]
      refine wp_mono _ _ _ s (remove_holds holds listed) ?_
      rintro _ s' ⟨values, owners, after⟩
      rw [wp_bind]
      apply wp_elem (v := v) (by rw [values]; exact held)
      refine ⟨rfl, owners, ?_, fun absent => absurd member absent⟩
      rw [Call.ideal, listed, Option.map_some, erased]
      exact after
  · next foreign =>
      have absent : e ∉ xs := owner.not.1 foreign
      rw [wp_bind]
      apply wp_elem held
      refine ⟨rfl, fun _ _ => rfl, ?_, fun _ => rfl⟩
      rw [Call.ideal, listed, Option.map_some, List.erase_of_not_mem absent, ← listed,
        Function.update_eq_self]
      exact holds

theorem next_spec {l e : Nat} {p q : List Nat} (listed : i.lists l = some (p ++ e :: q)) :
    wp (GoList.next (some e)) (fun reply s' => reply = q.head? ∧ s' = s) s := by
  have ring := holds.ring l _ listed
  obtain ⟨v, pushed⟩ := holds.member l _ e listed (by simp)
  obtain ⟨_, _, w, after, _, rear, _, edge⟩ := ring_neighbours ring
  have owner := (holds.owner e v l pushed).2 ⟨_, listed, by simp⟩
  rw [GoList.next, wp_bind]
  apply wp_elem (holds.value e v pushed)
  dsimp only
  rw [owner, edge.1, wp_ite]
  cases q with
  | nil =>
      obtain rfl : l = w := (List.cons.inj rear).1
      rw [if_neg (by simp)]
      exact ⟨rfl, rfl⟩
  | cons y q =>
      obtain rfl : y = w := (List.cons.inj rear).1
      have apart : y ≠ l := by
        rintro rfl
        exact (List.nodup_cons.1 ring.distinct).1 (by simp)
      rw [if_pos (by simp [apart])]
      exact ⟨rfl, rfl⟩

theorem prev_spec {l e : Nat} {p q : List Nat} (listed : i.lists l = some (p ++ e :: q)) :
    wp (GoList.prev (some e)) (fun reply s' => reply = p.getLast? ∧ s' = s) s := by
  have ring := holds.ring l _ listed
  obtain ⟨v, pushed⟩ := holds.member l _ e listed (by simp)
  obtain ⟨before, u, _, _, front, _, edge, _⟩ := ring_neighbours ring
  have owner := (holds.owner e v l pushed).2 ⟨_, listed, by simp⟩
  rw [GoList.prev, wp_bind]
  apply wp_elem (holds.value e v pushed)
  dsimp only
  rw [owner, edge.2, wp_ite]
  induction p using List.reverseRecOn with
  | nil =>
      obtain rfl : l = u := by
        rw [← List.nil_append [l]] at front
        exact (List.cons.inj (List.append_inj' front rfl).2).1
      rw [if_neg (by simp)]
      exact ⟨rfl, rfl⟩
  | append_singleton p y _ =>
      obtain rfl : y = u := by
        rw [← List.cons_append] at front
        exact (List.cons.inj (List.append_inj' front rfl).2).1
      have apart : y ≠ l := by
        rintro rfl
        exact (List.nodup_cons.1 ring.distinct).1 (by simp)
      rw [if_pos (by simp [apart])]
      exact ⟨by simp, rfl⟩

theorem front_spec {l : Nat} {xs : List Nat} (listed : i.lists l = some xs) :
    wp (front (some l)) (fun reply s' => reply = xs.head? ∧ s' = s) s := by
  obtain ⟨v, held⟩ := holds.root l xs listed
  have ring : Ring (fields s).next (fields s).prev l ([] ++ xs) := holds.ring l xs listed
  obtain ⟨before, u, w, after, first, rear, edge⟩ := ring_adjacent ring
  obtain rfl : l = u := by
    rw [← List.nil_append [l]] at first
    exact (List.cons.inj (List.append_inj' first rfl).2).1
  rw [front, wp_bind]
  apply wp_getLen (holds.len l xs listed)
  rw [wp_ite]
  cases xs with
  | nil =>
      rw [if_pos (by simp)]
      exact ⟨rfl, rfl⟩
  | cons x xs =>
      obtain rfl : x = w := (List.cons.inj rear).1
      rw [if_neg (by simp only [List.length_cons]; omega), wp_bind]
      apply wp_elem held
      exact ⟨edge.1, rfl⟩

theorem back_spec {l : Nat} {xs : List Nat} (listed : i.lists l = some xs) :
    wp (back (some l)) (fun reply s' => reply = xs.getLast? ∧ s' = s) s := by
  obtain ⟨v, held⟩ := holds.root l xs listed
  have ring := holds.ring l xs listed
  rw [← List.append_nil xs] at ring
  obtain ⟨before, u, w, after, first, rear, edge⟩ := ring_adjacent ring
  obtain rfl : l = w := by
    rw [List.nil_append] at rear
    exact (List.cons.inj rear).1
  rw [back, wp_bind]
  apply wp_getLen (holds.len l xs listed)
  rw [wp_ite]
  induction xs using List.reverseRecOn with
  | nil =>
      rw [if_pos (by simp)]
      exact ⟨rfl, rfl⟩
  | append_singleton xs x _ =>
      obtain rfl : x = u := by
        rw [← List.cons_append] at first
        exact (List.cons.inj (List.append_inj' first rfl).2).1
      rw [if_neg (by simp only [List.length_append, List.length_singleton]; omega), wp_bind]
      apply wp_elem held
      exact ⟨by simpa using edge.2, rfl⟩

theorem walk_spec (step : Ptr → Prog (Memory V) Ptr) (xs : List Nat) (fuel : Nat)
    (enough : xs.length ≤ fuel) (members : ∀ e ∈ xs, ∃ v, i.pushed e = some v)
    (leads : ∀ p e q, xs = p ++ e :: q →
      wp (step (some e)) (fun reply s' => reply = q.head? ∧ s' = s) s) :
    wp (walk step fuel xs.head?) (fun vs s' => vs = xs.filterMap i.pushed ∧ s' = s) s := by
  induction xs generalizing fuel with
  | nil => cases fuel <;> exact ⟨rfl, rfl⟩
  | cons e xs ih =>
      obtain ⟨v, pushed⟩ := members e (by simp)
      cases fuel with
      | zero => simp at enough
      | succ fuel =>
          rw [List.head?_cons, walk, wp_bind]
          apply wp_elem (holds.value e v pushed)
          rw [wp_bind]
          refine wp_mono _ _ _ s (leads [] e xs rfl) ?_
          rintro reply _ ⟨rfl, rfl⟩
          rw [wp_bind]
          refine wp_mono _ _ _ _ (ih fuel (by simpa using enough)
            (fun a member => members a (List.mem_cons_of_mem e member)) ?_) ?_
          · rintro p a q rfl
            exact leads (e :: p) a q rfl
          · rintro vs _ ⟨rfl, rfl⟩
            exact ⟨by rw [List.filterMap_cons, pushed], rfl⟩

theorem list_length {l : Nat} {xs : List Nat} (listed : i.lists l = some xs) :
    xs.length ≤ s.brk := by
  have distinct := (List.nodup_cons.1 (holds.ring l xs listed).distinct).2
  have within : xs ⊆ List.range i.count := by
    intro a member
    exact List.mem_range.2 (node_lt holds listed (List.mem_cons_of_mem l member))
  have length := (distinct.subperm within).length_le
  rw [List.length_range] at length
  rw [holds.brk]
  exact length

theorem forward_spec {l : Nat} {xs : List Nat} (listed : i.lists l = some xs) :
    wp (forward (some l)) (fun vs s' => vs = xs.filterMap i.pushed ∧ s' = s) s := by
  rw [forward, wp_bind, wp_cells, wp_bind]
  refine wp_mono _ _ _ s (front_spec holds listed) ?_
  rintro reply _ ⟨rfl, rfl⟩
  apply walk_spec holds GoList.next xs _ (list_length holds listed)
  · exact fun e member => holds.member l xs e listed member
  · rintro p e q rfl
    exact next_spec holds listed

theorem backward_spec {l : Nat} {xs : List Nat} (listed : i.lists l = some xs) :
    wp (backward (some l)) (fun vs s' => vs = xs.reverse.filterMap i.pushed ∧ s' = s) s := by
  rw [backward, wp_bind, wp_cells, wp_bind]
  refine wp_mono _ _ _ s (back_spec holds listed) ?_
  rintro reply _ ⟨rfl, rfl⟩
  rw [← List.head?_reverse]
  apply walk_spec holds GoList.prev xs.reverse
  · rw [List.length_reverse]
    exact list_length holds listed
  · exact fun e member => holds.member l xs e listed (List.mem_reverse.1 member)
  · intro p e q split
    have forth : xs = q.reverse ++ e :: p.reverse := by
      rw [← List.reverse_reverse xs, split]
      simp
    rw [forth] at listed
    rw [← List.getLast?_reverse]
    exact prev_spec holds listed

end State

def Shows (i : Ideal V) (s : Memory V) : Prop :=
  ∀ l vs, i.values l = some vs →
    (forward (some l)).run s = .ok (vs, s) ∧ (backward (some l)).run s = .ok (vs.reverse, s) ∧
      (GoList.len (some l)).run s = .ok ((vs.length : Int), s)

def Answers (i : Ideal V) (s : Memory V) : Call V → Reply V → Memory V → Prop
  | .remove l e, reply, s' =>
      (∃ v, i.pushed e = some v ∧ reply = .value v) ∧
        ((∀ xs, i.lists l = some xs → e ∉ xs) → s' = s)
  | _, reply, _ => reply = .handle (some i.count)

theorem wp_run {σ α : Type} {program : Prog σ α} {a : α} {s : σ}
    (returns : wp program (fun b s' => b = a ∧ s' = s) s) : program.run s = .ok (a, s) := by
  obtain ⟨b, s', ran, rfl, rfl⟩ := (wp_iff_run _ _ _).1 returns
  exact ran

theorem holds_shows {i : Ideal V} {s : Memory V} (holds : Holds i s) : Shows i s := by
  intro l vs values
  obtain ⟨xs, listed, rfl⟩ := Option.map_eq_some_iff.1 values
  have length : (xs.filterMap i.pushed).length = xs.length := by
    rw [List.filterMap_length_eq_length]
    intro e member
    obtain ⟨v, pushed⟩ := holds.member l xs e listed member
    rw [pushed]
    rfl
  refine ⟨wp_run (forward_spec holds listed), ?_, wp_run ?_⟩
  · rw [← List.filterMap_reverse]
    exact wp_run (backward_spec holds listed)
  · rw [length]
    exact wp_getLen (holds.len l xs listed) _ ⟨rfl, rfl⟩

theorem admissible_append (i : Ideal V) (earlier later : List (Call V)) :
    Admissible i (earlier ++ later) ↔
      Admissible i earlier ∧ Admissible (earlier.foldl Call.ideal i) later := by
  induction earlier generalizing i with
  | nil => simp [Admissible]
  | cons call rest ih => simp [Admissible, ih, and_assoc]

theorem exec_holds [Inhabited V] {i : Ideal V} {s : Memory V} (call : Call V)
    (valid : call.Valid i) (holds : Holds i s) :
    wp call.exec (fun reply s' => Holds (call.ideal i) s' ∧ Answers i s call reply s') s := by
  cases call with
  | new =>
      rw [Call.exec, wp_bind]
      refine wp_mono _ _ _ s (new_holds holds) ?_
      rintro _ s' ⟨rfl, after⟩
      exact ⟨after, rfl⟩
  | pushBack l v =>
      obtain ⟨xs, listed⟩ := valid
      rw [Call.exec, wp_bind]
      refine wp_mono _ _ _ s (pushBack_holds holds v listed) ?_
      rintro _ s' ⟨rfl, -, after⟩
      exact ⟨after, rfl⟩
  | pushPrev l v =>
      obtain ⟨xs, listed⟩ := valid
      rw [Call.exec, wp_bind]
      refine wp_mono _ _ _ s (pushPrev_holds holds v listed) ?_
      rintro _ s' ⟨rfl, -, after⟩
      exact ⟨after, rfl⟩
  | remove l e =>
      obtain ⟨⟨xs, listed⟩, v, pushed⟩ := valid
      rw [Call.exec, wp_bind]
      refine wp_mono _ _ _ s (removeElement_holds holds listed pushed) ?_
      rintro _ s' ⟨rfl, -, after, untouched⟩
      exact ⟨after, ⟨_, pushed, rfl⟩, fun absent => untouched (absent xs listed)⟩

/-- After every call of any sequence the lists read as the ideal sequences do. -/
theorem list_run [Inhabited V] (earlier : List (Call V)) (call : Call V)
    (admissible : Admissible .start (earlier ++ [call])) :
    ∃ s reply s', (runCalls Call.exec earlier).run init = .ok ((), s) ∧
      call.exec.run s = .ok (reply, s') ∧ Shows (ideal (earlier ++ [call])) s' ∧
      Answers (ideal earlier) s call reply s' := by
  obtain ⟨s, reply, s', ran, answered, holds, answer⟩ := runCalls_every Call.exec
    (Admissible Ideal.start) (fun calls s => Holds (ideal calls) s)
    (fun calls call s reply s' => Answers (ideal calls) s call reply s') init
    (by
      rintro earlier _ ⟨later, rfl⟩ admissible
      exact ((admissible_append _ _ _).1 admissible).1)
    holds_init (by
      intro calls call s admissible holds
      have valid := ((admissible_append _ _ _).1 admissible).2.1
      have extended : ideal (calls ++ [call]) = call.ideal (ideal calls) := by simp [ideal]
      rw [extended]
      exact exec_holds call valid holds) earlier [] call admissible
  exact ⟨s, reply, s', ran, answered, holds_shows holds, answer⟩

theorem list_run_stale_handle :
    ∃ s reply s',
      (runCalls Call.exec [.new, .pushBack 0 5, .pushPrev 0 6, .remove 0 1]).run
        (init : Memory Nat) = .ok ((), s) ∧
      (Call.exec (.remove 0 1)).run s = .ok (reply, s') ∧
      (forward (some 0)).run s' = .ok ([6], s') ∧ s' = s := by
  obtain ⟨s, reply, s', ran, answered, shows, _, untouched⟩ :=
    list_run [.new, .pushBack 0 5, .pushPrev 0 6, .remove 0 1] (.remove 0 1)
      ⟨trivial, ⟨_, rfl⟩, ⟨_, rfl⟩, ⟨⟨_, rfl⟩, _, rfl⟩, ⟨⟨_, rfl⟩, _, rfl⟩, trivial⟩
  refine ⟨s, reply, s', ran, answered, (shows 0 [6] rfl).1, untouched ?_⟩
  intro xs listed
  cases listed
  decide

end DataStructure.GoList
