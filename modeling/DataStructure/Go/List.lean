import DataStructure.Lib.Heap
import DataStructure.Lib.Ring

/-! The linked list of `go/study0507/list/list.go`.

A `List` embeds its `root` element, so a pointer to `root` is the address of the list. Lists too
long for an `int` do not fit into memory; `len` is an `Int`. -/

namespace DataStructure.GoList

open Program Heap DoublyLinked

structure Element (V : Type) where
  prev : Ptr
  next : Ptr
  list : Ptr
  value : V

inductive Node (V : Type) where
  | element (e : Element V)
  | list (len : Int) (root : Element V)

variable {V : Type}

def Node.elem : Node V → Element V
  | element e => e
  | list _ root => root

def Node.mapElem (f : Element V → Element V) : Node V → Node V
  | element e => element (f e)
  | list len root => list len (f root)

abbrev Memory (V : Type) := Store Unit (Node V)

def elem (p : Ptr) : Prog (Memory V) (Element V) := do
  return (← load p).elem

def setNext (p q : Ptr) : Prog (Memory V) Unit :=
  assign p (Node.mapElem fun e => { e with next := q })

def setPrev (p q : Ptr) : Prog (Memory V) Unit :=
  assign p (Node.mapElem fun e => { e with prev := q })

def setList (p l : Ptr) : Prog (Memory V) Unit :=
  assign p (Node.mapElem fun e => { e with list := l })

def getLen (l : Ptr) : Prog (Memory V) Int := do
  match ← load l with
  | .list len _ => return len
  | .element _ => fault .segv

def setLen (l : Ptr) (len : Int) : Prog (Memory V) Unit := do
  match ← load l with
  | .list _ root => assign l fun _ => .list len root
  | .element _ => fault .segv

def next (e : Ptr) : Prog (Memory V) Ptr := do
  let this ← elem e
  let p := this.next
  -- &e.list.root is the address of the list
  if this.list ≠ none ∧ p ≠ this.list then return p else return none

def prev (e : Ptr) : Prog (Memory V) Ptr := do
  let this ← elem e
  let p := this.prev
  if this.list ≠ none ∧ p ≠ this.list then return p else return none

def listInit (l : Ptr) : Prog (Memory V) Ptr := do
  setNext l l
  setPrev l l
  setLen l 0
  return l

def new [Inhabited V] : Prog (Memory V) Ptr := do
  let l ← malloc (.list 0 ⟨none, none, none, default⟩)
  listInit l

def back (l : Ptr) : Prog (Memory V) Ptr := do
  if (← getLen l) = 0 then return none else return (← elem l).prev

def len (l : Ptr) : Prog (Memory V) Int := getLen l

def front (l : Ptr) : Prog (Memory V) Ptr := do
  if (← getLen l) = 0 then return none else return (← elem l).next

def insert (l e at' : Ptr) : Prog (Memory V) Ptr := do
  let n := (← elem at').next
  setNext at' e
  setPrev e at'
  setNext e n
  setPrev n e
  setList e l
  setLen l ((← getLen l) + 1)
  return e

def insertValue (l : Ptr) (v : V) (at' : Ptr) : Prog (Memory V) Ptr := do
  let e ← malloc (.element ⟨none, none, none, v⟩)
  insert l e at'

def pushBack (l : Ptr) (v : V) : Prog (Memory V) Ptr := do
  insertValue l v (← elem l).prev

def pushPrev (l : Ptr) (v : V) : Prog (Memory V) Ptr :=
  insertValue l v l

def remove (l e : Ptr) : Prog (Memory V) Ptr := do
  setNext (← elem e).prev (← elem e).next
  setPrev (← elem e).next (← elem e).prev
  setNext e none
  setPrev e none
  setList e none
  setLen l ((← getLen l) - 1)
  return e

def removeElement (l e : Ptr) : Prog (Memory V) V := do
  if (← elem e).list = l then
    let _ ← remove l e
  return (← elem e).value

/-- `for e := first; e != nil; e = step(e)`, collecting the values. -/
def walk (step : Ptr → Prog (Memory V) Ptr) : Nat → Ptr → Prog (Memory V) (List V)
  | _, none => return []
  | 0, some _ => fault .stuck
  | fuel + 1, some e => do
      let value := (← elem (some e)).value
      return value :: (← walk step fuel (← step (some e)))

def forward (l : Ptr) : Prog (Memory V) (List V) := do
  walk next (← cells) (← front l)

def backward (l : Ptr) : Prog (Memory V) (List V) := do
  walk prev (← cells) (← back l)

structure Fields (V : Type) where
  next : Nat → Ptr
  prev : Nat → Ptr
  list : Nat → Ptr
  value : Nat → Option V
  len : Nat → Option Int

def Node.len : Node V → Option Int
  | element _ => none
  | list len _ => some len

def fields (s : Memory V) : Fields V where
  next a := (s.cell a).bind (·.elem.next)
  prev a := (s.cell a).bind (·.elem.prev)
  list a := (s.cell a).bind (·.elem.list)
  value a := (s.cell a).map (·.elem.value)
  len a := (s.cell a).bind (·.len)

theorem fields_put (s : Memory V) (a : Nat) (n : Node V) :
    fields (s.put a n) =
      ⟨Function.update (fields s).next a n.elem.next, Function.update (fields s).prev a n.elem.prev,
        Function.update (fields s).list a n.elem.list,
        Function.update (fields s).value a (some n.elem.value),
        Function.update (fields s).len a n.len⟩ := by
  simp only [fields, Fields.mk.injEq]
  refine ⟨?_, ?_, ?_, ?_, ?_⟩ <;> funext b <;> by_cases self : b = a <;> simp [self]

@[simp] theorem mapElem_elem (f : Element V → Element V) (n : Node V) :
    (n.mapElem f).elem = f n.elem := by
  cases n <;> rfl

@[simp] theorem mapElem_len (f : Element V → Element V) (n : Node V) :
    (n.mapElem f).len = n.len := by
  cases n <;> rfl

variable {s : Memory V} {a : Nat} {v : V}

theorem value_some (held : (fields s).value a = some v) :
    ∃ n, s.cell a = some n ∧ n.elem.value = v ∧ (fields s).next a = n.elem.next ∧
      (fields s).prev a = n.elem.prev ∧ (fields s).list a = n.elem.list ∧
      (fields s).len a = n.len := by
  obtain ⟨n, cell, value⟩ := Option.map_eq_some_iff.1 held
  exact ⟨n, cell, value, by simp [fields, cell], by simp [fields, cell], by simp [fields, cell],
    by simp [fields, cell]⟩

theorem wp_elem (held : (fields s).value a = some v) (post : Element V → Memory V → Prop)
    (holds : post ⟨(fields s).prev a, (fields s).next a, (fields s).list a, v⟩ s) :
    wp (elem (some a)) post s := by
  obtain ⟨n, cell, value, next, prev, list, _⟩ := value_some held
  rw [next, prev, list, ← value] at holds
  simp only [elem, wp_bind, wp_load]
  exact ⟨n, cell, holds⟩

theorem wp_setNext (held : (fields s).value a = some v) (q : Ptr) (post : Unit → Memory V → Prop)
    (holds : ∀ s', s'.brk = s.brk →
      fields s' = { fields s with next := Function.update (fields s).next a q } → post () s') :
    wp (setNext (some a) q) post s := by
  obtain ⟨n, cell, value, next, prev, list, len⟩ := value_some held
  simp only [setNext, wp_assign]
  refine ⟨n, cell, holds _ rfl ?_⟩
  simp [fields_put, ← prev, ← list, ← len, value, ← held]

theorem wp_setPrev (held : (fields s).value a = some v) (q : Ptr) (post : Unit → Memory V → Prop)
    (holds : ∀ s', s'.brk = s.brk →
      fields s' = { fields s with prev := Function.update (fields s).prev a q } → post () s') :
    wp (setPrev (some a) q) post s := by
  obtain ⟨n, cell, value, next, prev, list, len⟩ := value_some held
  simp only [setPrev, wp_assign]
  refine ⟨n, cell, holds _ rfl ?_⟩
  simp [fields_put, ← next, ← list, ← len, value, ← held]

theorem wp_setList (held : (fields s).value a = some v) (l : Ptr) (post : Unit → Memory V → Prop)
    (holds : ∀ s', s'.brk = s.brk →
      fields s' = { fields s with list := Function.update (fields s).list a l } → post () s') :
    wp (setList (some a) l) post s := by
  obtain ⟨n, cell, value, next, prev, list, len⟩ := value_some held
  simp only [setList, wp_assign]
  refine ⟨n, cell, holds _ rfl ?_⟩
  simp [fields_put, ← next, ← prev, ← len, value, ← held]

theorem len_some {k : Int} (held : (fields s).len a = some k) :
    ∃ root, s.cell a = some (.list k root) := by
  obtain ⟨n, cell, len⟩ := Option.bind_eq_some_iff.1 held
  cases n with
  | element e => cases len
  | list k' root =>
      cases len
      exact ⟨root, cell⟩

theorem wp_getLen {k : Int} (held : (fields s).len a = some k) (post : Int → Memory V → Prop)
    (holds : post k s) : wp (getLen (some a)) post s := by
  obtain ⟨root, cell⟩ := len_some held
  simp only [getLen, wp_bind, wp_load]
  exact ⟨_, cell, holds⟩

theorem wp_setLen {k : Int} (held : (fields s).len a = some k) (k' : Int)
    (post : Unit → Memory V → Prop)
    (holds : ∀ s', s'.brk = s.brk →
      fields s' = { fields s with len := Function.update (fields s).len a (some k') } →
        post () s') :
    wp (setLen (some a) k') post s := by
  obtain ⟨root, cell⟩ := len_some held
  simp only [setLen, wp_bind, wp_load]
  refine ⟨_, cell, ?_⟩
  simp only [wp_assign]
  refine ⟨_, cell, holds _ rfl ?_⟩
  rw [fields_put]
  simp [fields, cell, Node.elem, Node.len]

theorem wp_new (n : Node V) (post : Ptr → Memory V → Prop)
    (holds : ∀ s', s'.brk = s.brk + 1 →
      fields s' =
        { next := Function.update (fields s).next s.brk n.elem.next
          prev := Function.update (fields s).prev s.brk n.elem.prev
          list := Function.update (fields s).list s.brk n.elem.list
          value := Function.update (fields s).value s.brk (some n.elem.value)
          len := Function.update (fields s).len s.brk n.len } → post (some s.brk) s') :
    wp (malloc n) post s := by
  rw [wp_malloc]
  exact holds _ rfl (fields_put s s.brk n)

def Fields.created (F : Fields V) (l : Nat) (v : V) : Fields V where
  next := Function.update F.next l (some l)
  prev := Function.update F.prev l (some l)
  list := Function.update F.list l none
  value := Function.update F.value l (some v)
  len := Function.update F.len l (some 0)

def Fields.emptied (F : Fields V) (l : Nat) : Fields V :=
  { F with
    next := Function.update F.next l (some l)
    prev := Function.update F.prev l (some l)
    len := Function.update F.len l (some 0) }

def Fields.inserted (F : Fields V) (l e u w : Nat) (v : V) (len : Int) : Fields V where
  next := Function.update (Function.update (Function.update F.next e none) u (some e)) e (some w)
  prev := Function.update (Function.update (Function.update F.prev e none) e (some u)) w (some e)
  list := Function.update (Function.update F.list e none) e (some l)
  value := Function.update F.value e (some v)
  len := Function.update (Function.update F.len e none) l (some len)

def Fields.removed (F : Fields V) (l e u w : Nat) (len : Int) : Fields V where
  next := Function.update (Function.update F.next u (some w)) e none
  prev := Function.update (Function.update F.prev w (some u)) e none
  list := Function.update F.list e none
  value := F.value
  len := Function.update F.len l (some len)

theorem inserted_list_of_ne (F : Fields V) {l e u w a : Nat} (v : V) (len : Int) (other : a ≠ e) :
    (F.inserted l e u w v len).list a = F.list a := by
  dsimp only [Fields.inserted]
  rw [Function.update_of_ne other, Function.update_of_ne other]

theorem removed_list_of_ne (F : Fields V) {l e u w a : Nat} (len : Int) (other : a ≠ e) :
    (F.removed l e u w len).list a = F.list a :=
  Function.update_of_ne other _ _

theorem insert_spec {l e u w : Nat} {ve vu vw : V} {k : Int}
    (heldE : (fields s).value e = some ve) (heldU : (fields s).value u = some vu)
    (heldW : (fields s).value w = some vw) (onward : (fields s).next u = some w)
    (len : (fields s).len l = some k) (post : Ptr → Memory V → Prop)
    (holds : ∀ s', s'.brk = s.brk →
      fields s' =
        { next := Function.update (Function.update (fields s).next u (some e)) e (some w)
          prev := Function.update (Function.update (fields s).prev e (some u)) w (some e)
          list := Function.update (fields s).list e (some l)
          value := (fields s).value
          len := Function.update (fields s).len l (some (k + 1)) } → post (some e) s') :
    wp (insert (some l) (some e) (some u)) post s := by
  rw [insert]
  rw [wp_bind]
  apply wp_elem heldU
  dsimp only
  rw [onward]
  rw [wp_bind]
  apply wp_setNext heldU
  intro s₁ brk₁ fields₁
  rw [wp_bind]
  apply wp_setPrev (v := ve) (by rw [fields₁]; exact heldE)
  intro s₂ brk₂ fields₂
  rw [fields₁] at fields₂
  rw [wp_bind]
  apply wp_setNext (v := ve) (by rw [fields₂]; exact heldE)
  intro s₃ brk₃ fields₃
  rw [fields₂] at fields₃
  rw [wp_bind]
  apply wp_setPrev (v := vw) (by rw [fields₃]; exact heldW)
  intro s₄ brk₄ fields₄
  rw [fields₃] at fields₄
  rw [wp_bind]
  apply wp_setList (v := ve) (by rw [fields₄]; exact heldE)
  intro s₅ brk₅ fields₅
  rw [fields₄] at fields₅
  rw [wp_bind]
  apply wp_getLen (k := k) (by rw [fields₅]; exact len)
  rw [wp_bind]
  apply wp_setLen (k := k) (by rw [fields₅]; exact len)
  intro s₆ brk₆ fields₆
  rw [fields₅] at fields₆
  exact holds s₆ (by omega) fields₆

theorem remove_spec {l e u w : Nat} {ve vu vw : V} {k : Int}
    (heldE : (fields s).value e = some ve) (heldU : (fields s).value u = some vu)
    (heldW : (fields s).value w = some vw) (onward : (fields s).next e = some w)
    (back : (fields s).prev e = some u) (apart : u ≠ e)
    (len : (fields s).len l = some k) (post : Ptr → Memory V → Prop)
    (holds : ∀ s', s'.brk = s.brk → fields s' = (fields s).removed l e u w (k - 1) →
      post (some e) s') :
    wp (remove (some l) (some e)) post s := by
  rw [remove]
  rw [wp_bind]
  apply wp_elem heldE
  rw [wp_bind]
  apply wp_elem heldE
  dsimp only
  rw [onward, back]
  rw [wp_bind]
  apply wp_setNext heldU
  intro s₁ brk₁ fields₁
  rw [wp_bind]
  apply wp_elem (v := ve) (by rw [fields₁]; exact heldE)
  rw [wp_bind]
  apply wp_elem (v := ve) (by rw [fields₁]; exact heldE)
  rw [fields₁]
  dsimp only
  rw [Function.update_of_ne apart.symm, onward, back]
  rw [wp_bind]
  apply wp_setPrev (v := vw) (by rw [fields₁]; exact heldW)
  intro s₂ brk₂ fields₂
  rw [fields₁] at fields₂
  rw [wp_bind]
  apply wp_setNext (v := ve) (by rw [fields₂]; exact heldE)
  intro s₃ brk₃ fields₃
  rw [fields₂] at fields₃
  rw [wp_bind]
  apply wp_setPrev (v := ve) (by rw [fields₃]; exact heldE)
  intro s₄ brk₄ fields₄
  rw [fields₃] at fields₄
  rw [wp_bind]
  apply wp_setList (v := ve) (by rw [fields₄]; exact heldE)
  intro s₅ brk₅ fields₅
  rw [fields₄] at fields₅
  rw [wp_bind]
  apply wp_getLen (k := k) (by rw [fields₅]; exact len)
  rw [wp_bind]
  apply wp_setLen (k := k) (by rw [fields₅]; exact len)
  intro s₆ brk₆ fields₆
  rw [fields₅] at fields₆
  exact holds s₆ (by omega) fields₆

theorem listInit_spec {l : Nat} {v : V} {k : Int} (held : (fields s).value l = some v)
    (len : (fields s).len l = some k) (post : Ptr → Memory V → Prop)
    (holds : ∀ s', s'.brk = s.brk → fields s' = (fields s).emptied l → post (some l) s') :
    wp (listInit (some l)) post s := by
  rw [listInit, wp_bind]
  apply wp_setNext held
  intro s₁ brk₁ fields₁
  rw [wp_bind]
  apply wp_setPrev (v := v) (by rw [fields₁]; exact held)
  intro s₂ brk₂ fields₂
  rw [fields₁] at fields₂
  rw [wp_bind]
  apply wp_setLen (k := k) (by rw [fields₂]; exact len)
  intro s₃ brk₃ fields₃
  rw [fields₂] at fields₃
  exact holds s₃ (by omega) fields₃

theorem new_spec [Inhabited V] (post : Ptr → Memory V → Prop)
    (holds : ∀ s', s'.brk = s.brk + 1 → fields s' = (fields s).created s.brk default →
      post (some s.brk) s') :
    wp new post s := by
  rw [new, wp_bind]
  apply wp_new
  intro s₀ brk₀ fields₀
  have held : (fields s₀).value s.brk = some default := by
    rw [fields₀]
    exact Function.update_self ..
  have len : (fields s₀).len s.brk = some 0 := by
    rw [fields₀]
    exact Function.update_self ..
  apply listInit_spec held len
  intro s₁ brk₁ fields₁
  refine holds s₁ (by omega) ?_
  rw [fields₁, fields₀]
  simp [Fields.emptied, Fields.created, Node.elem, Node.len]

theorem insertValue_spec {l u w : Nat} {vu vw : V} {k : Int} (v : V)
    (heldU : (fields s).value u = some vu) (heldW : (fields s).value w = some vw)
    (onward : (fields s).next u = some w) (len : (fields s).len l = some k)
    (oldU : u ≠ s.brk) (oldW : w ≠ s.brk) (oldL : l ≠ s.brk) (post : Ptr → Memory V → Prop)
    (holds : ∀ s', s'.brk = s.brk + 1 → fields s' = (fields s).inserted l s.brk u w v (k + 1) →
      post (some s.brk) s') :
    wp (insertValue (some l) v (some u)) post s := by
  rw [insertValue, wp_bind]
  apply wp_new
  intro s₁ brk₁ fields₁
  dsimp only [Node.elem, Node.len] at fields₁
  have heldE₁ : (fields s₁).value s.brk = some v := by
    rw [fields₁]
    exact Function.update_self ..
  have heldU₁ : (fields s₁).value u = some vu := by
    rw [fields₁]
    exact (Function.update_of_ne oldU _ _).trans heldU
  have heldW₁ : (fields s₁).value w = some vw := by
    rw [fields₁]
    exact (Function.update_of_ne oldW _ _).trans heldW
  have onward₁ : (fields s₁).next u = some w := by
    rw [fields₁]
    exact (Function.update_of_ne oldU _ _).trans onward
  have len₁ : (fields s₁).len l = some k := by
    rw [fields₁]
    exact (Function.update_of_ne oldL _ _).trans len
  apply insert_spec heldE₁ heldU₁ heldW₁ onward₁ len₁
  intro s' brk' fields'
  rw [fields₁] at fields'
  exact holds s' (brk'.trans brk₁) fields'

end DataStructure.GoList
