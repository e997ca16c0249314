import DataStructure.Lib.Heap
import DataStructure.Lib.Ring

/-! The doubly linked lists of `list/gap_mclist.h`.

A list is a ring through its head. The nodes are embedded in other structures, whose other members
play no part here. -/

namespace DataStructure.ListHead

open Program Heap DoublyLinked

structure Node where
  next : Ptr
  prev : Ptr

abbrev Memory := Store Unit Node

def next (p : Ptr) : Prog Memory Ptr := do return (← load p).next

def prev (p : Ptr) : Prog Memory Ptr := do return (← load p).prev

def setNext (p q : Ptr) : Prog Memory Unit := assign p fun n => { n with next := q }

def setPrev (p q : Ptr) : Prog Memory Unit := assign p fun n => { n with prev := q }

def initListHead (list : Ptr) : Prog Memory Unit := do
  setNext list list
  setPrev list list

/-- `__list_add` -/
def listAddBetween (nelm before after : Ptr) : Prog Memory Unit := do
  setPrev after nelm
  setNext nelm after
  setPrev nelm before
  setNext before nelm

def listAdd (nelm head : Ptr) : Prog Memory Unit := do
  listAddBetween nelm head (← next head)

def listAddTail (nelm head : Ptr) : Prog Memory Unit := do
  listAddBetween nelm (← prev head) head

/-- `__list_del` -/
def listDelBetween (before after : Ptr) : Prog Memory Unit := do
  setPrev after before
  setNext before after

def listDel (entry : Ptr) : Prog Memory Unit := do
  listDelBetween (← prev entry) (← next entry)
  setNext entry none
  setPrev entry none

def listReplace (old nelm : Ptr) : Prog Memory Unit := do
  setNext nelm (← next old)
  setPrev (← next nelm) nelm
  setPrev nelm (← prev old)
  setNext (← prev nelm) nelm

def listReplaceInit (old nelm : Ptr) : Prog Memory Unit := do
  listReplace old nelm
  initListHead old

def listMove (list head : Ptr) : Prog Memory Unit := do
  listDelBetween (← prev list) (← next list)
  listAdd list head

def listMoveTail (list head : Ptr) : Prog Memory Unit := do
  listDelBetween (← prev list) (← next list)
  listAddTail list head

def listIsLast (list head : Ptr) : Prog Memory Bool := do return decide ((← next list) = head)

def listIsFirst (list head : Ptr) : Prog Memory Bool := do return decide ((← prev list) = head)

def listEmpty (head : Ptr) : Prog Memory Bool := do return decide ((← next head) = head)

/-- `for (pos = ...; pos != (head); pos = step(pos))`, with the nodes that `pos` takes. -/
def visit (step : Ptr → Prog Memory Ptr) (head : Nat) : Nat → Ptr → Prog Memory (List Nat)
  | 0, _ => fault .stuck
  | fuel + 1, pos => do
      -- What `prefetch` is given, and where `pos` goes next.
      let following ← step pos
      if pos = some head then return []
      else return pos.toList ++ (← visit step head fuel following)

def listForEach (head : Nat) : Prog Memory (List Nat) := do
  visit next head (← cells) (← next (some head))

def listForEachPrev (head : Nat) : Prog Memory (List Nat) := do
  visit prev head (← cells) (← prev (some head))

def visitSafe (head : Nat) (body : Nat → Prog Memory Unit) : Nat → Ptr → Ptr → Prog Memory Unit
  | 0, _, _ => fault .stuck
  | fuel + 1, pos, n =>
      if pos = some head then return ()
      else
        match pos with
        | none => fault .segv
        | some a => do
            body a
            visitSafe head body fuel n (← next n)

def listForEachSafe (head : Nat) (body : Nat → Prog Memory Unit) : Prog Memory Unit := do
  let pos ← next (some head)
  visitSafe head body (← cells) pos (← next pos)

/-- The loop of `list.c` that deletes the nodes it is told to. -/
def listDelIf (head : Nat) (chosen : Nat → Bool) : Prog Memory Unit :=
  listForEachSafe head fun pos => onlyIf (chosen pos) (listDel (some pos))

structure Links where
  next : Nat → Ptr
  prev : Nat → Ptr
  node : Nat → Bool

def links (s : Memory) : Links where
  next a := (s.cell a).bind Node.next
  prev a := (s.cell a).bind Node.prev
  node a := (s.cell a).isSome

variable {s : Memory} {a : Nat}

theorem links_put (s : Memory) (a : Nat) (n : Node) :
    links (s.put a n) =
      ⟨Function.update (links s).next a n.next, Function.update (links s).prev a n.prev,
        Function.update (links s).node a true⟩ := by
  simp only [links, Links.mk.injEq]
  refine ⟨?_, ?_, ?_⟩ <;> funext b <;> by_cases self : b = a <;> simp [self]

theorem node_cell (held : (links s).node a = true) :
    ∃ n, s.cell a = some n ∧ (links s).next a = n.next ∧ (links s).prev a = n.prev := by
  obtain ⟨n, cell⟩ := Option.isSome_iff_exists.1 held
  exact ⟨n, cell, by simp [links, cell], by simp [links, cell]⟩

theorem wp_next (held : (links s).node a = true) (post : Ptr → Memory → Prop)
    (holds : post ((links s).next a) s) : wp (next (some a)) post s := by
  obtain ⟨n, cell, same, _⟩ := node_cell held
  rw [same] at holds
  simp only [next, wp_bind, wp_load]
  exact ⟨n, cell, holds⟩

theorem wp_prev (held : (links s).node a = true) (post : Ptr → Memory → Prop)
    (holds : post ((links s).prev a) s) : wp (prev (some a)) post s := by
  obtain ⟨n, cell, _, same⟩ := node_cell held
  rw [same] at holds
  simp only [prev, wp_bind, wp_load]
  exact ⟨n, cell, holds⟩

theorem wp_setNext (held : (links s).node a = true) (q : Ptr) (post : Unit → Memory → Prop)
    (holds : ∀ s', s'.brk = s.brk →
      links s' = { links s with next := Function.update (links s).next a q } → post () s') :
    wp (setNext (some a) q) post s := by
  obtain ⟨n, cell, _, same⟩ := node_cell held
  simp only [setNext, wp_assign]
  refine ⟨n, cell, holds _ rfl ?_⟩
  simp [links_put, ← same, ← held]

theorem wp_setPrev (held : (links s).node a = true) (q : Ptr) (post : Unit → Memory → Prop)
    (holds : ∀ s', s'.brk = s.brk →
      links s' = { links s with prev := Function.update (links s).prev a q } → post () s') :
    wp (setPrev (some a) q) post s := by
  obtain ⟨n, cell, same, _⟩ := node_cell held
  simp only [setPrev, wp_assign]
  refine ⟨n, cell, holds _ rfl ?_⟩
  simp [links_put, ← same, ← held]

def Links.inserted (L : Links) (e u w : Nat) : Links where
  next := Function.update (Function.update L.next e (some w)) u (some e)
  prev := Function.update (Function.update L.prev w (some e)) e (some u)
  node := L.node

def Links.joined (L : Links) (u w : Nat) : Links where
  next := Function.update L.next u (some w)
  prev := Function.update L.prev w (some u)
  node := L.node

theorem wp_listAddBetween {e u w : Nat} (heldE : (links s).node e = true)
    (heldU : (links s).node u = true) (heldW : (links s).node w = true)
    (post : Unit → Memory → Prop)
    (holds : ∀ s', s'.brk = s.brk → links s' = (links s).inserted e u w → post () s') :
    wp (listAddBetween (some e) (some u) (some w)) post s := by
  rw [listAddBetween, wp_bind]
  apply wp_setPrev heldW
  intro s₁ brk₁ links₁
  rw [wp_bind]
  apply wp_setNext (by rw [links₁]; exact heldE)
  intro s₂ brk₂ links₂
  rw [wp_bind]
  apply wp_setPrev (by rw [links₂, links₁]; exact heldE)
  intro s₃ brk₃ links₃
  apply wp_setNext (by rw [links₃, links₂, links₁]; exact heldU)
  intro s₄ brk₄ links₄
  apply holds s₄ (by omega)
  rw [links₄, links₃, links₂, links₁]
  rfl

theorem wp_listDelBetween {u w : Nat} (heldU : (links s).node u = true)
    (heldW : (links s).node w = true) (post : Unit → Memory → Prop)
    (holds : ∀ s', s'.brk = s.brk → links s' = (links s).joined u w → post () s') :
    wp (listDelBetween (some u) (some w)) post s := by
  rw [listDelBetween, wp_bind]
  apply wp_setPrev heldW
  intro s₁ brk₁ links₁
  apply wp_setNext (by rw [links₁]; exact heldU)
  intro s₂ brk₂ links₂
  apply holds s₂ (by omega)
  rw [links₂, links₁]
  rfl

theorem wp_listReplace {old nelm u w : Nat} (heldO : (links s).node old = true)
    (heldN : (links s).node nelm = true) (heldU : (links s).node u = true)
    (heldW : (links s).node w = true) (onward : (links s).next old = some w)
    (back : (links s).prev old = some u) (other : w ≠ old)
    (post : Unit → Memory → Prop)
    (holds : ∀ s', s'.brk = s.brk → links s' = (links s).inserted nelm u w → post () s') :
    wp (listReplace (some old) (some nelm)) post s := by
  rw [listReplace, wp_bind]
  apply wp_next heldO
  rw [onward, wp_bind]
  apply wp_setNext heldN
  intro s₁ brk₁ links₁
  rw [wp_bind]
  apply wp_next (by rw [links₁]; exact heldN)
  rw [wp_bind, links₁]
  dsimp only
  rw [Function.update_self]
  apply wp_setPrev (by rw [links₁]; exact heldW)
  intro s₂ brk₂ links₂
  rw [wp_bind]
  apply wp_prev (by rw [links₂, links₁]; exact heldO)
  rw [wp_bind, links₂, links₁]
  dsimp only
  rw [Function.update_of_ne other.symm, back]
  apply wp_setPrev (by rw [links₂, links₁]; exact heldN)
  intro s₃ brk₃ links₃
  rw [wp_bind]
  apply wp_prev (by rw [links₃, links₂, links₁]; exact heldN)
  rw [links₃]
  dsimp only
  rw [Function.update_self]
  apply wp_setNext (by rw [links₃, links₂, links₁]; exact heldU)
  intro s₄ brk₄ links₄
  apply holds s₄ (by omega)
  rw [links₄, links₃, links₂, links₁]
  rfl

theorem wp_listReplace_alone {old nelm : Nat} (heldO : (links s).node old = true)
    (heldN : (links s).node nelm = true) (onward : (links s).next old = some old)
    (post : Unit → Memory → Prop)
    (holds : ∀ s', s'.brk = s.brk → (links s').node = (links s).node →
      (links s').next = Function.update (links s).next nelm (some nelm) →
      (links s').prev = Function.update (Function.update (links s).prev old (some nelm)) nelm (some nelm) →
      post () s') :
    wp (listReplace (some old) (some nelm)) post s := by
  rw [listReplace, wp_bind]
  apply wp_next heldO
  rw [onward, wp_bind]
  apply wp_setNext heldN
  intro s₁ brk₁ links₁
  rw [wp_bind]
  apply wp_next (by rw [links₁]; exact heldN)
  rw [wp_bind, links₁]
  dsimp only
  rw [Function.update_self]
  apply wp_setPrev (by rw [links₁]; exact heldO)
  intro s₂ brk₂ links₂
  rw [wp_bind]
  apply wp_prev (by rw [links₂, links₁]; exact heldO)
  rw [wp_bind, links₂, links₁]
  dsimp only
  -- The store to `old` is seen here already.
  rw [Function.update_self]
  apply wp_setPrev (by rw [links₂, links₁]; exact heldN)
  intro s₃ brk₃ links₃
  rw [wp_bind]
  apply wp_prev (by rw [links₃, links₂, links₁]; exact heldN)
  rw [links₃]
  dsimp only
  rw [Function.update_self]
  apply wp_setNext (by rw [links₃, links₂, links₁]; exact heldN)
  intro s₄ brk₄ links₄
  apply holds s₄ (by omega)
  · rw [links₄, links₃, links₂, links₁]
  · rw [links₄, links₃, links₂, links₁]
    exact Function.update_idem ..
  · rw [links₄, links₃, links₂, links₁]

end DataStructure.ListHead
