import DataStructure.Lib.Monitor
import DataStructure.Lib.Ownership
import DataStructure.Kernel.Refcnt

/-! The object cache of `kernel/lock/sample_refcnt_atomic.c`.

`object_get` and `object_put` work on the atomic `refcnt` without `cache_lock`, and so come in between
the steps of a thread that has the lock. A step is an atomic operation, `kfree`, or an access to one
object of the list. `owned` are the references threads have, inside a call or outside. -/

namespace DataStructure.RefcntAtomic

open Refcnt hiding refs
open Ownership

inductive Caller where
  | cacheDelete
  | cacheFind
  deriving DecidableEq, Repr

/-- The next thing a thread does in its call. -/
inductive Pc where
  | idle
  | adding (a : Addr)
  | deleting (id : Int)
  | looking (id : Int)
  | linking (a : Addr)
  | evicting (outcast : Option Addr) (rest : List Addr)
  | finding (caller : Caller) (id : Int) (rest : List Addr)
  | unlinking (a : Addr)
  | dropping (a : Addr) (inDelete : Bool)
  | freeing (a : Addr) (inDelete : Bool)
  | uncounting
  | taking (a : Addr)
  | unlocking
  deriving DecidableEq, Repr

structure State (τ : Type) where
  heap : Heap
  cache : List Addr
  cacheNum : Nat
  owner : Option τ
  pc : τ → Pc
  owned : List (τ × Addr)

section Calls

variable {τ : Type} [DecidableEq τ]

def Pc.pending : Pc → Option Addr
  | freeing a _ => some a
  | _ => none

def world (s : State τ) : World τ Addr :=
  ⟨count s.heap, s.cache, s.owned, fun t => (s.pc t).pending⟩

def present (s : State τ) (id : Int) : Bool :=
  s.cache.any fun a => (s.heap.read a).any (·.id = id)

def State.goto (s : State τ) (t : τ) (pc : Pc) : State τ := { s with pc := Function.update s.pc t pc }

def lock (s : State τ) (t : τ) (pc : Pc) : Outcome (State τ) :=
  if s.owner = none then .next { s.goto t pc with owner := some t } else .waits

def afterPut (inDelete : Bool) : Pc := if inDelete then .uncounting else .idle

def link (s : State τ) (t : τ) (a : Addr) : Outcome (State τ) :=
  match s.heap.read a with
  | none => .fault
  | some _ =>
      let num := increment s.cacheNum
      let s := { s with cache := a :: s.cache, cacheNum := num, owned := s.owned.erase (t, a) }
      .next (s.goto t (if num > maxCacheSize then .evicting none s.cache else .unlocking))

def evict (s : State τ) (t : τ) : Option Addr → List Addr → Outcome (State τ)
  -- `BUG_ON(!obj)`
  | none, [] => .fault
  | some a, [] => .next (s.goto t (.unlinking a))
  | outcast, i :: rest =>
      match s.heap.read i, outcast with
      | none, _ => .fault
      | some _, none => .next (s.goto t (.evicting (some i) rest))
      | some obj, some j =>
          match s.heap.read j with
          | none => .fault
          | some least =>
              .next (s.goto t (.evicting (if obj.popularity < least.popularity then some i else some j) rest))

def find (s : State τ) (t : τ) (caller : Caller) (id : Int) : List Addr → Outcome (State τ)
  | [] => if caller = .cacheFind then .next (s.goto t .unlocking) else .fault
  | i :: rest =>
      match s.heap.read i with
      | none => .fault
      | some obj =>
          if obj.id = id then
            let heap := Function.update s.heap i (.live { obj with popularity := CInt.toInt (obj.popularity + 1) })
            .next (State.goto { s with heap } t
              (if caller = .cacheFind then .taking i else .unlinking i))
          else .next (s.goto t (.finding caller id rest))

def unlink (s : State τ) (t : τ) (a : Addr) : Outcome (State τ) :=
  match s.heap.read a with
  | none => .fault
  | some _ => .next (State.goto { s with
      cache := s.cache.erase a, owned := (t, a) :: s.owned } t (.dropping a true))

def drop (s : State τ) (t : τ) (a : Addr) (inDelete : Bool) : Outcome (State τ) :=
  match s.heap.read a with
  | none => .fault
  | some obj =>
      let refcnt := decrement obj.refcnt
      .next (State.goto { s with
        heap := Function.update s.heap a (.live { obj with refcnt })
        owned := s.owned.erase (t, a) } t
          (if refcnt = 0 then .freeing a inDelete else afterPut inDelete))

def free (s : State τ) (t : τ) (a : Addr) (inDelete : Bool) : Outcome (State τ) :=
  match s.heap.read a with
  | none => .fault
  | some obj =>
      .next (State.goto { s with heap := Function.update s.heap a (.freed obj) } t (afterPut inDelete))

/-- `atomic_inc`; there are fewer references than `refcnt` can count. -/
def take (s : State τ) (t : τ) (a : Addr) (next : Pc) : Outcome (State τ) :=
  if refs (world s) a + 1 < 2 ^ 32 then
    match s.heap.read a with
    | none => .fault
    | some obj => .next (State.goto { s with
        heap := Function.update s.heap a (.live { obj with refcnt := increment obj.refcnt })
        owned := (t, a) :: s.owned } t next)
  else .waits

/-- The next step of the call that thread `t` is in. Only ids in the cache are deleted. -/
def proceed (s : State τ) (t : τ) : Outcome (State τ) :=
  match s.pc t with
  | .idle => .waits
  | .adding a => lock s t (.linking a)
  | .deleting id => if present s id then lock s t (.finding .cacheDelete id s.cache) else .waits
  | .looking id => lock s t (.finding .cacheFind id s.cache)
  | .linking a => link s t a
  | .evicting outcast rest => evict s t outcast rest
  | .finding caller id rest => find s t caller id rest
  | .unlinking a => unlink s t a
  | .dropping a inDelete => drop s t a inDelete
  | .freeing a inDelete => free s t a inDelete
  | .uncounting => .next (State.goto { s with cacheNum := decrement s.cacheNum } t .unlocking)
  | .taking a => take s t a .unlocking
  | .unlocking => .next { s.goto t .idle with owner := none }

inductive Event (τ : Type) where
  | cacheAdd (t : τ) (id : Int) (name : List UInt8) (obj : Option Addr)
  | cacheDelete (t : τ) (id : Int)
  | cacheFind (t : τ) (id : Int)
  | objectGet (t : τ) (a : Addr)
  | objectPut (t : τ) (a : Addr)
  | proceed (t : τ)

def ifIdle (s : State τ) (t : τ) (outcome : Outcome (State τ)) : Outcome (State τ) :=
  if s.pc t = .idle then outcome else .waits

/-- `kmalloc` and the fields of the new object; `kmalloc` returns memory that is not in use. -/
def alloc (s : State τ) (t : τ) (id : Int) (name : List UInt8) : Option Addr → Outcome (State τ)
  | none => .next s
  | some a =>
      if s.heap.read a = none then
        .next (State.goto { s with
          heap := Function.update s.heap a (.live ⟨1, id, name.take 31, 0⟩)
          owned := (t, a) :: s.owned } t (.adding a))
      else .waits

/-- A call begins, or goes on. Only references that a thread has are copied and put. -/
def step (s : State τ) : Event τ → Outcome (State τ)
  | .cacheAdd t id name obj => ifIdle s t (alloc s t id name obj)
  | .cacheDelete t id => ifIdle s t (.next (s.goto t (.deleting id)))
  | .cacheFind t id => ifIdle s t (.next (s.goto t (.looking id)))
  | .objectGet t a => ifIdle s t (if (t, a) ∈ s.owned then take s t a .idle else .waits)
  | .objectPut t a =>
      ifIdle s t (if (t, a) ∈ s.owned then .next (s.goto t (.dropping a false)) else .waits)
  | .proceed t => proceed s t

end Calls

def Pc.locked : Pc → Bool
  | idle => false
  | adding _ => false
  | deleting _ => false
  | looking _ => false
  | dropping _ inDelete => inDelete
  | freeing _ inDelete => inDelete
  | _ => true

def Pc.lag : Pc → Nat
  | dropping _ inDelete => inDelete.toNat
  | freeing _ inDelete => inDelete.toNat
  | uncounting => 1
  | _ => 0

def Pc.excess : Pc → Nat
  | evicting _ _ => 1
  | unlinking _ => 1
  | dropping _ inDelete => inDelete.toNat
  | freeing _ inDelete => inDelete.toNat
  | uncounting => 1
  | _ => 0

section Invariant

variable {τ : Type} [DecidableEq τ]

def Known (heap : Heap) (id : Int) (rest : List Addr) : Prop :=
  ∃ a ∈ rest, (heap.read a).map (·.id) = some id

def Local (s : State τ) (t : τ) : Pc → Prop
  | .adding a => (t, a) ∈ s.owned ∧ refs (world s) a = 1
  | .linking a => (t, a) ∈ s.owned ∧ refs (world s) a = 1
  | .evicting outcast rest =>
      (∀ a ∈ outcast, a ∈ s.cache) ∧ (∀ a ∈ rest, a ∈ s.cache) ∧ (outcast ≠ none ∨ rest ≠ [])
  | .finding caller id rest =>
      (∀ a ∈ rest, a ∈ s.cache) ∧ (caller = .cacheDelete → Known s.heap id rest)
  | .unlinking a => a ∈ s.cache
  | .taking a => a ∈ s.cache
  | .dropping a _ => (t, a) ∈ s.owned
  | _ => True

def critical (s : State τ) (t : τ) : Prop := (s.pc t).locked = true

def ownerPc (s : State τ) : Pc :=
  match s.owner with
  | some t => s.pc t
  | none => .idle

structure Nums (s : State τ) : Prop where
  num : s.cacheNum = s.cache.length + (ownerPc s).lag
  small : s.cacheNum ≤ maxCacheSize + (ownerPc s).excess

structure Inv (s : State τ) : Prop where
  sound : Sound (world s)
  mutex : Monitor.Exclusive (critical s) s.owner
  each : ∀ t, Local s t (s.pc t)
  nums : Nums s
  bounded : ∀ a, refs (world s) a < 2 ^ 32

structure Stepped (t : τ) (s s' : State τ) : Prop where
  effect : Effect t (world s) (world s')
  others : ∀ u, u ≠ t → s'.pc u = s.pc u
  ids : ∀ a ∈ s.cache, (s'.heap.read a).map (·.id) = (s.heap.read a).map (·.id)
  cache : (s.pc t).locked = false → s'.cache = s.cache
  mutex : Monitor.Moves t (critical s) (critical s') s.owner s'.owner
  mine : Local s' t (s'.pc t)
  nums : Nums s'
  bounded : ∀ a, refs (world s') a < 2 ^ 32

/-- A step of another thread leaves what a thread knows. -/
theorem local_stable {s s' : State τ} {t u : τ} (inv : Inv s) (other : u ≠ t) (stepped : Stepped t s s') :
    Local s' u (s.pc u) := by
  have relies := stepped.effect.relies other inv.sound
  have here := inv.each u
  -- while `u` has the lock, `t` has not
  have same : (s.pc u).locked = true → s'.cache = s.cache := by
    intro locked
    apply stepped.cache
    cases mine : (s.pc t).locked with
    | false => rfl
    | true => exact absurd (inv.mutex.unique locked mine) other
  cases pc : s.pc u with
  | adding a =>
      rw [pc] at here
      exact ⟨relies.owned a here.1, relies.sole a here.1 here.2⟩
  | linking a =>
      rw [pc] at here
      exact ⟨relies.owned a here.1, relies.sole a here.1 here.2⟩
  | evicting outcast rest =>
      rw [pc] at here same
      rw [Local, same rfl]
      exact here
  | finding caller id rest =>
      rw [pc] at here same
      rw [Local, same rfl]
      refine ⟨here.1, ?_⟩
      intro deletes
      obtain ⟨a, inside, named⟩ := here.2 deletes
      exact ⟨a, inside, (stepped.ids a (here.1 a inside)).trans named⟩
  | unlinking a =>
      rw [pc] at here same
      rw [Local, same rfl]
      exact here
  | taking a =>
      rw [pc] at here same
      rw [Local, same rfl]
      exact here
  | dropping a inDelete =>
      rw [pc] at here
      exact relies.owned a here
  | idle => trivial
  | deleting id => trivial
  | looking id => trivial
  | freeing a inDelete => trivial
  | uncounting => trivial
  | unlocking => trivial

theorem Stepped.inv {s s' : State τ} {t : τ} (stepped : Stepped t s s') (inv : Inv s) : Inv s' where
  sound := stepped.effect.sound inv.sound
  mutex := by
    apply inv.mutex.moves stepped.mutex
    intro u other
    rw [critical, critical, stepped.others u other]
  each u := by
    by_cases self : u = t
    · rw [self]
      exact stepped.mine
    · rw [stepped.others u self]
      exact local_stable inv self stepped
  nums := stepped.nums
  bounded := stepped.bounded

def Good (s : State τ) (t : τ) : Outcome (State τ) → Prop
  | .waits => True
  | .fault => False
  | .next s' => Stepped t s s'

section Goto

variable {s r : State τ} {t : τ} {p p' : Pc} (inv : Inv s) (pc : s.pc t = p) (same : r.pc = s.pc)
  (owner : r.owner = s.owner) (effect : Effect t (world s) (world (r.goto t p')))
  (ids : ∀ a ∈ s.cache, (r.heap.read a).map (·.id) = (s.heap.read a).map (·.id))
  (bounded : ∀ a, refs (world r) a < 2 ^ 32) (mine : Local r t p')
include inv pc same owner effect ids bounded mine

end Goto

def linked (s : State τ) (t : τ) (a : Addr) : State τ :=
  { s with
    cache := a :: s.cache
    cacheNum := increment s.cacheNum
    owned := s.owned.erase (t, a) }

section Locked

variable {s : State τ} {t : τ} (inv : Inv s)
include inv

end Locked

def taken (s : State τ) (t : τ) (a : Addr) (obj : Object) : State τ :=
  { s with
    heap := Function.update s.heap a (.live { obj with refcnt := increment obj.refcnt })
    owned := (t, a) :: s.owned }

section Lockfree

variable {s : State τ} {t : τ} (inv : Inv s)
include inv

end Lockfree

end Invariant

end DataStructure.RefcntAtomic
