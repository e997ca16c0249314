import DataStructure.Lib.CInt
import DataStructure.Lib.RefCount
import DataStructure.Lib.System

/-! The object cache of `kernel/lock/sample_refcnt.c`.

Each section under `cache_lock` is one step of the thread that runs it. The functions that want
the lock held are in `Locked`; none of their results means an access to an object that is not
allocated, or `BUG_ON`. `cache_add` allocates and fills its object before it takes the lock, so
that it has two steps. The kernel's `list_head` is the list of the objects it links. -/

namespace DataStructure.Refcnt

open RefCount

abbrev Addr := Nat

structure Object where
  refcnt : Nat
  id : Int
  name : List UInt8
  popularity : Int
  deriving DecidableEq, Repr

/-- What is at an address; a freed object is kept as it was when it was freed. -/
inductive Cell where
  | unused
  | live (obj : Object)
  | freed (obj : Object)
  deriving DecidableEq, Repr

abbrev Heap := Addr → Cell

def Heap.read (heap : Heap) (a : Addr) : Option Object :=
  match heap a with
  | .live obj => some obj
  | _ => none

/-- The objects, `cache`, `cache_num`, the objects `cache_add` calls are about to add, and the
references callers got. -/
structure State (τ : Type) where
  heap : Heap
  cache : List Addr
  cacheNum : Nat
  adding : List (τ × Addr)
  held : List (τ × Addr)

def maxCacheSize : Nat := 10

def increment (n : Nat) : Nat := (n + 1) % 2 ^ 32

def decrement (n : Nat) : Nat := (n + (2 ^ 32 - 1)) % 2 ^ 32

namespace Locked

def objectPut (heap : Heap) (a : Addr) : Option Heap := do
  let obj ← heap.read a
  let obj := { obj with refcnt := decrement obj.refcnt }
  if obj.refcnt = 0 then some (Function.update heap a (.freed obj))
  else some (Function.update heap a (.live obj))

def objectGet (heap : Heap) (a : Addr) : Option Heap := do
  let obj ← heap.read a
  some (Function.update heap a (.live { obj with refcnt := increment obj.refcnt }))

def cacheFind (heap : Heap) (id : Int) : List Addr → Option (Heap × Option Addr)
  | [] => some (heap, none)
  | i :: rest => do
      let obj ← heap.read i
      if obj.id = id then
        -- the kernel is compiled so that `int` wraps
        some (Function.update heap i (.live { obj with popularity := CInt.toInt (obj.popularity + 1) }),
          some i)
      else cacheFind heap id rest

variable {τ : Type}

def cacheDelete (s : State τ) (obj : Option Addr) : Option (State τ) := do
  let a ← obj
  let heap ← objectPut s.heap a
  some { s with heap, cache := s.cache.erase a, cacheNum := decrement s.cacheNum }

/-- The entry with the least `popularity`, the first of them. -/
def outcast (heap : Heap) (best : Option Addr) : List Addr → Option (Option Addr)
  | [] => some best
  | i :: rest => do
      let obj ← heap.read i
      match best with
      | none => outcast heap (some i) rest
      | some j =>
          let least ← heap.read j
          outcast heap (if obj.popularity < least.popularity then some i else some j) rest

def cacheAdd (s : State τ) (obj : Addr) : Option (State τ) := do
  let s := { s with cache := obj :: s.cache, cacheNum := increment s.cacheNum }
  if s.cacheNum > maxCacheSize then
    let out ← outcast s.heap none s.cache
    cacheDelete s out
  else some s

end Locked

section Calls

variable {τ : Type} [DecidableEq τ]

/-- The first half of `cache_add`; `obj` is what `kmalloc` returns. -/
def cacheAlloc (s : State τ) (t : τ) (id : Int) (name : List UInt8) (obj : Option Addr) :
    State τ :=
  match obj with
  | none => s
  | some a =>
      { s with
        heap := Function.update s.heap a (.live ⟨1, id, name.take 31, 0⟩)
        adding := (t, a) :: s.adding }

def cacheAdd (s : State τ) (t : τ) (a : Addr) : Option (State τ) :=
  Locked.cacheAdd { s with adding := s.adding.erase (t, a) } a

def cacheDelete (s : State τ) (id : Int) : Option (State τ) := do
  let (heap, obj) ← Locked.cacheFind s.heap id s.cache
  Locked.cacheDelete { s with heap } obj

def cacheFind (s : State τ) (t : τ) (id : Int) : Option (State τ) := do
  let (heap, obj) ← Locked.cacheFind s.heap id s.cache
  match obj with
  | none => some { s with heap }
  | some a =>
      let heap ← Locked.objectGet heap a
      some { s with heap, held := (t, a) :: s.held }

def objectGet (s : State τ) (t : τ) (a : Addr) : Option (State τ) := do
  let heap ← Locked.objectGet s.heap a
  some { s with heap, held := (t, a) :: s.held }

def objectPut (s : State τ) (t : τ) (a : Addr) : Option (State τ) := do
  let heap ← Locked.objectPut s.heap a
  some { s with heap, held := s.held.erase (t, a) }

inductive Event (τ : Type) where
  | cacheAlloc (t : τ) (id : Int) (name : List UInt8) (obj : Option Addr)
  | cacheAdd (t : τ) (a : Addr)
  | cacheDelete (t : τ) (id : Int)
  | cacheFind (t : τ) (id : Int)
  | objectGet (t : τ) (a : Addr)
  | objectPut (t : τ) (a : Addr)

/-- The references callers have to an object; a thread inside `cache_add` has the one that it
is about to give to the list. -/
def references (s : State τ) (a : Addr) : Nat :=
  (s.adding ++ s.held).countP (·.2 = a)

def present (s : State τ) (id : Int) : Bool :=
  s.cache.any fun a => (s.heap.read a).any (·.id = id)

/-- What callers may do: a thread is in one call at a time, `kmalloc` returns memory that is not
in use, only ids in the cache are deleted, only references that are held are copied or put, and
there are fewer than 2^32 - 1 references to an object. -/
def Allowed (s : State τ) : Event τ → Prop
  | .cacheAlloc t _ _ obj => (∀ p ∈ s.adding, p.1 ≠ t) ∧ ∀ a ∈ obj, s.heap.read a = none
  | .cacheAdd t a => (t, a) ∈ s.adding
  | .cacheDelete t id => (∀ p ∈ s.adding, p.1 ≠ t) ∧ present s id = true
  | .cacheFind t _ => (∀ p ∈ s.adding, p.1 ≠ t) ∧ ∀ a ∈ s.cache, references s a + 2 < 2 ^ 32
  | .objectGet t a =>
      (∀ p ∈ s.adding, p.1 ≠ t) ∧ (t, a) ∈ s.held ∧ references s a + 2 < 2 ^ 32
  | .objectPut t a => (∀ p ∈ s.adding, p.1 ≠ t) ∧ (t, a) ∈ s.held

instance (s : State τ) : (e : Event τ) → Decidable (Allowed s e)
  | .cacheAlloc .. => inferInstanceAs (Decidable (_ ∧ _))
  | .cacheAdd .. => inferInstanceAs (Decidable (_ ∈ _))
  | .cacheDelete .. => inferInstanceAs (Decidable (_ ∧ _))
  | .cacheFind .. => inferInstanceAs (Decidable (_ ∧ _))
  | .objectGet .. => inferInstanceAs (Decidable (_ ∧ _ ∧ _))
  | .objectPut .. => inferInstanceAs (Decidable (_ ∧ _))

def perform (s : State τ) : Event τ → Option (State τ)
  | .cacheAlloc t id name obj => some (cacheAlloc s t id name obj)
  | .cacheAdd t a => cacheAdd s t a
  | .cacheDelete _ id => cacheDelete s id
  | .cacheFind t id => cacheFind s t id
  | .objectGet t a => objectGet s t a
  | .objectPut t a => objectPut s t a

def step (s : State τ) (e : Event τ) : Outcome (State τ) :=
  if Allowed s e then
    match perform s e with
    | none => .fault
    | some t => .next t
  else .waits

def objectCache : System (State τ) (Event τ) where
  initial s := s = ⟨fun _ => .unused, [], 0, [], []⟩
  step := step

end Calls

theorem increment_eq (n : Nat) (bound : n + 1 < 2 ^ 32) : increment n = n + 1 :=
  Nat.mod_eq_of_lt bound

theorem decrement_succ (n : Nat) (bound : n < 2 ^ 32) : decrement (n + 1) = n := by
  rw [decrement, Nat.add_assoc, show 1 + (2 ^ 32 - 1) = 2 ^ 32 by norm_num, Nat.add_mod_right,
    Nat.mod_eq_of_lt bound]

def count (heap : Heap) (a : Addr) : Option Nat :=
  (heap.read a).map (·.refcnt)

/-- An object that was allocated still is, or was freed when its count had become zero; other
memory is not touched. -/
structure Kept (heap heap' : Heap) : Prop where
  live : ∀ a obj, heap a = .live obj →
    (∃ obj', heap' a = .live obj') ∨ ∃ obj', heap' a = .freed obj' ∧ obj'.refcnt = 0
  other : ∀ a, heap.read a = none → heap' a = heap a

theorem read_some {heap : Heap} {a : Addr} {obj : Object} :
    heap.read a = some obj ↔ heap a = .live obj := by
  rw [Heap.read]
  split
  · next here => simp [here]
  · next other =>
      simp only [reduceCtorEq, false_iff]
      exact other obj

theorem count_some {heap : Heap} {a : Addr} {n : Nat} (counted : count heap a = some n) :
    ∃ obj, heap.read a = some obj ∧ obj.refcnt = n := by
  rw [count, Option.map_eq_some_iff] at counted
  exact counted

theorem count_live (heap : Heap) (a : Addr) (obj : Object) :
    count (Function.update heap a (.live obj)) =
      Function.update (count heap) a (some obj.refcnt) := by
  funext b
  by_cases self : b = a
  · simp [count, Heap.read, self]
  · simp [count, Heap.read, self]

theorem count_freed (heap : Heap) (a : Addr) (obj : Object) :
    count (Function.update heap a (.freed obj)) = Function.update (count heap) a none := by
  funext b
  by_cases self : b = a
  · simp [count, Heap.read, self]
  · simp [count, Heap.read, self]

theorem kept_refl (heap : Heap) : Kept heap heap :=
  ⟨fun _ obj here => .inl ⟨obj, here⟩, fun _ _ => rfl⟩

theorem kept_update (heap : Heap) (a : Addr) (obj : Object) (cell : Cell)
    (here : heap.read a = some obj)
    (after : (∃ obj', cell = .live obj') ∨ ∃ obj', cell = .freed obj' ∧ obj'.refcnt = 0) :
    Kept heap (Function.update heap a cell) where
  live := by
    intro b old there
    by_cases self : b = a
    · rw [self, Function.update_self]
      exact after
    · rw [Function.update_of_ne self]
      exact .inl ⟨old, there⟩
  other := by
    intro b absent
    rw [Function.update_of_ne]
    rintro rfl
    rw [here] at absent
    cases absent

theorem kept_trans {first second third : Heap} (early : Kept first second)
    (late : Kept second third) : Kept first third where
  live := by
    intro a obj here
    rcases early.live a obj here with ⟨obj', there⟩ | ⟨obj', there, zero⟩
    · exact late.live a obj' there
    · refine .inr ⟨obj', ?_, zero⟩
      rw [late.other a (by rw [Heap.read, there]), there]
  other := by
    intro a absent
    have same := early.other a absent
    rw [← same]
    apply late.other
    rw [Heap.read, same, ← Heap.read, absent]

theorem objectPut_spec (heap : Heap) (a : Addr) (n : Nat) (here : count heap a = some (n + 1))
    (bound : n + 1 < 2 ^ 32) :
    ∃ heap', Locked.objectPut heap a = some heap' ∧
      count heap' = Function.update (count heap) a (tally n) ∧ Kept heap heap' := by
  obtain ⟨obj, read, refcnt⟩ := count_some here
  have less : decrement obj.refcnt = n := by rw [refcnt, decrement_succ n (by omega)]
  rw [Locked.objectPut, read, Option.bind_eq_bind, Option.bind_some]
  dsimp only
  rw [less]
  cases n with
  | zero =>
      rw [if_pos rfl]
      exact ⟨_, rfl, count_freed heap a _, kept_update heap a obj _ read (.inr ⟨_, rfl, rfl⟩)⟩
  | succ n =>
      rw [if_neg (Nat.succ_ne_zero n)]
      exact ⟨_, rfl, count_live heap a _, kept_update heap a obj _ read (.inl ⟨_, rfl⟩)⟩

theorem objectGet_spec (heap : Heap) (a : Addr) (n : Nat) (here : count heap a = some n)
    (bound : n + 1 < 2 ^ 32) :
    ∃ heap', Locked.objectGet heap a = some heap' ∧
      count heap' = Function.update (count heap) a (tally (n + 1)) ∧ Kept heap heap' := by
  obtain ⟨obj, read, refcnt⟩ := count_some here
  have more : increment obj.refcnt = n + 1 := by rw [refcnt, increment_eq n bound]
  simp only [Locked.objectGet, read, Option.bind_eq_bind, Option.bind_some, more]
  exact ⟨_, rfl, count_live heap a _, kept_update heap a obj _ read (.inl ⟨_, rfl⟩)⟩

theorem cacheFind_spec (heap : Heap) (id : Int) (cache : List Addr)
    (live : ∀ a ∈ cache, ∃ obj, heap.read a = some obj) :
    ∃ heap' found, Locked.cacheFind heap id cache = some (heap', found) ∧
      count heap' = count heap ∧ Kept heap heap' ∧ (∀ a ∈ found, a ∈ cache) ∧
      (cache.any (fun a => (heap.read a).any (·.id = id)) = true → found ≠ none) := by
  induction cache with
  | nil => exact ⟨heap, none, rfl, rfl, kept_refl heap, (by simp), (by simp)⟩
  | cons i rest ih =>
      obtain ⟨obj, read⟩ := live i (by simp)
      simp only [Locked.cacheFind, read, Option.bind_eq_bind, Option.bind_some]
      by_cases same : obj.id = id
      · rw [if_pos same]
        refine ⟨_, _, rfl, ?_, kept_update heap i obj _ read (.inl ⟨_, rfl⟩), ?_, (by simp)⟩
        · rw [count_live]
          apply Function.update_eq_self_iff.2
          rw [count, read]
          rfl
        · intro a found
          cases found
          simp
      · rw [if_neg same]
        obtain ⟨heap', found, ran, counts, kept, inside, known⟩ :=
          ih fun a member => live a (by simp [member])
        refine ⟨heap', found, ran, counts, kept, ?_, ?_⟩
        · intro a here
          exact List.mem_cons_of_mem i (inside a here)
        · intro any
          apply known
          simpa [read, same] using any

theorem outcast_spec (heap : Heap) (cache : List Addr) (best : Option Addr)
    (live : ∀ a ∈ cache, ∃ obj, heap.read a = some obj)
    (held : ∀ a ∈ best, ∃ obj, heap.read a = some obj) (some' : cache ≠ [] ∨ best ≠ none) :
    ∃ a, Locked.outcast heap best cache = some (some a) ∧ (a ∈ cache ∨ best = some a) := by
  induction cache generalizing best with
  | nil =>
      obtain ⟨a, rfl⟩ := Option.ne_none_iff_exists'.1 (some'.resolve_left (by simp))
      exact ⟨a, rfl, .inr rfl⟩
  | cons i rest ih =>
      obtain ⟨obj, read⟩ := live i (by simp)
      have others : ∀ a ∈ rest, ∃ obj, heap.read a = some obj := fun a member =>
        live a (by simp [member])
      -- from here on `i` is the least popular object
      have chosen : ∃ a, Locked.outcast heap (some i) rest = some (some a) ∧
          (a ∈ i :: rest ∨ best = some a) := by
        obtain ⟨a, ran, inside⟩ := ih (some i) others (by simpa using ⟨obj, read⟩) (by simp)
        refine ⟨a, ran, .inl ?_⟩
        rcases inside with later | first
        · exact List.mem_cons_of_mem i later
        · cases first
          simp
      cases best with
      | none =>
          simp only [Locked.outcast, read, Option.bind_eq_bind, Option.bind_some]
          exact chosen
      | some j =>
          obtain ⟨least, readLeast⟩ := held j rfl
          simp only [Locked.outcast, read, readLeast, Option.bind_eq_bind, Option.bind_some]
          by_cases lower : obj.popularity < least.popularity
          · rw [if_pos lower]
            exact chosen
          · rw [if_neg lower]
            obtain ⟨a, ran, inside⟩ := ih (some j) others held (by simp)
            exact ⟨a, ran, inside.imp_left (List.mem_cons_of_mem i)⟩

variable {τ : Type}

def refs (s : State τ) (a : Addr) : Nat :=
  (if a ∈ s.cache then 1 else 0) + references s a

/-- What holds in every state, also before `__cache_add` evicts. -/
structure Tidy (s : State τ) : Prop where
  num : s.cacheNum = s.cache.length
  distinct : (s.adding.map Prod.snd ++ s.cache).Nodup
  tallied : Tallied (count s.heap) (refs s)
  bounded : ∀ a, references s a + 1 < 2 ^ 32

theorem tidy_start : Tidy (⟨fun _ => .unused, [], 0, [], []⟩ : State τ) where
  num := rfl
  distinct := by simp
  tallied := by
    intro a
    simp [count, Heap.read, refs, references, tally]
  bounded := by simp [references]

theorem tidy_live (s : State τ) (tidy : Tidy s) (a : Addr) (referenced : 0 < refs s a) :
    count s.heap a = some (refs s a) ∧ ∃ obj, s.heap.read a = some obj := by
  have counted := (tidy.tallied.some_iff a (refs s a)).2 ⟨referenced, rfl⟩
  obtain ⟨obj, read, _⟩ := count_some counted
  exact ⟨counted, obj, read⟩

theorem refs_bound (s : State τ) (tidy : Tidy s) (a : Addr) : refs s a < 2 ^ 32 := by
  have bounded := tidy.bounded a
  rw [refs]
  split <;> omega

theorem cache_refs (s : State τ) (a : Addr) (inside : a ∈ s.cache) : 0 < refs s a := by
  rw [refs, if_pos inside]
  omega

theorem held_refs (s : State τ) (t : τ) (a : Addr) (inside : (t, a) ∈ s.held) :
    0 < references s a := by
  rw [references, List.countP_pos_iff]
  exact ⟨(t, a), by simp [inside], by simp⟩

theorem tidy_delete (s : State τ) (a : Addr) (inside : a ∈ s.cache) (tidy : Tidy s)
    (size : s.cache.length < 2 ^ 32) :
    ∃ t, Locked.cacheDelete s (some a) = some t ∧ Tidy t ∧ t.cache.length + 1 = s.cache.length ∧
      Kept s.heap t.heap := by
  have positive := cache_refs s a inside
  have counted := (tidy_live s tidy a positive).1
  have bound := refs_bound s tidy a
  obtain ⟨n, last⟩ : ∃ n, refs s a = n + 1 := ⟨refs s a - 1, by omega⟩
  rw [last] at counted
  obtain ⟨heap, put, counts, kept⟩ := objectPut_spec s.heap a n counted (by omega)
  have onList : s.cache.Nodup := (List.nodup_append.1 tidy.distinct).2.1
  have length : (s.cache.erase a).length + 1 = s.cache.length := by
    have some' := List.length_pos_of_mem inside
    rw [List.length_erase_of_mem inside]
    omega
  refine ⟨{ s with heap, cache := s.cache.erase a, cacheNum := decrement s.cacheNum }, ?_,
    ⟨?_, ?_, ?_, tidy.bounded⟩, length, kept⟩
  · simp only [Locked.cacheDelete, put, Option.bind_eq_bind, Option.bind_some]
  · dsimp only
    rw [tidy.num, ← length, decrement_succ _ (by omega)]
  · exact tidy.distinct.sublist (List.Sublist.append_left List.erase_sublist _)
  · dsimp only
    rw [counts]
    apply tidy.tallied.update
    · rw [refs, if_pos inside] at last
      rw [refs, if_neg (by simp [onList.mem_erase_iff])]
      simp only [references] at *
      omega
    · intro b other
      simp only [refs, references, List.mem_erase_of_ne other]

theorem cache_live (s : State τ) (tidy : Tidy s) :
    ∀ a ∈ s.cache, ∃ obj, s.heap.read a = some obj :=
  fun a inside => (tidy_live s tidy a (cache_refs s a inside)).2

structure Intact (s : State τ) : Prop where
  tidy : Tidy s
  small : s.cache.length ≤ maxCacheSize

theorem tidy_hold (s : State τ) (t : τ) (a : Addr) (heap : Heap) (tidy : Tidy s)
    (room : references s a + 2 < 2 ^ 32)
    (counts : count heap = Function.update (count s.heap) a (tally (refs s a + 1))) :
    Tidy { s with heap, held := (t, a) :: s.held } := by
  have more : ∀ b, (s.adding ++ (t, a) :: s.held).countP (·.2 = b) =
      references s b + if b = a then 1 else 0 := by
    intro b
    rw [references, List.perm_middle.countP_eq, List.countP_cons]
    simp [eq_comm]
  refine ⟨tidy.num, tidy.distinct, ?_, ?_⟩
  · dsimp only
    rw [counts]
    apply tidy.tallied.update
    · rw [refs, refs, references, more, if_pos rfl]
      rfl
    · intro b other
      rw [refs, refs, references, more, if_neg other]
      rfl
  · intro b
    have bounded := tidy.bounded b
    rw [references, more]
    split
    · next same =>
        rw [same]
        omega
    · omega

theorem intact_alloc (s : State τ) (t : τ) (id : Int) (name : List UInt8) (obj : Option Addr)
    (unused : ∀ a ∈ obj, s.heap.read a = none) (intact : Intact s) :
    Intact (cacheAlloc s t id name obj) := by
  cases obj with
  | none => exact intact
  | some a =>
      have zero : refs s a = 0 := by
        by_contra some'
        obtain ⟨_, obj, read⟩ := tidy_live s intact.tidy a (Nat.pos_of_ne_zero some')
        rw [unused a rfl] at read
        cases read
      have unlisted : a ∉ s.cache := by
        intro inside
        have := cache_refs s a inside
        omega
      have unreferenced : references s a = 0 := by
        rw [refs] at zero
        omega
      have more : ∀ b, ((t, a) :: s.adding ++ s.held).countP (·.2 = b) =
          references s b + if b = a then 1 else 0 := by
        intro b
        rw [references, List.cons_append, List.countP_cons]
        simp [eq_comm]
      have fresh : a ∉ s.adding.map Prod.snd := by
        intro inside
        obtain ⟨p, member, same⟩ := List.mem_map.1 inside
        rw [references, List.countP_eq_zero] at unreferenced
        exact unreferenced p (List.mem_append_left s.held member) (decide_eq_true same)
      refine ⟨⟨intact.tidy.num, ?_, ?_, ?_⟩, intact.small⟩
      · dsimp only [cacheAlloc]
        rw [List.map_cons, List.cons_append, List.nodup_cons]
        refine ⟨?_, intact.tidy.distinct⟩
        rw [List.mem_append]
        exact not_or.2 ⟨fresh, unlisted⟩
      · dsimp only [cacheAlloc]
        rw [count_live]
        apply intact.tidy.tallied.update (refs _) a 1
        · rw [refs, references, more, if_pos rfl, unreferenced, if_neg unlisted]
        · intro b other
          rw [refs, refs, references, more, if_neg other]
          rfl
      · intro b
        have bounded := intact.tidy.bounded b
        dsimp only [cacheAlloc]
        rw [references, more]
        split
        · next same =>
            rw [same, unreferenced]
            decide
        · omega

theorem intact_delete (s : State τ) (id : Int) (known : present s id = true) (intact : Intact s) :
    ∃ u, cacheDelete s id = some u ∧ Intact u ∧ Kept s.heap u.heap := by
  have small := intact.small
  rw [maxCacheSize] at small
  obtain ⟨heap, found, ran, counts, kept, inside, some'⟩ :=
    cacheFind_spec s.heap id s.cache (cache_live s intact.tidy)
  obtain ⟨a, rfl⟩ := Option.ne_none_iff_exists'.1 (some' known)
  have tidy : Tidy { s with heap } := by
    refine ⟨intact.tidy.num, intact.tidy.distinct, ?_, intact.tidy.bounded⟩
    dsimp only
    rw [counts]
    exact intact.tidy.tallied
  obtain ⟨u, deleted, tidy', length, kept'⟩ := tidy_delete { s with heap } a (inside a rfl) tidy
    (by dsimp only; omega)
  refine ⟨u, ?_, ⟨tidy', ?_⟩, kept_trans kept kept'⟩
  · rw [cacheDelete, ran, Option.bind_eq_bind, Option.bind_some]
    exact deleted
  · dsimp only at length
    rw [maxCacheSize]
    omega

theorem intact_find (s : State τ) (t : τ) (id : Int)
    (room : ∀ a ∈ s.cache, references s a + 2 < 2 ^ 32) (intact : Intact s) :
    ∃ u, cacheFind s t id = some u ∧ Intact u ∧ Kept s.heap u.heap := by
  obtain ⟨heap, found, ran, counts, kept, inside, _⟩ :=
    cacheFind_spec s.heap id s.cache (cache_live s intact.tidy)
  rw [cacheFind, ran, Option.bind_eq_bind, Option.bind_some]
  cases found with
  | none =>
      refine ⟨_, rfl, ⟨⟨intact.tidy.num, intact.tidy.distinct, ?_, intact.tidy.bounded⟩,
        intact.small⟩, kept⟩
      dsimp only
      rw [counts]
      exact intact.tidy.tallied
  | some a =>
      have listed := inside a rfl
      have counted := (tidy_live s intact.tidy a (cache_refs s a listed)).1
      have room' := room a listed
      have bound : refs s a + 1 < 2 ^ 32 := by
        rw [refs, if_pos listed]
        omega
      rw [← counts] at counted
      obtain ⟨heap', got, counts', kept'⟩ := objectGet_spec heap a (refs s a) counted bound
      dsimp only
      rw [got, Option.bind_eq_bind, Option.bind_some]
      rw [counts] at counts'
      exact ⟨_, rfl, ⟨tidy_hold s t a heap' intact.tidy room' counts', intact.small⟩,
        kept_trans kept kept'⟩

theorem intact_get (s : State τ) (t : τ) (a : Addr) (inside : (t, a) ∈ s.held)
    (room : references s a + 2 < 2 ^ 32) (intact : Intact s) :
    ∃ u, objectGet s t a = some u ∧ Intact u ∧ Kept s.heap u.heap := by
  have positive : 0 < refs s a := by
    have := held_refs s t a inside
    rw [refs]
    omega
  have counted := (tidy_live s intact.tidy a positive).1
  have bound : refs s a + 1 < 2 ^ 32 := by
    rw [refs]
    split <;> omega
  obtain ⟨heap, got, counts, kept⟩ := objectGet_spec s.heap a (refs s a) counted bound
  rw [objectGet, got, Option.bind_eq_bind, Option.bind_some]
  exact ⟨_, rfl, ⟨tidy_hold s t a heap intact.tidy room counts, intact.small⟩, kept⟩

def FreedAtZero (heap heap' : Heap) : Prop :=
  ∀ a obj, heap a = .live obj →
    (∃ obj', heap' a = .live obj' ∧ obj'.refcnt ≠ 0) ∨
      ∃ obj', heap' a = .freed obj' ∧ obj'.refcnt = 0

theorem live_count (s : State τ) (tidy : Tidy s) (a : Addr) (obj : Object)
    (here : s.heap a = .live obj) : obj.refcnt = refs s a ∧ obj.refcnt ≠ 0 := by
  have counted : count s.heap a = some obj.refcnt := by
    rw [count, read_some.2 here]
    rfl
  have tallied := (tidy.tallied.some_iff a obj.refcnt).1 counted
  omega

variable [DecidableEq τ]

theorem countP_erase_add (l : List (τ × Addr)) (t : τ) (a b : Addr) (inside : (t, a) ∈ l) :
    (l.erase (t, a)).countP (·.2 = b) + (if b = a then 1 else 0) = l.countP (·.2 = b) := by
  rw [(List.perm_cons_erase inside).countP_eq (·.2 = b), List.countP_cons]
  simp [eq_comm]

/-- `list_add` of an object that `cache_add` has filled: the list takes over its reference. -/
theorem tidy_push (s : State τ) (t : τ) (a : Addr) (inside : (t, a) ∈ s.adding) (tidy : Tidy s)
    (size : s.cache.length + 1 < 2 ^ 32) :
    Tidy { s with
      adding := s.adding.erase (t, a), cache := a :: s.cache, cacheNum := increment s.cacheNum } := by
  have fewer : ∀ b, (s.adding.erase (t, a) ++ s.held).countP (·.2 = b) +
      (if b = a then 1 else 0) = references s b := by
    intro b
    have given := countP_erase_add s.adding t a b inside
    rw [references, List.countP_append, List.countP_append]
    omega
  have fresh : a ∉ s.cache := by
    intro listed
    have apart := (List.nodup_append.1 tidy.distinct).2.2
    exact apart a (List.mem_map.2 ⟨(t, a), inside, rfl⟩) a listed rfl
  constructor
  · dsimp only
    rw [tidy.num, increment_eq _ size, List.length_cons]
  · have pulled : (s.adding.map Prod.snd ++ s.cache).Perm
        ((s.adding.erase (t, a)).map Prod.snd ++ a :: s.cache) :=
      (((List.perm_cons_erase inside).map Prod.snd).append_right s.cache).trans
        List.perm_middle.symm
    exact pulled.nodup_iff.1 tidy.distinct
  · apply tidy.tallied.congr
    intro b
    have given := fewer b
    rw [refs, refs, references]
    dsimp only
    by_cases self : b = a
    · subst self
      rw [if_pos rfl] at given
      rw [if_neg fresh, if_pos (by simp)]
      omega
    · rw [if_neg self] at given
      simp only [List.mem_cons, self, false_or]
      omega
  · intro b
    have given := fewer b
    have bounded := tidy.bounded b
    rw [references]
    dsimp only
    omega

theorem intact_add (s : State τ) (t : τ) (a : Addr) (inside : (t, a) ∈ s.adding)
    (intact : Intact s) :
    ∃ u, cacheAdd s t a = some u ∧ Intact u ∧ Kept s.heap u.heap := by
  have small := intact.small
  rw [maxCacheSize] at small
  have pushed := tidy_push s t a inside intact.tidy (by omega)
  rw [cacheAdd, Locked.cacheAdd]
  dsimp only
  by_cases full : increment s.cacheNum > maxCacheSize
  · rw [if_pos full]
    obtain ⟨out, ran, listed⟩ := outcast_spec s.heap (a :: s.cache) none
      (cache_live _ pushed) (by simp) (.inl (by simp))
    rw [ran, Option.bind_eq_bind, Option.bind_some]
    obtain ⟨u, deleted, tidy, length, kept⟩ := tidy_delete _ out (listed.resolve_right (by simp))
      pushed (by dsimp only; rw [List.length_cons]; omega)
    refine ⟨u, deleted, ⟨tidy, ?_⟩, kept⟩
    dsimp only at length
    rw [List.length_cons] at length
    rw [maxCacheSize]
    omega
  · rw [if_neg full]
    refine ⟨_, rfl, ⟨pushed, ?_⟩, kept_refl s.heap⟩
    have num := pushed.num
    dsimp only at num ⊢
    omega

theorem intact_put (s : State τ) (t : τ) (a : Addr) (inside : (t, a) ∈ s.held)
    (intact : Intact s) :
    ∃ u, objectPut s t a = some u ∧ Intact u ∧ Kept s.heap u.heap := by
  have fewer : ∀ b, (s.adding ++ s.held.erase (t, a)).countP (·.2 = b) +
      (if b = a then 1 else 0) = references s b := by
    intro b
    have given := countP_erase_add s.held t a b inside
    rw [references, List.countP_append, List.countP_append]
    omega
  have positive := held_refs s t a inside
  obtain ⟨n, last⟩ : ∃ n, refs s a = n + 1 := ⟨refs s a - 1, by rw [refs]; omega⟩
  have counted := (tidy_live s intact.tidy a (by omega)).1
  have bound := refs_bound s intact.tidy a
  rw [last] at counted bound
  obtain ⟨heap, put, counts, kept⟩ := objectPut_spec s.heap a n counted bound
  rw [objectPut, put, Option.bind_eq_bind, Option.bind_some]
  refine ⟨_, rfl, ⟨⟨intact.tidy.num, intact.tidy.distinct, ?_, ?_⟩, intact.small⟩, kept⟩
  · dsimp only
    rw [counts]
    apply intact.tidy.tallied.update
    · have given := fewer a
      rw [if_pos rfl] at given
      rw [refs] at last ⊢
      rw [references]
      dsimp only
      omega
    · intro b other
      have given := fewer b
      rw [if_neg other] at given
      rw [refs, refs, references]
      dsimp only
      omega
  · intro b
    have given := fewer b
    have bounded := intact.tidy.bounded b
    rw [references]
    dsimp only
    omega

theorem perform_spec (s : State τ) (e : Event τ) (allowed : Allowed s e) (intact : Intact s) :
    ∃ t, perform s e = some t ∧ Intact t ∧
      ∀ a obj, s.heap a = .live obj → (∃ obj', t.heap a = .live obj') ∨
        ∃ obj', t.heap a = .freed obj' ∧ obj'.refcnt = 0 := by
  cases e with
  | cacheAlloc t id name obj =>
      refine ⟨_, rfl, intact_alloc s t id name obj allowed.2 intact, ?_⟩
      intro a old here
      cases obj with
      | none => exact .inl ⟨old, here⟩
      | some new =>
          have other : a ≠ new := by
            rintro rfl
            have unused := allowed.2 a rfl
            rw [read_some.2 here] at unused
            cases unused
          refine .inl ⟨old, ?_⟩
          simp only [cacheAlloc, Function.update_of_ne other, here]
  | cacheAdd t a =>
      obtain ⟨u, ran, intact', kept⟩ := intact_add s t a allowed intact
      exact ⟨u, ran, intact', kept.live⟩
  | cacheDelete t id =>
      obtain ⟨u, ran, intact', kept⟩ := intact_delete s id allowed.2 intact
      exact ⟨u, ran, intact', kept.live⟩
  | cacheFind t id =>
      obtain ⟨u, ran, intact', kept⟩ := intact_find s t id allowed.2 intact
      exact ⟨u, ran, intact', kept.live⟩
  | objectGet t a =>
      obtain ⟨u, ran, intact', kept⟩ := intact_get s t a allowed.2.1 allowed.2.2 intact
      exact ⟨u, ran, intact', kept.live⟩
  | objectPut t a =>
      obtain ⟨u, ran, intact', kept⟩ := intact_put s t a allowed.2 intact
      exact ⟨u, ran, intact', kept.live⟩

theorem step_spec (s : State τ) (e : Event τ) (intact : Intact s) :
    step s e ≠ .fault ∧ ∀ t, step s e = .next t → Intact t ∧ FreedAtZero s.heap t.heap := by
  rw [step]
  by_cases allowed : Allowed s e
  · obtain ⟨t, ran, intact', live⟩ := perform_spec s e allowed intact
    rw [if_pos allowed, ran]
    refine ⟨(by simp), ?_⟩
    rintro _ ⟨⟩
    refine ⟨intact', ?_⟩
    intro a obj here
    rcases live a obj here with ⟨obj', there⟩ | freed
    · exact .inl ⟨obj', there, (live_count t intact'.tidy a obj' there).2⟩
    · exact .inr freed
  · rw [if_neg allowed]
    exact ⟨(by simp), (by simp)⟩

theorem reachable_intact (s : State τ) (reached : objectCache.Reachable s) : Intact s := by
  refine objectCache.invariant Intact ?_ ?_ reached
  · rintro s rfl
    exact ⟨tidy_start, Nat.zero_le _⟩
  · intro s e t intact moved
    exact ((step_spec s e intact).2 t moved).1

end DataStructure.Refcnt
