import DataStructure.Kernel.Refcnt

/-! Whether `cache_find` gives the object that `cache_add` has just put into the cache.

The new object stands first on the list with popularity 0 when the object to evict is chosen. -/

namespace DataStructure.Refcnt

variable {τ : Type}

theorem outcast_stays (heap : Heap) (j : Addr) (least : Object) (cache : List Addr)
    (first : heap.read j = some least)
    (popular : ∀ a ∈ cache, ∃ obj, heap.read a = some obj ∧ least.popularity ≤ obj.popularity) :
    Locked.outcast heap (some j) cache = some (some j) := by
  induction cache with
  | nil => rfl
  | cons i rest ih =>
      obtain ⟨obj, read, more⟩ := popular i List.mem_cons_self
      simp only [Locked.outcast, read, first, Option.bind_eq_bind, Option.bind_some]
      rw [if_neg (not_lt.2 more)]
      exact ih fun a member => popular a (List.mem_cons_of_mem i member)

theorem outcast_moves (heap : Heap) (j : Addr) (least : Object) (cache : List Addr)
    (first : heap.read j = some least) (live : ∀ a ∈ cache, ∃ obj, heap.read a = some obj)
    (less : ∃ a ∈ cache, ∃ obj, heap.read a = some obj ∧ obj.popularity < least.popularity) :
    ∃ out ∈ cache, Locked.outcast heap (some j) cache = some (some out) := by
  induction cache with
  | nil =>
      obtain ⟨a, absent, -⟩ := less
      exact absurd absent List.not_mem_nil
  | cons i rest ih =>
      obtain ⟨obj, read⟩ := live i List.mem_cons_self
      have others : ∀ a ∈ rest, ∃ obj, heap.read a = some obj :=
        fun a member => live a (List.mem_cons_of_mem i member)
      simp only [Locked.outcast, read, first, Option.bind_eq_bind, Option.bind_some]
      by_cases lower : obj.popularity < least.popularity
      · rw [if_pos lower]
        obtain ⟨out, ran, inside⟩ :=
          outcast_spec heap rest (some i) others (by simpa using ⟨obj, read⟩) (by simp)
        refine ⟨out, ?_, ran⟩
        rcases inside with later | same
        · exact List.mem_cons_of_mem i later
        · cases same
          exact List.mem_cons_self
      · rw [if_neg lower]
        obtain ⟨a, member, obj', read', below⟩ := less
        have later : a ∈ rest := by
          rcases List.mem_cons.1 member with here | later
          · subst here
            rw [read] at read'
            cases read'
            exact absurd below lower
          · exact later
        obtain ⟨out, inside, ran⟩ := ih others ⟨a, later, obj', read', below⟩
        exact ⟨out, List.mem_cons_of_mem i inside, ran⟩

def Finds (s : State τ) (t : τ) (id : Int) (name : List UInt8) : Prop :=
  ∃ u a obj, cacheFind s t id = some u ∧ u.held = (t, a) :: s.held ∧
    u.heap.read a = some obj ∧ obj.id = id ∧ obj.name = name

theorem finds_first (s : State τ) (t : τ) (a : Addr) (rest : List Addr) (obj : Object)
    (listed : s.cache = a :: rest) (live : s.heap.read a = some obj) :
    Finds s t obj.id obj.name := by
  have found : Locked.cacheFind s.heap obj.id s.cache = some (Function.update s.heap a
      (.live { obj with popularity := CInt.toInt (obj.popularity + 1) }), some a) := by
    rw [listed, Locked.cacheFind, live]
    exact if_pos rfl
  have counted : ∀ obj' : Object, Locked.objectGet (Function.update s.heap a (.live obj')) a =
      some (Function.update s.heap a (.live { obj' with refcnt := increment obj'.refcnt })) := by
    intro obj'
    rw [Locked.objectGet, read_some.2 (Function.update_self a _ s.heap), Option.bind_eq_bind,
      Option.bind_some, Function.update_idem]
  refine ⟨{ s with
    heap := Function.update s.heap a (.live { obj with
      refcnt := increment obj.refcnt, popularity := CInt.toInt (obj.popularity + 1) })
    held := (t, a) :: s.held }, a, _, ?_, rfl, read_some.2 (Function.update_self a _ s.heap), rfl, rfl⟩
  rw [cacheFind, found, Option.bind_eq_bind, Option.bind_some]
  dsimp only
  rw [counted]
  rfl

theorem cacheFind_absent (heap : Heap) (id : Int) (cache : List Addr)
    (absent : ∀ a ∈ cache, ∃ obj, heap.read a = some obj ∧ obj.id ≠ id) :
    Locked.cacheFind heap id cache = some (heap, none) := by
  induction cache with
  | nil => rfl
  | cons i rest ih =>
      obtain ⟨obj, read, other⟩ := absent i List.mem_cons_self
      simp only [Locked.cacheFind, read, Option.bind_eq_bind, Option.bind_some]
      rw [if_neg other]
      exact ih fun a member => absent a (List.mem_cons_of_mem i member)

theorem not_finds_absent (s : State τ) (t : τ) (id : Int) (name : List UInt8)
    (absent : ∀ a ∈ s.cache, ∃ obj, s.heap.read a = some obj ∧ obj.id ≠ id) :
    ¬Finds s t id name := by
  intro finds
  obtain ⟨u, a, obj, ran, held, -⟩ := finds
  rw [cacheFind, cacheFind_absent s.heap id s.cache absent, Option.bind_eq_bind, Option.bind_some] at ran
  cases ran
  exact absurd (congrArg List.length held) (by simp)

theorem objectPut_other {heap heap' : Heap} {a b : Addr} (put : Locked.objectPut heap a = some heap')
    (other : b ≠ a) : heap'.read b = heap.read b := by
  rw [Locked.objectPut, Option.bind_eq_bind] at put
  obtain ⟨obj, -, rest⟩ := Option.bind_eq_some_iff.1 put
  dsimp only at rest
  split at rest
  · cases rest
    simp only [Heap.read, Function.update_of_ne other]
  · cases rest
    simp only [Heap.read, Function.update_of_ne other]

theorem increment_num (s : State τ) (intact : Intact s) :
    increment s.cacheNum = s.cache.length + 1 := by
  have small := intact.small
  rw [maxCacheSize] at small
  rw [intact.tidy.num, increment_eq _ (by omega)]

theorem fresh_unlisted (s : State τ) (intact : Intact s) (a : Addr) (unused : s.heap.read a = none) :
    ∀ b ∈ s.cache, b ≠ a := by
  intro b listed same
  obtain ⟨obj, read⟩ := cache_live s intact.tidy b listed
  rw [same, unused] at read
  cases read

def linked (s : State τ) (id : Int) (name : List UInt8) (a : Addr) : State τ :=
  { s with
    heap := Function.update s.heap a (.live ⟨1, id, name.take 31, 0⟩)
    cache := a :: s.cache
    cacheNum := increment s.cacheNum }

section Linked

variable {s : State τ} {id : Int} {name : List UInt8} {a : Addr}

theorem linked_first :
    (linked s id name a).heap.read a = some ⟨1, id, name.take 31, 0⟩ :=
  read_some.2 (Function.update_self a _ s.heap)

theorem linked_other (b : Addr) (other : b ≠ a) :
    (linked s id name a).heap.read b = s.heap.read b := by
  simp only [linked, Heap.read, Function.update_of_ne other]

variable [DecidableEq τ]

theorem cacheAdd_eq (t : τ) : cacheAdd (cacheAlloc s t id name (some a)) t a =
    if increment s.cacheNum > maxCacheSize then
      (Locked.outcast (linked s id name a).heap (some a) s.cache).bind
        (Locked.cacheDelete (linked s id name a))
    else some (linked s id name a) := by
  have start : Locked.outcast (linked s id name a).heap none (a :: s.cache) =
      Locked.outcast (linked s id name a).heap (some a) s.cache := by
    rw [Locked.outcast, linked_first]
    rfl
  have gone : ((t, a) :: s.adding).erase (t, a) = s.adding :=
    List.erase_cons_head (t, a) s.adding
  rw [← start]
  simp only [cacheAdd, Locked.cacheAdd, cacheAlloc, gone]
  rfl

end Linked

variable [DecidableEq τ]

/-- `cache_add` returns 0 with the object in `a`, and `cache_find` of the id is called next. -/
def Findable (s : State τ) (t t' : τ) (id : Int) (name : List UInt8) (a : Addr) : Prop :=
  ∃ u, cacheAdd (cacheAlloc s t id name (some a)) t a = some u ∧ Finds u t' id (name.take 31)

theorem findable_other (s : State τ) (t t' : τ) (id : Int) (name : List UInt8) (a out : Addr)
    (full : increment s.cacheNum > maxCacheSize)
    (chosen : Locked.outcast (linked s id name a).heap (some a) s.cache = some (some out))
    (other : a ≠ out) (live : ∃ obj, s.heap.read out = some obj) : Findable s t t' id name a := by
  obtain ⟨obj, read⟩ := live
  rw [← linked_other out other.symm] at read
  obtain ⟨heap, put⟩ : ∃ heap, Locked.objectPut (linked s id name a).heap out = some heap := by
    rw [Locked.objectPut, read, Option.bind_eq_bind, Option.bind_some]
    dsimp only
    split
    · exact ⟨_, rfl⟩
    · exact ⟨_, rfl⟩
  refine ⟨{ linked s id name a with
    heap, cache := (linked s id name a).cache.erase out,
    cacheNum := decrement (linked s id name a).cacheNum }, ?_, ?_⟩
  · rw [cacheAdd_eq, if_pos full, chosen, Option.bind_some, Locked.cacheDelete, Option.bind_eq_bind,
      Option.bind_some, put]
    rfl
  · have kept : heap.read a = some ⟨1, id, name.take 31, 0⟩ := by
      rw [objectPut_other put other, linked_first]
    have listed : (linked s id name a).cache.erase out = a :: s.cache.erase out :=
      List.erase_cons_tail (by simpa using other)
    exact finds_first _ t' a (s.cache.erase out) ⟨1, id, name.take 31, 0⟩ listed kept

theorem not_findable_self (s : State τ) (t t' : τ) (id : Int) (name : List UInt8) (a : Addr)
    (full : increment s.cacheNum > maxCacheSize)
    (chosen : Locked.outcast (linked s id name a).heap (some a) s.cache = some (some a))
    (absent : ∀ b ∈ s.cache, b ≠ a ∧ ∃ obj, s.heap.read b = some obj ∧ obj.id ≠ id) :
    ¬Findable s t t' id name a := by
  intro findable
  obtain ⟨u, added, finds⟩ := findable
  rw [cacheAdd_eq, if_pos full, chosen, Option.bind_some, Locked.cacheDelete, Option.bind_eq_bind,
    Option.bind_some, Option.bind_eq_bind] at added
  obtain ⟨heap, put, rest⟩ := Option.bind_eq_some_iff.1 added
  cases rest
  refine not_finds_absent _ t' id _ ?_ finds
  intro b listed
  have others : (linked s id name a).cache.erase a = s.cache := List.erase_cons_head a s.cache
  rw [others] at listed
  obtain ⟨other, obj, read, differs⟩ := absent b listed
  refine ⟨obj, ?_, differs⟩
  rw [objectPut_other put other, linked_other b other, read]

/-- A full cache without an object of negative popularity does not keep another one. -/
theorem not_findable_full (s : State τ) (t t' : τ) (id : Int) (name : List UInt8) (a : Addr)
    (intact : Intact s) (unused : s.heap.read a = none) (absent : present s id = false)
    (full : s.cache.length = maxCacheSize)
    (popular : ∀ b ∈ s.cache, ∀ obj, s.heap.read b = some obj → 0 ≤ obj.popularity) :
    ¬Findable s t t' id name a := by
  have live := cache_live s intact.tidy
  have fresh := fresh_unlisted s intact a unused
  have chosen : Locked.outcast (linked s id name a).heap (some a) s.cache = some (some a) := by
    apply outcast_stays _ a ⟨1, id, name.take 31, 0⟩ s.cache linked_first
    intro b listed
    obtain ⟨obj, read⟩ := live b listed
    rw [linked_other b (fresh b listed)]
    exact ⟨obj, read, popular b listed obj read⟩
  apply not_findable_self s t t' id name a _ chosen
  · intro b listed
    obtain ⟨obj, read⟩ := live b listed
    refine ⟨fresh b listed, obj, read, ?_⟩
    intro same
    rw [present, List.any_eq_false] at absent
    exact absent b listed (by simp [read, same])
  · rw [increment_num s intact]
    omega

/-- Just after it was added, an object can be found exactly when the cache was not full, or held
an object of negative popularity to evict in its place. -/
theorem fresh_findable_iff (s : State τ) (t t' : τ) (id : Int) (name : List UInt8) (a : Addr)
    (reached : objectCache.Reachable s) (unused : s.heap.read a = none)
    (absent : present s id = false) :
    Findable s t t' id name a ↔ s.cache.length < maxCacheSize ∨
      ∃ b ∈ s.cache, ∃ obj, s.heap.read b = some obj ∧ obj.popularity < 0 := by
  have intact : Intact s := reachable_intact s reached
  have small : s.cache.length ≤ maxCacheSize := intact.small
  have more := increment_num s intact
  by_cases room : s.cache.length < maxCacheSize
  · refine iff_of_true ⟨linked s id name a, ?_, ?_⟩ (.inl room)
    · rw [cacheAdd_eq, more, if_neg (by omega)]
    · exact finds_first (linked s id name a) t' a s.cache _ rfl linked_first
  · rw [or_iff_right room]
    by_cases less : ∃ b ∈ s.cache, ∃ obj, s.heap.read b = some obj ∧ obj.popularity < 0
    · refine iff_of_true ?_ less
      obtain ⟨b, listed, obj, read, negative⟩ := less
      have live := cache_live s intact.tidy
      have fresh := fresh_unlisted s intact a unused
      obtain ⟨out, inside, chosen⟩ :=
        outcast_moves (linked s id name a).heap a ⟨1, id, name.take 31, 0⟩ s.cache linked_first
          (fun c member => by rw [linked_other c (fresh c member)]; exact live c member)
          ⟨b, listed, obj, by rw [linked_other b (fresh b listed), read], negative⟩
      exact findable_other s t t' id name a out (by omega) chosen (fresh out inside).symm
        (live out inside)
    · refine iff_of_false ?_ less
      apply not_findable_full s t t' id name a intact unused absent (by omega)
      intro b listed obj read
      exact not_lt.1 fun negative => less ⟨b, listed, obj, read, negative⟩

theorem fresh_findable_one_object :
    ∃ s : State Bool, (objectCache.Reachable s ∧ s.heap.read 4 = none ∧ present s 8 = false) ∧
      (Findable s true false 8 [65] 4 ↔ s.cache.length < maxCacheSize ∨
        ∃ b ∈ s.cache, ∃ obj, s.heap.read b = some obj ∧ obj.popularity < 0) := by
  obtain ⟨s, reached, unused, absent⟩ : ∃ s : State Bool, objectCache.Reachable s ∧
      s.heap.read 4 = none ∧ present s 8 = false :=
    ⟨_, ⟨_, rfl, [.cacheAlloc true 7 [66, 111, 98] (some 3), .cacheAdd true 3], rfl⟩, rfl, rfl⟩
  exact ⟨s, ⟨reached, unused, absent⟩, fresh_findable_iff s true false 8 [65] 4 reached unused absent⟩

theorem fresh_evicted_when_full :
    ∃ s : State Bool, objectCache.Reachable s ∧ s.heap.read 10 = none ∧ present s 10 = false ∧
      ¬Findable s true true 10 [65] 10 := by
  have filled : ∃ s : State Bool, objectCache.Reachable s ∧ s.heap.read 10 = none ∧
      present s 10 = false ∧ s.cache.length = 10 ∧
      s.cache.all (fun b => (s.heap.read b).all fun obj => decide (0 ≤ obj.popularity)) = true :=
    ⟨_, ⟨_, rfl, (List.range 10).flatMap fun n : Nat =>
      [.cacheAlloc true n [66, 111, 98] (some n), .cacheAdd true n], rfl⟩, rfl, rfl, rfl, rfl⟩
  obtain ⟨s, reached, unused, absent, full, popular⟩ := filled
  refine ⟨s, reached, unused, absent, ?_⟩
  apply not_findable_full s true true 10 [65] 10 (reachable_intact s reached) unused absent full
  intro b listed obj read
  have checked := List.all_eq_true.1 popular b listed
  rw [read] at checked
  exact of_decide_eq_true checked

end DataStructure.Refcnt
