import DataStructure.Lib.Program

/-! A heap of cells of one type, with the global variables of the program.

A pointer is NULL or the address of a cell. Allocation hands out the addresses
in increasing order, so `brk` bounds every address that was ever live; a loop
that walks linked cells is given `brk` iterations. -/

namespace DataStructure.Heap

open DataStructure.Program

abbrev Ptr := Option Nat

structure Store (G N : Type) where
  cell : Nat → Option N
  brk : Nat
  glob : G

variable {G N : Type}

namespace Store

def put (s : Store G N) (a : Nat) (n : N) : Store G N :=
  { s with cell := Function.update s.cell a (some n) }

@[simp] theorem put_cell_self (s : Store G N) (a : Nat) (n : N) :
    (s.put a n).cell a = some n := by
  simp [put]

@[simp] theorem put_cell_of_ne (s : Store G N) (a b : Nat) (n : N) (other : b ≠ a) :
    (s.put a n).cell b = s.cell b := by
  simp [put, other]

theorem put_same (s : Store G N) (a : Nat) (n : N) (here : s.cell a = some n) : s.put a n = s := by
  rw [put, ← here, Function.update_eq_self]

@[simp] theorem put_brk (s : Store G N) (a : Nat) (n : N) : (s.put a n).brk = s.brk := rfl

@[simp] theorem put_glob (s : Store G N) (a : Nat) (n : N) : (s.put a n).glob = s.glob := rfl

end Store

def load : Ptr → Prog (Store G N) N
  | none => fault .segv
  | some a => fun s =>
      match s.cell a with
      | some n => .ok (n, s)
      | none => .error .segv

def assign : Ptr → (N → N) → Prog (Store G N) Unit
  | none, _ => fault .segv
  | some a, f => fun s =>
      match s.cell a with
      | some n => .ok ((), s.put a (f n))
      | none => .error .segv

def malloc (n : N) : Prog (Store G N) Ptr := fun s =>
  .ok (some s.brk, { s.put s.brk n with brk := s.brk + 1 })

def free : Ptr → Prog (Store G N) Unit
  | none => pure ()
  | some a => fun s =>
      match s.cell a with
      | some _ => .ok ((), { s with cell := Function.update s.cell a none })
      | none => .error .segv

def readGlob : Prog (Store G N) G := fun s => .ok (s.glob, s)

def writeGlob (f : G → G) : Prog (Store G N) Unit := fun s =>
  .ok ((), { s with glob := f s.glob })

/-- The number of iterations granted to a loop over linked cells. -/
def cells : Prog (Store G N) Nat := fun s => .ok (s.brk, s)

@[simp] theorem wp_load_null (post : N → Store G N → Prop) (s : Store G N) :
    wp (load none) post s ↔ False := Iff.rfl

@[simp] theorem wp_load (a : Nat) (post : N → Store G N → Prop) (s : Store G N) :
    wp (load (some a)) post s ↔ ∃ n, s.cell a = some n ∧ post n s := by
  simp only [wp, load, StateT.run]
  cases s.cell a <;> simp

@[simp] theorem wp_assign_null (f : N → N) (post : Unit → Store G N → Prop) (s : Store G N) :
    wp (assign none f) post s ↔ False := Iff.rfl

@[simp] theorem wp_assign (a : Nat) (f : N → N) (post : Unit → Store G N → Prop) (s : Store G N) :
    wp (assign (some a) f) post s ↔ ∃ n, s.cell a = some n ∧ post () (s.put a (f n)) := by
  simp only [wp, assign, StateT.run]
  cases s.cell a <;> simp

@[simp] theorem wp_malloc (n : N) (post : Ptr → Store G N → Prop) (s : Store G N) :
    wp (malloc n) post s ↔ post (some s.brk) { s.put s.brk n with brk := s.brk + 1 } := Iff.rfl

@[simp] theorem wp_free (a : Nat) (post : Unit → Store G N → Prop) (s : Store G N) :
    wp (free (some a)) post s ↔
      (∃ n, s.cell a = some n) ∧ post () { s with cell := Function.update s.cell a none } := by
  simp only [wp, free, StateT.run]
  cases s.cell a <;> simp

@[simp] theorem wp_readGlob (post : G → Store G N → Prop) (s : Store G N) :
    wp readGlob post s ↔ post s.glob s := Iff.rfl

@[simp] theorem wp_writeGlob (f : G → G) (post : Unit → Store G N → Prop) (s : Store G N) :
    wp (writeGlob f) post s ↔ post () { s with glob := f s.glob } := Iff.rfl

@[simp] theorem wp_cells (post : Nat → Store G N → Prop) (s : Store G N) :
    wp cells post s ↔ post s.brk s := Iff.rfl

variable {α β : Type}

/-- `for (p = first; p; p = step(p))`, with what `body` returns for each cell. -/
def forEach (step : Ptr → Prog (Store G N) Ptr) (body : Nat → Prog (Store G N) β) :
    Nat → Ptr → Prog (Store G N) (List β)
  | 0, _ => fault .stuck
  | _ + 1, none => pure []
  | fuel + 1, some a => do
      let item ← body a
      let rest ← forEach step body fuel (← step (some a))
      pure (item :: rest)

/-- A loop over cells each of which leads to the next, with a body that only reads. -/
theorem forEach_spec (step : Ptr → Prog (Store G N) Ptr) (body : Nat → Prog (Store G N) β)
    (addr : α → Nat) (item : α → β) (s : Store G N) (xs : List α) (fuel : Nat)
    (enough : xs.length < fuel)
    (reads : ∀ a ∈ xs, wp (body (addr a)) (fun b s' => s' = s ∧ b = item a) s)
    (leads : ∀ before a after, xs = before ++ a :: after →
      wp (step (some (addr a))) (fun q s' => s' = s ∧ q = after.head?.map addr) s) :
    wp (forEach step body fuel (xs.head?.map addr)) (fun items s' =>
      s' = s ∧ items = xs.map item) s := by
  induction xs generalizing fuel with
  | nil =>
      obtain _ | fuel := fuel
      · omega
      exact ⟨rfl, rfl⟩
  | cons a xs ih =>
      obtain _ | fuel := fuel
      · omega
      rw [List.length_cons] at enough
      rw [List.head?_cons, Option.map_some, forEach, wp_bind]
      refine wp_mono _ _ _ s (reads a List.mem_cons_self) ?_
      intro b s₁ read
      obtain ⟨kept, here⟩ := read
      subst kept here
      rw [wp_bind]
      refine wp_mono _ _ _ s₁ (leads [] a xs rfl) ?_
      intro q s₂ next
      obtain ⟨kept, onward⟩ := next
      subst kept onward
      rw [wp_bind]
      refine wp_mono _ _ _ s₂ (ih fuel (by omega) ?_ ?_) ?_
      · intro c inside
        exact reads c (List.mem_cons_of_mem a inside)
      · intro before c after split
        exact leads (a :: before) c after (by rw [split]; rfl)
      · intro items s₃ rest
        obtain ⟨kept, others⟩ := rest
        subst kept others
        exact ⟨rfl, rfl⟩

end DataStructure.Heap
