import DataStructure.Lib.Program

/-! A zeroed block of bytes that is filled from its front through a moving pointer. -/

namespace DataStructure.Buffer

open DataStructure.Program

/-- The block and the offset of the pointer `f` in it. -/
structure Out where
  ret : List UInt8
  f : Nat
  deriving DecidableEq, Repr

/-- `malloc` and `memset` to zero; a negative size is one that is not available. -/
def calloc (size : Int) : Prog Out Unit := fun _ =>
  if size < 0 then .error .exit else .ok ((), ⟨List.replicate size.toNat 0, 0⟩)

def store (c : UInt8) : Prog Out Unit := fun s =>
  if s.f < s.ret.length then .ok ((), { s with ret := s.ret.set s.f c }) else .error .segv

def advance : Prog Out Unit := fun s => .ok ((), { s with f := s.f + 1 })

def emit (c : UInt8) : Prog Out Unit := do
  store c
  advance

def emitAll : List UInt8 → Prog Out Unit
  | [] => pure ()
  | c :: cs => do
      emit c
      emitAll cs

def peek (data : List UInt8) (i : Int) : Prog Out UInt8 := fun s =>
  if i < 0 then .error .segv
  else match data[i.toNat]? with
    | some c => .ok (c, s)
    | none => .error .segv

structure Filled (s : Out) (written : List UInt8) (size : Nat) : Prop where
  content : s.ret = written ++ List.replicate (size - written.length) 0
  pointer : s.f = written.length

theorem Filled.inside {s : Out} {written : List UInt8} {size : Nat} (filled : Filled s written size)
    (room : written.length < size) : s.f < s.ret.length := by
  rw [filled.pointer, filled.content, List.length_append, List.length_replicate]
  omega

theorem wp_calloc (size : Nat) (s : Out) :
    wp (calloc size) (fun _ s' => Filled s' [] size) s := by
  have enough : ¬(size : Int) < 0 := by omega
  simp only [wp, calloc, StateT.run, enough, if_false, Int.toNat_natCast]
  exact ⟨by simp, rfl⟩

theorem wp_store (c : UInt8) (post : Unit → Out → Prop) (s : Out) (inside : s.f < s.ret.length) :
    wp (store c) post s ↔ post () { s with ret := s.ret.set s.f c } := by
  simp only [wp, store, StateT.run, inside, if_true]

theorem wp_emit (c : UInt8) (s : Out) (written : List UInt8) (size : Nat)
    (filled : Filled s written size) (room : written.length < size) :
    wp (emit c) (fun _ s' => Filled s' (written ++ [c]) size) s := by
  obtain ⟨more, left⟩ : ∃ more, size - written.length = more + 1 := ⟨size - written.length - 1, by omega⟩
  have now : size - (written ++ [c]).length = more := by
    rw [List.length_append, List.length_singleton]
    omega
  rw [emit, wp_bind, wp_store c _ s (filled.inside room)]
  refine ⟨?_, ?_⟩
  · change s.ret.set s.f c = _
    rw [filled.content, filled.pointer, List.set_append_right _ _ (le_refl _), Nat.sub_self, left,
      List.replicate_succ, List.set_cons_zero, now, List.append_assoc]
    rfl
  · change s.f + 1 = _
    rw [filled.pointer, List.length_append, List.length_singleton]

theorem wp_store_zero (s : Out) (written : List UInt8) (size : Nat)
    (filled : Filled s written size) (room : written.length < size) :
    wp (store 0) (fun _ s' => Filled s' written size) s := by
  rw [wp_store 0 _ s (filled.inside room)]
  refine ⟨?_, filled.pointer⟩
  change s.ret.set s.f 0 = _
  rw [filled.content, filled.pointer, List.set_append_right _ _ (le_refl _), Nat.sub_self]
  cases size - written.length with
  | zero => rfl
  | succ more => rw [List.replicate_succ, List.set_cons_zero]

theorem wp_peek (data : List UInt8) (i : Int) (a : Nat) (c : UInt8) (s : Out)
    (post : UInt8 → Out → Prop) (index : i = a) (here : data[a]? = some c) :
    wp (peek data i) post s ↔ post c s := by
  have inside : ¬i < 0 := by omega
  have offset : i.toNat = a := by omega
  simp only [wp, peek, StateT.run, inside, if_false, offset, here]

theorem wp_emitAll (cs : List UInt8) (s : Out) (written : List UInt8) (size : Nat)
    (filled : Filled s written size) (room : written.length + cs.length ≤ size) :
    wp (emitAll cs) (fun _ s' => Filled s' (written ++ cs) size) s := by
  induction cs generalizing s written with
  | nil => simpa [emitAll] using filled
  | cons c cs ih =>
      rw [List.length_cons] at room
      refine wp_seq _ _ _ _ s (wp_emit c s written size filled (by omega)) ?_
      intro _ s₁ filled₁
      have rest := ih s₁ (written ++ [c]) filled₁ (by rw [List.length_append, List.length_singleton]; omega)
      rwa [List.append_assoc] at rest

end DataStructure.Buffer
