import Mathlib

/-! Reference counts without a lock.

References to an object are in the hands of threads, and one may be in a shared list. A thread that
gives up the last reference finds the count at zero and frees the object in a step of its own; until
then the object is `pending`. -/

namespace DataStructure.Ownership

structure World (τ α : Type) where
  -- none: the object is not allocated
  count : α → Option Nat
  shared : List α
  owned : List (τ × α)
  pending : τ → Option α

variable {τ α : Type} [DecidableEq τ] [DecidableEq α]

def refs (w : World τ α) (a : α) : Nat :=
  (if a ∈ w.shared then 1 else 0) + w.owned.countP (·.2 = a)

/-- What thread `t` can do. -/
inductive Effect (t : τ) (w : World τ α) : World τ α → Prop
  | keep : Effect t w w
  | alloc (a : α) (unused : w.count a = none) :
      Effect t w { w with count := Function.update w.count a (some 1), owned := (t, a) :: w.owned }
  | share (a : α) (mine : (t, a) ∈ w.owned) (sole : refs w a = 1) :
      Effect t w { w with shared := a :: w.shared, owned := w.owned.erase (t, a) }
  | unshare (a : α) (listed : a ∈ w.shared) :
      Effect t w { w with shared := w.shared.erase a, owned := (t, a) :: w.owned }
  | copy (a : α) (seen : a ∈ w.shared ∨ (t, a) ∈ w.owned) :
      Effect t w { w with
        count := Function.update w.count a (some (refs w a + 1)), owned := (t, a) :: w.owned }
  | drop (a : α) (n : Nat) (mine : (t, a) ∈ w.owned) (idle : w.pending t = none)
      (last : refs w a = n + 1) :
      Effect t w { w with
        count := Function.update w.count a (some n), owned := w.owned.erase (t, a),
        pending := Function.update w.pending t (if n = 0 then some a else none) }
  | free (a : α) (mine : w.pending t = some a) :
      Effect t w { w with
        count := Function.update w.count a none, pending := Function.update w.pending t none }

structure Sound (w : World τ α) : Prop where
  distinct : w.shared.Nodup
  counted : ∀ a, 0 < refs w a → w.count a = some (refs w a)
  pending : ∀ t a, w.pending t = some a → refs w a = 0 ∧ w.count a = some 0
  unique : ∀ t u a, w.pending t = some a → w.pending u = some a → t = u
  -- an object without references is freed, or is about to be
  freed : ∀ a, refs w a = 0 → w.count a = none ∨ ∃ t, w.pending t = some a

section Refs

variable (w : World τ α)

omit [DecidableEq τ] in
theorem refs_pos_of_owned {t : τ} {a : α} (mine : (t, a) ∈ w.owned) : 0 < refs w a := by
  have some : 0 < w.owned.countP (·.2 = a) := List.countP_pos_iff.2 ⟨(t, a), mine, by simp⟩
  rw [refs]
  omega

omit [DecidableEq τ] in
theorem refs_pos_of_shared {a : α} (listed : a ∈ w.shared) : 0 < refs w a := by
  rw [refs, if_pos listed]
  omega

omit [DecidableEq τ] in
theorem countP_cons_owned (t : τ) (a b : α) :
    ((t, a) :: w.owned).countP (·.2 = b) = w.owned.countP (·.2 = b) + if a = b then 1 else 0 := by
  simp [List.countP_cons]

theorem countP_erase_owned {t : τ} {a : α} (mine : (t, a) ∈ w.owned) (b : α) :
    (w.owned.erase (t, a)).countP (·.2 = b) + (if a = b then 1 else 0) = w.owned.countP (·.2 = b) := by
  rw [(List.perm_cons_erase mine).countP_eq (·.2 = b), List.countP_cons]
  simp

omit [DecidableEq τ] in
theorem refs_cons (count : α → Option Nat) (t : τ) (a b : α) :
    refs { w with count, owned := (t, a) :: w.owned } b = refs w b + if a = b then 1 else 0 := by
  simp only [refs, countP_cons_owned]
  omega

theorem refs_erase_self (count : α → Option Nat) (pending : τ → Option α) {t : τ} {a : α}
    (mine : (t, a) ∈ w.owned) :
    refs { w with count, pending, owned := w.owned.erase (t, a) } a + 1 = refs w a := by
  have fewer := countP_erase_owned w mine a
  rw [if_pos rfl] at fewer
  simp only [refs]
  omega

theorem refs_erase_ne (count : α → Option Nat) (pending : τ → Option α) {t : τ} {a b : α}
    (mine : (t, a) ∈ w.owned) (other : b ≠ a) :
    refs { w with count, pending, owned := w.owned.erase (t, a) } b = refs w b := by
  have fewer := countP_erase_owned w mine b
  rw [if_neg (Ne.symm other)] at fewer
  simp only [refs]
  omega

omit [DecidableEq τ] in
theorem unshared_of_sole {t : τ} {a : α} (mine : (t, a) ∈ w.owned) (sole : refs w a = 1) :
    a ∉ w.shared := by
  intro listed
  have some : 0 < w.owned.countP (·.2 = a) := List.countP_pos_iff.2 ⟨(t, a), mine, by simp⟩
  rw [refs, if_pos listed] at sole
  omega

theorem refs_share {t : τ} {a : α} (mine : (t, a) ∈ w.owned) (sole : refs w a = 1) (b : α) :
    refs { w with shared := a :: w.shared, owned := w.owned.erase (t, a) } b = refs w b := by
  have fewer := countP_erase_owned w mine b
  have apart := unshared_of_sole w mine sole
  simp only [refs, List.mem_cons]
  by_cases self : b = a
  · subst self
    rw [if_pos rfl] at fewer
    rw [if_pos (.inl rfl), if_neg apart]
    omega
  · rw [if_neg (Ne.symm self)] at fewer
    simp only [self, false_or]
    omega

omit [DecidableEq τ] in
theorem refs_unshare (distinct : w.shared.Nodup) {a : α} (listed : a ∈ w.shared) (t : τ) (b : α) :
    refs { w with shared := w.shared.erase a, owned := (t, a) :: w.owned } b = refs w b := by
  simp only [refs, countP_cons_owned, distinct.mem_erase_iff]
  by_cases self : b = a
  · subst self
    rw [if_neg (fun both => both.1 rfl), if_pos rfl, if_pos listed]
    omega
  · simp only [self, ne_eq, not_false_eq_true, true_and, Ne.symm self, if_false, Nat.add_zero]

theorem two_le_refs {t u : τ} (other : t ≠ u) {a : α} (mine : (t, a) ∈ w.owned)
    (theirs : (u, a) ∈ w.owned) : 2 ≤ refs w a := by
  have fewer := countP_erase_owned w mine a
  have kept : (u, a) ∈ w.owned.erase (t, a) := by
    rw [List.mem_erase_of_ne (by simp [Ne.symm other])]
    exact theirs
  have some : 0 < (w.owned.erase (t, a)).countP (·.2 = a) := List.countP_pos_iff.2 ⟨(u, a), kept, by simp⟩
  rw [if_pos rfl] at fewer
  rw [refs]
  omega

end Refs

section Sound

variable {w : World τ α} (sound : Sound w) (t : τ)
include sound

omit [DecidableEq τ] in
theorem Sound.of_refs {shared : List α} {owned : List (τ × α)} (distinct : shared.Nodup)
    (same : ∀ b, refs { w with shared, owned } b = refs w b) : Sound { w with shared, owned } where
  distinct := distinct
  counted b some := by
    rw [same] at some ⊢
    exact sound.counted b some
  pending u b waits := by
    rw [same]
    exact sound.pending u b waits
  unique := sound.unique
  freed b none := sound.freed b (same b ▸ none)

omit [DecidableEq τ] in
theorem sound_alloc {a : α} (unused : w.count a = none) :
    Sound { w with count := Function.update w.count a (some 1), owned := (t, a) :: w.owned } := by
  have zero : refs w a = 0 := by
    by_contra some
    have counted := sound.counted a (Nat.pos_of_ne_zero some)
    rw [unused] at counted
    cases counted
  refine ⟨sound.distinct, ?_, ?_, sound.unique, ?_⟩
  · intro b some
    rw [refs_cons] at some ⊢
    by_cases self : b = a
    · subst self
      rw [zero, if_pos rfl]
      exact Function.update_self ..
    · rw [if_neg (Ne.symm self)] at some ⊢
      exact (Function.update_of_ne self ..).trans (sound.counted b some)
  · intro u b waits
    obtain ⟨none, kept⟩ := sound.pending u b waits
    have other : b ≠ a := by
      intro same
      rw [same, unused] at kept
      cases kept
    rw [refs_cons, if_neg (Ne.symm other)]
    exact ⟨none, (Function.update_of_ne other ..).trans kept⟩
  · intro b none
    rw [refs_cons] at none
    have other : b ≠ a := by
      intro same
      rw [if_pos same.symm] at none
      omega
    rw [if_neg (Ne.symm other)] at none
    dsimp only
    rw [Function.update_of_ne other]
    exact sound.freed b none

omit [DecidableEq τ] in
theorem sound_copy {a : α} (seen : a ∈ w.shared ∨ (t, a) ∈ w.owned) :
    Sound { w with
      count := Function.update w.count a (some (refs w a + 1)), owned := (t, a) :: w.owned } := by
  have some : 0 < refs w a := by
    rcases seen with listed | mine
    · exact refs_pos_of_shared w listed
    · exact refs_pos_of_owned w mine
  refine ⟨sound.distinct, ?_, ?_, sound.unique, ?_⟩
  · intro b counted
    rw [refs_cons] at counted ⊢
    by_cases self : b = a
    · subst self
      rw [if_pos rfl]
      exact Function.update_self ..
    · rw [if_neg (Ne.symm self)] at counted ⊢
      exact (Function.update_of_ne self ..).trans (sound.counted b counted)
  · intro u b waits
    obtain ⟨none, kept⟩ := sound.pending u b waits
    have other : b ≠ a := by
      intro same
      rw [same] at none
      omega
    rw [refs_cons, if_neg (Ne.symm other)]
    exact ⟨none, (Function.update_of_ne other ..).trans kept⟩
  · intro b none
    rw [refs_cons] at none
    have other : b ≠ a := by
      intro same
      rw [if_pos same.symm] at none
      omega
    rw [if_neg (Ne.symm other)] at none
    dsimp only
    rw [Function.update_of_ne other]
    exact sound.freed b none

theorem sound_drop {a : α} {n : Nat} (mine : (t, a) ∈ w.owned) (idle : w.pending t = none)
    (last : refs w a = n + 1) :
    Sound { w with
      count := Function.update w.count a (some n), owned := w.owned.erase (t, a),
      pending := Function.update w.pending t (if n = 0 then some a else none) } := by
  have here := refs_erase_self w (Function.update w.count a (some n))
    (Function.update w.pending t (if n = 0 then some a else none)) mine
  rw [last] at here
  have others : ∀ b ≠ a, _ := fun b => refs_erase_ne w (Function.update w.count a (some n))
    (Function.update w.pending t (if n = 0 then some a else none)) mine
  have apart : ∀ u b, w.pending u = some b → b ≠ a := by
    intro u b waits same
    have none := (sound.pending u b waits).1
    rw [same] at none
    omega
  have known : ∀ u b, Function.update w.pending t (if n = 0 then some a else none) u = some b →
      (u = t ∧ n = 0 ∧ b = a) ∨ (u ≠ t ∧ w.pending u = some b) := by
    intro u b waits
    by_cases self : u = t
    · subst self
      rw [Function.update_self] at waits
      split at waits
      · next zero => exact .inl ⟨rfl, zero, (Option.some.inj waits).symm⟩
      · cases waits
    · rw [Function.update_of_ne self] at waits
      exact .inr ⟨self, waits⟩
  refine ⟨sound.distinct, ?_, ?_, ?_, ?_⟩
  · intro b counted
    by_cases self : b = a
    · subst self
      refine (Function.update_self ..).trans ?_
      congr 1
      omega
    · rw [others b self] at counted ⊢
      exact (Function.update_of_ne self ..).trans (sound.counted b counted)
  · intro u b waits
    rcases known u b waits with ⟨-, zero, rfl⟩ | ⟨-, waits⟩
    · subst zero
      exact ⟨by omega, Function.update_self ..⟩
    · have other := apart u b waits
      obtain ⟨none, kept⟩ := sound.pending u b waits
      exact ⟨(others b other).trans none, (Function.update_of_ne other ..).trans kept⟩
  · intro u v b first second
    rcases known u b first with ⟨rfl, -, rfl⟩ | ⟨-, waits⟩
    · rcases known v b second with ⟨rfl, -, -⟩ | ⟨-, waits⟩
      · rfl
      · exact absurd rfl (apart v b waits)
    · rcases known v b second with ⟨-, -, rfl⟩ | ⟨-, also⟩
      · exact absurd rfl (apart u b waits)
      · exact sound.unique u v b waits also
  · intro b none
    by_cases self : b = a
    · subst self
      obtain rfl : n = 0 := by omega
      exact .inr ⟨t, Function.update_self ..⟩
    · rw [others b self] at none
      dsimp only
      rw [Function.update_of_ne self]
      rcases sound.freed b none with gone | ⟨u, waits⟩
      · exact .inl gone
      · have busy : u ≠ t := by
          intro same
          rw [same, idle] at waits
          cases waits
        exact .inr ⟨u, by rw [Function.update_of_ne busy]; exact waits⟩

theorem sound_free {a : α} (mine : w.pending t = some a) :
    Sound { w with
      count := Function.update w.count a none, pending := Function.update w.pending t none } := by
  have zero := (sound.pending t a mine).1
  have known : ∀ u b, Function.update w.pending t none u = some b → u ≠ t ∧ w.pending u = some b := by
    intro u b waits
    by_cases self : u = t
    · subst self
      rw [Function.update_self] at waits
      cases waits
    · rw [Function.update_of_ne self] at waits
      exact ⟨self, waits⟩
  refine ⟨sound.distinct, ?_, ?_, ?_, ?_⟩
  · intro b some
    have other : b ≠ a := by
      intro same
      rw [same] at some
      change 0 < refs w a at some
      omega
    exact (Function.update_of_ne other ..).trans (sound.counted b some)
  · intro u b waits
    obtain ⟨busy, waits⟩ := known u b waits
    obtain ⟨none, kept⟩ := sound.pending u b waits
    have other : b ≠ a := by
      intro same
      exact busy (sound.unique u t a (same ▸ waits) mine)
    exact ⟨none, (Function.update_of_ne other ..).trans kept⟩
  · intro u v b first second
    exact sound.unique u v b (known u b first).2 (known v b second).2
  · intro b none
    by_cases self : b = a
    · subst self
      exact .inl (Function.update_self ..)
    · dsimp only
      rw [Function.update_of_ne self]
      rcases sound.freed b none with gone | ⟨u, waits⟩
      · exact .inl gone
      · have busy : u ≠ t := by
          intro same
          rw [same, mine] at waits
          exact self (Option.some.inj waits).symm
        exact .inr ⟨u, by rw [Function.update_of_ne busy]; exact waits⟩

end Sound

theorem Effect.sound {t : τ} {w w' : World τ α} (effect : Effect t w w') (sound : Sound w) : Sound w' := by
  cases effect with
  | keep => exact sound
  | alloc a unused => exact sound_alloc sound t unused
  | share a mine sole =>
      have distinct : (a :: w.shared).Nodup :=
        List.nodup_cons.2 ⟨unshared_of_sole w mine sole, sound.distinct⟩
      exact sound.of_refs distinct (refs_share w mine sole)
  | unshare a listed =>
      exact sound.of_refs (sound.distinct.erase a) (refs_unshare w sound.distinct listed t)
  | copy a seen => exact sound_copy sound t seen
  | drop a n mine idle last => exact sound_drop sound t mine idle last
  | free a mine => exact sound_free sound t mine

structure Relies (t : τ) (w w' : World τ α) : Prop where
  owned : ∀ a, (t, a) ∈ w.owned → (t, a) ∈ w'.owned
  sole : ∀ a, (t, a) ∈ w.owned → refs w a = 1 → refs w' a = 1
  pending : w'.pending t = w.pending t

theorem Effect.relies {t u : τ} (other : t ≠ u) {w w' : World τ α} (effect : Effect u w w')
    (sound : Sound w) : Relies t w w' := by
  have mine_ne : ∀ a b : α, (t, a) ≠ (u, b) := fun a b same => other (Prod.mk.inj same).1
  cases effect with
  | keep => exact ⟨fun _ mine => mine, fun _ _ sole => sole, rfl⟩
  | alloc a unused =>
      refine ⟨fun b mine => List.mem_cons_of_mem _ mine, ?_, rfl⟩
      intro b mine sole
      have different : a ≠ b := by
        intro same
        have counted := sound.counted b (by omega)
        rw [← same, unused] at counted
        cases counted
      rw [refs_cons, if_neg different]
      exact sole
  | share a mine sole =>
      refine ⟨fun b ours => (List.mem_erase_of_ne (mine_ne b a)).2 ours, ?_, rfl⟩
      intro b _ alone
      rw [refs_share w mine sole]
      exact alone
  | unshare a listed =>
      refine ⟨fun b ours => List.mem_cons_of_mem _ ours, ?_, rfl⟩
      intro b _ alone
      rw [refs_unshare w sound.distinct listed]
      exact alone
  | copy a seen =>
      refine ⟨fun b ours => List.mem_cons_of_mem _ ours, ?_, rfl⟩
      intro b ours alone
      have different : a ≠ b := by
        intro same
        subst same
        rcases seen with listed | theirs
        · exact unshared_of_sole w ours alone listed
        · have two := two_le_refs w other ours theirs
          omega
      rw [refs_cons, if_neg different]
      exact alone
  | drop a n mine idle last =>
      refine ⟨fun b ours => (List.mem_erase_of_ne (mine_ne b a)).2 ours, ?_, Function.update_of_ne other ..⟩
      intro b ours alone
      have different : a ≠ b := by
        intro same
        subst same
        have two := two_le_refs w other ours mine
        omega
      exact (refs_erase_ne w _ _ mine (Ne.symm different)).trans alone
  | free a mine => exact ⟨fun _ ours => ours, fun _ _ alone => alone, Function.update_of_ne other ..⟩

end DataStructure.Ownership
