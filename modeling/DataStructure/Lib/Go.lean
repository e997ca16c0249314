import Mathlib

/-! Go programs on slices, with run-time panics and sends on a channel. -/

namespace DataStructure.Go

variable {α β γ : Type}

/-- An index out of range, and a loop that used up the iterations it was given. -/
inductive Panic where
  | bounds
  | stuck
  deriving DecidableEq, Repr

/-- The elements of a slice, and behind them those of its array up to its capacity. -/
structure Slice (α : Type) where
  data : List α
  spare : List α
  deriving DecidableEq, Repr

/-- What a run did so far: the slices it sent, and whether it took elements of a slice
that lie beyond its length. -/
structure World (α : Type) where
  sent : List (List α)
  overread : Bool
  deriving DecidableEq, Repr

def World.deliver (w : World α) (messages : List (List α)) : World α :=
  { w with sent := w.sent ++ messages }

@[simp] theorem World.deliver_nil (w : World α) : w.deliver [] = w := by
  simp [World.deliver]

@[simp] theorem World.deliver_deliver (w : World α) (earlier later : List (List α)) :
    (w.deliver earlier).deliver later = w.deliver (earlier ++ later) := by
  simp [World.deliver]

abbrev Action (α β : Type) := ExceptT Panic (StateM (World α)) β

def exec (program : Action α β) (w : World α) : Except Panic β × World α := program.run w

def send (message : Slice α) : Action α Unit := modify fun w => w.deliver [message.data]

namespace Slice

def len (s : Slice α) : Int := s.data.length

def cap (s : Slice α) : Int := s.data.length + s.spare.length

/-- `s[lo:hi]`; only the capacity bounds `hi`. -/
def sub (s : Slice α) (lo hi : Int) : Action α (Slice α) :=
  if 0 ≤ lo ∧ lo ≤ hi ∧ hi ≤ s.cap then do
    modify fun w => { w with overread := w.overread || decide (s.len < hi) }
    pure ⟨((s.data ++ s.spare).drop lo.toNat).take (hi - lo).toNat, (s.data ++ s.spare).drop hi.toNat⟩
  else throw .bounds

def after (s : Slice α) (lo : Int) : Action α (Slice α) := s.sub lo s.len

/-- `append(s, xs...)`; a new array has `fresh` behind the elements. -/
def append (s : Slice α) (fresh xs : List α) : Slice α :=
  if xs.length ≤ s.spare.length then ⟨s.data ++ xs, s.spare.drop xs.length⟩
  else ⟨s.data ++ xs, fresh⟩

@[simp] theorem append_data (s : Slice α) (fresh xs : List α) :
    (s.append fresh xs).data = s.data ++ xs := by
  unfold append
  split <;> rfl

end Slice

@[simp] theorem exec_pure (b : β) (w : World α) : exec (pure b) w = (.ok b, w) := rfl

theorem exec_bind (program : Action α β) (next : β → Action α γ) (w : World α) :
    exec (program >>= next) w = match exec program w with
      | (.ok b, w') => exec (next b) w'
      | (.error e, w') => (.error e, w') := by
  simp only [exec, ExceptT.run, bind, ExceptT.bind, ExceptT.mk, StateT.bind, ExceptT.bindCont]
  rcases program w with ⟨_ | _, _⟩ <;> rfl

theorem exec_bind_ok (program : Action α β) (next : β → Action α γ) (w w' : World α) (b : β)
    (ran : exec program w = (.ok b, w')) : exec (program >>= next) w = exec (next b) w' := by
  rw [exec_bind, ran]

theorem exec_bind_error (program : Action α β) (next : β → Action α γ) (w w' : World α) (e : Panic)
    (ran : exec program w = (.error e, w')) : exec (program >>= next) w = (.error e, w') := by
  rw [exec_bind, ran]

theorem exec_send (message : Slice α) (w : World α) :
    exec (send message) w = (.ok (), w.deliver [message.data]) := rfl

theorem window_append (xs ys : List α) (lo n : Nat) (inside : lo + n ≤ xs.length) :
    ((xs ++ ys).drop lo).take n = (xs.drop lo).take n := by
  rw [List.drop_append_of_le_length (by omega), List.take_append_of_le_length]
  rw [List.length_drop]
  omega

theorem exec_sub (s : Slice α) (lo hi : Int) (a n : Nat) (w : World α) (low : lo = a)
    (high : hi = a + n) (inside : a + n ≤ s.data.length) :
    exec (s.sub lo hi) w = (.ok ⟨(s.data.drop a).take n, (s.data ++ s.spare).drop (a + n)⟩, w) := by
  subst low high
  have allowed : (0 : Int) ≤ a ∧ (a : Int) ≤ a + n ∧ (a + n : Int) ≤ s.cap := by
    simp only [Slice.cap]
    omega
  have within : ¬s.len < (a + n : Int) := by
    simp only [Slice.len]
    omega
  have width : ((a + n : Int) - a).toNat = n := by omega
  have last : (a + n : Int).toNat = a + n := by omega
  rw [Slice.sub, if_pos allowed]
  simp only [within, decide_false, Bool.or_false, Int.toNat_natCast, width, last,
    window_append s.data s.spare a n inside]
  rfl

theorem exec_sub_panic (s : Slice α) (lo hi : Int) (w : World α)
    (outside : ¬(0 ≤ lo ∧ lo ≤ hi ∧ hi ≤ s.cap)) :
    exec (s.sub lo hi) w = (.error .bounds, w) := by
  rw [Slice.sub, if_neg outside]
  rfl

/-- A slice expression panics or takes a window of the width it names. -/
theorem exec_sub_cases (s : Slice α) (lo hi : Int) (w : World α) :
    exec (s.sub lo hi) w = (.error .bounds, w) ∨
      ∃ r w', exec (s.sub lo hi) w = (.ok r, w') ∧ (r.data.length : Int) = hi - lo := by
  by_cases allowed : 0 ≤ lo ∧ lo ≤ hi ∧ hi ≤ s.cap
  · right
    rw [Slice.sub, if_pos allowed]
    refine ⟨_, _, rfl, ?_⟩
    simp only [Slice.cap] at allowed
    simp only [List.length_take, List.length_drop, List.length_append]
    omega
  · exact Or.inl (exec_sub_panic s lo hi w allowed)

theorem exec_after_panic (s : Slice α) (lo : Int) (w : World α) (outside : s.len < lo) :
    exec (s.after lo) w = (.error .bounds, w) :=
  exec_sub_panic s lo s.len w (by omega)

theorem exec_after (s : Slice α) (lo : Int) (a : Nat) (w : World α) (low : lo = a)
    (inside : a ≤ s.data.length) :
    ∃ spare, exec (s.after lo) w = (.ok ⟨s.data.drop a, spare⟩, w) := by
  have ran := exec_sub s lo s.len a (s.data.length - a) w low
    (by simp only [Slice.len]; omega) (by omega)
  rw [List.take_of_length_le (by simp)] at ran
  exact ⟨_, ran⟩

end DataStructure.Go
