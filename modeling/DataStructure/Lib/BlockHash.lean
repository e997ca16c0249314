import Mathlib

/-! Hash functions that compress a message block by block.

`absorb` compresses every whole block of a stream and keeps the elements behind them.
A context that holds the chaining value and those elements can continue with any later
part of the stream, so the cut points do not matter. -/

namespace DataStructure

structure BlockHash (σ β : Type) where
  size : Nat
  positive : 0 < size
  compress : σ → List β → σ

namespace BlockHash

variable {σ β : Type} (H : BlockHash σ β)

def absorb (chain : σ) (xs : List β) : σ × List β :=
  if _ : H.size ≤ xs.length then
    absorb (H.compress chain (xs.take H.size)) (xs.drop H.size)
  else
    (chain, xs)
termination_by xs.length
decreasing_by
  have progress := H.positive
  rw [List.length_drop]
  omega

theorem absorb_short (chain : σ) (xs : List β) (short : xs.length < H.size) :
    H.absorb chain xs = (chain, xs) := by
  rw [absorb, dif_neg (by omega)]

theorem absorb_step (chain : σ) (xs : List β) (full : H.size ≤ xs.length) :
    H.absorb chain xs = H.absorb (H.compress chain (xs.take H.size)) (xs.drop H.size) := by
  rw [absorb, dif_pos full]

theorem absorb_block (chain : σ) (block : List β) (full : block.length = H.size) :
    H.absorb chain block = (H.compress chain block, []) := by
  have progress := H.positive
  rw [absorb_step H chain block full.ge, List.take_of_length_le full.le,
    List.drop_of_length_le full.le, absorb_short H _ [] progress]

theorem absorb_remainder (chain : σ) (xs : List β) :
    (H.absorb chain xs).2.length = xs.length % H.size := by
  induction chain, xs using absorb.induct H with
  | case1 chain xs full ih =>
      rw [absorb_step H chain xs full, ih, List.length_drop]
      exact (Nat.mod_eq_sub_mod full).symm
  | case2 chain xs short =>
      rw [absorb_short H chain xs (by omega), Nat.mod_eq_of_lt (by omega)]

/-- Absorbing in two parts: what the first leaves is put in front of the second. -/
theorem absorb_append (chain : σ) (xs ys : List β) :
    H.absorb chain (xs ++ ys) =
      H.absorb (H.absorb chain xs).1 ((H.absorb chain xs).2 ++ ys) := by
  induction chain, xs using absorb.induct H with
  | case1 chain xs full ih =>
      have longer : H.size ≤ (xs ++ ys).length := by
        rw [List.length_append]
        omega
      rw [absorb_step H chain (xs ++ ys) longer, List.take_append_of_le_length full,
        List.drop_append_of_le_length full, absorb_step H chain xs full, ih]
  | case2 chain xs short =>
      rw [absorb_short H chain xs (by omega)]

theorem absorb_append_block (chain : σ) (xs ys : List β)
    (full : xs.length = H.size) :
    H.absorb chain (xs ++ ys) = H.absorb (H.compress chain xs) ys := by
  rw [absorb_append, absorb_block H chain xs full]
  rfl

end BlockHash

end DataStructure
