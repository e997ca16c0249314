import Mathlib

/-! Channels as windows of streams.

A channel through which the stream `f 0, f 1, ..` passes holds the values that were sent and
not received yet. -/

namespace DataStructure.Channel

variable {α : Type} (f : Nat → α)

def window (taken sent : Nat) : List α := (List.range' taken (sent - taken)).map f

@[simp] theorem window_length (taken sent : Nat) : (window f taken sent).length = sent - taken := by
  simp [window]

theorem window_send {taken sent : Nat} (order : taken ≤ sent) :
    window f taken sent ++ [f sent] = window f taken (sent + 1) := by
  have last : taken + (sent - taken) = sent := by omega
  rw [window, window, show sent + 1 - taken = sent - taken + 1 by omega, List.range'_concat,
    List.map_append]
  simp [last]

theorem window_take {taken sent : Nat} (order : taken < sent) :
    window f taken sent = f taken :: window f (taken + 1) sent := by
  rw [window, window, show sent - taken = sent - (taken + 1) + 1 by omega, List.range'_succ]
  rfl

theorem window_cons {taken sent : Nat} {v : α} {rest : List α}
    (holds : window f taken sent = v :: rest) :
    taken < sent ∧ v = f taken ∧ rest = window f (taken + 1) sent := by
  have order : taken < sent := by
    by_contra reversed
    have empty : window f taken sent = [] := by simp [window, show sent - taken = 0 by omega]
    rw [empty] at holds
    cases holds
  rw [window_take f order] at holds
  cases holds
  exact ⟨order, rfl, rfl⟩

end DataStructure.Channel
