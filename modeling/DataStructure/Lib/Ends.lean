import DataStructure.Lib.Program

/-! Programs whose loops are given fuel.

`Ends program post s` says that the loops end: with enough fuel, and with any more of it, the program
returns the same value in the same state, and they satisfy `post`. -/

namespace DataStructure.Program

variable {σ α β : Type} {s : σ}

def Ends (program : Nat → Prog σ α) (post : α → σ → Prop) (s : σ) : Prop :=
  ∃ a t, post a t ∧ ∃ enough, ∀ fuel ≥ enough, (program fuel).run s = .ok (a, t)

theorem ends_pure {a : α} {post : α → σ → Prop} (holds : post a s) :
    Ends (fun _ => (pure a : Prog σ α)) post s :=
  ⟨a, s, holds, 0, fun _ _ => rfl⟩

theorem ends_mono {program : Nat → Prog σ α} {post post' : α → σ → Prop}
    (weaker : ∀ a t, post a t → post' a t) (holds : Ends program post s) : Ends program post' s := by
  obtain ⟨a, t, good, ran⟩ := holds
  exact ⟨a, t, weaker a t good, ran⟩

theorem ends_bind {program : Nat → Prog σ α} {next : Nat → α → Prog σ β} {post : β → σ → Prop}
    (holds : Ends program (fun a => Ends (fun fuel => next fuel a) post) s) :
    Ends (fun fuel => program fuel >>= next fuel) post s := by
  obtain ⟨a, t, ⟨b, u, good, n, ran'⟩, m, ran⟩ := holds
  refine ⟨b, u, good, max m n, ?_⟩
  intro fuel enough
  rw [StateT.run_bind, ran fuel (le_of_max_le_left enough)]
  exact ran' fuel (le_of_max_le_right enough)

theorem ends_call {program : Prog σ α} {next : Nat → α → Prog σ β} {post : β → σ → Prop} {a : α} {t : σ}
    (ran : program.run s = .ok (a, t)) (holds : Ends (fun fuel => next fuel a) post t) :
    Ends (fun fuel => program >>= next fuel) post s :=
  ends_bind ⟨a, t, holds, 0, fun _ _ => ran⟩

theorem ends_unroll {loop : Nat → Prog σ α} {post : α → σ → Prop}
    (unrolled : Ends (fun fuel => loop (fuel + 1)) post s) : Ends loop post s := by
  obtain ⟨a, t, good, n, ran⟩ := unrolled
  refine ⟨a, t, good, n + 1, ?_⟩
  intro fuel enough
  obtain ⟨k, rfl⟩ : ∃ k, fuel = k + 1 := ⟨fuel - 1, by omega⟩
  exact ran k (by omega)

end DataStructure.Program
