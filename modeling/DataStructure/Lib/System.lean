import Mathlib

/-! Labelled transition systems that compute.

An event fixes which thread moves and every choice its move leaves open. In a state an
event leads to the next state, or its thread has to wait, or the move is an access that
the program must not make. -/

namespace DataStructure

inductive Outcome (σ : Type) where
  | waits
  | fault
  | next (s : σ)
  deriving DecidableEq, Repr

structure System (σ ε : Type) where
  initial : σ → Prop
  step : σ → ε → Outcome σ

namespace System

variable {σ ε : Type} (S : System σ ε)

def run (s : σ) : List ε → Option σ
  | [] => some s
  | e :: es =>
      match S.step s e with
      | .next t => run t es
      | _ => none

def Leads (s t : σ) : Prop := ∃ es, S.run s es = some t

def Reachable (t : σ) : Prop := ∃ s, S.initial s ∧ S.Leads s t

theorem run_cons_some {s t : σ} {e : ε} {es : List ε} (ran : S.run s (e :: es) = some t) :
    ∃ middle, S.step s e = .next middle ∧ S.run middle es = some t := by
  rw [run] at ran
  split at ran
  · next middle moved => exact ⟨middle, moved, ran⟩
  · cases ran

theorem run_append (s : σ) (first second : List ε) :
    S.run s (first ++ second) = (S.run s first).bind fun t => S.run t second := by
  induction first generalizing s with
  | nil => rfl
  | cons e es ih =>
      rw [List.cons_append, run, run]
      split
      · exact ih _
      · rfl

theorem leads_refl (s : σ) : S.Leads s s := ⟨[], rfl⟩

theorem leads_trans {s t u : σ} (first : S.Leads s t) (second : S.Leads t u) : S.Leads s u := by
  obtain ⟨es, ran⟩ := first
  obtain ⟨fs, ran'⟩ := second
  exact ⟨es ++ fs, by rw [run_append, ran]; exact ran'⟩

theorem leads_step {s t : σ} {e : ε} (moved : S.step s e = .next t) : S.Leads s t :=
  ⟨[e], by rw [run, moved]; rfl⟩

/-- What one step keeps, every interleaving keeps. -/
theorem leads_invariant (I : σ → Prop)
    (step : ∀ s e t, I s → S.step s e = .next t → I t) {s t : σ} (start : I s)
    (leads : S.Leads s t) : I t := by
  obtain ⟨es, ran⟩ := leads
  induction es generalizing s with
  | nil =>
      cases ran
      exact start
  | cons e es ih =>
      obtain ⟨middle, moved, rest⟩ := S.run_cons_some ran
      exact ih (step s e middle start moved) rest

/-- Induction over an interleaving from its start, with the events so far. -/
theorem run_induction (P : List ε → σ → Prop) (s : σ) (start : P [] s)
    (step : ∀ es t e u, P es t → S.step t e = .next u → P (es ++ [e]) u) (es : List ε) (t : σ)
    (ran : S.run s es = some t) : P es t := by
  induction es using List.reverseRecOn generalizing t with
  | nil =>
      cases ran
      exact start
  | append_singleton es e ih =>
      rw [run_append, Option.bind_eq_some_iff] at ran
      obtain ⟨middle, first, last⟩ := ran
      obtain ⟨u, moved, done⟩ := S.run_cons_some last
      cases done
      exact step es middle e t (ih middle first) moved

theorem invariant (I : σ → Prop) (start : ∀ s, S.initial s → I s)
    (step : ∀ s e t, I s → S.step s e = .next t → I t) {t : σ} (reached : S.Reachable t) :
    I t := by
  obtain ⟨s, initial, leads⟩ := reached
  exact S.leads_invariant I step (start s initial) leads

end System

end DataStructure
