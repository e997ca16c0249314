import Mathlib

/-! Imperative programs as state transformers that may fault.

A program reads and rewrites an explicit state and either returns a value or
stops at a fault. `wp` is the total-correctness precondition: it holds of a
state exactly when the program, started there, returns and the returned value
and state satisfy the postcondition. -/

namespace DataStructure.Program

/-- The ways a run fails to return: an access through a pointer that points to no
live cell, a loop that used up the iterations it was given, and a call of `exit`. -/
inductive Fault where
  | segv
  | stuck
  | exit
  deriving DecidableEq, Repr

abbrev Prog (σ α : Type) := StateT σ (Except Fault) α

def fault {σ α : Type} (f : Fault) : Prog σ α := fun _ => .error f

def onlyIf {σ : Type} (c : Bool) (program : Prog σ Unit) : Prog σ Unit :=
  if c then program else pure ()

def wp {σ α : Type} (program : Prog σ α) (post : α → σ → Prop) (s : σ) : Prop :=
  match program.run s with
  | .ok (a, s') => post a s'
  | .error _ => False

variable {σ α β : Type}

theorem wp_iff_run (program : Prog σ α) (post : α → σ → Prop) (s : σ) :
    wp program post s ↔ ∃ a s', program.run s = .ok (a, s') ∧ post a s' := by
  unfold wp
  cases program.run s with
  | error f => simp
  | ok result => simp [Prod.ext_iff]

theorem wp_of_run {program : Prog σ α} {post : α → σ → Prop} {s s' : σ} {a : α}
    (ran : program.run s = .ok (a, s')) : wp program post s ↔ post a s' := by
  rw [wp, ran]

theorem wp_mono (program : Prog σ α) (post weaker : α → σ → Prop) (s : σ)
    (holds : wp program post s) (implies : ∀ a s', post a s' → weaker a s') :
    wp program weaker s := by
  rw [wp_iff_run] at holds ⊢
  obtain ⟨a, s', returned, satisfied⟩ := holds
  exact ⟨a, s', returned, implies a s' satisfied⟩

@[simp] theorem wp_pure (a : α) (post : α → σ → Prop) (s : σ) :
    wp (pure a) post s ↔ post a s := Iff.rfl

@[simp] theorem wp_bind (program : Prog σ α) (next : α → Prog σ β) (post : β → σ → Prop) (s : σ) :
    wp (program >>= next) post s ↔ wp program (fun a => wp (next a) post) s := by
  simp only [wp, StateT.run_bind]
  cases program.run s with
  | error f => rfl
  | ok result => rfl

theorem run_bind_ok {program : Prog σ α} {next : α → Prog σ β} {s s' : σ} {b : β}
    (ran : (program >>= next).run s = .ok (b, s')) :
    ∃ a s₁, program.run s = .ok (a, s₁) ∧ (next a).run s₁ = .ok (b, s') := by
  rw [StateT.run_bind] at ran
  cases first : program.run s with
  | error f =>
      rw [first] at ran
      cases ran
  | ok result =>
      rw [first] at ran
      exact ⟨result.1, result.2, rfl, ran⟩

/-- Sequencing: what the first program establishes is what the rest starts from. -/
theorem wp_seq (program : Prog σ α) (next : α → Prog σ β) (middle : α → σ → Prop)
    (post : β → σ → Prop) (s : σ) (first : wp program middle s)
    (rest : ∀ a s', middle a s' → wp (next a) post s') : wp (program >>= next) post s :=
  (wp_bind program next post s).mpr (wp_mono program middle _ s first rest)

/-- A sequence whose rest cannot return does not return. -/
theorem not_wp_seq (program : Prog σ α) (next : α → Prog σ β) (middle : α → σ → Prop)
    (post : β → σ → Prop) (s : σ) (first : wp program middle s)
    (rest : ∀ a s', middle a s' → ¬wp (next a) post s') : ¬wp (program >>= next) post s := by
  intro whole
  obtain ⟨a, s', ran, reached⟩ := (wp_iff_run _ _ _).mp first
  rw [wp_bind, wp_of_run ran] at whole
  exact rest a s' reached whole

@[simp] theorem wp_ite (c : Prop) [Decidable c] (yes no : Prog σ α) (post : α → σ → Prop) (s : σ) :
    wp (if c then yes else no) post s ↔ if c then wp yes post s else wp no post s := by
  split <;> rfl

theorem wp_onlyIf (c : Bool) (program : Prog σ Unit) (post : Unit → σ → Prop) (s : σ) :
    wp (onlyIf c program) post s ↔ if c then wp program post s else post () s :=
  wp_ite (c = true) program (pure ()) post s

@[simp] theorem wp_fault (f : Fault) (post : α → σ → Prop) (s : σ) :
    wp (fault f) post s ↔ False := Iff.rfl

/-- `wp`, but that a fault is no failure where `excused` holds: total correctness for `False`, partial
correctness for `True`. -/
def wpUnless (excused : Prop) (program : Prog σ α) (post : α → σ → Prop) (s : σ) : Prop :=
  match program.run s with
  | .ok (a, s') => post a s'
  | .error _ => excused

section Excused

variable {excused : Prop} {program : Prog σ α} {s : σ}

theorem wpUnless_false (post : α → σ → Prop) : wpUnless False program post s ↔ wp program post s :=
  Iff.rfl

theorem wpUnless_of_wp {post : α → σ → Prop} (holds : wp program post s) :
    wpUnless excused program post s := by
  obtain ⟨a, s', returned, satisfied⟩ := (wp_iff_run _ _ _).mp holds
  rw [wpUnless, returned]
  exact satisfied

theorem wp_and_unless {one two : α → σ → Prop} (first : wp program one s)
    (second : wpUnless excused program two s) : wp program (fun a s' => one a s' ∧ two a s') s := by
  obtain ⟨a, s', returned, holds⟩ := (wp_iff_run _ _ _).mp first
  rw [wpUnless, returned] at second
  rw [wp_of_run returned]
  exact ⟨holds, second⟩

theorem wpUnless_mono {post weaker : α → σ → Prop} (holds : wpUnless excused program post s)
    (implies : ∀ a s', post a s' → weaker a s') : wpUnless excused program weaker s := by
  unfold wpUnless at holds ⊢
  cases ran : program.run s with
  | error f =>
      rw [ran] at holds
      exact holds
  | ok result =>
      rw [ran] at holds
      exact implies _ _ holds

theorem wpUnless_seq {next : α → Prog σ β} {middle : α → σ → Prop} {post : β → σ → Prop}
    (first : wpUnless excused program middle s)
    (rest : ∀ a s', middle a s' → wpUnless excused (next a) post s') :
    wpUnless excused (program >>= next) post s := by
  unfold wpUnless at first ⊢
  rw [StateT.run_bind]
  cases ran : program.run s with
  | error f =>
      rw [ran] at first
      exact first
  | ok result =>
      rw [ran] at first
      exact rest _ _ first

end Excused

section Calls

variable {C R : Type} (exec : C → Prog σ R)

def runCalls : List C → Prog σ Unit
  | [] => pure ()
  | call :: rest => do
      let _ ← exec call
      runCalls rest

theorem wp_runCalls_append (earlier later : List C) (post : Unit → σ → Prop) (s : σ) :
    wp (runCalls exec (earlier ++ later)) post s ↔
      wp (runCalls exec earlier) (fun _ => wp (runCalls exec later) post) s := by
  induction earlier generalizing s with
  | nil => rfl
  | cons call rest ih =>
      simp only [List.cons_append, runCalls, wp_bind]
      rw [funext fun s => propext (ih s)]

variable (Admissible : List C → Prop) (Invariant : List C → σ → Prop)
  (Answer : List C → C → σ → R → σ → Prop) (init : σ)

/-- An invariant of the history: it holds before the first call and every call
that the sequence may make next re-establishes it. -/
theorem wp_runCalls
    (closed : ∀ earlier later, earlier <+: later → Admissible later → Admissible earlier)
    (start : Invariant [] init)
    (step : ∀ earlier call s, Admissible (earlier ++ [call]) → Invariant earlier s →
      wp (exec call) (fun reply s' =>
        Invariant (earlier ++ [call]) s' ∧ Answer earlier call s reply s') s)
    (calls : List C) (admissible : Admissible calls) :
    wp (runCalls exec calls) (fun _ s => Invariant calls s) init := by
  induction calls using List.reverseRecOn with
  | nil => exact start
  | append_singleton earlier call ih =>
      rw [wp_runCalls_append]
      refine wp_mono _ _ _ init (ih (closed _ _ (List.prefix_append _ _) admissible)) ?_
      intro _ s holds
      refine wp_seq _ _ _ _ s (step earlier call s admissible holds) ?_
      rintro reply s' ⟨holds', _⟩
      exact holds'

/-- Every call of an admissible sequence returns, with the invariant and its answer. -/
theorem runCalls_every
    (closed : ∀ earlier later, earlier <+: later → Admissible later → Admissible earlier)
    (start : Invariant [] init)
    (step : ∀ earlier call s, Admissible (earlier ++ [call]) → Invariant earlier s →
      wp (exec call) (fun reply s' =>
        Invariant (earlier ++ [call]) s' ∧ Answer earlier call s reply s') s)
    (earlier rest : List C) (call : C) (admissible : Admissible (earlier ++ call :: rest)) :
    ∃ s reply s', (runCalls exec earlier).run init = .ok ((), s) ∧
      (exec call).run s = .ok (reply, s') ∧
      Invariant (earlier ++ [call]) s' ∧ Answer earlier call s reply s' := by
  have reached : Admissible (earlier ++ [call]) := closed _ _ ⟨rest, by simp⟩ admissible
  have before := wp_runCalls exec Admissible Invariant Answer init closed start step earlier
    (closed _ _ (List.prefix_append _ _) reached)
  obtain ⟨_, s, ran, holds⟩ := (wp_iff_run _ _ _).mp before
  obtain ⟨reply, s', answered, after⟩ := (wp_iff_run _ _ _).mp (step earlier call s reached holds)
  exact ⟨s, reply, s', ran, answered, after⟩

end Calls

end DataStructure.Program
