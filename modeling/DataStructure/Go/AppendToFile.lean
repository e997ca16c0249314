import DataStructure.Lib.FileBytes
import DataStructure.Lib.System

/-! Concurrent `appendToFile` calls of `go/webserver/server.go`.

Each handler opens the file for itself, asks for its end with `Seek` and writes its request's
body there with `WriteAt`, in two steps between which other handlers may run. -/

namespace DataStructure.AppendToFile

open FileBytes

/-- Where the handler of a request is; `n` is what `Seek` returned. -/
inductive Pc where
  | seek
  | writeAt (n : Nat)
  | done
  deriving DecidableEq, Repr

structure State (k : Nat) where
  file : List UInt8
  handler : Fin k → Pc

inductive Event (k : Nat) where
  | seek (i : Fin k)
  | write (i : Fin k)
  deriving DecidableEq

variable {k : Nat} (bodies : Fin k → List UInt8) (initial : List UInt8)

def appendToFile (s : State k) : Event k → Outcome (State k)
  | .seek i =>
      match s.handler i with
      | .seek => .next { s with handler := Function.update s.handler i (.writeAt s.file.length) }
      | _ => .waits
  | .write i =>
      match s.handler i with
      | .writeAt n =>
          .next ⟨writeAt 0 s.file n (bodies i), Function.update s.handler i .done⟩
      | _ => .waits

def server : System (State k) (Event k) where
  initial s := s = ⟨initial, fun _ => .seek⟩
  step := appendToFile bodies

/-- The bodies follow the initial content, each once and in one piece, in some order. -/
def Appended (file : List UInt8) : Prop :=
  ∃ order : List (Fin k), order.Perm (List.finRange k) ∧ file = initial ++ order.flatMap bodies

def Overtaken (es : List (Event k)) (i : Fin k) : Prop :=
  ∃ before after, es = before ++ .seek i :: after ∧ ∃ j, .write j ∈ after ∧ bodies j ≠ []

/-- No handler that has something to write is overtaken before it writes. -/
def Undisturbed (es : List (Event k)) : Prop :=
  ∀ before after i, es = before ++ .write i :: after → bodies i ≠ [] →
    ¬ Overtaken bodies before i

def written (es : List (Event k)) : List (Fin k) :=
  es.filterMap fun
    | .seek _ => none
    | .write i => some i

theorem snoc_eq_append_cons {α : Type} {es before after : List α} {e x : α}
    (split : es ++ [e] = before ++ x :: after) :
    (after = [] ∧ es = before ∧ e = x) ∨ ∃ rest, after = rest ++ [e] ∧ es = before ++ x :: rest := by
  induction after using List.reverseRecOn with
  | nil =>
      obtain ⟨same, last⟩ := List.append_inj' split rfl
      cases last
      exact .inl ⟨rfl, same, rfl⟩
  | append_singleton rest last _ =>
      rw [← List.cons_append, ← List.append_assoc] at split
      obtain ⟨same, final⟩ := List.append_inj' split rfl
      cases final
      exact .inr ⟨rest, rfl, same⟩

theorem overtaken_snoc (es : List (Event k)) (e : Event k) (i : Fin k) :
    Overtaken bodies (es ++ [e]) i ↔
      Overtaken bodies es i ∨ ∃ j, e = .write j ∧ bodies j ≠ [] ∧ .seek i ∈ es := by
  constructor
  · rintro ⟨before, after, split, j, inside, something⟩
    rcases snoc_eq_append_cons split with ⟨rfl, _, _⟩ | ⟨rest, rfl, same⟩
    · cases inside
    · rcases List.mem_append.1 inside with earlier | last
      · exact .inl ⟨before, rest, same, j, earlier, something⟩
      · refine .inr ⟨j, (List.mem_singleton.1 last).symm, something, ?_⟩
        rw [same]
        simp
  · rintro (⟨before, after, same, j, inside, something⟩ | ⟨j, rfl, something, inside⟩)
    · refine ⟨before, after ++ [e], by rw [same]; simp, j, ?_, something⟩
      exact List.mem_append_left _ inside
    · obtain ⟨before, after, same⟩ := List.append_of_mem inside
      exact ⟨before, after ++ [.write j], by rw [same]; simp, j, by simp, something⟩

theorem undisturbed_snoc (es : List (Event k)) (e : Event k) :
    Undisturbed bodies (es ++ [e]) ↔
      Undisturbed bodies es ∧ ∀ i, e = .write i → bodies i ≠ [] → ¬ Overtaken bodies es i := by
  constructor
  · intro calm
    refine ⟨?_, ?_⟩
    · intro before after i same
      exact calm before (after ++ [e]) i (by rw [same]; simp)
    · rintro i rfl
      exact calm es [] i rfl
  · rintro ⟨calm, last⟩ before after i split
    rcases snoc_eq_append_cons split with ⟨_, rfl, rfl⟩ | ⟨rest, _, same⟩
    · exact last i rfl
    · exact calm before rest i same

/-- What an interleaving has done to the file: all appends so far are in one piece, or bytes
are missing for good. -/
structure Trace (es : List (Event k)) (s : State k) : Prop where
  sought : ∀ i, .seek i ∈ es ↔ s.handler i ≠ .seek
  wrote : ∀ i, i ∈ written es ↔ s.handler i = .done
  once : (written es).Nodup
  inside : ∀ i n, s.handler i = .writeAt n → n ≤ s.file.length
  content : (Undisturbed bodies es ∧ s.file = initial ++ (written es).flatMap bodies ∧
      ∀ i n, s.handler i = .writeAt n → (n < s.file.length ↔ Overtaken bodies es i)) ∨
    (¬ Undisturbed bodies es ∧
      s.file.length < initial.length + ((written es).flatMap bodies).length)

theorem written_seek (es : List (Event k)) (i : Fin k) : written (es ++ [.seek i]) = written es := by
  simp [written]

theorem written_write (es : List (Event k)) (i : Fin k) :
    written (es ++ [.write i]) = written es ++ [i] := by
  simp [written]

theorem trace_start : Trace bodies initial [] (⟨initial, fun _ => .seek⟩ : State k) where
  sought := by simp
  wrote := by simp [written]
  once := List.nodup_nil
  inside := by simp
  content := by
    refine .inl ⟨?_, ?_, (by simp)⟩
    · intro before after i split
      simp at split
    · simp [written]

theorem trace_seek (es : List (Event k)) (s : State k) (i : Fin k) (here : s.handler i = .seek)
    (trace : Trace bodies initial es s) :
    Trace bodies initial (es ++ [.seek i])
      { s with handler := Function.update s.handler i (.writeAt s.file.length) } := by
  have unsought : .seek i ∉ es := by
    rw [trace.sought i, here]
    simp
  constructor
  · intro j
    by_cases self : j = i
    · simp [self]
    · simp [trace.sought j, self]
  · intro j
    rw [written_seek, trace.wrote j]
    by_cases self : j = i
    · simp [self, here]
    · simp [self]
  · rw [written_seek]
    exact trace.once
  · intro j n there
    by_cases self : j = i
    · simp only [self, Function.update_self, Pc.writeAt.injEq] at there
      exact there.ge
    · simp only [Function.update_of_ne self] at there
      exact trace.inside j n there
  · rw [written_seek, undisturbed_snoc]
    rcases trace.content with ⟨calm, file, pending⟩ | ⟨disturbed, missing⟩
    · refine .inl ⟨⟨calm, (by simp)⟩, file, ?_⟩
      intro j n there
      rw [overtaken_snoc]
      by_cases self : j = i
      · simp only [self, Function.update_self, Pc.writeAt.injEq] at there
        rw [self, ← there]
        refine iff_of_false (lt_irrefl _) ?_
        rintro (⟨before, after, split, _⟩ | ⟨_, event, _⟩)
        · exact unsought (by rw [split]; simp)
        · cases event
      · simp only [Function.update_of_ne self] at there
        rw [pending j n there]
        simp
    · exact .inr ⟨fun calm => disturbed calm.1, missing⟩

theorem writeAt_grows (file bytes : List UInt8) (n : Nat) (inside : n ≤ file.length) :
    (writeAt 0 file n bytes).length ≤ file.length + bytes.length ∧
      (bytes ≠ [] → n < file.length → (writeAt 0 file n bytes).length < file.length + bytes.length) ∧
      file.length ≤ (writeAt 0 file n bytes).length := by
  by_cases nothing : bytes = []
  · simp [writeAt, nothing]
  · have positive := List.length_pos_of_ne_nil nothing
    rw [writeAt_length 0 file bytes n nothing]
    omega

theorem trace_write_content (es : List (Event k)) (s : State k) (i : Fin k) (n : Nat)
    (here : s.handler i = .writeAt n) (trace : Trace bodies initial es s)
    (file : s.file = initial ++ (written es).flatMap bodies)
    (pending : ∀ j m, s.handler j = .writeAt m → (m < s.file.length ↔ Overtaken bodies es j))
    (intime : bodies i = [] ∨ ¬ Overtaken bodies es i) :
    writeAt 0 s.file n (bodies i) = initial ++ (written (es ++ [.write i])).flatMap bodies ∧
      ∀ j m, j ≠ i → s.handler j = .writeAt m →
        (m < (writeAt 0 s.file n (bodies i)).length ↔ Overtaken bodies (es ++ [.write i]) j) := by
  by_cases nothing : bodies i = []
  · have unchanged : writeAt 0 s.file n (bodies i) = s.file := by rw [writeAt, if_pos nothing]
    refine ⟨?_, ?_⟩
    · rw [unchanged, written_write, List.flatMap_append, file]
      simp [nothing]
    · intro j m _ there
      rw [unchanged, overtaken_snoc, pending j m there]
      refine ⟨.inl, ?_⟩
      rintro (before | ⟨_, event, something, _⟩)
      · exact before
      · cases event
        exact absurd nothing something
  · have fresh : n = s.file.length := by
      have late := (pending i n here).not.2 (intime.resolve_left nothing)
      have inside := trace.inside i n here
      omega
    have appended : writeAt 0 s.file n (bodies i) = s.file ++ bodies i := by
      rw [fresh]
      exact writeAt_end 0 s.file (bodies i)
    refine ⟨?_, ?_⟩
    · rw [appended, written_write, List.flatMap_append, ← List.append_assoc, ← file]
      simp
    · intro j m _ there
      have inside := trace.inside j m there
      have positive := List.length_pos_of_ne_nil nothing
      rw [appended, overtaken_snoc, List.length_append]
      refine iff_of_true (by omega) (.inr ⟨i, rfl, nothing, ?_⟩)
      rw [trace.sought j, there]
      simp

theorem trace_write (es : List (Event k)) (s : State k) (i : Fin k) (n : Nat)
    (here : s.handler i = .writeAt n) (trace : Trace bodies initial es s) :
    Trace bodies initial (es ++ [.write i])
      ⟨writeAt 0 s.file n (bodies i), Function.update s.handler i .done⟩ := by
  have inside := trace.inside i n here
  obtain ⟨most, less, least⟩ := writeAt_grows s.file (bodies i) n inside
  constructor
  · intro j
    by_cases self : j = i
    · simp [self, trace.sought i, here]
    · simp [trace.sought j, self]
  · intro j
    rw [written_write, List.mem_append, List.mem_singleton, trace.wrote j]
    by_cases self : j = i
    · simp [self]
    · simp [self]
  · rw [written_write]
    refine List.Nodup.append trace.once (List.nodup_singleton i) ?_
    rw [List.disjoint_singleton, trace.wrote i, here]
    simp
  · intro j m there
    by_cases self : j = i
    · simp [self] at there
    · simp only [Function.update_of_ne self] at there
      exact (trace.inside j m there).trans least
  · rw [undisturbed_snoc]
    have total : ((written (es ++ [.write i])).flatMap bodies).length =
        ((written es).flatMap bodies).length + (bodies i).length := by
      rw [written_write]
      simp
    rcases trace.content with ⟨calm, file, pending⟩ | ⟨disturbed, missing⟩
    · by_cases intime : bodies i = [] ∨ ¬ Overtaken bodies es i
      · obtain ⟨content, others⟩ :=
          trace_write_content bodies initial es s i n here trace file pending intime
        refine .inl ⟨⟨calm, ?_⟩, content, ?_⟩
        · rintro j event something
          cases event
          exact intime.resolve_left something
        · intro j m there
          by_cases self : j = i
          · simp [self] at there
          · simp only [Function.update_of_ne self] at there
            exact others j m self there
      · rw [not_or, not_not] at intime
        have late := (pending i n here).2 intime.2
        refine .inr ⟨fun calm => calm.2 i rfl intime.1 intime.2, ?_⟩
        have shorter := less intime.1 late
        have before : s.file.length = initial.length + ((written es).flatMap bodies).length := by
          rw [file, List.length_append]
        dsimp only
        omega
    · refine .inr ⟨fun calm => disturbed calm.1, ?_⟩
      dsimp only
      omega

theorem trace_run (es : List (Event k)) (s : State k)
    (ran : (server bodies initial).run ⟨initial, fun _ => .seek⟩ es = some s) :
    Trace bodies initial es s := by
  refine (server bodies initial).run_induction (Trace bodies initial) _
    (trace_start bodies initial) ?_ es s ran
  intro es t e u trace moved
  cases e with
  | seek i =>
      simp only [server, appendToFile] at moved
      split at moved <;> cases moved
      exact trace_seek bodies initial es t i (by assumption) trace
  | write i =>
      simp only [server, appendToFile] at moved
      split at moved <;> cases moved
      exact trace_write bodies initial es t i _ (by assumption) trace

theorem appended_length (file : List UInt8) (appended : Appended bodies initial file) :
    file.length = initial.length + ((List.finRange k).flatMap bodies).length := by
  obtain ⟨order, perm, rfl⟩ := appended
  rw [List.length_append, (perm.flatMap_right bodies).length_eq]

/-- When all handlers are done, the file is the initial content and all bodies exactly if no
handler with a body was overtaken. -/
theorem appended_iff_undisturbed (es : List (Event k)) (s : State k)
    (ran : (server bodies initial).run ⟨initial, fun _ => .seek⟩ es = some s)
    (finished : ∀ i, s.handler i = .done) :
    Appended bodies initial s.file ↔ Undisturbed bodies es := by
  have trace := trace_run bodies initial es s ran
  have every : (written es).Perm (List.finRange k) := by
    rw [List.perm_ext_iff_of_nodup trace.once (List.nodup_finRange k)]
    intro i
    rw [trace.wrote i]
    simp [finished i]
  rcases trace.content with ⟨calm, file, _⟩ | ⟨disturbed, missing⟩
  · exact iff_of_true ⟨written es, every, file⟩ calm
  · refine iff_of_false ?_ disturbed
    intro appended
    rw [appended_length bodies initial s.file appended,
      (every.flatMap_right bodies).length_eq] at missing
    exact lt_irrefl _ missing

theorem appended_iff_undisturbed_in_turn :
    ∃ s : State 2, (server ![[1, 7], [2]] [9]).run ⟨[9], fun _ => .seek⟩
        [.seek 1, .write 1, .seek 0, .write 0] = some s ∧ s.file = [9, 2, 1, 7] ∧
      (Appended ![[1, 7], [2]] [9] s.file ↔
        Undisturbed ![[1, 7], [2]] [.seek 1, .write 1, .seek 0, .write 0]) := by
  refine ⟨_, rfl, rfl, ?_⟩
  exact appended_iff_undisturbed ![[1, 7], [2]] [9] _ _ rfl (by decide)

/-- Two handlers ask for the end before either writes: the first body is lost. -/
theorem append_overwritten :
    ∃ s : State 2, (server ![[1], [2]] [9]).run ⟨[9], fun _ => .seek⟩
        [.seek 0, .seek 1, .write 0, .write 1] = some s ∧
      (∀ i, s.handler i = .done) ∧ s.file = [9, 2] ∧ ¬ Appended ![[1], [2]] [9] s.file := by
  refine ⟨_, rfl, by decide, rfl, ?_⟩
  intro appended
  have lengths := appended_length ![[1], [2]] [9] _ appended
  revert lengths
  decide

end DataStructure.AppendToFile
