import DataStructure.Log.SingleLog

/-! The log of `log/log.c` under runs of `log_init`, `logw` and `log_close`.

`log_init` records its name in `g_filename` only while `g_rotate` is 0, and the first rotation
sets `g_rotate` for good. -/

namespace DataStructure.SingleLog

open ClientLog (Name Bytes premakerstrTime getFileSize)
open CText (sprintf sprintf_eq_some)

def logClose (s : State) : Int × State :=
  match s.fp with
  | none => (-1, s)
  | some _ => (0, fclose (fflush s))

inductive Call where
  | logInit (name : Name)
  | logw (now : Clock) (body : Bytes)
  | logClose

def Call.run (s : State) : Call → Option State
  | .logInit name => (SingleLog.logInit (some name) s).map Prod.snd
  | .logw now body => SingleLog.logw now body s
  | .logClose => some (SingleLog.logClose s).2

def runAll (s : State) (calls : List Call) : Option State := calls.foldlM Call.run s

def Targeted (s : State) : Prop := ∀ stream, s.fp = some stream → stream.file = some s.gFilename

/-- At every point of the run an open log was opened under the name in `g_filename`. -/
def KeepsTarget (s : State) (calls : List Call) : Prop :=
  ∀ done, done <+: calls → ∀ t, runAll s done = some t → Targeted t

def lastName (calls : List Call) : Name :=
  calls.foldl (fun last call =>
    match call with
    | .logInit name => name
    | _ => last) []

def TooLong (s : State) : Prop := s.fp.isSome ∧ fileMaxSize < getFileSize s.files s.gFilename

def Call.Rotates (call : Call) (s : State) : Prop := ∃ now body, call = .logw now body ∧ TooLong s

/-- The run `calm` rotates nothing, and then `call` rotates the log. -/
def FirstRotation (s : State) (calm : List Call) (call : Call) : Prop :=
  ∃ t, runAll s calm = some t ∧ t.gRotate = 0 ∧ call.Rotates t

/-- Every `log_init` after the first rotation gives the name that the last one before it gave. -/
def KeepsName (s : State) (calls : List Call) : Prop :=
  ∀ calm call more name, calm ++ call :: more ++ [.logInit name] <+: calls →
    FirstRotation s calm call → (runAll s (calm ++ call :: more)).isSome → name = lastName calm

structure SameLog (s t : State) : Prop where
  file : t.fp.map Stream.file = s.fp.map Stream.file
  gFilename : t.gFilename = s.gFilename
  gRotate : t.gRotate = s.gRotate

theorem SameLog.trans {s t u : State} (first : SameLog s t) (second : SameLog t u) : SameLog s u :=
  ⟨second.file.trans first.file, second.gFilename.trans first.gFilename,
    second.gRotate.trans first.gRotate⟩

theorem SameLog.targeted {s t : State} (same : SameLog s t) (targeted : Targeted s) : Targeted t := by
  intro stream opened
  have file := same.file
  rw [opened, Option.map_some] at file
  obtain ⟨before, held, name⟩ := Option.map_eq_some_iff.mp file.symm
  rw [← name, same.gFilename]
  exact targeted before held

theorem fflush_sameLog (s : State) : SameLog s (fflush s) := by
  rw [fflush]
  split
  · exact ⟨rfl, rfl, rfl⟩
  · next held => exact ⟨by rw [held]; rfl, rfl, rfl⟩
  · next held => exact ⟨by rw [held]; rfl, rfl, rfl⟩

theorem fwrite_sameLog {n : Int} {s t : State} {written : Nat} (wrote : fwrite n s = some (written, t)) :
    SameLog s t := by
  rw [fwrite] at wrote
  split at wrote
  · obtain ⟨-, rfl⟩ := Prod.mk.inj (Option.some.inj wrote)
    refine ⟨?_, rfl, rfl⟩
    rw [Option.map_map]
    rfl
  · cases wrote

theorem logInit_cases {name : Name} {s t : State} {code : Int}
    (ran : logInit (some name) s = some (code, t)) :
    t.fp = some ⟨some name, []⟩ ∧ t.gRotate = s.gRotate ∧
      t.gFilename = if s.gRotate = 0 then name else s.gFilename := by
  have opens (u : State) : (fopenAppend u name).fp = some ⟨some name, []⟩ ∧
      (fopenAppend u name).gRotate = u.gRotate ∧ (fopenAppend u name).gFilename = u.gFilename := by
    rw [fopenAppend]
    split <;> exact ⟨rfl, rfl, rfl⟩
  rw [logInit] at ran
  split at ran
  · next fresh =>
      rw [if_pos fresh]
      obtain ⟨copy, copied, result⟩ := Option.bind_eq_some_iff.mp ran
      obtain ⟨-, rfl⟩ := Prod.mk.inj (Option.some.inj result)
      obtain ⟨-, rfl⟩ := sprintf_eq_some.mp copied
      exact opens _
  · next rotated =>
      rw [if_neg rotated]
      cases ran
      exact opens s

theorem Call.run_logInit {name : Name} {s t : State} (ran : (Call.logInit name).run s = some t) :
    t.fp = some ⟨some name, []⟩ ∧ t.gRotate = s.gRotate ∧
      t.gFilename = if s.gRotate = 0 then name else s.gFilename := by
  obtain ⟨⟨code, u⟩, opened, rfl⟩ := Option.map_eq_some_iff.mp ran
  exact logInit_cases opened

theorem rotateLog_cases {s t : State} (ran : rotateLog s = some t) :
    t.fp = some ⟨some s.gFilename, []⟩ ∧ t.gRotate ≠ 0 ∧ t.gFilename = s.gFilename := by
  rw [rotateLog] at ran
  obtain ⟨newName, -, ran⟩ := Option.bind_eq_some_iff.mp ran
  obtain ⟨⟨code, u⟩, opened, same⟩ := Option.bind_eq_some_iff.mp ran
  cases same
  have unlinked : (unlink s newName).gFilename = s.gFilename := by
    rw [unlink]
    split <;> rfl
  have kept : (fclose (fflush (unlink s newName))).gFilename = s.gFilename := by
    rw [fclose, (fflush_sameLog _).gFilename, (fflush_sameLog _).gFilename, unlinked]
  obtain ⟨fp, gRotate, gFilename⟩ := logInit_cases opened
  dsimp only at fp gRotate gFilename
  rw [if_neg one_ne_zero] at gFilename
  rw [kept] at fp gFilename
  exact ⟨fp, gRotate ▸ one_ne_zero, gFilename⟩

theorem rotateIfLong_cases {s t : State} (ran : rotateIfLong s = some t) :
    t = s ∧ ¬fileMaxSize < getFileSize s.files s.gFilename ∨
      fileMaxSize < getFileSize s.files s.gFilename ∧
        t.fp = some ⟨some s.gFilename, []⟩ ∧ t.gRotate ≠ 0 ∧ t.gFilename = s.gFilename := by
  rw [rotateIfLong] at ran
  split at ran
  · next long => exact .inr ⟨long, rotateLog_cases ran⟩
  · next within => exact .inl ⟨(Option.some.inj ran).symm, within⟩

theorem writeLog_cases {n : Option Int} {s t : State} (ran : writeLog n s = some t) :
    ∃ u, rotateIfLong s = some u ∧ SameLog u t := by
  rw [writeLog] at ran
  obtain ⟨u, rotated, ran⟩ := Option.bind_eq_some_iff.mp ran
  obtain ⟨count, -, ran⟩ := Option.bind_eq_some_iff.mp ran
  obtain ⟨⟨written, v⟩, wrote, ran⟩ := Option.bind_eq_some_iff.mp ran
  obtain ⟨gBuffer, -, same⟩ := Option.bind_eq_some_iff.mp ran
  cases same
  refine ⟨u, rotated, (fwrite_sameLog wrote).trans ?_⟩
  split
  · have flushed := fflush_sameLog v
    exact ⟨flushed.file, flushed.gFilename, flushed.gRotate⟩
  · exact ⟨rfl, rfl, rfl⟩

/-- Either no log was open that is too long, and nothing changes about which file is open, or a
rotation opened the file named in `g_filename`. -/
theorem logw_cases {now : Clock} {body : Bytes} {s t : State} (ran : logw now body s = some t) :
    ¬TooLong s ∧ SameLog s t ∨ TooLong s ∧ Targeted t ∧ t.gRotate ≠ 0 ∧ t.gFilename = s.gFilename := by
  rw [logw] at ran
  obtain ⟨gBuffer, -, ran⟩ := Option.bind_eq_some_iff.mp ran
  dsimp only at ran
  split at ran
  · next closed =>
      cases ran
      refine .inl ⟨?_, rfl, rfl, rfl⟩
      intro long
      have opened := long.1
      rw [closed] at opened
      cases opened
  · next opened =>
      obtain ⟨u, rotated, same⟩ := writeLog_cases ran
      rcases rotateIfLong_cases rotated with ⟨rfl, within⟩ | ⟨long, fp, gRotate, gFilename⟩
      · exact .inl ⟨fun long => within long.2, same.file, same.gFilename, same.gRotate⟩
      · refine .inr ⟨⟨by rw [opened]; rfl, long⟩, same.targeted ?_, same.gRotate ▸ gRotate,
          same.gFilename.trans gFilename⟩
        intro stream opened
        rw [fp] at opened
        cases opened
        rw [gFilename]

theorem logClose_cases {s t : State} (ran : Call.logClose.run s = some t) :
    t.fp = none ∧ t.gRotate = s.gRotate ∧ t.gFilename = s.gFilename := by
  rw [Call.run, logClose] at ran
  cases ran
  split
  · next closed => exact ⟨closed, rfl, rfl⟩
  · refine ⟨rfl, ?_, ?_⟩
    · rw [fclose, (fflush_sameLog _).gRotate, (fflush_sameLog _).gRotate]
    · rw [fclose, (fflush_sameLog _).gFilename, (fflush_sameLog _).gFilename]

theorem runAll_snoc (s : State) (done : List Call) (call : Call) :
    runAll s (done ++ [call]) = (runAll s done).bind fun t => call.run t := by
  simp only [runAll, List.foldlM_append, List.foldlM_cons, List.foldlM_nil, bind_pure]
  rfl

theorem lastName_snoc (done : List Call) (call : Call) :
    lastName (done ++ [call]) = match call with
      | .logInit name => name
      | _ => lastName done := by
  rw [lastName, List.foldl_append]
  rfl

theorem Call.run_rotates {call : Call} {s t : State} (ran : call.run s = some t) (calm : s.gRotate = 0) :
    t.gRotate ≠ 0 ↔ call.Rotates s := by
  cases call with
  | logInit name =>
      obtain ⟨-, gRotate, -⟩ := Call.run_logInit ran
      simp [Rotates, gRotate, calm]
  | logw now body =>
      have due : (Call.logw now body).Rotates s ↔ TooLong s := by simp [Rotates]
      rw [due]
      rcases logw_cases ran with ⟨within, same⟩ | ⟨long, -, rotated, -⟩
      · simp [same.gRotate, calm, within]
      · exact iff_of_true rotated long
  | logClose =>
      obtain ⟨-, gRotate, -⟩ := logClose_cases ran
      simp [Rotates, gRotate, calm]

theorem Call.run_rotated {call : Call} {s t : State} (ran : call.run s = some t)
    (rotated : s.gRotate ≠ 0) : t.gRotate ≠ 0 ∧ t.gFilename = s.gFilename := by
  cases call with
  | logInit name =>
      obtain ⟨-, gRotate, gFilename⟩ := Call.run_logInit ran
      rw [if_neg rotated] at gFilename
      exact ⟨gRotate ▸ rotated, gFilename⟩
  | logw now body =>
      rcases logw_cases ran with ⟨-, same⟩ | ⟨-, -, gRotate, gFilename⟩
      · exact ⟨same.gRotate ▸ rotated, same.gFilename⟩
      · exact ⟨gRotate, gFilename⟩
  | logClose =>
      obtain ⟨-, gRotate, gFilename⟩ := logClose_cases ran
      exact ⟨gRotate ▸ rotated, gFilename⟩

theorem Call.run_calm {call : Call} {s t : State} {done : List Call} (ran : call.run s = some t)
    (calm : s.gRotate = 0) (recorded : s.gFilename = lastName done) :
    if t.gRotate = 0 then t.gFilename = lastName (done ++ [call]) else t.gFilename = lastName done := by
  rw [lastName_snoc]
  cases call with
  | logInit name =>
      obtain ⟨-, gRotate, gFilename⟩ := Call.run_logInit ran
      rw [if_pos calm] at gFilename
      rw [if_pos (gRotate.trans calm)]
      exact gFilename
  | logw now body =>
      rcases logw_cases ran with ⟨-, same⟩ | ⟨-, -, -, gFilename⟩
      · rw [ite_self]
        exact same.gFilename.trans recorded
      · rw [ite_self]
        exact gFilename.trans recorded
  | logClose =>
      obtain ⟨-, -, gFilename⟩ := logClose_cases ran
      rw [ite_self]
      exact gFilename.trans recorded

/-- The recorded name after a run: the one given last before the first rotation. -/
theorem recorded_name {files : Name → Option Bytes} {done : List Call} {t : State}
    (ran : runAll (start files) done = some t) :
    t.gRotate = 0 ∧ t.gFilename = lastName done ∨
      t.gRotate ≠ 0 ∧ ∃ calm call more, done = calm ++ call :: more ∧
        FirstRotation (start files) calm call ∧ t.gFilename = lastName calm := by
  induction done using List.reverseRecOn generalizing t with
  | nil =>
      cases ran
      exact .inl ⟨rfl, rfl⟩
  | append_singleton done call ih =>
      rw [runAll_snoc] at ran
      obtain ⟨s, before, ran⟩ := Option.bind_eq_some_iff.mp ran
      rcases ih before with ⟨calm, recorded⟩ | ⟨rotated, calm, first, more, split, rotation, recorded⟩
      · have name := Call.run_calm ran calm recorded
        split at name
        · next still => exact .inl ⟨still, name⟩
        · next rotated =>
            have rotates := (Call.run_rotates ran calm).mp rotated
            exact .inr ⟨rotated, done, call, [], rfl, ⟨s, before, calm, rotates⟩, name⟩
      · obtain ⟨rotated', name⟩ := Call.run_rotated ran rotated
        refine .inr ⟨rotated', calm, first, more ++ [call], ?_, rotation, name.trans recorded⟩
        rw [split, List.append_assoc]
        rfl

theorem FirstRotation.recorded {files : Name → Option Bytes} {calm more : List Call} {call : Call}
    {t : State} (rotation : FirstRotation (start files) calm call)
    (ran : runAll (start files) (calm ++ call :: more) = some t) :
    t.gRotate ≠ 0 ∧ t.gFilename = lastName calm := by
  induction more using List.reverseRecOn generalizing t with
  | nil =>
      obtain ⟨s, before, calm', rotates⟩ := rotation
      rw [runAll_snoc, before, Option.bind_some] at ran
      have rotated := (Call.run_rotates ran calm').mpr rotates
      have recorded : s.gFilename = lastName calm := by
        rcases recorded_name before with ⟨-, recorded⟩ | ⟨rotated', -⟩
        · exact recorded
        · exact absurd calm' rotated'
      have name := Call.run_calm ran calm' recorded
      rw [if_neg rotated] at name
      exact ⟨rotated, name⟩
  | append_singleton more last ih =>
      have split : calm ++ call :: (more ++ [last]) = (calm ++ call :: more) ++ [last] := by simp
      rw [split, runAll_snoc] at ran
      obtain ⟨s, before, ran⟩ := Option.bind_eq_some_iff.mp ran
      obtain ⟨rotated, recorded⟩ := ih before
      obtain ⟨rotated', name⟩ := Call.run_rotated ran rotated
      exact ⟨rotated', name.trans recorded⟩

theorem keepsName_of_keepsTarget {files : Name → Option Bytes} {calls : List Call}
    (target : KeepsTarget (start files) calls) : KeepsName (start files) calls := by
  intro calm call more name front rotation defined
  obtain ⟨s, before⟩ := Option.isSome_iff_exists.mp defined
  obtain ⟨rotated, recorded⟩ := rotation.recorded before
  have opens : ∃ t, (Call.logInit name).run s = some t := by
    rw [Call.run, logInit, if_neg rotated]
    exact ⟨_, rfl⟩
  obtain ⟨t, ran⟩ := opens
  obtain ⟨fp, -, gFilename⟩ := Call.run_logInit ran
  have targeted := target _ front t (by rw [runAll_snoc, before, Option.bind_some, ran]) _ fp
  rw [if_neg rotated, recorded] at gFilename
  rw [gFilename] at targeted
  exact Option.some.inj targeted

theorem keepsTarget_of_keepsName {files : Name → Option Bytes} {calls : List Call}
    (names : KeepsName (start files) calls) : KeepsTarget (start files) calls := by
  intro done
  induction done using List.reverseRecOn with
  | nil =>
      intro _ t ran stream opened
      cases ran
      cases opened
  | append_singleton done call ih =>
      intro front t ran
      have earlier : done <+: calls := (List.prefix_append done [call]).trans front
      rw [runAll_snoc] at ran
      obtain ⟨s, before, ran⟩ := Option.bind_eq_some_iff.mp ran
      cases call with
      | logInit name =>
          obtain ⟨fp, -, gFilename⟩ := Call.run_logInit ran
          intro stream opened
          rw [fp] at opened
          cases opened
          rw [gFilename]
          split
          · rfl
          · next rotated =>
              rcases recorded_name before with ⟨calm, -⟩ | ⟨-, calm, first, more, rfl, rotation, recorded⟩
              · exact absurd calm rotated
              · rw [recorded, names calm first more name front rotation (by rw [before]; rfl)]
      | logw now body =>
          rcases logw_cases ran with ⟨-, same⟩ | ⟨-, targeted, -⟩
          · exact same.targeted (ih earlier s before)
          · exact targeted
      | logClose =>
          obtain ⟨closed, -⟩ := logClose_cases ran
          intro stream opened
          rw [closed] at opened
          cases opened

/-- In a run of calls an open log always is the one named in `g_filename` exactly if each `log_init`
after the first rotation gives the name that the last one before the rotation gave. -/
theorem log_target_kept_iff (files : Name → Option Bytes) (calls : List Call) :
    KeepsTarget (start files) calls ↔ KeepsName (start files) calls :=
  ⟨keepsName_of_keepsTarget, keepsTarget_of_keepsName⟩

def longLog : Name → Option Bytes := fun name => if name = [97] then some (List.replicate 101 0) else none

def otherLog : List Call :=
  [.logInit [97], .logw midnight [104, 105], .logClose, .logInit [98]]

theorem otherLog_rotates : FirstRotation (start longLog) [.logInit [97]] (.logw midnight [104, 105]) ∧
    (runAll (start longLog) [.logInit [97], .logw midnight [104, 105], .logClose]).isSome := by
  obtain ⟨t, opened⟩ : ∃ t, logInit (some [97]) (start longLog) = some (0, t) := ⟨_, rfl⟩
  have ready : Opened [97] t := opened_init opened
  have before : runAll (start longLog) [.logInit [97]] = some t := by
    rw [runAll, List.foldlM_cons, Call.run, opened]
    rfl
  obtain ⟨u, wrote, -⟩ := (logw_spec ready (midnight, [104, 105])).1 (.inl (by decide))
  have fresh : t.gRotate = 0 := (logInit_cases opened).2.1
  have long : fileMaxSize < getFileSize t.files t.gFilename := by
    cases opened
    decide
  refine ⟨⟨t, before, fresh, midnight, _, rfl, by rw [ready.fp]; rfl, long⟩, ?_⟩
  have split : [Call.logInit [97], .logw midnight [104, 105], .logClose] =
      ([.logInit [97]] ++ [.logw midnight [104, 105]]) ++ [.logClose] := rfl
  rw [split, runAll_snoc, runAll_snoc, before, Option.bind_some,
    show Call.run t (.logw midnight [104, 105]) = some u from wrote]
  rfl

/-- After the rotation of `a`, the log `b` is open while `g_filename` is still `a`. -/
theorem other_log_after_rotation : ¬KeepsTarget (start longLog) otherLog := by
  intro target
  obtain ⟨rotation, defined⟩ := otherLog_rotates
  have same : [98] = lastName [.logInit [97]] :=
    keepsName_of_keepsTarget target [.logInit [97]] (.logw midnight [104, 105]) [.logClose] [98]
      List.prefix_rfl rotation defined
  cases same

end DataStructure.SingleLog
