import DataStructure.Lib.CText

/-! The rotating log of `socket/libevent/client/log.c`, with numbered files.

All file operations succeed. None of the results means an access outside `g_buffer`, `g_filename`
or `new_name`. Files are known by name: the open log is closed before it is renamed. -/

namespace DataStructure.ClientLog

open CText

abbrev Bytes := List UInt8

abbrev Name := Bytes

def logNumber : Nat := 3

def maxLogBuf : Nat := 2046

def fileMaxSize : Nat := 1024 * 1024 * 1

/-- An open file and what stdio has not yet passed on. -/
structure Stream where
  file : Name
  pending : Bytes

/-- The files, the global variables and, for reference, the contents of the files rotated. -/
structure State where
  files : Name → Option Bytes
  fp : Option Stream
  gFilename : Name
  gRotate : Nat
  gFileNumber : Nat
  stderr : Bytes
  rotated : List Bytes

-- C library

def fopenAppend (files : Name → Option Bytes) (name : Name) : (Name → Option Bytes) × Stream :=
  match files name with
  | none => (Function.update files name (some []), ⟨name, []⟩)
  | some _ => (files, ⟨name, []⟩)

def fflush (s : State) : State :=
  match s.fp with
  | none => s
  | some stream =>
      { s with
        files := Function.update s.files stream.file
          (some ((s.files stream.file).getD [] ++ stream.pending))
        fp := some { stream with pending := [] } }

def fclose (s : State) : State :=
  { fflush s with fp := none }

def fwrite (buffer : Bytes) (n : Nat) (s : State) : Option (Nat × State) :=
  if buffer.length < n then none
  else
    some (if n = 0 then 0 else 1,
      { s with fp := s.fp.map fun stream =>
          { stream with pending := stream.pending ++ buffer.take n } })

def unlink (files : Name → Option Bytes) (name : Name) : Name → Option Bytes :=
  Function.update files name none

def rename (files : Name → Option Bytes) (old new : Name) : Name → Option Bytes :=
  Function.update (Function.update files new (files old)) old none

-- log.c

def getFileSize (files : Name → Option Bytes) (name : Name) : Nat :=
  match files name with
  | none => 0
  | some content => content.length

def logInit (name : Option Name) (s : State) : Option (Int × State) :=
  match name with
  | none => some (-1, s)
  | some name => do
      let gFilename ← if s.gRotate = 0 then sprintf 128 name else some s.gFilename
      let (files, stream) := fopenAppend s.files name
      some (0, { s with files, gFilename, fp := some stream })

structure Time where
  mon : Nat
  mday : Nat
  hour : Nat
  min : Nat
  sec : Nat
  nsec : Nat

def padded (width n : Nat) : List Char :=
  List.leftpad width '0' (Nat.toDigits 10 n)

def premakerstrTime (t : Time) : Bytes :=
  ascii ('[' :: padded 2 (t.mon + 1) ++ '-' :: padded 2 t.mday ++ ' ' :: padded 2 t.hour ++
    ':' :: padded 2 t.min ++ ':' :: padded 2 t.sec ++ '.' :: padded 3 (t.nsec / 1000000) ++
    [']', ' '])

def rotatedName (name : Name) (n : Nat) : Name :=
  name ++ ascii ('.' :: Nat.toDigits 10 n)

def rotateLog (s : State) : Option State := do
  let newName ← sprintf 256 (rotatedName s.gFilename s.gFileNumber)
  let next := s.gFileNumber + 1
  let gFileNumber := if logNumber ≤ next then 0 else next
  let files := if s.files newName = none then s.files else unlink s.files newName
  let s := fclose (fflush { s with files, gFileNumber })
  let s := { s with
    rotated := s.rotated ++ (s.files s.gFilename).toList
    files := rename s.files s.gFilename newName
    gRotate := 1 }
  let (_, s) ← logInit (some s.gFilename) s
  some s

/-- `logw` at time `t`, with `body` the formatted rest of the line. -/
def logw (t : Time) (body : Bytes) (s : State) : Option State := do
  let stamp := premakerstrTime t
  -- snprintf and vsnprintf stop one byte before the end of the buffer
  let gBuffer := (stamp ++ body).take (maxLogBuf - 1) ++ [0]
  match s.fp with
  | none => some { s with stderr := s.stderr ++ gBuffer.takeWhile (· ≠ 0) }
  | some _ =>
      let s ← if getFileSize s.files s.gFilename > fileMaxSize then rotateLog s else some s
      let (written, s) ← fwrite gBuffer (body.length + stamp.length) s
      some (if written = 1 then fflush s else s)

def start (files : Name → Option Bytes) : State :=
  ⟨files, none, [], 0, 0, [], []⟩

def run (files : Name → Option Bytes) (name : Name) (calls : List (Time × Bytes)) : Option State := do
  let (_, s) ← logInit (some name) (start files)
  calls.foldlM (fun s call => logw call.1 call.2 s) s

def message (call : Time × Bytes) : Bytes :=
  premakerstrTime call.1 ++ call.2

def recentFiles (name : Name) (s : State) : List Bytes :=
  ((List.range s.rotated.length).drop (s.rotated.length - logNumber)).map fun j =>
    (s.files (rotatedName name (j % logNumber))).getD []

structure Keeps (name : Name) (messages : List Bytes) (s : State) : Prop where
  exist : ∀ n < logNumber, (∃ content, s.files (rotatedName name n) = some content) ↔
    ∃ j < s.rotated.length, s.rotated.length ≤ j + logNumber ∧ j % logNumber = n
  recent : ∀ j content, s.rotated[j]? = some content → s.rotated.length ≤ j + logNumber →
    s.files (rotatedName name (j % logNumber)) = some content
  suffix : ∃ missing kept, messages = missing ++ kept ∧
    missing.flatten = (s.rotated.take (s.rotated.length - logNumber)).flatten ∧
    ∃ current, s.files name = some current ∧
      (recentFiles name s).flatten ++ current = kept.flatten

/-- Every run of `logw` calls keeps its latest messages. -/
def Rotates (name : Name) : Prop :=
  ∀ files calls, files name = none → (∀ n < logNumber, files (rotatedName name n) = none) →
    (∀ call ∈ calls, (message call).length < maxLogBuf) →
    ∃ s, run files name calls = some s ∧ Keeps name (calls.map message) s

theorem rotatedName_ne (name : Name) (n : Nat) : rotatedName name n ≠ name := by
  intro same
  have lengths := congrArg List.length same
  simp [rotatedName, ascii] at lengths

theorem rotatedName_inj (name : Name) (n m : Nat)
    (same : rotatedName name n = rotatedName name m) : n = m := by
  have digits := List.append_cancel_left same
  exact ascii_toDigits_injective (List.cons.inj digits).2

theorem sprintf_rotatedName (name : Name) (n : Nat) (few : n < logNumber) (fits : name.length < 128) :
    sprintf 256 (rotatedName name n) = some (rotatedName name n) := by
  have digits : ∀ n < logNumber, (Nat.toDigits 10 n).length = 1 := by decide
  apply sprintf_eq_some.mpr
  rw [rotatedName, ascii, List.length_append, List.length_map, List.length_cons, digits n few]
  exact ⟨by omega, rfl⟩

def Recent (rotated : List Bytes) (n : Nat) (content : Bytes) : Prop :=
  ∃ j, rotated.length ≤ j + logNumber ∧ j % logNumber = n ∧ rotated[j]? = some content

theorem recent_snoc (rotated : List Bytes) (last content : Bytes) (n : Nat) (few : n < logNumber) :
    Recent (rotated ++ [last]) n content ↔
      (n = rotated.length % logNumber ∧ content = last) ∨
        (n ≠ rotated.length % logNumber ∧ Recent rotated n content) := by
  simp only [Recent, logNumber, List.length_append, List.length_singleton] at *
  constructor
  · rintro ⟨j, late, number, held⟩
    have inside : j < rotated.length + 1 := by
      have := (List.getElem?_eq_some_iff.1 held).1
      simpa using this
    by_cases newest : j = rotated.length
    · subst newest
      rw [List.getElem?_append_right le_rfl, Nat.sub_self] at held
      exact .inl ⟨number.symm, (Option.some.inj held).symm⟩
    · rw [List.getElem?_append_left (by omega)] at held
      exact .inr ⟨by omega, j, by omega, number, held⟩
  · rintro (⟨number, rfl⟩ | ⟨other, j, late, number, held⟩)
    · refine ⟨rotated.length, by omega, number.symm, ?_⟩
      rw [List.getElem?_append_right le_rfl, Nat.sub_self]
      rfl
    · have inside := (List.getElem?_eq_some_iff.1 held).1
      refine ⟨j, by omega, number, ?_⟩
      rw [List.getElem?_append_left inside, held]

/-- The log after these messages, `groups` of which went into the rotated files. -/
structure Logged (name : Name) (groups : List (List Bytes)) (current : List Bytes) (s : State) :
    Prop where
  fp : s.fp = some ⟨name, []⟩
  gFilename : s.gFilename = name
  gFileNumber : s.gFileNumber = s.rotated.length % logNumber
  rotated : s.rotated = groups.map List.flatten
  content : s.files name = some current.flatten
  slots : ∀ n < logNumber, ∀ content,
    s.files (rotatedName name n) = some content ↔ Recent s.rotated n content

theorem logged_init (files : Name → Option Bytes) (name : Name) (fits : name.length < 128)
    (absent : files name = none) (free : ∀ n < logNumber, files (rotatedName name n) = none) :
    ∃ s, logInit (some name) (start files) = some (0, s) ∧ Logged name [] [] s := by
  have copied : sprintf 128 name = some name := sprintf_eq_some.mpr ⟨fits, rfl⟩
  refine ⟨⟨Function.update files name (some []), some ⟨name, []⟩, name, 0, 0, [], []⟩, ?_,
    rfl, rfl, rfl, rfl, ?_, ?_⟩
  · simp [logInit, start, copied, fopenAppend, absent]
  · simp
  · intro n few content
    simp [rotatedName_ne, free n few, Recent]

theorem unlink_present (files : Name → Option Bytes) (name : Name) :
    (if files name = none then files else unlink files name) = Function.update files name none := by
  split
  · next absent => rw [← absent, Function.update_eq_self]
  · rfl

theorem fflush_idle (s : State) (name : Name) (content : Bytes) (fp : s.fp = some ⟨name, []⟩)
    (held : s.files name = some content) : fflush s = s := by
  rw [fflush, fp]
  dsimp only
  rw [held, Option.getD_some, List.append_nil, ← held, Function.update_eq_self, ← fp]

theorem fclose_idle (s : State) (name : Name) (content : Bytes) (fp : s.fp = some ⟨name, []⟩)
    (held : s.files name = some content) : fclose (fflush s) = { s with fp := none } := by
  rw [fclose, fflush_idle s name content fp held, fflush_idle s name content fp held]

theorem logInit_again (s : State) (name : Name) (rotating : s.gRotate = 1)
    (absent : s.files name = none) :
    logInit (some name) s = some (0,
      { s with files := Function.update s.files name (some []), fp := some ⟨name, []⟩ }) := by
  simp [logInit, rotating, fopenAppend, absent]

theorem rotateLog_eq (name : Name) (fits : name.length < 128) (content : Bytes) (s : State)
    (fp : s.fp = some ⟨name, []⟩) (gFilename : s.gFilename = name)
    (few : s.gFileNumber < logNumber) (held : s.files name = some content) :
    rotateLog s = some
      { s with
        files := Function.update (Function.update s.files (rotatedName name s.gFileNumber)
          (some content)) name (some [])
        gRotate := 1
        gFileNumber := if logNumber ≤ s.gFileNumber + 1 then 0 else s.gFileNumber + 1
        rotated := s.rotated ++ [content] } := by
  have apart := rotatedName_ne name s.gFileNumber
  rw [rotateLog, gFilename, sprintf_rotatedName name s.gFileNumber few fits,
    Option.bind_eq_bind, Option.bind_some]
  dsimp only
  have kept : Function.update s.files (rotatedName name s.gFileNumber) none name = some content := by
    rw [Function.update_of_ne apart.symm, held]
  have moved : rename (Function.update s.files (rotatedName name s.gFileNumber) none) name
      (rotatedName name s.gFileNumber) =
        Function.update (Function.update s.files (rotatedName name s.gFileNumber) (some content))
          name none := by
    rw [rename, kept, Function.update_idem]
  rw [unlink_present, fclose_idle _ name content ?fp ?held]
  case fp => exact fp
  case held => exact kept
  dsimp only
  rw [kept, moved, logInit_again _ name rfl (Function.update_self ..), Option.bind_eq_bind,
    Option.bind_some]
  dsimp only
  rw [Function.update_idem, fp]
  rfl

/-- A log that has become too long gets the next number and a new file takes its place. -/
theorem logged_rotate (name : Name) (fits : name.length < 128) (groups : List (List Bytes))
    (current : List Bytes) (s : State) (logged : Logged name groups current s) :
    ∃ t, rotateLog s = some t ∧ Logged name (groups ++ [current]) [] t := by
  have few : s.gFileNumber < logNumber := by
    rw [logged.gFileNumber]
    exact Nat.mod_lt _ (by decide)
  have apart := rotatedName_ne name
  refine ⟨_, rotateLog_eq name fits current.flatten s logged.fp logged.gFilename few logged.content,
    logged.fp, logged.gFilename, ?_, ?_, ?_, ?_⟩
  · dsimp only
    rw [logged.gFileNumber, List.length_append, List.length_singleton]
    split <;> simp only [logNumber] at * <;> omega
  · dsimp only
    rw [logged.rotated, List.map_append]
    rfl
  · dsimp only
    rw [Function.update_self]
    rfl
  · intro n small content
    dsimp only
    rw [Function.update_of_ne (apart n), recent_snoc _ _ _ n small, ← logged.gFileNumber]
    by_cases newest : n = s.gFileNumber
    · subst newest
      rw [Function.update_self, Option.some.injEq]
      simp [eq_comm]
    · have other : rotatedName name n ≠ rotatedName name s.gFileNumber := by
        intro same
        exact newest (rotatedName_inj name n s.gFileNumber same)
      rw [Function.update_of_ne other, logged.slots n small]
      simp [newest]

theorem stamp_positive (t : Time) : 0 < (premakerstrTime t).length := by
  simp [premakerstrTime, ascii]

theorem fwrite_message (name : Name) (s : State) (fp : s.fp = some ⟨name, []⟩) (t : Time)
    (body : Bytes) (short : (message (t, body)).length < maxLogBuf) :
    fwrite ((premakerstrTime t ++ body).take (maxLogBuf - 1) ++ [0])
        (body.length + (premakerstrTime t).length) s =
      some (1, { s with fp := some ⟨name, message (t, body)⟩ }) := by
  have whole : (premakerstrTime t ++ body).take (maxLogBuf - 1) = message (t, body) :=
    List.take_of_length_le (Nat.le_sub_one_of_lt short)
  have count : body.length + (premakerstrTime t).length = (message (t, body)).length := by
    rw [message, List.length_append, Nat.add_comm]
  have positive : (message (t, body)).length ≠ 0 := by
    have := stamp_positive t
    omega
  rw [whole, count, fwrite, if_neg (by simp), if_neg positive, fp, List.take_left]
  rfl

theorem logged_append (name : Name) (groups : List (List Bytes)) (current : List Bytes) (s : State)
    (logged : Logged name groups current s) (m : Bytes) :
    Logged name groups (current ++ [m]) (fflush { s with fp := some ⟨name, m⟩ }) where
  fp := rfl
  gFilename := logged.gFilename
  gFileNumber := logged.gFileNumber
  rotated := logged.rotated
  content := by
    simp [fflush, logged.content]
  slots := by
    intro n few content
    rw [fflush]
    dsimp only
    rw [Function.update_of_ne (rotatedName_ne name n)]
    exact logged.slots n few content

theorem logged_logw (name : Name) (fits : name.length < 128) (groups : List (List Bytes))
    (current : List Bytes) (s : State) (logged : Logged name groups current s)
    (call : Time × Bytes) (short : (message call).length < maxLogBuf) :
    ∃ t groups' current', logw call.1 call.2 s = some t ∧ Logged name groups' current' t ∧
      groups'.flatten ++ current' = groups.flatten ++ current ++ [message call] := by
  obtain ⟨time, body⟩ := call
  rw [logw]
  dsimp only
  rw [logged.fp]
  dsimp only
  by_cases long : getFileSize s.files s.gFilename > fileMaxSize
  · obtain ⟨u, ran, rotated⟩ := logged_rotate name fits groups current s logged
    rw [if_pos long, ran, Option.bind_eq_bind, Option.bind_some,
      fwrite_message name u rotated.fp time body short, Option.bind_eq_bind, Option.bind_some]
    refine ⟨_, groups ++ [current], [message (time, body)], rfl, ?_, by simp⟩
    exact logged_append name _ [] u rotated _
  · rw [if_neg long, Option.bind_eq_bind, Option.bind_some,
      fwrite_message name s logged.fp time body short, Option.bind_eq_bind, Option.bind_some]
    refine ⟨_, groups, current ++ [message (time, body)], rfl, ?_, by simp⟩
    exact logged_append name _ current s logged _

theorem logged_run (files : Name → Option Bytes) (name : Name) (calls : List (Time × Bytes))
    (fits : name.length < 128) (absent : files name = none)
    (free : ∀ n < logNumber, files (rotatedName name n) = none)
    (short : ∀ call ∈ calls, (message call).length < maxLogBuf) :
    ∃ s groups current, run files name calls = some s ∧ Logged name groups current s ∧
      calls.map message = groups.flatten ++ current := by
  obtain ⟨first, opened, logged⟩ := logged_init files name fits absent free
  induction calls using List.reverseRecOn with
  | nil =>
      refine ⟨first, [], [], ?_, logged, rfl⟩
      rw [run, opened]
      rfl
  | append_singleton calls call ih =>
      obtain ⟨s, groups, current, ran, logged, all⟩ := ih fun c inside => short c (by simp [inside])
      obtain ⟨t, groups', current', wrote, logged', all'⟩ :=
        logged_logw name fits groups current s logged call (short call (by simp))
      refine ⟨t, groups', current', ?_, logged', ?_⟩
      · rw [run, opened, Option.bind_eq_bind, Option.bind_some] at ran ⊢
        dsimp only at ran ⊢
        rw [List.foldlM_append, ran, Option.bind_eq_bind, Option.bind_some]
        simpa using wrote
      · rw [List.map_append, all, all']
        rfl

theorem keeps_exist (name : Name) (groups : List (List Bytes)) (current : List Bytes) (s : State)
    (logged : Logged name groups current s) (n : Nat) (few : n < logNumber) :
    (∃ content, s.files (rotatedName name n) = some content) ↔
      ∃ j < s.rotated.length, s.rotated.length ≤ j + logNumber ∧ j % logNumber = n := by
  constructor
  · rintro ⟨content, present⟩
    obtain ⟨j, late, number, held⟩ := (logged.slots n few content).1 present
    exact ⟨j, (List.getElem?_eq_some_iff.1 held).1, late, number⟩
  · rintro ⟨j, inside, late, number⟩
    refine ⟨s.rotated[j], (logged.slots n few _).2 ⟨j, late, number, ?_⟩⟩
    exact List.getElem?_eq_getElem inside

theorem keeps_recent (name : Name) (groups : List (List Bytes)) (current : List Bytes) (s : State)
    (logged : Logged name groups current s) (j : Nat) (content : Bytes)
    (held : s.rotated[j]? = some content) (late : s.rotated.length ≤ j + logNumber) :
    s.files (rotatedName name (j % logNumber)) = some content := by
  have few : j % logNumber < logNumber := Nat.mod_lt _ (by decide)
  exact (logged.slots _ few content).2 ⟨j, late, rfl, held⟩

theorem recentFiles_eq (name : Name) (groups : List (List Bytes)) (current : List Bytes) (s : State)
    (logged : Logged name groups current s) :
    recentFiles name s = s.rotated.drop (s.rotated.length - logNumber) := by
  apply List.ext_getElem
  · simp [recentFiles]
  · intro i inside inside'
    have late : s.rotated.length ≤ s.rotated.length - logNumber + i + logNumber := by omega
    have bound : s.rotated.length - logNumber + i < s.rotated.length := by
      rw [List.length_drop] at inside'
      omega
    have kept := keeps_recent name groups current s logged _ _ (List.getElem?_eq_getElem bound) late
    simp [recentFiles, kept]

theorem keeps_of_logged (name : Name) (groups : List (List Bytes)) (current : List Bytes) (s : State)
    (logged : Logged name groups current s) : Keeps name (groups.flatten ++ current) s where
  exist := keeps_exist name groups current s logged
  recent := keeps_recent name groups current s logged
  suffix := by
    obtain ⟨older, count⟩ : ∃ older, older = s.rotated.length - logNumber := ⟨_, rfl⟩
    have split : groups.flatten = (groups.take older).flatten ++ (groups.drop older).flatten := by
      rw [← List.flatten_append, List.take_append_drop]
    refine ⟨(groups.take older).flatten, (groups.drop older).flatten ++ current, ?_, ?_,
      current.flatten, logged.content, ?_⟩
    · rw [split, List.append_assoc]
    · rw [← count, logged.rotated, ← List.map_take, List.flatten_flatten]
    · rw [recentFiles_eq name groups current s logged, ← count, logged.rotated, ← List.map_drop,
        List.flatten_append, List.flatten_flatten]

theorem run_long_name (files : Name → Option Bytes) (name : Name) (calls : List (Time × Bytes))
    (long : 128 ≤ name.length) : run files name calls = none := by
  have overflow : sprintf 128 name = none := by rw [sprintf, if_neg (by omega)]
  simp [run, logInit, start, overflow]

theorem not_rotates (name : Name) (long : 128 ≤ name.length) : ¬ Rotates name := by
  intro rotates
  obtain ⟨s, ran, _⟩ := rotates (fun _ => none) [] rfl (fun _ _ => rfl) (by simp)
  rw [run_long_name _ name [] long] at ran
  contradiction

/-- Rotating loses only the oldest messages exactly when `g_filename` has room for the name. -/
theorem rotates_iff (name : Name) : Rotates name ↔ name.length < 128 := by
  constructor
  · intro rotates
    by_contra long
    exact not_rotates name (Nat.le_of_not_lt long) rotates
  · intro fits files calls absent free short
    obtain ⟨s, groups, current, ran, logged, all⟩ :=
      logged_run files name calls fits absent free short
    rw [all]
    exact ⟨s, ran, keeps_of_logged name groups current s logged⟩

theorem long_name_overflows : ¬ Rotates (List.replicate 200 97) :=
  not_rotates _ (by rw [List.length_replicate]; decide)

end DataStructure.ClientLog
