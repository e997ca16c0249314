import DataStructure.Lib.CInt
import DataStructure.Lib.CharArray
import DataStructure.Log.ClientLog

/-! The log of `log/log.c`, which keeps one file.

Opening a file succeeds. `none` stands for an access outside `g_buffer`, `g_filename` or `new_name` and
for an overflow of `int`. The name of the open log is unlinked before the log is closed, so a stream
knows whether its file still has a name. -/

namespace DataStructure.SingleLog

open ClientLog (Name Bytes Time padded premakerstrTime maxLogBuf getFileSize)
open CText (ascii sprintf sprintf_eq_some)

def fileMaxSize : Nat := 100

/-- An open file, `none` once its name is gone, and what stdio has not yet passed on. -/
structure Stream where
  file : Option Name
  pending : Bytes

structure State where
  files : Name → Option Bytes
  fp : Option Stream
  gBuffer : CharArray 2046
  gFilename : Name
  gRotate : Nat
  stderr : Bytes

def fopenAppend (s : State) (name : Name) : State :=
  match s.files name with
  | none => { s with files := Function.update s.files name (some []), fp := some ⟨some name, []⟩ }
  | some _ => { s with fp := some ⟨some name, []⟩ }

def fflush (s : State) : State :=
  match s.fp with
  | none => s
  | some ⟨none, _⟩ => { s with fp := some ⟨none, []⟩ }
  | some ⟨some name, pending⟩ =>
      { s with
        files := Function.update s.files name (some ((s.files name).getD [] ++ pending))
        fp := some ⟨some name, []⟩ }

def fclose (s : State) : State := { fflush s with fp := none }

/-- `if (access(name, F_OK) == 0) unlink(name)`. -/
def unlink (s : State) (name : Name) : State :=
  match s.files name with
  | none => s
  | some _ =>
      { s with
        files := Function.update s.files name none
        fp := s.fp.map fun stream =>
          if stream.file = some name then { stream with file := none } else stream }

/-- `rename`, which fails for a name that is not there and does nothing between equal names. -/
def rename (files : Name → Option Bytes) (old new : Name) : Name → Option Bytes :=
  if files old = none ∨ old = new then files
  else Function.update (Function.update files new (files old)) old none

/-- `fwrite(g_buffer, n, 1, fp)`; a negative `n` is a huge `size_t`. -/
def fwrite (n : Int) (s : State) : Option (Nat × State) :=
  if 0 ≤ n ∧ n ≤ maxLogBuf then
    some (if n = 0 then 0 else 1,
      { s with fp := s.fp.map fun stream =>
          { stream with pending := stream.pending ++ s.gBuffer.bytes.take n.toNat } })
  else none

def logInit (name : Option Name) (s : State) : Option (Int × State) :=
  match name with
  | none => some (-1, s)
  | some name =>
      if s.gRotate = 0 then do
        let gFilename ← sprintf 128 name
        some (0, fopenAppend { s with gFilename } name)
      else some (0, fopenAppend s name)

def rotateLog (s : State) : Option State := do
  let newName ← sprintf 256 s.gFilename
  let s := fclose (fflush (unlink s newName))
  let s := { s with files := rename s.files s.gFilename newName, gRotate := 1 }
  let (_, s) ← logInit (some s.gFilename) s
  some s

def rotateIfLong (s : State) : Option State :=
  if getFileSize s.files s.gFilename > fileMaxSize then rotateLog s else some s

structure Clock extends Time where
  monRange : mon < 12
  mdayRange : mday ≤ 31
  hourRange : hour < 24
  minRange : min < 60
  secRange : sec ≤ 60
  nsecRange : nsec < 1000000000

/-- The result of `vsnprintf`, which is negative for a text whose length is no `int`. -/
def formattedSize (body : Bytes) : Int := if body.length < 2 ^ 31 then body.length else -1

def fillBuffer (stamp body : Bytes) (gBuffer : CharArray 2046) : Option (CharArray 2046) := do
  let gBuffer ← gBuffer.write 0 (stamp.take (maxLogBuf - 1) ++ [0])
  gBuffer.write stamp.length (body.take (maxLogBuf - stamp.length - 1) ++ [0])

def writeLog (n : Option Int) (s : State) : Option State := do
  let s ← rotateIfLong s
  let (written, s) ← fwrite (← n) s
  let s := if written = 1 then fflush s else s
  let gBuffer ← s.gBuffer.write 0 [0]
  some { s with gBuffer }

def logw (now : Clock) (body : Bytes) (s : State) : Option State := do
  let stamp := premakerstrTime now.toTime
  let gBuffer ← fillBuffer stamp body s.gBuffer
  let s := { s with gBuffer }
  match s.fp with
  | none => some { s with stderr := s.stderr ++ gBuffer.bytes.takeWhile (· ≠ 0) }
  | some _ => writeLog (CInt.checked (formattedSize body + stamp.length)) s

def start (files : Name → Option Bytes) : State :=
  ⟨files, none, CharArray.zeroed 2046, [], 0, []⟩

def logwAll (s : State) (calls : List (Clock × Bytes)) : Option State :=
  calls.foldlM (fun s call => logw call.1 call.2 s) s

/-- After each call every byte passed came from `g_buffer` and the log is within its bound. -/
def Bounded (s : State) (calls : List (Clock × Bytes)) : Prop :=
  ∀ done, done <+: calls → done ≠ [] → ∃ t, logwAll s done = some t ∧
    getFileSize t.files t.gFilename ≤ fileMaxSize + maxLogBuf

/-- The line fits into `g_buffer`, or it is so long that `vsnprintf` fails. -/
def Fits (body : Bytes) : Prop := body.length + 21 ≤ maxLogBuf ∨ 2 ^ 31 ≤ body.length

theorem padded_length {width n : Nat} (positive : 0 < width) (small : n < 10 ^ width) :
    (padded width n).length = width := by
  rw [padded, List.length_leftpad,
    max_eq_left ((Nat.length_toDigits_le_iff (by norm_num) positive).mpr small)]

theorem stamp_length (now : Clock) : (premakerstrTime now.toTime).length = 21 := by
  have mon := now.monRange
  have mday := now.mdayRange
  have hour := now.hourRange
  have minute := now.minRange
  have sec := now.secRange
  have nsec := now.nsecRange
  have two : ∀ n, n < 100 → (padded 2 n).length = 2 :=
    fun n small => padded_length (by norm_num) small
  have three : (padded 3 (now.nsec / 1000000)).length = 3 :=
    padded_length (by norm_num) (by omega)
  simp only [premakerstrTime, ascii, List.length_map, List.length_append, List.length_cons,
    List.length_nil, two _ (by omega : now.mon + 1 < 100), two _ (by omega : now.mday < 100),
    two _ (by omega : now.hour < 100), two _ (by omega : now.min < 100),
    two _ (by omega : now.sec < 100), three]

theorem fillBuffer_defined {stamp : Bytes} (size : stamp.length = 21) (body : Bytes)
    (gBuffer : CharArray 2046) : ∃ filled, fillBuffer stamp body gBuffer = some filled := by
  have stampRoom : 0 + (stamp.take (maxLogBuf - 1) ++ [0]).length ≤ 2046 := by
    rw [List.length_append, List.length_take, List.length_singleton, maxLogBuf]
    omega
  have bodyRoom :
      stamp.length + (body.take (maxLogBuf - stamp.length - 1) ++ [0]).length ≤ 2046 := by
    rw [List.length_append, List.length_take, List.length_singleton, maxLogBuf]
    omega
  obtain ⟨first, stamped⟩ := gBuffer.exists_write stampRoom
  obtain ⟨second, printed⟩ := first.exists_write bodyRoom
  refine ⟨second, ?_⟩
  rw [fillBuffer, stamped]
  exact printed

theorem passed_iff (body : Bytes) :
    (∃ n, CInt.checked (formattedSize body + 21) = some n ∧ 0 ≤ n ∧ n ≤ maxLogBuf) ↔ Fits body := by
  rw [Fits, formattedSize]
  split
  · next small =>
      constructor
      · intro passed
        obtain ⟨n, counted, -, bound⟩ := passed
        obtain ⟨same, -, -⟩ := CInt.checked_eq_some.mp counted
        left
        omega
      · intro fits
        rw [maxLogBuf] at fits ⊢
        exact ⟨_, CInt.checked_eq_some.mpr ⟨rfl, by omega, by omega⟩, by omega, by omega⟩
  · next large =>
      constructor
      · intro _
        right
        omega
      · intro _
        exact ⟨20, CInt.checked_eq_some.mpr ⟨rfl, by norm_num, by norm_num⟩, by norm_num,
          by rw [maxLogBuf]; norm_num⟩

structure Opened (name : Name) (s : State) : Prop where
  fp : s.fp = some ⟨some name, []⟩
  gFilename : s.gFilename = name
  short : name.length < 128
  present : ∃ content, s.files name = some content

theorem opened_size {name : Name} {s : State} (opened : Opened name s) {content : Bytes}
    (held : s.files name = some content) : getFileSize s.files s.gFilename = content.length := by
  rw [opened.gFilename, getFileSize, held]

theorem rotateLog_spec {name : Name} {s : State} (opened : Opened name s) :
    ∃ t, rotateLog s = some t ∧ Opened name t ∧ t.files name = some [] := by
  obtain ⟨content, held⟩ := opened.present
  have copied : sprintf 256 s.gFilename = some name := by
    rw [opened.gFilename, sprintf, if_pos (by have := opened.short; omega)]
  have gone : unlink s name =
      { s with files := Function.update s.files name none, fp := some ⟨none, []⟩ } := by
    simp only [unlink, held, opened.fp, Option.map_some, if_true]
  have missing : rename (Function.update s.files name none) name name =
      Function.update s.files name none := by
    rw [rename, if_pos (.inr rfl)]
  refine ⟨{ s with
    files := Function.update s.files name (some [])
    fp := some ⟨some name, []⟩
    gRotate := 1 }, ?_, ⟨rfl, opened.gFilename, opened.short, [], ?_⟩, ?_⟩
  · rw [rotateLog, copied, Option.bind_eq_bind, Option.bind_some, gone]
    simp only [fclose, fflush, opened.gFilename, missing, logInit, fopenAppend,
      Function.update_self, Function.update_idem, Option.bind_eq_bind, Option.bind_some,
      one_ne_zero, if_false]
  · exact Function.update_self ..
  · exact Function.update_self ..

theorem rotateIfLong_spec {name : Name} {s : State} (opened : Opened name s) :
    ∃ t content, rotateIfLong s = some t ∧ Opened name t ∧ t.files name = some content ∧
      content.length ≤ fileMaxSize := by
  obtain ⟨content, held⟩ := opened.present
  have size := opened_size opened held
  rw [rotateIfLong]
  by_cases long : getFileSize s.files s.gFilename > fileMaxSize
  · obtain ⟨t, ran, again, emptied⟩ := rotateLog_spec opened
    exact ⟨t, [], by rw [if_pos long, ran], again, emptied, Nat.zero_le _⟩
  · exact ⟨s, content, by rw [if_neg long], opened, held, by omega⟩

theorem writeLog_spec {name : Name} {s : State} (opened : Opened name s) {n : Int}
    (lower : 0 ≤ n) (upper : n ≤ maxLogBuf) :
    ∃ t, writeLog (some n) s = some t ∧ Opened name t ∧
      getFileSize t.files t.gFilename ≤ fileMaxSize + maxLogBuf := by
  obtain ⟨u, content, ran, opened', held, bound⟩ := rotateIfLong_spec opened
  obtain ⟨cleared, wrote⟩ := u.gBuffer.exists_write (by norm_num : 0 + [(0 : UInt8)].length ≤ 2046)
  have passed : (u.gBuffer.bytes.take n.toNat).length ≤ maxLogBuf := by
    rw [List.length_take]
    omega
  by_cases nothing : n = 0
  · refine ⟨{ u with gBuffer := cleared }, ?_,
      ⟨opened'.fp, opened'.gFilename, opened'.short, opened'.present⟩, ?_⟩
    · rw [writeLog, ran]
      simp [fwrite, nothing, opened'.fp, wrote]
    · rw [opened_size (s := { u with gBuffer := cleared })
        ⟨opened'.fp, opened'.gFilename, opened'.short, opened'.present⟩ held]
      omega
  · have stored : Opened name { u with
        files := Function.update u.files name (some (content ++ u.gBuffer.bytes.take n.toNat))
        fp := some ⟨some name, []⟩
        gBuffer := cleared } :=
      ⟨rfl, opened'.gFilename, opened'.short, _, Function.update_self ..⟩
    refine ⟨_, ?_, stored, ?_⟩
    · rw [writeLog, ran]
      simp only [Option.bind_eq_bind, Option.bind_some, fwrite, if_pos (And.intro lower upper),
        if_neg nothing, if_true, opened'.fp, Option.map_some, List.nil_append, fflush, held,
        Option.getD_some, wrote]
    · rw [opened_size stored (Function.update_self ..), List.length_append]
      omega

/-- Bytes from outside `g_buffer` would be passed. -/
theorem writeLog_outside {count : Option Int} (s : State)
    (outside : ¬∃ n, count = some n ∧ 0 ≤ n ∧ n ≤ maxLogBuf) : writeLog count s = none := by
  rw [writeLog]
  cases rotateIfLong s with
  | none => rfl
  | some t =>
      cases count with
      | none => rfl
      | some n =>
          have bad : ¬(0 ≤ n ∧ n ≤ maxLogBuf) := fun within => outside ⟨n, rfl, within⟩
          simp only [Option.bind_eq_bind, Option.bind_some, fwrite, if_neg bad, Option.bind_none]

/-- With an open log a call succeeds exactly for a line that fits, and then keeps the bound. -/
theorem logw_spec {name : Name} {s : State} (opened : Opened name s) (call : Clock × Bytes) :
    (Fits call.2 → ∃ t, logw call.1 call.2 s = some t ∧ Opened name t ∧
      getFileSize t.files t.gFilename ≤ fileMaxSize + maxLogBuf) ∧
    (¬Fits call.2 → logw call.1 call.2 s = none) := by
  obtain ⟨now, body⟩ := call
  have size := stamp_length now
  obtain ⟨filled, printed⟩ := fillBuffer_defined size body s.gBuffer
  have ready : Opened name { s with gBuffer := filled } :=
    ⟨opened.fp, opened.gFilename, opened.short, opened.present⟩
  have step : logw now body s =
      writeLog (CInt.checked (formattedSize body + 21)) { s with gBuffer := filled } := by
    simp only [logw, printed, Option.bind_eq_bind, Option.bind_some, opened.fp, size,
      Nat.cast_ofNat]
  rw [step, ← passed_iff]
  constructor
  · intro passed
    obtain ⟨n, counted, lower, upper⟩ := passed
    rw [counted]
    exact writeLog_spec ready lower upper
  · exact writeLog_outside _

theorem bounded_cons (s : State) (call : Clock × Bytes) (rest : List (Clock × Bytes)) :
    Bounded s (call :: rest) ↔ ∃ t, logw call.1 call.2 s = some t ∧
      getFileSize t.files t.gFilename ≤ fileMaxSize + maxLogBuf ∧ Bounded t rest := by
  have step : ∀ done t, logw call.1 call.2 s = some t →
      logwAll s (call :: done) = logwAll t done := by
    intro done t ran
    rw [logwAll, List.foldlM_cons, ran]
    rfl
  constructor
  · intro bounded
    obtain ⟨t, first, bound⟩ := bounded [call] (by simp) (by simp)
    have ran : logw call.1 call.2 s = some t := by
      simpa [logwAll] using first
    refine ⟨t, ran, bound, ?_⟩
    intro done front _
    rw [← step done t ran]
    exact bounded (call :: done) (List.cons_prefix_cons.mpr ⟨rfl, front⟩) (by simp)
  · intro found done front nonempty
    obtain ⟨t, ran, bound, later⟩ := found
    cases done with
    | nil => exact absurd rfl nonempty
    | cons head done =>
        obtain ⟨rfl, front'⟩ := List.cons_prefix_cons.mp front
        rw [step done t ran]
        by_cases last : done = []
        · subst last
          exact ⟨t, rfl, bound⟩
        · exact later done front' last

theorem bounded_opened_iff {name : Name} (calls : List (Clock × Bytes)) (s : State)
    (opened : Opened name s) : Bounded s calls ↔ ∀ call ∈ calls, Fits call.2 := by
  induction calls generalizing s with
  | nil =>
      constructor
      · intro _ call member
        cases member
      · intro _ done front nonempty
        exact absurd (List.prefix_nil.mp front) nonempty
  | cons call rest ih =>
      obtain ⟨writes, fails⟩ := logw_spec opened call
      rw [bounded_cons, List.forall_mem_cons]
      by_cases fits : Fits call.2
      · obtain ⟨t, ran, opened', bound⟩ := writes fits
        rw [and_iff_right fits, ← ih t opened', ran]
        constructor
        · intro found
          obtain ⟨u, same, -, later⟩ := found
          cases same
          exact later
        · intro later
          exact ⟨t, rfl, bound, later⟩
      · rw [fails fits]
        simp [fits]

theorem opened_init {files : Name → Option Bytes} {name : Name} {s : State}
    (initialised : logInit (some name) (start files) = some (0, s)) : Opened name s := by
  simp only [logInit, start, if_true, Option.bind_eq_bind, Option.bind_eq_some_iff] at initialised
  obtain ⟨copy, copied, result⟩ := initialised
  obtain ⟨short, rfl⟩ := sprintf_eq_some.mp copied
  obtain rfl := (Prod.mk.inj (Option.some.inj result)).2
  rw [fopenAppend]
  split
  · exact ⟨rfl, rfl, short, [], Function.update_self ..⟩
  · next content held => exact ⟨rfl, rfl, short, content, held⟩

/-- After `log_init` only bytes of `g_buffer` are written and the log keeps its bound exactly if every
line fits into `g_buffer` or is too long for `vsnprintf`. -/
theorem logw_bounded_iff (files : Name → Option Bytes) (name : Name) (s : State)
    (initialised : logInit (some name) (start files) = some (0, s))
    (calls : List (Clock × Bytes)) : Bounded s calls ↔ ∀ call ∈ calls, Fits call.2 :=
  bounded_opened_iff calls s (opened_init initialised)

def midnight : Clock :=
  ⟨⟨0, 1, 0, 0, 0, 0⟩, by decide, by decide, by decide, by decide, by decide, by decide⟩

theorem logw_bounded_one_line :
    Bounded (fopenAppend { start (fun _ => none) with gFilename := [97] } [97])
        [(midnight, [104, 105])] ↔
      ∀ call ∈ [(midnight, ([104, 105] : Bytes))], Fits call.2 :=
  logw_bounded_iff (fun _ => none) [97] _ rfl [(midnight, [104, 105])]

/-- A message of 2026 bytes makes `fwrite` read one byte behind `g_buffer`. -/
theorem long_line_reads_outside :
    logw midnight (List.replicate 2026 120)
      (fopenAppend { start (fun _ => none) with gFilename := [97] } [97]) = none := by
  have opened : Opened [97] (fopenAppend { start (fun _ => none) with gFilename := [97] } [97]) :=
    @opened_init (fun _ => none) _ _ rfl
  apply (logw_spec opened (midnight, List.replicate 2026 120)).2
  intro fits
  rw [Fits, List.length_replicate, maxLogBuf] at fits
  omega

end DataStructure.SingleLog
