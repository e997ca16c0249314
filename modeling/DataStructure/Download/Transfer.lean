import DataStructure.Lib.FileBytes
import DataStructure.Lib.System
import DataStructure.Download.Queue

/-! The transfers of `socket/libcurl/pool/multi.cpp`.

All segments of a file are written to one `FILE`, each `write_data` call under `g_mutex`. libcurl
hands a transfer's body over in chunks and gives up when the callback returns another count. -/

namespace DataStructure.Download

open FileBytes CInt

/-- A local file; `writes` is what was written so far, for reference. -/
structure File where
  content : List UInt8
  pos : Nat
  writes : List (Write UInt8)

def File.empty : File := ⟨[], 0, []⟩

def fseek (file : File) (pos : Int) : File :=
  if pos < 0 then file else { file with pos := pos.toNat }

/-- The count and the file after writing, none if `ptr` is read beyond its end. -/
def fwrite (ptr : List UInt8) (size nmemb : Nat) (file : File) : Option (Nat × File) :=
  if ptr.length < size * nmemb then none
  else
    let bytes := ptr.take (size * nmemb)
    some (if size = 0 then 0 else nmemb,
      ⟨writeAt 0 file.content file.pos bytes, file.pos + size * nmemb,
        file.writes ++ [⟨file.pos, bytes⟩]⟩)

variable {Url : Type}

def writeData (ptr : List UInt8) (size nmemb : Nat) (ji : JobInfo Url) (file : File) :
    Option (Nat × JobInfo Url × File) :=
  if ji.ranged then
    if toSizeT (ji.startPos + size * nmemb) ≤ toSizeT ji.stopPos then
      (fwrite ptr size nmemb (fseek file ji.startPos)).map fun (written, file) =>
        (written, { ji with startPos := toLong (ji.startPos + size * nmemb) }, file)
    else
      (fwrite ptr 1 (toSizeT (ji.stopPos - ji.startPos + 1)) (fseek file ji.startPos)).map
        fun (written, file) => (written, { ji with startPos := ji.stopPos }, file)
  else
    (fwrite ptr size nmemb file).map fun (written, file) => (written, ji, file)

structure State (Url : Type) (n : Nat) where
  file : File
  job : Fin n → JobInfo Url
  chunks : Fin n → List (List UInt8)

def transfer {n : Nat} (s : State Url n) (i : Fin n) : Outcome (State Url n) :=
  match s.chunks i with
  | [] => .waits
  | chunk :: rest =>
      match writeData chunk 1 chunk.length (s.job i) s.file with
      | none => .fault
      | some (written, ji, file) =>
          .next ⟨file, Function.update s.job i ji,
            Function.update s.chunks i (if written = chunk.length then rest else [])⟩

def download (jobs : List (JobInfo Url)) (body : Fin jobs.length → List (List UInt8)) :
    System (State Url jobs.length) (Fin jobs.length) where
  initial s := s = ⟨.empty, jobs.get, body⟩
  step := transfer

def requested (remote : List UInt8) (ji : JobInfo Url) : List UInt8 :=
  (remote.drop ji.startPos.toNat).take (ji.stopPos - ji.startPos + 1).toNat

/-- The server answers every request with the bytes of its range, in chunks that are not
empty. -/
def Answers (remote : List UInt8) (jobs : List (JobInfo Url))
    (body : Fin jobs.length → List (List UInt8)) : Prop :=
  ∀ i, (∀ chunk ∈ body i, chunk ≠ []) ∧ (body i).flatten = requested remote (jobs.get i)

def Apart (a b : JobInfo Url) : Prop :=
  a.stopPos < b.startPos ∨ b.stopPos < a.startPos

def Covers (jobs : List (JobInfo Url)) (fileLen : Int) : Prop :=
  ∀ x, (∃ ji ∈ jobs, ji.startPos ≤ x ∧ x ≤ ji.stopPos) ↔ 0 ≤ x ∧ x ≤ fileLen - 1

theorem fwrite_whole (chunk : List UInt8) (file : File) :
    fwrite chunk 1 chunk.length file = some (chunk.length,
      ⟨writeAt 0 file.content file.pos chunk, file.pos + chunk.length,
        file.writes ++ [⟨file.pos, chunk⟩]⟩) := by
  simp [fwrite]

/-- A chunk that fits into what is left of the range is written there whole; after the last one
`startPos` stays at the last byte. -/
theorem writeData_fits (chunk : List UInt8) (ji : JobInfo Url) (file : File)
    (ranged : ji.ranged = true) (something : chunk ≠ []) (lower : 0 ≤ ji.startPos)
    (fits : ji.startPos + chunk.length ≤ ji.stopPos + 1) (upper : ji.stopPos < 2 ^ 62) :
    ∃ ji', writeData chunk 1 chunk.length ji file = some (chunk.length, ji',
        ⟨writeAt 0 file.content ji.startPos.toNat chunk, ji.startPos.toNat + chunk.length,
          file.writes ++ [⟨ji.startPos.toNat, chunk⟩]⟩) ∧
      (ji.startPos + chunk.length < ji.stopPos + 1 →
        ji' = { ji with startPos := ji.startPos + chunk.length }) := by
  have length := List.length_pos_of_ne_nil something
  have seek : fseek file ji.startPos = { file with pos := ji.startPos.toNat } := by
    rw [fseek, if_neg (by omega)]
  have next : toSizeT (ji.startPos + (1 : Nat) * chunk.length) = ji.startPos.toNat + chunk.length := by
    rw [toSizeT]
    omega
  have stop : toSizeT ji.stopPos = ji.stopPos.toNat := by
    rw [toSizeT]
    omega
  rw [writeData, if_pos ranged, next, stop, seek]
  by_cases inner : ji.startPos.toNat + chunk.length ≤ ji.stopPos.toNat
  · have moved : toLong (ji.startPos + (1 : Nat) * chunk.length) = ji.startPos + chunk.length := by
      rw [toLong, Int.bmod_eq_of_le (by omega) (by omega)]
      omega
    rw [if_pos inner, fwrite_whole, moved]
    exact ⟨_, rfl, fun _ => rfl⟩
  · have count : toSizeT (ji.stopPos - ji.startPos + 1) = chunk.length := by
      rw [toSizeT]
      omega
    rw [if_neg inner, count, fwrite_whole]
    refine ⟨_, rfl, ?_⟩
    omega

structure Splits (jobs : List (JobInfo Url)) (fileLen : Int) : Prop where
  ranged : ∀ ji ∈ jobs, ji.ranged = true
  bounds : ∀ ji ∈ jobs, 0 ≤ ji.startPos ∧ ji.startPos ≤ ji.stopPos ∧ ji.stopPos < 2 ^ 62
  apart : jobs.Pairwise Apart
  covers : Covers jobs fileLen

section Run

variable {jobs : List (JobInfo Url)} {fileLen : Int} (splits : Splits jobs fileLen)
  {remote : List UInt8} (whole : remote.length = fileLen)

def start (jobs : List (JobInfo Url)) (i : Fin jobs.length) : Nat :=
  (jobs.get i).startPos.toNat

structure Progress (remote : List UInt8) (taken : Fin jobs.length → Nat)
    (s : State Url jobs.length) : Prop where
  content : s.file.content = writeAll 0 [] s.file.writes
  pieces : ∀ w ∈ s.file.writes, w.Of remote
  once : Once (start jobs) s.file.writes taken
  within : ∀ i, taken i ≤ (requested remote (jobs.get i)).length
  rest : ∀ i, (s.chunks i).flatten = (requested remote (jobs.get i)).drop (taken i)
  nonempty : ∀ i, ∀ chunk ∈ s.chunks i, chunk ≠ []
  job : ∀ i, s.chunks i ≠ [] →
    s.job i = { jobs.get i with startPos := (jobs.get i).startPos + taken i }

include splits in
theorem splits_apart (i j : Fin jobs.length) (other : i ≠ j) : Apart (jobs.get i) (jobs.get j) := by
  have ordered := List.pairwise_iff_get.1 splits.apart
  rcases lt_or_gt_of_ne other with before | after
  · exact ordered i j before
  · exact (ordered j i after).symm

include splits whole in
theorem requested_length (i : Fin jobs.length) :
    ((requested remote (jobs.get i)).length : Int) =
        (jobs.get i).stopPos - (jobs.get i).startPos + 1 ∧
      (jobs.get i).stopPos < remote.length := by
  have inside : jobs.get i ∈ jobs := List.get_mem jobs i
  have bounds := splits.bounds _ inside
  have last := ((splits.covers (jobs.get i).stopPos).1 ⟨_, inside, bounds.2.1, le_rfl⟩).2
  rw [requested, List.length_take, List.length_drop]
  omega

theorem requested_get (remote : List UInt8) (ji : JobInfo Url) (k : Nat)
    (inside : k < (requested remote ji).length) :
    (requested remote ji)[k]? = remote[ji.startPos.toNat + k]? := by
  rw [requested] at inside ⊢
  rw [List.length_take] at inside
  rw [List.getElem?_take_of_lt (by omega), List.getElem?_drop]

theorem progress_start (body : Fin jobs.length → List (List UInt8))
    (answers : Answers remote jobs body) :
    Progress remote (fun _ => 0) (⟨.empty, jobs.get, body⟩ : State Url jobs.length) where
  content := rfl
  pieces := by simp [File.empty]
  once := by
    intro x
    refine ⟨?_, fun _ => rfl⟩
    rintro ⟨i, lower, upper⟩
    dsimp only at upper
    omega
  within := fun _ => Nat.zero_le _
  rest := fun i => (answers i).2
  nonempty := fun i => (answers i).1
  job := by
    intro i _
    simp

theorem chunk_fits (taken : Fin jobs.length → Nat) (s : State Url jobs.length)
    (progress : Progress remote taken s) (i : Fin jobs.length) (chunk : List UInt8)
    (rest : List (List UInt8)) (here : s.chunks i = chunk :: rest) :
    taken i + chunk.length ≤ (requested remote (jobs.get i)).length ∧
      (rest ≠ [] → taken i + chunk.length < (requested remote (jobs.get i)).length) := by
  have lengths := congrArg List.length (progress.rest i)
  have within := progress.within i
  rw [here, List.flatten_cons, List.length_append, List.length_drop] at lengths
  refine ⟨by omega, ?_⟩
  intro more
  obtain ⟨next, later, rfl⟩ := List.exists_cons_of_ne_nil more
  have something := progress.nonempty i next (by simp [here])
  have positive := List.length_pos_of_ne_nil something
  rw [List.flatten_cons, List.length_append] at lengths
  omega

include splits whole in
theorem transfer_next (taken : Fin jobs.length → Nat) (s : State Url jobs.length)
    (progress : Progress remote taken s) (i : Fin jobs.length) (chunk : List UInt8)
    (rest : List (List UInt8)) (here : s.chunks i = chunk :: rest) :
    ∃ ji, transfer s i = .next
        ⟨⟨writeAt 0 s.file.content (start jobs i + taken i) chunk,
            start jobs i + taken i + chunk.length,
            s.file.writes ++ [⟨start jobs i + taken i, chunk⟩]⟩,
          Function.update s.job i ji, Function.update s.chunks i rest⟩ ∧
      (rest ≠ [] → ji =
        { jobs.get i with startPos := (jobs.get i).startPos + (taken i + chunk.length : Nat) }) := by
  have inside : jobs.get i ∈ jobs := List.get_mem jobs i
  have bounds := splits.bounds _ inside
  have length := (requested_length splits whole i).1
  obtain ⟨fits, more⟩ := chunk_fits taken s progress i chunk rest here
  have job := progress.job i (by simp [here])
  have place : ((jobs.get i).startPos + taken i).toNat = start jobs i + taken i := by
    rw [start]
    omega
  obtain ⟨ji, wrote, moved⟩ := writeData_fits chunk (s.job i) s.file
    (by rw [job]; exact splits.ranged (jobs.get i) inside) (progress.nonempty i chunk (by simp [here]))
    (by rw [job]; dsimp only; omega) (by rw [job]; dsimp only; omega)
    (by rw [job]; exact bounds.2.2)
  rw [job] at wrote moved
  dsimp only at wrote moved
  rw [place] at wrote
  refine ⟨ji, ?_, ?_⟩
  · rw [transfer, here]
    dsimp only
    rw [job, wrote]
    dsimp only
    rw [if_pos rfl]
  · intro later
    rw [moved (by have := more later; omega), Nat.cast_add, add_assoc]

include splits whole in
/-- A chunk is a piece of the remote file that no transfer has written yet. -/
theorem chunk_fresh (taken : Fin jobs.length → Nat) (s : State Url jobs.length)
    (progress : Progress remote taken s) (i : Fin jobs.length) (chunk : List UInt8)
    (rest : List (List UInt8)) (here : s.chunks i = chunk :: rest) (x : Nat)
    (lower : start jobs i + taken i ≤ x) (upper : x < start jobs i + taken i + chunk.length) :
    ¬ Reached (start jobs) taken x := by
  rintro ⟨j, lower', upper'⟩
  have fits := (chunk_fits taken s progress i chunk rest here).1
  have within := progress.within j
  have lengthI := (requested_length splits whole i).1
  have lengthJ := (requested_length splits whole j).1
  have boundsI := splits.bounds _ (List.get_mem jobs i)
  have boundsJ := splits.bounds _ (List.get_mem jobs j)
  by_cases same : j = i
  · subst same
    omega
  · have apart := splits_apart splits i j (Ne.symm same)
    rw [Apart] at apart
    simp only [start] at *
    omega

include splits whole in
theorem chunk_of (taken : Fin jobs.length → Nat) (s : State Url jobs.length)
    (progress : Progress remote taken s) (i : Fin jobs.length) (chunk : List UInt8)
    (rest : List (List UInt8)) (here : s.chunks i = chunk :: rest) :
    Write.Of remote ⟨start jobs i + taken i, chunk⟩ := by
  have fits := (chunk_fits taken s progress i chunk rest here).1
  have bounds := splits.bounds _ (List.get_mem jobs i)
  obtain ⟨length, last⟩ := requested_length splits whole i
  refine ⟨?_, ?_⟩
  · simp only [start]
    omega
  · intro k inside
    dsimp only at inside ⊢
    have bytes := congrArg (fun bytes => bytes[k]?) (progress.rest i)
    rw [here, List.flatten_cons, List.getElem?_append_left inside, List.getElem?_drop,
      requested_get remote (jobs.get i) _ (by omega)] at bytes
    rw [bytes, start, Nat.add_assoc]

include splits whole in
theorem progress_step (taken : Fin jobs.length → Nat) (s t : State Url jobs.length)
    (i : Fin jobs.length) (progress : Progress remote taken s) (moved : transfer s i = .next t) :
    ∃ taken', Progress remote taken' t := by
  cases here : s.chunks i with
  | nil => simp [transfer, here] at moved
  | cons chunk rest =>
      obtain ⟨ji, next, job⟩ := transfer_next splits whole taken s progress i chunk rest here
      rw [next] at moved
      cases moved
      refine ⟨Function.update taken i (taken i + chunk.length), ?_, ?_, ?_, ?_, ?_, ?_, ?_⟩
      · rw [writeAll_snoc, ← progress.content]
      · intro w written
        rcases List.mem_append.1 written with earlier | last
        · exact progress.pieces w earlier
        · rw [List.mem_singleton.1 last]
          exact chunk_of splits whole taken s progress i chunk rest here
      · exact once_snoc (start jobs) s.file.writes taken i chunk progress.once
          (chunk_fresh splits whole taken s progress i chunk rest here)
      · intro j
        by_cases self : j = i
        · subst self
          rw [Function.update_self]
          exact (chunk_fits taken s progress j chunk rest here).1
        · rw [Function.update_of_ne self]
          exact progress.within j
      · intro j
        by_cases self : j = i
        · subst self
          have bytes := progress.rest j
          rw [here, List.flatten_cons] at bytes
          simp only [Function.update_self]
          rw [← List.drop_drop, ← bytes, List.drop_left]
        · simp only [Function.update_of_ne self]
          exact progress.rest j
      · intro j piece
        by_cases self : j = i
        · subst self
          simp only [Function.update_self]
          intro inside
          exact progress.nonempty j piece (by simp [here, inside])
        · simp only [Function.update_of_ne self]
          exact progress.nonempty j piece
      · intro j
        by_cases self : j = i
        · subst self
          simp only [Function.update_self]
          exact job
        · simp only [Function.update_of_ne self]
          exact progress.job j

include splits whole in
theorem reachable_progress (body : Fin jobs.length → List (List UInt8))
    (answers : Answers remote jobs body) (s : State Url jobs.length)
    (reached : (download jobs body).Reachable s) : ∃ taken, Progress remote taken s := by
  refine (download jobs body).invariant (fun s => ∃ taken, Progress remote taken s) ?_ ?_ reached
  · rintro s rfl
    exact ⟨_, progress_start body answers⟩
  · rintro s i t ⟨taken, progress⟩ moved
    exact progress_step splits whole taken s t i progress moved

end Run

end DataStructure.Download
