import DataStructure.Lib.CInt

/-! The job queue of `socket/libcurl/pool/multi.cpp`.

A `long` is an `Int`; the counters kept in an `int` are converted or checked where the source
does so. `none` stands for the signed overflow of the loop counter. The lengths the server
reports and whether a local file can be opened are parameters. -/

namespace DataStructure.Download

def segSize : Int := 20 * 1024 * 1024

def intMax : Int := 2147483647

structure JobInfo (Url : Type) where
  -- which of the opened files, by its place in `closed_vec`
  fp : Nat
  startPos : Int
  stopPos : Int
  url : Url
  ranged : Bool
  deriving DecidableEq, Repr

structure Queue (Url : Type) where
  ranged : Bool
  closedVec : List Url
  downloadMap : AList fun _ : Url => Int
  jobs : List (JobInfo Url)

variable {Url : Type}

/-- Start and stop of segment `i`, none where the loop breaks. -/
def segmentRange (fileLen segNum : Int) (i : Nat) : Option (Int × Int) :=
  if i < segNum then some (i * segSize, (i + 1) * segSize - 1)
  else if fileLen % segSize ≠ 0 then some (i * segSize, fileLen - 1)
  else none

/-- The segment loop from `i` on, with `left` values of `i` up to `seg_num` to come. -/
def queueSegments (fp : Nat) (url : Url) (fileLen segNum : Int) :
    Nat → Nat → List (JobInfo Url) → Option (List (JobInfo Url))
  | 0, _, jobs => some jobs
  | left + 1, i, jobs =>
      match segmentRange fileLen segNum i with
      | none => some jobs
      | some (start, stop) =>
          -- i++ after the job was pushed
          if (i : Int) = intMax then none
          else queueSegments fp url fileLen segNum left (i + 1)
            (jobs ++ [⟨fp, start, stop, url, true⟩])

def segTotal (ranged : Bool) (fileLen : Int) : Int :=
  let additional : Int := if fileLen % segSize = 0 then 0 else 1
  if ranged then if fileLen < segSize then 1 else CInt.toInt (fileLen / segSize + additional)
  else 1

section Urls

variable [DecidableEq Url] (fileLength : Url → Int) (fopen : Url → Bool)

def queueUrl (q : Queue Url) (url : Url) : Option (Queue Url) :=
  let fileLen := fileLength url
  if fileLen ≤ 0 then some q
  else if fopen url = false then some q
  else
    let fp := q.closedVec.length
    let closedVec := q.closedVec ++ [url]
    let downloadMap := q.downloadMap.insert url (segTotal q.ranged fileLen)
    if fileLen < segSize then
      some ⟨q.ranged, closedVec, downloadMap, q.jobs ++ [⟨fp, 0, fileLen - 1, url, q.ranged⟩]⟩
    else
      let segNum := fileLen / segSize
      (queueSegments fp url fileLen segNum (segNum + 1).toNat 0 q.jobs).map fun jobs =>
        ⟨true, closedVec, downloadMap, jobs⟩

def getJobQueue (urls : List Url) : Option (Queue Url) :=
  urls.foldlM (queueUrl fileLength fopen) ⟨false, [], ∅, []⟩

end Urls

def segmentCount (fileLen : Int) : Nat :=
  ((fileLen + segSize - 1) / segSize).toNat

def segment (fp : Nat) (url : Url) (fileLen : Int) (i : Nat) : JobInfo Url :=
  ⟨fp, i * segSize, min ((i + 1) * segSize) fileLen - 1, url, true⟩

/-- The jobs of a file, given the flag `ranged` as the url finds it. -/
def fileJobs (ranged : Bool) (fp : Nat) (url : Url) (fileLen : Int) : List (JobInfo Url) :=
  if fileLen < segSize then [⟨fp, 0, fileLen - 1, url, ranged⟩]
  else (List.range (segmentCount fileLen)).map (segment fp url fileLen)

theorem segmentCount_inner (fileLen : Int) (i : Nat) (inner : i < fileLen / segSize) :
    i < segmentCount fileLen ∧ (i + 1) * segSize ≤ fileLen := by
  simp only [segmentCount, segSize] at *
  omega

theorem segmentCount_exact (fileLen : Int) (i : Nat) (last : i = fileLen / segSize)
    (exact : fileLen % segSize = 0) : segmentCount fileLen = i := by
  simp only [segmentCount, segSize] at *
  omega

theorem segmentCount_rest (fileLen : Int) (i : Nat) (last : i = fileLen / segSize)
    (rest : fileLen % segSize ≠ 0) :
    segmentCount fileLen = i + 1 ∧ fileLen ≤ (i + 1) * segSize := by
  simp only [segmentCount, segSize] at *
  omega

theorem segmentCount_small (fileLen : Int) (positive : 0 < fileLen) (small : fileLen < segSize) :
    segmentCount fileLen = 1 := by
  simp only [segmentCount, segSize] at *
  omega

theorem segmentRange_eq (fp : Nat) (url : Url) (fileLen : Int) (i : Nat)
    (within : i ≤ fileLen / segSize) :
    (i < segmentCount fileLen ∧ segmentRange fileLen (fileLen / segSize) i =
        some ((segment fp url fileLen i).startPos, (segment fp url fileLen i).stopPos)) ∨
      (i = segmentCount fileLen ∧ segmentRange fileLen (fileLen / segSize) i = none) := by
  rw [segmentRange, segment]
  by_cases inner : (i : Int) < fileLen / segSize
  · obtain ⟨more, within⟩ := segmentCount_inner fileLen i inner
    rw [if_pos inner, min_eq_left within]
    exact .inl ⟨more, rfl⟩
  · have last : (i : Int) = fileLen / segSize := by omega
    rw [if_neg inner]
    by_cases rest : fileLen % segSize = 0
    · rw [if_neg (not_not.2 rest)]
      exact .inr ⟨(segmentCount_exact fileLen i last rest).symm, rfl⟩
    · obtain ⟨count, within⟩ := segmentCount_rest fileLen i last rest
      rw [if_pos rest, min_eq_right within]
      exact .inl ⟨by omega, rfl⟩

theorem queueSegments_eq (fp : Nat) (url : Url) (fileLen : Int) (left i : Nat)
    (jobs : List (JobInfo Url)) (turn : (i : Int) + left = fileLen / segSize + 1)
    (fits : i ≤ intMax) (inside : i ≤ segmentCount fileLen) :
    queueSegments fp url fileLen (fileLen / segSize) left i jobs =
      if segmentCount fileLen ≤ intMax then
        some (jobs ++ (List.range' i (segmentCount fileLen - i)).map (segment fp url fileLen))
      else none := by
  induction left generalizing i jobs with
  | zero =>
      have last : segmentCount fileLen = i := by
        simp only [segmentCount, segSize] at *
        omega
      rw [queueSegments, last, if_pos fits]
      simp
  | succ left ih =>
      rw [queueSegments]
      rcases segmentRange_eq fp url fileLen i (by omega) with ⟨more, here⟩ | ⟨last, here⟩
      · rw [here]
        dsimp only
        by_cases full : (i : Int) = intMax
        · rw [if_pos full, if_neg (by omega)]
        · have count : segmentCount fileLen - i = segmentCount fileLen - (i + 1) + 1 := by omega
          rw [if_neg full, ih (i + 1) _ (by push_cast at turn ⊢; omega) (by push_cast; omega) more,
            count, List.range'_succ, List.map_cons, List.append_assoc]
          rfl
      · rw [here, ← last, if_pos fits]
        simp

theorem fileJobs_mem (ranged : Bool) (fp : Nat) (url : Url) (fileLen : Int) (ji : JobInfo Url)
    (inside : ji ∈ fileJobs ranged fp url fileLen) : ji.fp = fp ∧ ji.url = url := by
  rw [fileJobs] at inside
  split at inside
  · rw [List.mem_singleton.1 inside]
    exact ⟨rfl, rfl⟩
  · obtain ⟨i, _, rfl⟩ := List.mem_map.1 inside
    exact ⟨rfl, rfl⟩

theorem fileJobs_length (ranged : Bool) (fp : Nat) (url : Url) (fileLen : Int)
    (positive : 0 < fileLen) : (fileJobs ranged fp url fileLen).length = segmentCount fileLen := by
  rw [fileJobs]
  split
  · next small => rw [segmentCount_small fileLen positive small, List.length_singleton]
  · rw [List.length_map, List.length_range]

variable (fileLength : Url → Int)

variable [DecidableEq Url] (fopen : Url → Bool)

theorem queueUrl_open (q : Queue Url) (url : Url) (positive : 0 < fileLength url)
    (opened : fopen url = true) :
    queueUrl fileLength fopen q url =
      if segmentCount (fileLength url) ≤ intMax then
        some ⟨q.ranged || decide (segSize ≤ fileLength url), q.closedVec ++ [url],
          q.downloadMap.insert url (segTotal q.ranged (fileLength url)),
          q.jobs ++ fileJobs q.ranged q.closedVec.length url (fileLength url)⟩
      else none := by
  rw [queueUrl, if_neg (by omega), if_neg (by simp [opened]), fileJobs]
  by_cases small : fileLength url < segSize
  · rw [if_pos small, if_pos small, segmentCount_small _ positive small, if_pos (by decide),
      decide_eq_false (by omega), Bool.or_false]
  · have count : ((fileLength url / segSize + 1).toNat : Int) = fileLength url / segSize + 1 := by
      simp only [segSize] at *
      omega
    dsimp only
    rw [if_neg small, if_neg small,
      queueSegments_eq _ url (fileLength url) _ 0 _ (by rw [count]; simp) (by decide) (Nat.zero_le _),
      decide_eq_true (by omega), Bool.or_true, Nat.sub_zero, ← List.range_eq_range']
    split <;> rfl

theorem getJobQueue_snoc (urls : List Url) (url : Url) :
    getJobQueue fileLength fopen (urls ++ [url]) =
      (getJobQueue fileLength fopen urls).bind fun q => queueUrl fileLength fopen q url := by
  simp [getJobQueue, List.foldlM_append]

end DataStructure.Download
