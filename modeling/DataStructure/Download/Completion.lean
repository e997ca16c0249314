import DataStructure.Lib.System
import DataStructure.Download.Queue

/-! The completion counters of `socket/libcurl/pool/multi.cpp`.

`get_job_queue` puts a count of segments into `download_map` for every url, each `job_process`
takes one off when it is through, and `main` polls the map until all counters are zero. -/

namespace DataStructure.Download

variable {Url : Type} [DecidableEq Url]

structure Watch (Url : Type) (n : Nat) where
  downloadMap : AList fun _ : Url => Int
  done : Fin n → Bool
  reported : Bool

inductive WatchEvent (n : Nat) where
  | finish (i : Fin n)
  | poll

def jobProcess (jobs : List (JobInfo Url)) (s : Watch Url jobs.length) (i : Fin jobs.length) :
    Outcome (Watch Url jobs.length) :=
  if s.done i then .waits
  else
    let url := (jobs.get i).url
    let counter := (s.downloadMap.lookup url).getD 0
    .next { s with
      downloadMap := s.downloadMap.insert url (counter - 1)
      done := Function.update s.done i true }

def finished (downloadMap : AList fun _ : Url => Int) : Nat :=
  downloadMap.entries.countP fun entry => entry.2 = 0

/-- One round of `main`'s loop; `finished` is an `int`. -/
def pollMap {n : Nat} (s : Watch Url n) : Outcome (Watch Url n) :=
  if s.reported then .waits
  else if (finished s.downloadMap : Int) > intMax then .fault
  else if finished s.downloadMap = s.downloadMap.entries.length then
    .next { s with reported := true }
  else .next s

def completion (q : Queue Url) : System (Watch Url q.jobs.length) (WatchEvent q.jobs.length) where
  initial s := s = ⟨q.downloadMap, fun _ => false, false⟩
  step s
    | .finish i => jobProcess q.jobs s i
    | .poll => pollMap s

/-- The counters start at the number of jobs, a counter is zero exactly when the jobs of its url
are through, and `main` reports the end only when all jobs are. -/
def CountsDown (urls : List Url) (q : Queue Url) : Prop :=
  (∀ url ∈ urls, q.downloadMap.lookup url = some (q.jobs.countP (·.url = url) : Int)) ∧
    ∀ s, (completion q).Reachable s →
      (∀ url ∈ urls, s.downloadMap.lookup url = some 0 ↔
        ∀ i, (q.jobs.get i).url = url → s.done i = true) ∧
      (s.reported = true → ∀ i, s.done i = true) ∧
      (completion q).step s .poll ≠ .fault

/-- The first url whose file is cut into segments has a single one. -/
def FirstLargeFits (fileLength : Url → Int) (urls : List Url) : Prop :=
  ∀ url, urls.find? (segSize ≤ fileLength ·) = some url → fileLength url = segSize

theorem segTotal_right (ranged : Bool) (fileLen : Int) (positive : 0 < fileLen)
    (fits : segmentCount fileLen ≤ intMax) :
    segTotal ranged fileLen = segmentCount fileLen ↔ ranged = true ∨ segmentCount fileLen = 1 := by
  by_cases small : fileLen < segSize
  · rw [segmentCount_small fileLen positive small, segTotal]
    simp [small]
  · cases ranged with
    | false =>
        simp only [segTotal, Bool.false_eq_true, if_false, false_or]
        omega
    | true =>
        have count : fileLen / segSize + (if fileLen % segSize = 0 then 0 else 1) =
            segmentCount fileLen := by
          split <;> simp only [segmentCount, segSize] at * <;> omega
        have converted : CInt.toInt (segmentCount fileLen) = segmentCount fileLen := by
          apply CInt.toInt_of_small <;> simp only [intMax] at fits <;> omega
        simp only [segTotal, if_true, if_neg small, count, converted, true_or]

theorem segmentCount_one (fileLen : Int) (large : segSize ≤ fileLen) :
    segmentCount fileLen = 1 ↔ fileLen = segSize := by
  simp only [segmentCount, segSize] at *
  omega

variable (fileLength : Url → Int)

omit [DecidableEq Url] in
theorem firstLargeFits_snoc (urls : List Url) (url : Url) (positive : 0 < fileLength url) :
    FirstLargeFits fileLength (urls ++ [url]) ↔ FirstLargeFits fileLength urls ∧
      (urls.any (segSize ≤ fileLength ·) = true ∨ segmentCount (fileLength url) = 1) := by
  rw [FirstLargeFits, FirstLargeFits, List.find?_append]
  cases first : urls.find? (segSize ≤ fileLength ·) with
  | some found =>
      have any : urls.any (segSize ≤ fileLength ·) = true := by
        rw [List.any_eq_true]
        have large := List.find?_some first
        exact ⟨found, List.mem_of_find?_eq_some first, large⟩
      simp [any]
  | none =>
      have any : urls.any (segSize ≤ fileLength ·) = false := by
        rw [List.any_eq_false]
        exact List.find?_eq_none.1 first
      by_cases large : segSize ≤ fileLength url
      · simp [any, large, segmentCount_one]
      · simp [any, large, segmentCount_small (fileLength url) positive (by omega)]

structure Counting (urls : List Url) (q : Queue Url) : Prop where
  ranged : q.ranged = urls.any (segSize ≤ fileLength ·)
  keys : q.downloadMap.keys.Perm urls
  listed : ∀ ji ∈ q.jobs, ji.url ∈ urls
  jobs : ∀ url ∈ urls, q.jobs.countP (·.url = url) = segmentCount (fileLength url)
  right : (∀ url ∈ urls, q.downloadMap.lookup url = some (segmentCount (fileLength url) : Int)) ↔
    FirstLargeFits fileLength urls

theorem fileJobs_countP (ranged : Bool) (fp : Nat) (url other : Url) (fileLen : Int)
    (positive : 0 < fileLen) :
    (fileJobs ranged fp url fileLen).countP (·.url = other) =
      if other = url then segmentCount fileLen else 0 := by
  split
  · next self =>
      rw [← fileJobs_length ranged fp url fileLen positive, List.countP_eq_length]
      intro ji member
      rw [(fileJobs_mem _ _ _ _ ji member).2, self]
      simp
  · next apart =>
      rw [List.countP_eq_zero]
      intro ji member
      rw [(fileJobs_mem _ _ _ _ ji member).2]
      simpa using Ne.symm apart

theorem counting_open (urls : List Url) (url : Url) (q : Queue Url) (fresh : url ∉ urls)
    (positive : 0 < fileLength url) (fits : segmentCount (fileLength url) ≤ intMax)
    (counting : Counting fileLength urls q) :
    Counting fileLength (urls ++ [url])
      ⟨q.ranged || decide (segSize ≤ fileLength url), q.closedVec ++ [url],
        q.downloadMap.insert url (segTotal q.ranged (fileLength url)),
        q.jobs ++ fileJobs q.ranged q.closedVec.length url (fileLength url)⟩ where
  ranged := by
    rw [counting.ranged]
    simp
  keys := by
    rw [AList.keys_insert, List.erase_of_not_mem]
    · exact (counting.keys.cons url).trans (List.perm_append_singleton url urls).symm
    · rw [counting.keys.mem_iff]
      exact fresh
  listed := by
    intro ji inside
    rcases List.mem_append.1 inside with earlier | added
    · exact List.mem_append_left _ (counting.listed ji earlier)
    · rw [(fileJobs_mem _ _ _ _ ji added).2]
      simp
  jobs := by
    intro other inside
    rw [List.countP_append]
    rw [fileJobs_countP q.ranged q.closedVec.length url other (fileLength url) positive]
    by_cases self : other = url
    · have earlier : q.jobs.countP (·.url = other) = 0 := by
        rw [List.countP_eq_zero]
        intro ji member
        have := counting.listed ji member
        simp only [decide_eq_true_eq]
        rintro rfl
        exact fresh (self ▸ this)
      rw [earlier, if_pos self, self, Nat.zero_add]
    · have member : other ∈ urls := by simpa [self] using inside
      rw [if_neg self, counting.jobs other member, Nat.add_zero]
  right := by
    rw [firstLargeFits_snoc fileLength urls url positive, ← counting.right, ← counting.ranged,
      ← segTotal_right q.ranged (fileLength url) positive fits]
    simp only [List.mem_append, List.mem_singleton, or_imp, forall_and, forall_eq,
      AList.lookup_insert, Option.some.injEq]
    refine and_congr_left fun _ => forall₂_congr fun other inside => ?_
    rw [AList.lookup_insert_ne]
    rintro rfl
    exact fresh inside

theorem getJobQueue_counting (urls : List Url) (distinct : urls.Nodup)
    (positive : ∀ url ∈ urls, 0 < fileLength url)
    (fits : ∀ url ∈ urls, segmentCount (fileLength url) ≤ intMax) :
    ∃ q, getJobQueue fileLength (fun _ => true) urls = some q ∧ Counting fileLength urls q := by
  induction urls using List.reverseRecOn with
  | nil =>
      refine ⟨_, rfl, rfl, .nil, (by simp), (by simp), ?_⟩
      simp [FirstLargeFits]
  | append_singleton urls url ih =>
      have split := List.nodup_append.1 distinct
      have fresh : url ∉ urls := fun inside => split.2.2 url inside url (by simp) rfl
      obtain ⟨q, ran, counting⟩ := ih split.1 (fun u inside => positive u (by simp [inside]))
        (fun u inside => fits u (by simp [inside]))
      have enough := fits url (by simp)
      rw [getJobQueue_snoc, ran, Option.bind_some,
        queueUrl_open fileLength _ q url (positive url (by simp)) rfl, if_pos enough]
      exact ⟨_, rfl,
        counting_open fileLength urls url q fresh (positive url (by simp)) enough counting⟩

theorem getJobQueue_fits (urls : List Url) (positive : ∀ url ∈ urls, 0 < fileLength url)
    (q : Queue Url) (ran : getJobQueue fileLength (fun _ => true) urls = some q) :
    ∀ url ∈ urls, segmentCount (fileLength url) ≤ intMax := by
  induction urls using List.reverseRecOn generalizing q with
  | nil => simp
  | append_singleton urls url ih =>
      rw [getJobQueue_snoc, Option.bind_eq_some_iff] at ran
      obtain ⟨p, earlier, last⟩ := ran
      intro u inside
      rcases List.mem_append.1 inside with before | self
      · exact ih (fun v member => positive v (by simp [member])) p earlier u before
      · rw [List.mem_singleton.1 self]
        rw [queueUrl_open fileLength _ p url (positive url (by simp)) rfl] at last
        by_contra many
        rw [if_neg many] at last
        cases last

section Run

variable {urls : List Url} {q : Queue Url}

def pendingJobs (jobs : List (JobInfo Url)) (done : Fin jobs.length → Bool) (url : Url) :
    Finset (Fin jobs.length) :=
  Finset.univ.filter fun i => (jobs.get i).url = url ∧ done i = false

structure Counted (urls : List Url) (q : Queue Url) (s : Watch Url q.jobs.length) : Prop where
  keys : s.downloadMap.keys.Perm urls
  counter : ∀ url ∈ urls,
    s.downloadMap.lookup url = some ((pendingJobs q.jobs s.done url).card : Int)
  reported : s.reported = true → ∀ i, s.done i = true

theorem pendingJobs_start (jobs : List (JobInfo Url)) (url : Url) :
    (pendingJobs jobs (fun _ => false) url).card = jobs.countP (·.url = url) := by
  have listed : jobs.countP (·.url = url) =
      (List.finRange jobs.length).countP fun i => (jobs.get i).url = url := by
    conv_lhs => rw [← List.map_get_finRange jobs, List.countP_map]
    rfl
  rw [listed, pendingJobs, Finset.card_def, Finset.filter_val, ← Multiset.countP_eq_card_filter]
  simp only [and_true]
  exact Multiset.coe_countP _ _

theorem pendingJobs_finish (jobs : List (JobInfo Url)) (done : Fin jobs.length → Bool)
    (i : Fin jobs.length) (url : Url) :
    pendingJobs jobs (Function.update done i true) url = (pendingJobs jobs done url).erase i := by
  ext j
  by_cases self : j = i
  · simp [pendingJobs, self]
  · simp [pendingJobs, self]

theorem pendingJobs_empty (jobs : List (JobInfo Url)) (done : Fin jobs.length → Bool) (url : Url) :
    ((pendingJobs jobs done url).card : Int) = 0 ↔
      ∀ i, (jobs.get i).url = url → done i = true := by
  simp [pendingJobs, Finset.filter_eq_empty_iff]

theorem counted_finish (listed : ∀ ji ∈ q.jobs, ji.url ∈ urls) (s t : Watch Url q.jobs.length)
    (i : Fin q.jobs.length) (counted : Counted urls q s) (moved : jobProcess q.jobs s i = .next t) :
    Counted urls q t := by
  have member : (q.jobs.get i).url ∈ urls := listed _ (List.get_mem q.jobs i)
  rw [jobProcess] at moved
  split at moved
  · cases moved
  · next pending =>
      rw [Bool.not_eq_true] at pending
      cases moved
      refine ⟨?_, ?_, ?_⟩
      · rw [AList.keys_insert]
        have present : (q.jobs.get i).url ∈ s.downloadMap.keys := by
          rw [counted.keys.mem_iff]
          exact member
        exact (List.perm_cons_erase present).symm.trans counted.keys
      · intro url inside
        dsimp only
        rw [pendingJobs_finish]
        by_cases self : url = (q.jobs.get i).url
        · have here : i ∈ pendingJobs q.jobs s.done url := by
            simp [pendingJobs, self, pending]
          have positive := Finset.card_pos.2 ⟨i, here⟩
          rw [Finset.card_erase_of_mem here, ← self, AList.lookup_insert, counted.counter url inside,
            Option.getD_some]
          congr 1
          omega
        · have absent : i ∉ pendingJobs q.jobs s.done url := by
            simp only [pendingJobs, Finset.mem_filter, not_and]
            intro _ same
            exact absurd same.symm self
          rw [Finset.erase_eq_of_notMem absent, AList.lookup_insert_ne self]
          exact counted.counter url inside
      · intro reported j
        dsimp only
        rw [counted.reported reported i] at pending
        cases pending

theorem finished_all (s : Watch Url q.jobs.length) (counted : Counted urls q s) :
    finished s.downloadMap = s.downloadMap.entries.length ↔
      ∀ url ∈ urls, ∀ i, (q.jobs.get i).url = url → s.done i = true := by
  rw [finished, List.countP_eq_length]
  constructor
  · intro zero url inside
    have value := zero _ (AList.mem_lookup_iff.1 (counted.counter url inside))
    exact (pendingJobs_empty q.jobs s.done url).1 (of_decide_eq_true value)
  · intro done entry inside
    have looked := AList.mem_lookup_iff.2 inside
    have key : entry.1 ∈ urls := by
      rw [← counted.keys.mem_iff]
      exact List.mem_map_of_mem inside
    rw [Option.mem_def, counted.counter entry.1 key, Option.some.injEq] at looked
    rw [← looked]
    simpa using (pendingJobs_empty q.jobs s.done entry.1).2 (done entry.1 key)

theorem entries_length (s : Watch Url q.jobs.length) (counted : Counted urls q s) :
    s.downloadMap.entries.length = urls.length := by
  rw [← counted.keys.length_eq, AList.keys, List.keys, List.length_map]

theorem counted_poll (listed : ∀ ji ∈ q.jobs, ji.url ∈ urls) (s t : Watch Url q.jobs.length)
    (counted : Counted urls q s) (moved : pollMap s = .next t) : Counted urls q t := by
  rw [pollMap] at moved
  split at moved
  · cases moved
  · split at moved
    · cases moved
    · split at moved
      · next all =>
          cases moved
          refine ⟨counted.keys, counted.counter, ?_⟩
          intro _ i
          have done := (finished_all s counted).1 all
          exact done _ (listed _ (List.get_mem q.jobs i)) i rfl
      · cases moved
        exact counted

theorem poll_fault (s : Watch Url q.jobs.length) (counted : Counted urls q s)
    (many : intMax < urls.length) (open' : s.reported = false)
    (done : ∀ i, s.done i = true) : pollMap s = .fault := by
  have all := (finished_all s counted).2 fun _ _ i _ => done i
  rw [entries_length s counted] at all
  rw [pollMap, if_neg (by simp [open']), if_pos (by omega)]

theorem poll_no_fault (s : Watch Url q.jobs.length) (counted : Counted urls q s)
    (few : urls.length ≤ intMax) : pollMap s ≠ .fault := by
  have most : finished s.downloadMap ≤ urls.length := by
    rw [← entries_length s counted]
    exact List.countP_le_length
  rw [pollMap]
  split
  · simp
  · rw [if_neg (by omega)]
    split <;> simp

theorem reachable_counted (listed : ∀ ji ∈ q.jobs, ji.url ∈ urls)
    (keys : q.downloadMap.keys.Perm urls)
    (right : ∀ url ∈ urls, q.downloadMap.lookup url = some (q.jobs.countP (·.url = url) : Int))
    (s : Watch Url q.jobs.length) (reached : (completion q).Reachable s) : Counted urls q s := by
  refine (completion q).invariant (Counted urls q) ?_ ?_ reached
  · rintro s rfl
    refine ⟨keys, ?_, (by simp)⟩
    intro url inside
    rw [pendingJobs_start]
    exact right url inside
  · intro s e t counted moved
    cases e with
    | finish i => exact counted_finish listed s t i counted moved
    | poll => exact counted_poll listed s t counted moved

theorem finish_jobs (is : List (Fin q.jobs.length)) (distinct : is.Nodup)
    (s : Watch Url q.jobs.length) (pending : ∀ i ∈ is, s.done i = false) :
    ∃ t, (completion q).Leads s t ∧ t.reported = s.reported ∧
      ∀ i, t.done i = (s.done i || decide (i ∈ is)) := by
  induction is generalizing s with
  | nil => exact ⟨s, (completion q).leads_refl s, rfl, by simp⟩
  | cons i is ih =>
      have fresh := List.nodup_cons.1 distinct
      have idle := pending i (by simp)
      obtain ⟨u, moved, open', done⟩ : ∃ u, (completion q).step s (.finish i) = .next u ∧
          u.reported = s.reported ∧ u.done = Function.update s.done i true := by
        simp [completion, jobProcess, idle]
      obtain ⟨t, leads, same, all⟩ := ih fresh.2 u (by
        intro j inside
        rw [done, Function.update_of_ne (by rintro rfl; exact fresh.1 inside)]
        exact pending j (by simp [inside]))
      refine ⟨t, (completion q).leads_trans ((completion q).leads_step moved) leads,
        same.trans open', ?_⟩
      intro j
      rw [all j, done]
      by_cases self : j = i
      · simp [self]
      · simp [self]

end Run

/-- The counters work exactly if no file has more segments than an `int` can count, there are no
more urls than that, and the first file that is cut into segments has just one. -/
theorem counts_down_iff (urls : List Url) (distinct : urls.Nodup)
    (positive : ∀ url ∈ urls, 0 < fileLength url) :
    (∃ q, getJobQueue fileLength (fun _ => true) urls = some q ∧ CountsDown urls q) ↔
      (∀ url ∈ urls, segmentCount (fileLength url) ≤ intMax) ∧ urls.length ≤ intMax ∧
        FirstLargeFits fileLength urls := by
  constructor
  · rintro ⟨q, ran, right, runs⟩
    have fits := getJobQueue_fits fileLength urls positive q ran
    obtain ⟨q', ran', counting⟩ := getJobQueue_counting fileLength urls distinct positive fits
    obtain rfl : q = q' := Option.some.inj (ran.symm.trans ran')
    refine ⟨fits, ?_, ?_⟩
    · by_contra many
      obtain ⟨t, leads, open', all⟩ := finish_jobs (List.finRange q.jobs.length)
        (List.nodup_finRange _) ⟨q.downloadMap, fun _ => false, false⟩ (fun _ _ => rfl)
      have reached : (completion q).Reachable t := ⟨_, rfl, leads⟩
      have counted := reachable_counted counting.listed counting.keys right t reached
      apply (runs t reached).2.2
      exact poll_fault t counted (by omega) open' (fun i => by simp [all i])
    · rw [← counting.right]
      intro url inside
      rw [right url inside, counting.jobs url inside]
  · rintro ⟨fits, few, first⟩
    obtain ⟨q, ran, counting⟩ := getJobQueue_counting fileLength urls distinct positive fits
    have right : ∀ url ∈ urls,
        q.downloadMap.lookup url = some (q.jobs.countP (·.url = url) : Int) := by
      intro url inside
      rw [counting.right.2 first url inside, counting.jobs url inside]
    refine ⟨q, ran, right, ?_⟩
    intro s reached
    have counted := reachable_counted counting.listed counting.keys right s reached
    refine ⟨?_, counted.reported, ?_⟩
    · intro url inside
      rw [counted.counter url inside, Option.some.injEq, pendingJobs_empty]
    · exact poll_no_fault s counted few

theorem counts_down_after_one_segment :
    ∃ q, getJobQueue (fun url : Nat => (2 * url + 1) * segSize) (fun _ => true) [0, 1] = some q ∧
      CountsDown [0, 1] q := by
  rw [counts_down_iff (fun url : Nat => (2 * url + 1) * segSize) [0, 1] (by decide)
    (by decide)]
  refine ⟨by decide, by decide, ?_⟩
  intro url first
  cases first
  decide

def twoSegments : Queue Unit :=
  ⟨true, [()], AList.insert () 1 ∅,
    [⟨0, 0, 20971519, (), true⟩, ⟨0, 20971520, 41943039, (), true⟩]⟩

/-- `main` reports the end after the first of two segments. -/
theorem reported_too_early :
    getJobQueue (fun _ => 2 * segSize) (fun _ => true) [()] = some twoSegments ∧
      (∃ s, (completion twoSegments).Reachable s ∧ s.reported = true ∧
        s.done ⟨1, by decide⟩ = false) ∧
      ¬ CountsDown [()] twoSegments := by
  refine ⟨rfl, ⟨_, ⟨_, rfl, [.finish ⟨0, by decide⟩, .poll], rfl⟩, rfl, rfl⟩, ?_⟩
  intro counts
  have start := counts.1 () (by simp)
  revert start
  decide

end DataStructure.Download
