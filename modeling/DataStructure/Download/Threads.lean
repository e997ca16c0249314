import DataStructure.Download.RangeSplit
import DataStructure.Download.Transfer

/-! The threads of `socket/libcurl/multithreaddownload.c`.

Each thread has libcurl fetch its range; libcurl hands the bytes over chunk by chunk to
`downloadPackage`, which writes them to the one `FILE` under `foo_mutex`. `download` counts a thread
in `threadCnt` before it creates it, the thread takes itself off at its end, and `download` returns
once the count is down to zero. -/

namespace DataStructure.Threads

open FileBytes RangeSplit CInt
open Download (File fseek fwrite)

def downloadPackage (ptr : List UInt8) (size nmemb : Nat) (pNode : TNode) (file : File) :
    Option (Nat × TNode × File) :=
  let next := (pNode.startidx + size * nmemb) % 2 ^ 64
  let file := fseek file (toLong pNode.startidx)
  let result :=
    if next ≤ pNode.maxidx then fwrite ptr size nmemb file
    else fwrite ptr 1 (toSizeT (pNode.maxidx - pNode.startidx + 1)) file
  result.map fun (written, file) => (written, { pNode with startidx := next }, file)

inductive Phase where
  | unborn
  | performing
  | performed
  | left
  deriving DecidableEq, Repr

/-- Where `download` is: before `threadCnt++` or before `pthread_create` for thread `i`, in the loop
that waits, or behind `fclose`. -/
inductive Main where
  | count (i : Nat)
  | create (i : Nat)
  | wait
  | returned
  deriving DecidableEq, Repr

structure State (n : Nat) where
  file : File
  pNode : Fin n → TNode
  chunks : Fin n → List (List UInt8)
  phase : Fin n → Phase
  failed : Fin n → Bool
  threadCnt : Int
  main : Main

variable {n : Nat}

/-- A step of `download`; `created` tells whether `pthread_create` succeeds, which is not looked at. -/
def download (s : State n) (created : Bool) : Outcome (State n) :=
  match s.main with
  | .count i => .next { s with threadCnt := s.threadCnt + 1, main := .create i }
  | .create i => .next { s with
      phase := fun j => if created ∧ j.val = i then .performing else s.phase j
      main := if i + 1 < n then .count (i + 1) else .wait }
  | .wait => .next (if s.threadCnt > 0 then s else { s with main := .returned })
  | .returned => .waits

/-- libcurl calls `downloadPackage`, and gives up if it takes another number of bytes. The `FILE` must
still be open. -/
def callback (s : State n) (i : Fin n) : Outcome (State n) :=
  match s.phase i, s.chunks i with
  | .performing, chunk :: rest =>
      if s.main = .returned then .fault
      else
        match downloadPackage chunk 1 chunk.length (s.pNode i) s.file with
        | none => .fault
        | some (written, pNode, file) => .next { s with
            file
            pNode := Function.update s.pNode i pNode
            chunks := Function.update s.chunks i (if written = chunk.length then rest else [])
            failed := Function.update s.failed i (s.failed i || written != chunk.length) }
  | _, _ => .waits

def breaks (s : State n) (i : Fin n) : Outcome (State n) :=
  if s.phase i = .performing then .next { s with
    chunks := Function.update s.chunks i []
    failed := Function.update s.failed i true }
  else .waits

def performs (s : State n) (i : Fin n) : Outcome (State n) :=
  if s.phase i = .performing ∧ s.chunks i = [] then
    .next { s with phase := Function.update s.phase i .performed }
  else .waits

def leaves (s : State n) (i : Fin n) : Outcome (State n) :=
  if s.phase i = .performed then .next { s with
    phase := Function.update s.phase i .left
    threadCnt := s.threadCnt - 1 }
  else .waits

inductive Event (n : Nat) where
  | download (created : Bool)
  | callback (i : Fin n)
  | breaks (i : Fin n)
  | performs (i : Fin n)
  | leaves (i : Fin n)

def step (s : State n) : Event n → Outcome (State n)
  | .download created => download s created
  | .callback i => callback s i
  | .breaks i => breaks s i
  | .performs i => performs s i
  | .leaves i => leaves s i

def threads (nodes : List TNode) (body : Fin nodes.length → List (List UInt8)) :
    System (State nodes.length) (Event nodes.length) where
  initial s := s = ⟨.empty, nodes.get, body, fun _ => .unborn, fun _ => false, 0, .count 0⟩
  step := step

/-- A call writes what fits into the rest of the range, and takes exactly that many bytes. -/
theorem downloadPackage_eq (chunk : List UInt8) (pNode : TNode) (file : File)
    (place : pNode.startidx ≤ pNode.maxidx + 1) (bounded : pNode.maxidx < 2 ^ 62)
    (short : chunk.length < 2 ^ 62) :
    downloadPackage chunk 1 chunk.length pNode file =
      some (min chunk.length (pNode.maxidx + 1 - pNode.startidx),
        { pNode with startidx := pNode.startidx + chunk.length },
        ⟨writeAt 0 file.content pNode.startidx (chunk.take (pNode.maxidx + 1 - pNode.startidx)),
          pNode.startidx + min chunk.length (pNode.maxidx + 1 - pNode.startidx),
          file.writes ++ [⟨pNode.startidx, chunk.take (pNode.maxidx + 1 - pNode.startidx)⟩]⟩) := by
  have next : (pNode.startidx + 1 * chunk.length) % 2 ^ 64 = pNode.startidx + chunk.length := by
    rw [Nat.one_mul]
    omega
  have converted : toLong pNode.startidx = pNode.startidx := by
    rw [toLong, Int.bmod_eq_of_le] <;> omega
  have seek : fseek file (toLong pNode.startidx) = { file with pos := pNode.startidx } := by
    rw [converted, fseek, if_neg (by omega), Int.toNat_natCast]
  have left : toSizeT (pNode.maxidx - pNode.startidx + 1) = pNode.maxidx + 1 - pNode.startidx := by
    rw [toSizeT]
    omega
  simp only [downloadPackage, next, seek, left]
  by_cases inner : pNode.startidx + chunk.length ≤ pNode.maxidx
  · have count : min chunk.length (pNode.maxidx + 1 - pNode.startidx) = chunk.length := by omega
    have taken : chunk.take (pNode.maxidx + 1 - pNode.startidx) = chunk :=
      List.take_of_length_le (by omega)
    rw [if_pos inner, Download.fwrite_whole, count, taken]
    rfl
  · have count : min chunk.length (pNode.maxidx + 1 - pNode.startidx) =
        pNode.maxidx + 1 - pNode.startidx := by omega
    rw [if_neg inner, fwrite, if_neg (by omega), count]
    simp

def Main.counted (n : Nat) : Main → Nat
  | count i => i
  | create i => i + 1
  | wait => n
  | returned => n

def Main.created (n : Nat) : Main → Nat
  | count i => i
  | create i => i
  | wait => n
  | returned => n

theorem created_le_counted (n : Nat) (m : Main) : m.created n ≤ m.counted n := by
  cases m with
  | create i => exact Nat.le_succ i
  | count i => exact le_rfl
  | wait => exact le_rfl
  | returned => exact le_rfl

def present (s : State n) : Finset (Fin n) :=
  Finset.univ.filter fun j => j.val < s.main.counted n ∧ s.phase j ≠ .left

theorem mem_present {s : State n} {j : Fin n} :
    j ∈ present s ↔ j.val < s.main.counted n ∧ s.phase j ≠ .left := by
  simp [present]

structure Counts (s : State n) : Prop where
  index : ∀ i, s.main = .count i ∨ s.main = .create i → i < n
  born : ∀ j, s.phase j ≠ .unborn → j.val < s.main.created n
  count : s.threadCnt = (present s).card
  gone : s.main = .returned → ∀ j, s.phase j = .left

theorem Counts.of_same {s t : State n} (counts : Counts s) (main : t.main = s.main)
    (count : t.threadCnt = s.threadCnt)
    (phase : ∀ j, (t.phase j = .unborn ↔ s.phase j = .unborn) ∧ (t.phase j = .left ↔ s.phase j = .left)) :
    Counts t where
  index := by rw [main]; exact counts.index
  born j born := by
    rw [main]
    exact counts.born j fun unborn => born ((phase j).1.2 unborn)
  count := by
    have same : present t = present s := by
      ext j
      rw [mem_present, mem_present, main, Ne, Ne, (phase j).2]
    rw [count, same, counts.count]
  gone returned j := (phase j).2.2 (counts.gone (main ▸ returned) j)

/-- The loop ends when no thread is counted any more. -/
theorem counts_returned {s : State n} (counts : Counts s) (main : s.main = .wait)
    (zero : ¬ s.threadCnt > 0) : Counts { s with main := .returned } := by
  have none : (present s).card = 0 := by
    have count := counts.count
    omega
  have same : present { s with main := .returned } = present s := by
    ext j
    rw [mem_present, mem_present, main]
    rfl
  refine ⟨?_, fun j _ => j.isLt, ?_, ?_⟩
  · intro i other
    rcases other with other | other <;> cases other
  · rw [same]
    exact counts.count
  · intro _ j
    by_contra here
    have inside : j ∈ present s := mem_present.2 ⟨by rw [main]; exact j.isLt, here⟩
    rw [Finset.card_eq_zero.1 none] at inside
    exact absurd inside (Finset.notMem_empty j)

theorem Counts.unborn {s : State n} (counts : Counts s) {j : Fin n} (later : s.main.created n ≤ j.val) :
    s.phase j = .unborn := by
  by_contra born
  have early := counts.born j born
  omega

theorem counts_count {s : State n} (counts : Counts s) {i : Nat} (main : s.main = .count i) :
    Counts { s with threadCnt := s.threadCnt + 1, main := .create i } := by
  have less : i < n := counts.index i (.inl main)
  have unborn : s.phase ⟨i, less⟩ = .unborn := counts.unborn (by rw [main]; exact le_rfl)
  have more : present { s with threadCnt := s.threadCnt + 1, main := .create i } =
      insert ⟨i, less⟩ (present s) := by
    ext j
    rw [Finset.mem_insert, mem_present, mem_present, main]
    change j.val < i + 1 ∧ s.phase j ≠ .left ↔ _ ∨ j.val < i ∧ s.phase j ≠ .left
    constructor
    · intro here
      by_cases self : j.val = i
      · exact .inl (Fin.ext self)
      · exact .inr ⟨by omega, here.2⟩
    · intro here
      rcases here with rfl | here
      · exact ⟨Nat.lt_succ_self i, by rw [unborn]; decide⟩
      · exact ⟨by omega, here.2⟩
  have fresh : (⟨i, less⟩ : Fin n) ∉ present s := by
    rw [mem_present, main]
    exact fun here => lt_irrefl i here.1
  refine ⟨?_, ?_, ?_, ?_⟩
  · intro k other
    rcases other with other | other
    · cases other
    · cases other
      exact less
  · intro j born
    have early := counts.born j born
    rw [main] at early
    exact early
  · rw [more, Finset.card_insert_of_notMem fresh, Nat.cast_succ, ← counts.count]
  · intro other
    cases other

theorem counts_create {s : State n} (counts : Counts s) {i : Nat} (main : s.main = .create i)
    (created : Bool) :
    Counts { s with
      phase := fun j => if created ∧ j.val = i then .performing else s.phase j
      main := if i + 1 < n then .count (i + 1) else .wait } := by
  have less : i < n := counts.index i (.inr main)
  have total : (if i + 1 < n then Main.count (i + 1) else .wait).counted n = i + 1 ∧
      (if i + 1 < n then Main.count (i + 1) else .wait).created n = i + 1 := by
    split
    · exact ⟨rfl, rfl⟩
    · have last : n = i + 1 := by omega
      exact ⟨last, last⟩
  have same : present { s with
      phase := fun j => if created ∧ j.val = i then .performing else s.phase j
      main := if i + 1 < n then .count (i + 1) else .wait } = present s := by
    ext j
    rw [mem_present, mem_present, main]
    dsimp only
    rw [total.1]
    change _ ↔ j.val < i + 1 ∧ _
    by_cases self : created = true ∧ j.val = i
    · have unborn : s.phase j = .unborn := counts.unborn (by rw [main]; exact self.2.ge)
      rw [if_pos self, unborn]
      simp
    · rw [if_neg self]
  refine ⟨?_, ?_, ?_, ?_⟩
  · intro k other
    dsimp only at other
    split at other
    · rcases other with other | other
      · cases other
        assumption
      · cases other
    · rcases other with other | other <;> cases other
  · intro j born
    dsimp only at born ⊢
    rw [total.2]
    split at born
    · omega
    · have early := counts.born j born
      rw [main] at early
      exact Nat.lt_succ_of_lt early
  · rw [same]
    exact counts.count
  · intro other
    dsimp only at other
    split at other <;> cases other

theorem counts_download {s t : State n} (counts : Counts s) (created : Bool)
    (moved : download s created = .next t) : Counts t := by
  cases main : s.main with
  | returned => simp [download, main] at moved
  | wait =>
      simp only [download, main, Outcome.next.injEq] at moved
      subst moved
      by_cases left : s.threadCnt > 0
      · rw [if_pos left]
        exact counts
      · rw [if_neg left]
        exact counts_returned counts main left
  | count i =>
      simp only [download, main, Outcome.next.injEq] at moved
      subst moved
      exact counts_count counts main
  | create i =>
      simp only [download, main, Outcome.next.injEq] at moved
      subst moved
      exact counts_create counts main created

theorem counts_leaves {s t : State n} (counts : Counts s) (i : Fin n) (moved : leaves s i = .next t) :
    Counts t := by
  rw [leaves] at moved
  split at moved
  · next performed =>
      cases moved
      have inside : i ∈ present s := by
        rw [mem_present]
        refine ⟨?_, by rw [performed]; decide⟩
        have early := counts.born i (by rw [performed]; decide)
        exact early.trans_le (created_le_counted n s.main)
      refine ⟨counts.index, ?_, ?_, ?_⟩
      · intro j born
        by_cases self : j = i
        · subst self
          exact counts.born j (by rw [performed]; decide)
        · dsimp only at born
          rw [Function.update_of_ne self] at born
          exact counts.born j born
      · have fewer : present { s with
            phase := Function.update s.phase i .left, threadCnt := s.threadCnt - 1 } =
            (present s).erase i := by
          ext j
          rw [Finset.mem_erase, mem_present, mem_present]
          dsimp only
          by_cases self : j = i
          · subst self
            simp
          · rw [Function.update_of_ne self]
            simp [self]
        have count := counts.count
        have some := Finset.card_pos.2 ⟨i, inside⟩
        rw [fewer, Finset.card_erase_of_mem inside]
        dsimp only
        omega
      · intro returned
        have gone := counts.gone returned i
        rw [performed] at gone
        cases gone
  · cases moved

section Files

variable {nodes : List TNode}

def Fit (nodes : List TNode) : Prop :=
  ∀ node ∈ nodes, node.startidx ≤ node.maxidx + 1 ∧ node.maxidx < 2 ^ 62

/-- Whatever the server sends: the writes are inside the ranges. -/
structure Sane (s : State nodes.length) : Prop where
  content : s.file.content = writeAll 0 [] s.file.writes
  place : ∀ i, s.chunks i ≠ [] → (nodes.get i).startidx ≤ (s.pNode i).startidx ∧
    (s.pNode i).startidx ≤ (nodes.get i).maxidx + 1 ∧ (s.pNode i).maxidx = (nodes.get i).maxidx
  short : ∀ i, ∀ chunk ∈ s.chunks i, chunk.length < 2 ^ 62
  ranges : ∀ w ∈ s.file.writes, ∃ node ∈ nodes,
    node.startidx ≤ w.pos ∧ w.pos + w.bytes.length ≤ node.maxidx + 1

def room (s : State n) (i : Fin n) : Nat := (s.pNode i).maxidx + 1 - (s.pNode i).startidx

def took (s : State n) (i : Fin n) (chunk : List UInt8) (rest : List (List UInt8)) : State n :=
  { s with
    file := ⟨writeAt 0 s.file.content (s.pNode i).startidx (chunk.take (room s i)),
      (s.pNode i).startidx + min chunk.length (room s i),
      s.file.writes ++ [⟨(s.pNode i).startidx, chunk.take (room s i)⟩]⟩
    pNode := Function.update s.pNode i { s.pNode i with startidx := (s.pNode i).startidx + chunk.length }
    chunks := Function.update s.chunks i (if chunk.length ≤ room s i then rest else [])
    failed := Function.update s.failed i (s.failed i || !decide (chunk.length ≤ room s i)) }

theorem callback_took (fit : Fit nodes) {s : State nodes.length} (counts : Counts s) (sane : Sane s)
    {i : Fin nodes.length} {chunk : List UInt8} {rest : List (List UInt8)}
    (performing : s.phase i = .performing) (here : s.chunks i = chunk :: rest) :
    callback s i = .next (took s i chunk rest) := by
  have inside := sane.place i (by rw [here]; exact List.cons_ne_nil _ _)
  have bounded := (fit _ (List.get_mem nodes i)).2
  have short := sane.short i chunk (by rw [here]; exact List.mem_cons_self)
  have opened : s.main ≠ .returned := by
    intro returned
    have gone := counts.gone returned i
    rw [performing] at gone
    cases gone
  have call := downloadPackage_eq chunk (s.pNode i) s.file (by omega) (by omega) short
  simp only [callback, performing, here, if_neg opened, call, took, room]
  by_cases fits : chunk.length ≤ (s.pNode i).maxidx + 1 - (s.pNode i).startidx
  · simp [fits]
  · have less : min chunk.length ((s.pNode i).maxidx + 1 - (s.pNode i).startidx) ≠ chunk.length := by
      omega
    have given : (min chunk.length ((s.pNode i).maxidx + 1 - (s.pNode i).startidx) != chunk.length) = true :=
      bne_iff_ne.2 less
    simp [fits, given]

theorem took_cases {s : State n} {i : Fin n} {chunk : List UInt8} {rest : List (List UInt8)}
    (here : s.chunks i = chunk :: rest) (j : Fin n) :
    (∀ piece ∈ (took s i chunk rest).chunks j, piece ∈ s.chunks j) ∧
      (j ≠ i → (took s i chunk rest).chunks j = s.chunks j ∧
        (took s i chunk rest).pNode j = s.pNode j ∧ (took s i chunk rest).failed j = s.failed j) := by
  by_cases self : j = i
  · subst self
    refine ⟨?_, fun other => absurd rfl other⟩
    intro piece inside
    rw [here]
    simp only [took, Function.update_self] at inside
    split at inside
    · exact List.mem_cons_of_mem chunk inside
    · cases inside
  · have same : (took s i chunk rest).chunks j = s.chunks j := by
      simp only [took, Function.update_of_ne self]
    refine ⟨fun piece inside => same ▸ inside, fun _ => ⟨same, ?_, ?_⟩⟩
    · simp only [took, Function.update_of_ne self]
    · simp only [took, Function.update_of_ne self]

theorem sane_took {s : State nodes.length} (sane : Sane s) {i : Fin nodes.length} {chunk : List UInt8}
    {rest : List (List UInt8)} (here : s.chunks i = chunk :: rest) : Sane (took s i chunk rest) := by
  obtain ⟨lower, upper, stop⟩ := sane.place i (by rw [here]; exact List.cons_ne_nil _ _)
  refine ⟨?_, ?_, ?_, ?_⟩
  · change writeAt 0 s.file.content _ _ = writeAll 0 [] (s.file.writes ++ [_])
    rw [writeAll_snoc, ← sane.content]
  · intro j more
    by_cases self : j = i
    · subst self
      simp only [took, Function.update_self] at more ⊢
      split at more
      · next fits =>
          rw [room] at fits
          exact ⟨by omega, by omega, stop⟩
      · exact absurd rfl more
    · obtain ⟨chunks, pNode, _⟩ := (took_cases here j).2 self
      rw [pNode]
      exact sane.place j (chunks ▸ more)
  · intro j piece inside
    exact sane.short j piece ((took_cases here j).1 piece inside)
  · intro w written
    rcases List.mem_append.1 written with earlier | last
    · exact sane.ranges w earlier
    · rw [List.mem_singleton.1 last]
      refine ⟨nodes.get i, List.get_mem nodes i, lower, ?_⟩
      rw [List.length_take, room]
      dsimp only
      omega

theorem Sane.of_same {s t : State nodes.length} (sane : Sane s) (file : t.file = s.file)
    (pNode : t.pNode = s.pNode) (chunks : ∀ j, t.chunks j = s.chunks j ∨ t.chunks j = []) : Sane t where
  content := by rw [file]; exact sane.content
  place j more := by
    rcases chunks j with same | none
    · rw [pNode]
      exact sane.place j (same ▸ more)
    · exact absurd none more
  short j piece inside := by
    rcases chunks j with same | none
    · exact sane.short j piece (same ▸ inside)
    · rw [none] at inside
      cases inside
  ranges := by rw [file]; exact sane.ranges

end Files

/-- What a step does: a call of `downloadPackage`, or a step that leaves the file and the nodes alone. -/
inductive Moves (s : State n) : State n → Prop
  | call {i : Fin n} {chunk : List UInt8} {rest : List (List UInt8)} (performing : s.phase i = .performing)
      (here : s.chunks i = chunk :: rest) : Moves s (took s i chunk rest)
  | broken {i : Fin n} (performing : s.phase i = .performing) :
      Moves s { s with chunks := Function.update s.chunks i [], failed := Function.update s.failed i true }
  | phases {t : State n} (file : t.file = s.file) (pNode : t.pNode = s.pNode) (chunks : t.chunks = s.chunks)
      (failed : t.failed = s.failed)
      (ended : ∀ j, t.phase j = .performed ∨ t.phase j = .left →
        (s.phase j = .performed ∨ s.phase j = .left) ∨ s.chunks j = []) : Moves s t

section Steps

variable {nodes : List TNode}

theorem moves_download {s t : State n} (created : Bool) (moved : download s created = .next t) : Moves s t := by
  have same : ∀ j, s.phase j = .performed ∨ s.phase j = .left →
      (s.phase j = .performed ∨ s.phase j = .left) ∨ s.chunks j = [] := fun j ended => .inl ended
  cases main : s.main with
  | returned => simp [download, main] at moved
  | count i =>
      simp only [download, main, Outcome.next.injEq] at moved
      subst moved
      exact .phases rfl rfl rfl rfl same
  | wait =>
      simp only [download, main, Outcome.next.injEq] at moved
      subst moved
      split
      · exact .phases rfl rfl rfl rfl same
      · exact .phases rfl rfl rfl rfl same
  | create i =>
      simp only [download, main, Outcome.next.injEq] at moved
      subst moved
      refine .phases rfl rfl rfl rfl ?_
      intro j ended
      dsimp only at ended
      split at ended
      · rcases ended with ended | ended <;> cases ended
      · exact .inl ended

theorem moves_performs {s t : State n} (i : Fin n) (moved : performs s i = .next t) : Moves s t := by
  rw [performs] at moved
  split at moved
  · next ready =>
      cases moved
      refine .phases rfl rfl rfl rfl ?_
      intro j ended
      by_cases self : j = i
      · subst self
        exact .inr ready.2
      · dsimp only at ended
        rw [Function.update_of_ne self] at ended
        exact .inl ended
  · cases moved

theorem moves_leaves {s t : State n} (i : Fin n) (moved : leaves s i = .next t) : Moves s t := by
  rw [leaves] at moved
  split at moved
  · next performed =>
      cases moved
      refine .phases rfl rfl rfl rfl ?_
      intro j ended
      by_cases self : j = i
      · subst self
        exact .inl (.inl performed)
      · dsimp only at ended
        rw [Function.update_of_ne self] at ended
        exact .inl ended
  · cases moved

theorem callback_next (fit : Fit nodes) {s t : State nodes.length} (counts : Counts s) (sane : Sane s)
    {i : Fin nodes.length} (moved : callback s i = .next t) :
    ∃ chunk rest, s.phase i = .performing ∧ s.chunks i = chunk :: rest ∧ t = took s i chunk rest := by
  cases performing : s.phase i with
  | performing =>
      cases here : s.chunks i with
      | nil => simp [callback, performing, here] at moved
      | cons chunk rest =>
          rw [callback_took fit counts sane performing here] at moved
          cases moved
          exact ⟨chunk, rest, rfl, rfl, rfl⟩
  | unborn => simp [callback, performing] at moved
  | performed => simp [callback, performing] at moved
  | left => simp [callback, performing] at moved

theorem breaks_next {s t : State n} {i : Fin n} (moved : breaks s i = .next t) :
    s.phase i = .performing ∧
      t = { s with chunks := Function.update s.chunks i [], failed := Function.update s.failed i true } := by
  rw [breaks] at moved
  split at moved
  · next performing =>
      cases moved
      exact ⟨performing, rfl⟩
  · cases moved

theorem step_moves (fit : Fit nodes) {s t : State nodes.length} (counts : Counts s) (sane : Sane s)
    (e : Event nodes.length) (moved : step s e = .next t) : Moves s t := by
  cases e with
  | download created => exact moves_download created moved
  | callback i =>
      obtain ⟨chunk, rest, performing, here, rfl⟩ := callback_next fit counts sane moved
      exact .call performing here
  | breaks i =>
      obtain ⟨performing, rfl⟩ := breaks_next moved
      exact .broken performing
  | performs i => exact moves_performs i moved
  | leaves i => exact moves_leaves i moved

theorem counts_performs {s t : State n} (counts : Counts s) (i : Fin n) (moved : performs s i = .next t) :
    Counts t := by
  rw [performs] at moved
  split at moved
  · next ready =>
      cases moved
      refine counts.of_same ?_ ?_ ?_
      · rfl
      · rfl
      · intro j
        by_cases self : j = i
        · subst self
          simp [ready.1]
        · simp [Function.update_of_ne self]
  · cases moved

theorem step_counts (fit : Fit nodes) {s t : State nodes.length} (counts : Counts s) (sane : Sane s)
    (e : Event nodes.length) (moved : step s e = .next t) : Counts t := by
  cases e with
  | download created => exact counts_download counts created moved
  | callback i =>
      obtain ⟨chunk, rest, _, _, rfl⟩ := callback_next fit counts sane moved
      exact counts.of_same rfl rfl fun j => ⟨Iff.rfl, Iff.rfl⟩
  | breaks i =>
      obtain ⟨_, rfl⟩ := breaks_next moved
      exact counts.of_same rfl rfl fun j => ⟨Iff.rfl, Iff.rfl⟩
  | performs i => exact counts_performs counts i moved
  | leaves i => exact counts_leaves counts i moved

theorem Moves.sane {s t : State nodes.length} (moves : Moves s t) (sane : Sane s) : Sane t := by
  cases moves with
  | call performing here => exact sane_took sane here
  | @broken i performing =>
      refine sane.of_same ?_ ?_ ?_
      · rfl
      · rfl
      · intro j
        by_cases self : j = i
        · subst self
          exact .inr (Function.update_self ..)
        · exact .inl (Function.update_of_ne self ..)
  | phases file pNode chunks failed ended => exact sane.of_same file pNode fun j => .inl (by rw [chunks])

def Short (body : Fin nodes.length → List (List UInt8)) : Prop :=
  ∀ i, ∀ chunk ∈ body i, chunk.length < 2 ^ 62

theorem reachable_sane (fit : Fit nodes) (some : nodes ≠ []) {body : Fin nodes.length → List (List UInt8)}
    (short : Short body) {s : State nodes.length} (reached : (threads nodes body).Reachable s) :
    Counts s ∧ Sane s := by
  apply (threads nodes body).invariant (fun s => Counts s ∧ Sane s) _ _ reached
  · intro s initial
    obtain rfl : s = _ := initial
    refine ⟨⟨?_, ?_, ?_, ?_⟩, ⟨rfl, ?_, short, ?_⟩⟩
    · intro i first
      rcases first with first | first
      · cases first
        exact List.length_pos_iff.2 some
      · cases first
    · intro j born
      exact absurd rfl born
    · simp [present, Main.counted]
    · intro other
      cases other
    · intro i _
      exact ⟨le_rfl, (fit _ (List.get_mem nodes i)).1, rfl⟩
    · intro w written
      cases written
  · intro s e t holds moved
    exact ⟨step_counts fit holds.1 holds.2 e moved, (step_moves fit holds.1 holds.2 e moved).sane holds.2⟩

theorem step_no_fault (fit : Fit nodes) {s : State nodes.length} (counts : Counts s) (sane : Sane s)
    (e : Event nodes.length) : step s e ≠ .fault := by
  cases e with
  | download created =>
      change download s created ≠ _
      rw [download]
      split <;> simp
  | callback i =>
      change callback s i ≠ _
      cases performing : s.phase i with
      | performing =>
          cases here : s.chunks i with
          | nil => simp [callback, performing, here]
          | cons chunk rest =>
              rw [callback_took fit counts sane performing here]
              simp
      | unborn => simp [callback, performing]
      | performed => simp [callback, performing]
      | left => simp [callback, performing]
  | breaks i =>
      change breaks s i ≠ _
      rw [breaks]
      split <;> simp
  | performs i =>
      change performs s i ≠ _
      rw [performs]
      split <;> simp
  | leaves i =>
      change leaves s i ≠ _
      rw [leaves]
      split <;> simp

end Steps

section Answers

variable {nodes : List TNode} {remote : List UInt8}

def requested (remote : List UInt8) (node : TNode) : List UInt8 :=
  (remote.drop node.startidx).take (node.maxidx + 1 - node.startidx)

/-- Every thread asks for bytes of the file, and is sent them. -/
def Answers (remote : List UInt8) (nodes : List TNode) (body : Fin nodes.length → List (List UInt8)) : Prop :=
  ∀ i, (nodes.get i).startidx ≤ remote.length ∧ (body i).flatten = requested remote (nodes.get i)

theorem requested_length (remote : List UInt8) (node : TNode) :
    (requested remote node).length = min (node.maxidx + 1 - node.startidx) (remote.length - node.startidx) := by
  rw [requested, List.length_take, List.length_drop]

theorem requested_get {node : TNode} {k : Nat} (inside : k < (requested remote node).length) :
    (requested remote node)[k]? = remote[node.startidx + k]? := by
  rw [requested_length] at inside
  rw [requested, List.getElem?_take_of_lt (by omega), List.getElem?_drop]

structure Progress (remote : List UInt8) (taken : Fin nodes.length → Nat) (s : State nodes.length) : Prop where
  pieces : ∀ w ∈ s.file.writes, w.Of remote
  covered : ∀ i x, (nodes.get i).startidx ≤ x → x < (nodes.get i).startidx + taken i → 0 < times s.file.writes x
  within : ∀ i, taken i ≤ (requested remote (nodes.get i)).length
  rest : ∀ i, s.failed i = false →
    (s.chunks i).flatten = (requested remote (nodes.get i)).drop (taken i) ∧
      (s.pNode i).startidx = (nodes.get i).startidx + taken i
  broken : ∀ i, s.failed i = true → s.chunks i = []
  ended : ∀ i, s.phase i = .performed ∨ s.phase i = .left → s.chunks i = []

theorem progress_took {s : State nodes.length} (sane : Sane s) {taken : Fin nodes.length → Nat}
    (begins : ∀ i, (nodes.get i).startidx ≤ remote.length) (progress : Progress remote taken s) {i : Fin nodes.length} {chunk : List UInt8}
    {rest : List (List UInt8)} (performing : s.phase i = .performing) (here : s.chunks i = chunk :: rest) :
    Progress remote (Function.update taken i (taken i + chunk.length)) (took s i chunk rest) := by
  have some : s.chunks i ≠ [] := by rw [here]; exact List.cons_ne_nil _ _
  have sound : s.failed i = false := by
    cases failed : s.failed i with
    | false => rfl
    | true => exact absurd (progress.broken i failed) some
  obtain ⟨bytes, place⟩ := progress.rest i sound
  have stop := (sane.place i some).2.2
  rw [here, List.flatten_cons] at bytes
  have length := congrArg List.length bytes
  rw [List.length_append, List.length_drop, requested_length] at length
  have within := progress.within i
  have first := begins i
  rw [requested_length] at within
  have fits : chunk.length ≤ room s i := by
    rw [room, stop, place]
    omega
  have whole : chunk.take (room s i) = chunk := List.take_of_length_le fits
  refine ⟨?_, ?_, ?_, ?_, ?_, ?_⟩
  · intro w written
    rcases List.mem_append.1 written with earlier | last
    · exact progress.pieces w earlier
    · rw [List.mem_singleton.1 last, whole, place]
      refine ⟨by dsimp only; omega, ?_⟩
      intro k inside
      dsimp only at inside ⊢
      have byte := congrArg (fun bytes => bytes[k]?) bytes
      rw [List.getElem?_append_left inside, List.getElem?_drop,
        requested_get (by rw [requested_length]; omega)] at byte
      rw [byte, Nat.add_assoc]
  · intro j x lower upper
    change 0 < times (s.file.writes ++ [_]) x
    rw [times_snoc, whole, place]
    by_cases self : j = i
    · subst self
      rw [Function.update_self] at upper
      by_cases before : x < (nodes.get j).startidx + taken j
      · exact Nat.add_pos_left (progress.covered j x lower before) _
      · rw [if_pos ⟨by dsimp only; omega, by dsimp only; omega⟩]
        exact Nat.succ_pos _
    · rw [Function.update_of_ne self] at upper
      exact Nat.add_pos_left (progress.covered j x lower upper) _
  · intro j
    by_cases self : j = i
    · subst self
      rw [Function.update_self, requested_length]
      omega
    · rw [Function.update_of_ne self]
      exact progress.within j
  · intro j unbroken
    by_cases self : j = i
    · subst self
      simp only [took, Function.update_self, if_pos fits]
      refine ⟨?_, by rw [place, Nat.add_assoc]⟩
      rw [← List.drop_drop, ← bytes, List.drop_left]
    · obtain ⟨chunks, pNode, failed⟩ := (took_cases here j).2 self
      rw [chunks, pNode, Function.update_of_ne self]
      exact progress.rest j (failed ▸ unbroken)
  · intro j broke
    by_cases self : j = i
    · subst self
      simp [took, sound, fits] at broke
    · obtain ⟨chunks, _, failed⟩ := (took_cases here j).2 self
      rw [chunks]
      exact progress.broken j (failed ▸ broke)
  · intro j finished
    change s.phase j = .performed ∨ s.phase j = .left at finished
    by_cases self : j = i
    · subst self
      rw [performing] at finished
      rcases finished with finished | finished <;> cases finished
    · rw [((took_cases here j).2 self).1]
      exact progress.ended j finished

theorem Moves.progress {s t : State nodes.length} (moves : Moves s t) (sane : Sane s)
    (begins : ∀ i, (nodes.get i).startidx ≤ remote.length) {taken : Fin nodes.length → Nat}
    (progress : Progress remote taken s) : ∃ taken', Progress remote taken' t := by
  cases moves with
  | call performing here => exact ⟨_, progress_took sane begins progress performing here⟩
  | @broken i performing =>
      refine ⟨taken, progress.pieces, progress.covered, progress.within, ?_, ?_, ?_⟩
      · intro j unbroken
        by_cases self : j = i
        · subst self
          simp at unbroken
        · simp only [Function.update_of_ne self] at unbroken ⊢
          exact progress.rest j unbroken
      · intro j broke
        by_cases self : j = i
        · subst self
          exact Function.update_self ..
        · simp only [Function.update_of_ne self] at broke ⊢
          exact progress.broken j broke
      · intro j finished
        by_cases self : j = i
        · subst self
          exact Function.update_self ..
        · simp only [Function.update_of_ne self]
          exact progress.ended j finished
  | phases file pNode chunks failed ended =>
      refine ⟨taken, by rw [file]; exact progress.pieces, by rw [file]; exact progress.covered,
        progress.within, by rw [failed, chunks, pNode]; exact progress.rest,
        by rw [failed, chunks]; exact progress.broken, ?_⟩
      intro j finished
      rw [chunks]
      rcases ended j finished with before | none
      · exact progress.ended j before
      · exact none

theorem reachable_progress (fit : Fit nodes) (some : nodes ≠ []) {body : Fin nodes.length → List (List UInt8)}
    (short : Short body) (answers : Answers remote nodes body) {s : State nodes.length}
    (reached : (threads nodes body).Reachable s) :
    (Counts s ∧ Sane s) ∧ ∃ taken, Progress remote taken s := by
  obtain ⟨s₀, initial, leads⟩ := reached
  have start := reachable_sane fit some short ⟨s₀, initial, (threads nodes body).leads_refl s₀⟩
  apply (threads nodes body).leads_invariant
    (fun s => (Counts s ∧ Sane s) ∧ ∃ taken, Progress remote taken s) _ _ leads
  · intro s e t holds moved
    obtain ⟨⟨counts, sane⟩, taken, progress⟩ := holds
    have moves := step_moves fit counts sane e moved
    exact ⟨⟨step_counts fit counts sane e moved, moves.sane sane⟩, moves.progress sane (fun i => (answers i).1) progress⟩
  · refine ⟨start, fun _ => 0, ?_⟩
    obtain rfl : s₀ = _ := initial
    refine ⟨?_, ?_, fun _ => Nat.zero_le _, ?_, ?_, ?_⟩
    · intro w written
      cases written
    · intro i x lower upper
      exact absurd upper (by omega)
    · intro i _
      exact ⟨(answers i).2, rfl⟩
    · intro i broke
      cases broke
    · intro i finished
      rcases finished with finished | finished <;> cases finished

end Answers

structure Ranges (nodes : List TNode) (fileLength : Int) : Prop where
  some : nodes ≠ []
  splits : RangeSplit.Splits fileLength nodes
  order : ∀ node ∈ nodes, node.startidx ≤ node.maxidx + 1
  inside : ∀ node ∈ nodes, (node.startidx : Int) ≤ fileLength ∧ (node.maxidx : Int) ≤ fileLength

theorem gapOf_le {threadNum : Nat} {fileLength : Int} (nonempty : 0 < fileLength)
    (positive : 0 < gapOf threadNum fileLength) : threadNum * gapOf threadNum fileLength ≤ fileLength := by
  have quotient : fileLength.tdiv (threadNum + 1) = fileLength / (threadNum + 1) :=
    Int.tdiv_eq_ediv_of_nonneg nonempty.le
  have small : gapOf threadNum fileLength ≤ fileLength / (threadNum + 1) := by
    rw [gapOf, quotient] at positive ⊢
    have nonneg : 0 ≤ fileLength / (threadNum + 1) := Int.ediv_nonneg nonempty.le (by omega)
    generalize fileLength / (threadNum + 1) = x at *
    rw [CInt.toInt, Int.bmod_def]
    split <;> omega
  have product := Int.ediv_mul_le fileLength (b := threadNum + 1) (by omega)
  nlinarith

theorem ranges_single {fileLength : Int} {nodes : List TNode} (nonempty : 0 < fileLength)
    (long : fileLength < 2 ^ 62) (ran : RangeSplit.download 0 fileLength = some nodes) :
    Ranges nodes fileLength := by
  rw [RangeSplit.download_eq (by decide) (by simp)] at ran
  obtain rfl := Option.some.inj ran
  refine ⟨by simp, RangeSplit.splits_of_single nonempty (by omega), ?_, ?_⟩
  · intro node inside
    simp only [zero_add, List.range_one, List.map_cons, List.map_nil, List.mem_singleton] at inside
    subst inside
    simp [RangeSplit.node, toSizeT]
  · intro node inside
    simp only [zero_add, List.range_one, List.map_cons, List.map_nil, List.mem_singleton] at inside
    subst inside
    simp only [RangeSplit.node, toSizeT, Nat.cast_zero, zero_mul, lt_irrefl, if_false]
    omega

theorem ranges_several {threadNum : Nat} {fileLength : Int} {nodes : List TNode} (several : 0 < threadNum)
    (nonempty : 0 < fileLength) (long : fileLength < 2 ^ 62)
    (positive : 0 < gapOf threadNum fileLength)
    (ran : RangeSplit.download threadNum fileLength = some nodes) : Ranges nodes fileLength := by
  obtain ⟨small, fits⟩ := RangeSplit.fits_of_download several ran
  have total := gapOf_le nonempty positive
  rw [RangeSplit.download_eq small fits] at ran
  obtain rfl := Option.some.inj ran
  have bounds : ∀ i ≤ threadNum, (0 : Int) ≤ i * gapOf threadNum fileLength ∧
      i * gapOf threadNum fileLength ≤ threadNum * gapOf threadNum fileLength := by
    intro i inside
    exact ⟨by positivity, mul_le_mul_of_nonneg_right (by exact_mod_cast inside) positive.le⟩
  have each : ∀ node ∈ (List.range (threadNum + 1)).map
      (RangeSplit.node threadNum (gapOf threadNum fileLength) fileLength),
      node.startidx ≤ node.maxidx + 1 ∧ (node.startidx : Int) ≤ fileLength ∧
        (node.maxidx : Int) ≤ fileLength := by
    intro node inside
    obtain ⟨i, before, rfl⟩ := List.mem_map.1 inside
    have less : i ≤ threadNum := Nat.lt_succ_iff.1 (List.mem_range.1 before)
    have here := bounds i less
    simp only [RangeSplit.node, toSizeT]
    by_cases early : i < threadNum
    · have there := bounds (i + 1) early
      push_cast at there
      have next : (i + 1 : Int) * gapOf threadNum fileLength =
          i * gapOf threadNum fileLength + gapOf threadNum fileLength := by ring
      rw [if_pos early]
      omega
    · rw [if_neg early]
      omega
  exact ⟨by simp, RangeSplit.splits_of_pos (by omega) fits positive nonempty,
    fun node inside => (each node inside).1, fun node inside => (each node inside).2⟩

theorem ranges_of_download {threadNum : Nat} {fileLength : Int} {nodes : List TNode}
    (nonempty : 0 < fileLength) (long : fileLength < 2 ^ 62)
    (positive : threadNum = 0 ∨ 0 < gapOf threadNum fileLength)
    (ran : RangeSplit.download threadNum fileLength = some nodes) : Ranges nodes fileLength := by
  by_cases single : threadNum = 0
  · subst single
    exact ranges_single nonempty long ran
  · exact ranges_several (Nat.pos_of_ne_zero single) nonempty long (positive.resolve_left single) ran

theorem Ranges.fit {nodes : List TNode} {fileLength : Int} (ranges : Ranges nodes fileLength)
    (long : fileLength < 2 ^ 62) : Fit nodes := by
  intro node inside
  have last := (ranges.inside node inside).2
  exact ⟨ranges.order node inside, by omega⟩

/-- Whatever the server sends and however the threads are interleaved, no call reads behind its chunk
or uses the closed file, and each write is inside one of the ranges. The last range has one byte too
many, and so may the file. -/
theorem threads_write_in_ranges (threadNum : Nat) (fileLength : Int) (nodes : List TNode)
    (body : Fin nodes.length → List (List UInt8)) (s : State nodes.length) (nonempty : 0 < fileLength)
    (long : fileLength < 2 ^ 62) (positive : threadNum = 0 ∨ 0 < gapOf threadNum fileLength)
    (ran : RangeSplit.download threadNum fileLength = some nodes) (short : Short body)
    (reached : (threads nodes body).Reachable s) :
    (∀ e, step s e ≠ .fault) ∧
      (∀ w ∈ s.file.writes, ∃ node ∈ nodes, node.startidx ≤ w.pos ∧
        w.pos + w.bytes.length ≤ node.maxidx + 1) ∧
      (s.file.content.length : Int) ≤ fileLength + 1 := by
  have ranges := ranges_of_download nonempty long positive ran
  have fit := ranges.fit long
  obtain ⟨counts, sane⟩ := reachable_sane fit ranges.some short reached
  refine ⟨step_no_fault fit counts sane, sane.ranges, ?_⟩
  rw [sane.content]
  have below : ∀ w ∈ s.file.writes, w.pos + w.bytes.length ≤ fileLength.toNat + 1 := by
    intro w written
    obtain ⟨node, inside, _, upper⟩ := sane.ranges w written
    have last := (ranges.inside node inside).2
    omega
  have length := writeAll_length_le 0 _ _ below
  omega

abbrev twoNodes : List TNode := [⟨0, 1⟩, ⟨2, 4⟩]

theorem threads_write_in_ranges_too_much :
    ∃ s, (threads twoNodes fun i => [[7], [i.val.toUInt8, 9, 10]]).Reachable s ∧
      s.file.content = [7, 0, 7, 1, 9] ∧ (∀ e, step s e ≠ .fault) ∧
      (∀ w ∈ s.file.writes, ∃ node ∈ twoNodes, node.startidx ≤ w.pos ∧
        w.pos + w.bytes.length ≤ node.maxidx + 1) ∧
      (s.file.content.length : Int) ≤ 4 + 1 := by
  have reached : (threads twoNodes fun i => [[7], [i.val.toUInt8, 9, 10]]).Reachable _ :=
    ⟨_, rfl, [.download true, .download true, .download true, .callback 0, .download true,
      .callback 1, .callback 0, .callback 1], rfl⟩
  refine ⟨_, reached, by decide +kernel, ?_⟩
  apply threads_write_in_ranges 1 4 _ _ _ (by decide) (by decide) (.inr (by decide)) (by decide) _ reached
  intro i chunk inside
  simp only [List.mem_cons, List.not_mem_nil, or_false] at inside
  rcases inside with rfl | rfl <;> simp

/-- If the server sends every thread its range, then once `download` has returned all threads are at
their end, the range of each thread whose transfer did not fail is complete, and the file is if none
failed. -/
theorem download_returns_complete (threadNum : Nat) (fileLength : Int) (nodes : List TNode)
    (body : Fin nodes.length → List (List UInt8)) (remote : List UInt8) (s : State nodes.length)
    (nonempty : 0 < fileLength) (long : fileLength < 2 ^ 62)
    (positive : threadNum = 0 ∨ 0 < gapOf threadNum fileLength)
    (ran : RangeSplit.download threadNum fileLength = some nodes) (short : Short body)
    (whole : (remote.length : Int) = fileLength)
    (sent : ∀ i, (body i).flatten = requested remote (nodes.get i))
    (reached : (threads nodes body).Reachable s) (returned : s.main = .returned) :
    (∀ i, s.phase i = .left) ∧
      (∀ i, s.failed i = false → ∀ x, (nodes.get i).Covers fileLength x → s.file.content[x]? = remote[x]?) ∧
      ((∀ i, s.failed i = false) → s.file.content = remote) := by
  have ranges := ranges_of_download nonempty long positive ran
  have answers : Answers remote nodes body := by
    intro i
    have first := (ranges.inside _ (List.get_mem nodes i)).1
    exact ⟨by omega, sent i⟩
  obtain ⟨⟨counts, sane⟩, taken, progress⟩ :=
    reachable_progress (ranges.fit long) ranges.some short answers reached
  have gone := counts.gone returned
  have written : ∀ i, s.failed i = false → ∀ x, (nodes.get i).Covers fileLength x →
      0 < times s.file.writes x := by
    intro i unbroken x covers
    obtain ⟨lower, upper, inside⟩ := covers
    have all := congrArg List.length (progress.rest i unbroken).1
    rw [progress.ended i (.inr (gone i)), List.flatten_nil, List.length_nil, List.length_drop,
      requested_length] at all
    exact progress.covered i x lower (by omega)
  refine ⟨gone, ?_, ?_⟩
  · intro i unbroken x covers
    rw [sane.content]
    exact (writeAll_covered 0 remote _ progress.pieces).2 x (written i unbroken x covers)
  · intro unbroken
    rw [sane.content]
    apply writeAll_eq 0 remote _ progress.pieces
    intro x inside
    obtain ⟨node, member, covers⟩ := (ranges.splits.2 x).1 (by omega)
    obtain ⟨i, rfl⟩ := List.get_of_mem member
    exact written i (unbroken i) x covers

/-- The second thread gets its first chunk before the first has any, and is the first to end. -/
theorem download_returns_complete_two_threads :
    ∃ s, (threads twoNodes ![[[5], [6]], [[7], [8]]]).Reachable s ∧ s.main = .returned ∧
      s.file.content = [5, 6, 7, 8] ∧ (∀ i, s.phase i = .left) ∧
      (∀ i, s.failed i = false → ∀ x, (twoNodes.get i).Covers 4 x →
        s.file.content[x]? = [(5 : UInt8), 6, 7, 8][x]?) ∧
      ((∀ i, s.failed i = false) → s.file.content = [5, 6, 7, 8]) := by
  have reached : (threads twoNodes ![[[5], [6]], [[7], [8]]]).Reachable _ :=
    ⟨_, rfl, [.download true, .download true, .download true, .download true, .callback 1, .callback 0,
      .callback 1, .performs 1, .download true, .leaves 1, .callback 0, .performs 0, .download true,
      .leaves 0, .download true], rfl⟩
  refine ⟨_, reached, rfl, by decide +kernel, ?_⟩
  apply download_returns_complete 1 4 _ _ _ _ (by decide) (by decide) (.inr (by decide)) (by decide) _ rfl
    _ reached rfl
  · intro i chunk inside
    fin_cases i <;> fin_cases inside <;> decide
  · intro i
    fin_cases i <;> rfl

end DataStructure.Threads
