import DataStructure.Lib.Ends

/-! Copying between file descriptors: `file/copywrite.c`.

The kernel answers the system calls as it likes: it may interrupt a call, refuse it, or transfer less
than it was asked for. -/

namespace DataStructure.Copywrite

open Program

abbrev Bytes := List UInt8

inductive Answer where
  | eintr
  | error
  | count (n : Nat)

/-- What is left to read, what was written, and the answers to the calls to come. -/
structure Os where
  answers : Nat → Answer
  asked : Nat
  src : Bytes
  dst : Bytes

inductive Reply (α : Type) where
  | interrupted
  | failed
  | done (a : α)

/-- `write(fd, buf, count)` may take any part of the front of `buf`. -/
def write (buf : Bytes) : Prog Os (Reply Nat) := fun s =>
  match s.answers s.asked with
  | .eintr => .ok (.interrupted, { s with asked := s.asked + 1 })
  | .error => .ok (.failed, { s with asked := s.asked + 1 })
  | .count n =>
      .ok (.done (min n buf.length), { s with asked := s.asked + 1, dst := s.dst ++ buf.take n })

/-- `read(fd, buf, count)` gives nothing only at the end of the file. -/
def read (count : Nat) : Prog Os (Reply Bytes) := fun s =>
  match s.answers s.asked with
  | .eintr => .ok (.interrupted, { s with asked := s.asked + 1 })
  | .error => .ok (.failed, { s with asked := s.asked + 1 })
  | .count n =>
      .ok (.done (s.src.take (min count (max n 1))),
        { s with asked := s.asked + 1, src := s.src.drop (min count (max n 1)) })

def sendfile (dstFd : Int) (count : Nat) : Prog Os (Option Nat) := fun s =>
  if dstFd < 0 then .ok (none, { s with asked := s.asked + 1 })
  else
    match s.answers s.asked with
    | .count n =>
        .ok (some (s.src.take (min count (max n 1))).length,
          { s with
            asked := s.asked + 1
            src := s.src.drop (min count (max n 1))
            dst := s.dst ++ s.src.take (min count (max n 1)) })
    | _ => .ok (none, { s with asked := s.asked + 1 })

/-- `do … while (n < 0 && errno == EINTR);` around a call; `none` for -1. -/
def retry {α : Type} (call : Prog Os (Reply α)) : Nat → Prog Os (Option α)
  | 0 => fault .stuck
  | fuel + 1 => do
      match ← call with
      | .interrupted => retry call fuel
      | .failed => return none
      | .done n => return some n

def safeWrite (buf : Bytes) : Nat → Prog Os (Option Nat) := retry (write buf)

def safeRead (count : Nat) : Nat → Prog Os (Option Bytes) := retry (read count)

def fullWriteLoop (buf : Bytes) (total : Nat) : Nat → Prog Os Int
  | 0 => fault .stuck
  | fuel + 1 =>
      if buf = [] then return total
      else do
        match ← safeWrite buf fuel with
        | none => return if total ≠ 0 then total else -1
        | some cc => fullWriteLoop (buf.drop cc) (total + cc) fuel

def fullWrite (buf : Bytes) : Nat → Prog Os Int := fullWriteLoop buf 0

def sendfileBigbuf : Nat := 16 * 1024 * 1024

def bufferSize : Nat := 4 * 1024

structure Vars where
  status : Int
  total : Nat
  size : Nat
  sendfileSz : Nat
  dstFd : Int

def Vars.result (v : Vars) : Int := if v.status ≠ 0 then -1 else v.total

def account (again : Vars → Prog Os Int) (v : Vars) (rd : Nat) : Prog Os Int :=
  let v := { v with total := v.total + rd }
  if v.status < 0 then
    let v := { v with size := v.size - rd }
    if v.size = 0 then return { v with status := 0 }.result else again v
  else again v

def readOk (again : Vars → Prog Os Int) (continueOnWriteError : Bool) (fuel : Nat) (v : Vars)
    (rd : Nat) (buffer : Bytes) : Prog Os Int :=
  if rd = 0 then return { v with status := 0 }.result
  else if 0 ≤ v.dstFd ∧ v.sendfileSz = 0 then do
    let wr ← fullWrite buffer fuel
    if wr < rd then
      if continueOnWriteError then account again { v with dstFd := -1 } rd else return v.result
    else account again v rd
  else account again v rd

def readOn (again : Vars → Prog Os Int) (continueOnWriteError : Bool) (fuel : Nat) (v : Vars) :
    Prog Os Int := do
  match ← safeRead (if bufferSize < v.size then bufferSize else v.size) fuel with
  | none => return v.result
  | some buffer => readOk again continueOnWriteError fuel v buffer.length buffer

def copyLoop (continueOnWriteError : Bool) : Nat → Vars → Prog Os Int
  | 0, _ => fault .stuck
  | fuel + 1, v =>
      if v.sendfileSz ≠ 0 then do
        match ← sendfile v.dstFd (if v.sendfileSz < v.size then v.sendfileSz else v.size) with
        | some rd => readOk (copyLoop continueOnWriteError fuel) continueOnWriteError fuel v rd []
        | none =>
            readOn (copyLoop continueOnWriteError fuel) continueOnWriteError fuel { v with sendfileSz := 0 }
      else readOn (copyLoop continueOnWriteError fuel) continueOnWriteError fuel v

def bbFullFdAction (srcFd dstFd size : Int) (fuel : Nat) : Prog Os Int :=
  if srcFd < 0 then return -1
  else if size = 0 then copyLoop false fuel ⟨1, 0, sendfileBigbuf, sendfileBigbuf, dstFd⟩
  else copyLoop (decide (size < 0)) fuel ⟨-1, 0, size.natAbs, sendfileBigbuf, dstFd⟩

def bbCopyfdEof (fd1 fd2 : Int) (fuel : Nat) : Prog Os Int := bbFullFdAction fd1 fd2 0 fuel

structure Stat where
  dev : Nat
  ino : Nat
  regular : Bool

inductive Lstat where
  | stat (st : Stat)
  | enoent
  | error

/-- What the calls of `copy_file` return, apart from those that move bytes. -/
structure Calls where
  lstatSource : Lstat
  lstatDest : Lstat
  -- `dest` is a symbolic link that leads to the source; `lstat` does not follow it.
  linked : Bool
  openSource : Int
  -- with `O_TRUNC`
  openDest : Int
  unlink : Int
  -- with `O_EXCL`, after `unlink`
  openExcl : Int
  closeDest : Int

structure Disk where
  os : Os
  dest : Option Bytes

/-- `O_TRUNC` empties the file that `dest` leads to. -/
def Os.truncate (s : Os) (linked : Bool) : Os :=
  { s with src := if linked then [] else s.src, dst := [] }

def copyInto (linked : Bool) (srcFd dstFd : Int) (fuel : Nat) : Prog Disk Int := fun d =>
  match (bbCopyfdEof srcFd dstFd fuel).run (d.os.truncate linked) with
  | .ok (result, t) => .ok (result, ⟨t, some t.dst⟩)
  | .error f => .error f

def copyOpened (calls : Calls) (linked : Bool) (dstFd : Int) (fuel : Nat) : Prog Disk Int := do
  let copied ← copyInto linked calls.openSource dstFd fuel
  let retval : Int := if copied = -1 then -1 else 0
  return if calls.closeDest < 0 then -1 else retval

def unlinkDest (calls : Calls) : Prog Disk Int := fun d =>
  .ok (calls.unlink, if calls.unlink < 0 then d else { d with dest := none })

def copyRegular (calls : Calls) (fuel : Nat) : Prog Disk Int :=
  if calls.openSource < 0 then return -1
  else if calls.openDest = -1 then do
    let ovr ← unlinkDest calls
    if ovr ≤ 0 then return ovr
    else if calls.openExcl < 0 then return -1
    -- a file that `O_EXCL` creates is no link
    else copyOpened calls false calls.openExcl fuel
  else copyOpened calls calls.linked calls.openDest fuel

def copyOther (calls : Calls) (source : Stat) (fuel : Nat) : Prog Disk Int :=
  if source.regular then copyRegular calls fuel else return 0

def copyFile (calls : Calls) (fuel : Nat) : Prog Disk Int :=
  match calls.lstatSource, calls.lstatDest with
  | .stat source, .stat dest =>
      if source.dev = dest.dev ∧ source.ino = dest.ino then return -1
      else copyOther calls source fuel
  | .stat source, .enoent => copyOther calls source fuel
  | .stat _, .error => return -1
  | _, _ => return -1

def Answer.Moves : Answer → Prop
  | eintr => False
  | error => True
  | count n => 0 < n

/-- Calls are neither interrupted nor answered with nothing for ever. -/
def Fair (answers : Nat → Answer) : Prop := ∀ k, ∃ m ≥ k, (answers m).Moves

/-- Between `s` and `t` the bytes `got` were read and the bytes `put` written. -/
structure Moved (s t : Os) (got put : Bytes) : Prop where
  answers : t.answers = s.answers
  asked : s.asked ≤ t.asked
  src : s.src = got ++ t.src
  dst : t.dst = s.dst ++ put

def Refused (s t : Os) : Prop := ∃ k, s.asked ≤ k ∧ k < t.asked ∧ s.answers k = .error

theorem Moved.refl (s : Os) : Moved s s [] [] := ⟨rfl, le_rfl, rfl, (List.append_nil _).symm⟩

theorem Moved.trans {s t u : Os} {got put got' put' : Bytes} (first : Moved s t got put)
    (second : Moved t u got' put') : Moved s u (got ++ got') (put ++ put') where
  answers := second.answers.trans first.answers
  asked := first.asked.trans second.asked
  src := by rw [first.src, second.src, List.append_assoc]
  dst := by rw [second.dst, first.dst, List.append_assoc]

theorem Refused.of_left {s t u : Os} {got put : Bytes} (refused : Refused s t)
    (second : Moved t u got put) : Refused s u := by
  obtain ⟨k, low, high, error⟩ := refused
  exact ⟨k, low, high.trans_le second.asked, error⟩

theorem Refused.of_right {s t u : Os} {got put : Bytes} (first : Moved s t got put)
    (refused : Refused t u) : Refused s u := by
  obtain ⟨k, low, high, error⟩ := refused
  exact ⟨k, first.asked.trans low, high, first.answers ▸ error⟩

def Os.at (s : Os) (k : Nat) : Os := { s with asked := k }

theorem moved_at {s : Os} {k : Nat} (later : s.asked ≤ k) : Moved s (s.at k) [] [] :=
  ⟨rfl, later, rfl, (List.append_nil _).symm⟩

theorem refused_at {s : Os} {k : Nat} (later : s.asked ≤ k) (error : s.answers k = .error) :
    Refused s (s.at (k + 1)) :=
  ⟨k, later, Nat.lt_succ_self k, error⟩

structure Interruptible {α : Type} (call : Prog Os (Reply α)) : Prop where
  eintr : ∀ s, s.answers s.asked = .eintr → call.run s = .ok (.interrupted, s.at (s.asked + 1))
  error : ∀ s, s.answers s.asked = .error → call.run s = .ok (.failed, s.at (s.asked + 1))
  count : ∀ s n, s.answers s.asked = .count n → ∃ a t, call.run s = .ok (.done a, t)

theorem interruptible_write (buf : Bytes) : Interruptible (write buf) where
  eintr s answer := by
    change write buf s = _
    rw [write, answer]
    rfl
  error s answer := by
    change write buf s = _
    rw [write, answer]
    rfl
  count s n answer := by
    change ∃ a t, write buf s = _
    rw [write, answer]
    exact ⟨_, _, rfl⟩

theorem interruptible_read (count : Nat) : Interruptible (read count) where
  eintr s answer := by
    change read count s = _
    rw [read, answer]
    rfl
  error s answer := by
    change read count s = _
    rw [read, answer]
    rfl
  count s n answer := by
    change ∃ a t, read count s = _
    rw [read, answer]
    exact ⟨_, _, rfl⟩

def Retried {α : Type} (call : Prog Os (Reply α)) (s : Os) (k : Nat) (reply : Option α) (t : Os) : Prop :=
  s.answers k = .error ∧ reply = none ∧ t = s.at (k + 1) ∨
    ∃ n a, s.answers k = .count n ∧ reply = some a ∧ call.run (s.at k) = .ok (.done a, t)

theorem retry_answered {α : Type} {call : Prog Os (Reply α)} (interruptible : Interruptible call) {s : Os}
    (answered : s.answers s.asked ≠ .eintr) :
    Ends (retry call) (Retried call s s.asked) s := by
  apply ends_unroll
  cases answer : s.answers s.asked with
  | eintr => exact absurd answer answered
  | error =>
      apply ends_call (interruptible.error s answer)
      exact ends_pure (.inl ⟨answer, rfl, rfl⟩)
  | count n =>
      obtain ⟨a, t, ran⟩ := interruptible.count s n answer
      apply ends_call ran
      exact ends_pure (.inr ⟨n, a, answer, rfl, ran⟩)

theorem ends_retry {α : Type} {call : Prog Os (Reply α)} (interruptible : Interruptible call) {s : Os}
    {m : Nat} (later : s.asked ≤ m) (moves : (s.answers m).Moves) :
    Ends (retry call) (fun reply t => ∃ k, s.asked ≤ k ∧ k ≤ m ∧ Retried call s k reply t) s := by
  obtain ⟨distance, rfl⟩ := Nat.exists_eq_add_of_le later
  -- on the number of calls that may be interrupted
  induction distance generalizing s with
  | zero =>
      have answered : s.answers s.asked ≠ .eintr := by
        intro answer
        rw [Nat.add_zero, answer] at moves
        exact moves
      apply ends_mono _ (retry_answered interruptible answered)
      intro reply t holds
      exact ⟨s.asked, le_rfl, Nat.le_add_right _ _, holds⟩
  | succ distance ih =>
      by_cases answer : s.answers s.asked = .eintr
      · have place : s.asked + (distance + 1) = (s.asked + 1) + distance := by omega
        rw [place] at moves ⊢
        apply ends_unroll
        apply ends_call (interruptible.eintr s answer)
        apply ends_mono _ (@ih (s.at (s.asked + 1)) (Nat.le_add_right _ _) moves)
        intro reply t holds
        obtain ⟨k, low, high, retried⟩ := holds
        exact ⟨k, (Nat.le_succ _).trans low, high, retried⟩
      · apply ends_mono _ (retry_answered interruptible answer)
        intro reply t holds
        exact ⟨s.asked, le_rfl, Nat.le_add_right _ _, holds⟩

structure Got (s t : Os) (count : Nat) (got put : Bytes) : Prop where
  moved : Moved s t got put
  few : got.length ≤ count
  -- nothing is read at the end of the file only
  eof : got = [] → t.src = []

theorem got_take {s : Os} {count n k : Nat} (positive : 0 < count) (later : s.asked ≤ k) (put : Bytes) :
    Got s { s with
        asked := k + 1
        src := s.src.drop (min count (max n 1))
        dst := s.dst ++ put } count (s.src.take (min count (max n 1))) put where
  moved := ⟨rfl, Nat.le_succ_of_le later, (List.take_append_drop _ _).symm, rfl⟩
  few := by rw [List.length_take]; omega
  eof := by
    intro nothing
    rw [List.take_eq_nil_iff] at nothing
    rcases nothing with zero | empty
    · omega
    · simp [empty]

def SafeRead (s : Os) (count : Nat) : Option Bytes → Os → Prop
  | none, t => Moved s t [] [] ∧ Refused s t
  | some got, t => Got s t count got []

theorem ends_safeRead {s : Os} {count : Nat} (positive : 0 < count) (fair : Fair s.answers) :
    Ends (safeRead count) (SafeRead s count) s := by
  obtain ⟨m, later, moves⟩ := fair s.asked
  apply ends_mono _ (ends_retry (interruptible_read count) later moves)
  intro reply t holds
  obtain ⟨k, low, -, retried⟩ := holds
  rcases retried with ⟨error, rfl, rfl⟩ | ⟨n, got, answer, rfl, ran⟩
  · exact ⟨moved_at (Nat.le_succ_of_le low), refused_at low error⟩
  · change read count (s.at k) = _ at ran
    simp only [read, Os.at, answer, Except.ok.injEq, Prod.mk.injEq, Reply.done.injEq] at ran
    obtain ⟨rfl, rfl⟩ := ran
    have taken := got_take (n := n) positive low []
    rw [List.append_nil] at taken
    exact taken

def Sent (s : Os) (dstFd : Int) (count : Nat) : Option Nat → Os → Prop
  | none, t => Moved s t [] []
  | some rd, t => 0 ≤ dstFd ∧ ∃ got, rd = got.length ∧ Got s t count got got

theorem wp_sendfile {s : Os} {count : Nat} (positive : 0 < count) (dstFd : Int) :
    wp (sendfile dstFd count) (Sent s dstFd count) s := by
  have nothing : Moved s { s with asked := s.asked + 1 } [] [] := moved_at (Nat.le_succ _)
  by_cases fake : dstFd < 0
  · simp only [wp, sendfile, StateT.run, if_pos fake]
    exact nothing
  · simp only [wp, sendfile, StateT.run, if_neg fake]
    cases answer : s.answers s.asked with
    | eintr => exact nothing
    | error => exact nothing
    | count n => exact ⟨not_lt.1 fake, _, rfl, got_take positive le_rfl _⟩

def SafeWrite (s : Os) (buf : Bytes) (m : Nat) : Option Nat → Os → Prop
  | none, t => Moved s t [] [] ∧ Refused s t
  | some cc, t => cc ≤ buf.length ∧ Moved s t [] (buf.take cc) ∧ s.asked < t.asked ∧
      (cc = 0 → t.asked ≤ m)

theorem ends_safeWrite {s : Os} {buf : Bytes} {m : Nat} (some : buf ≠ []) (later : s.asked ≤ m)
    (moves : (s.answers m).Moves) : Ends (safeWrite buf) (SafeWrite s buf m) s := by
  apply ends_mono _ (ends_retry (interruptible_write buf) later moves)
  intro reply t holds
  obtain ⟨k, low, high, retried⟩ := holds
  rcases retried with ⟨error, rfl, rfl⟩ | ⟨n, cc, answer, rfl, ran⟩
  · exact ⟨moved_at (Nat.le_succ_of_le low), refused_at low error⟩
  · change write buf (s.at k) = _ at ran
    simp only [write, Os.at, answer, Except.ok.injEq, Prod.mk.injEq, Reply.done.injEq] at ran
    obtain ⟨rfl, rfl⟩ := ran
    have length := List.length_pos_iff.2 some
    refine ⟨min_le_right _ _, ⟨rfl, Nat.le_succ_of_le low, rfl, ?_⟩, Nat.lt_succ_of_le low, ?_⟩
    · rw [← List.take_eq_take_min]
    · intro nothing
      -- the call `m` itself takes something
      have other : k ≠ m := by
        rintro rfl
        rw [answer] at moves
        change 0 < n at moves
        omega
      change k + 1 ≤ m
      omega

def FullWrite (s : Os) (buf : Bytes) (total : Nat) (wr : Int) (t : Os) : Prop :=
  ∃ put, put <+: buf ∧ Moved s t [] put ∧
    (put = buf ∧ wr = total + buf.length ∨ wr < total + buf.length ∧ Refused s t)

theorem FullWrite.prepend {s t u : Os} {buf : Bytes} {cc total : Nat} {wr : Int} (few : cc ≤ buf.length)
    (moved : Moved s t [] (buf.take cc)) (holds : FullWrite t (buf.drop cc) (total + cc) wr u) :
    FullWrite s buf total wr u := by
  obtain ⟨more, front, moved', result⟩ := holds
  have whole := List.take_append_drop cc buf
  refine ⟨buf.take cc ++ more, ?_, moved.trans moved', ?_⟩
  · have longer := (List.prefix_append_right_inj (buf.take cc)).2 front
    rwa [whole] at longer
  · rw [List.length_drop] at result
    rcases result with ⟨rfl, rfl⟩ | ⟨less, refused⟩
    · exact .inl ⟨whole, by push_cast [few]; omega⟩
    · exact .inr ⟨by push_cast [few] at less; omega, refused.of_right moved⟩

theorem ends_fullWriteLoop {s : Os} (fair : Fair s.answers) (buf : Bytes) (total : Nat) :
    Ends (fullWriteLoop buf total) (FullWrite s buf total) s := by
  obtain ⟨m, later, moves⟩ := fair s.asked
  -- on the bytes left, and for the same bytes on the calls until one is answered for good
  induction size : buf.length using Nat.strong_induction_on generalizing s buf total m with
  | _ size shorter =>
      induction distance : m - s.asked using Nat.strong_induction_on generalizing s total with
      | _ distance sooner =>
          subst size distance
          apply ends_unroll
          by_cases empty : buf = []
          · subst empty
            simp only [fullWriteLoop, if_true]
            exact ends_pure ⟨[], List.prefix_rfl, .refl s, .inl ⟨rfl, rfl⟩⟩
          · simp only [fullWriteLoop, if_neg empty]
            apply ends_bind
            apply ends_mono _ (ends_safeWrite empty later moves)
            intro reply t holds
            cases reply with
            | none =>
                refine ends_pure ⟨[], List.nil_prefix, holds.1, .inr ⟨?_, holds.2⟩⟩
                have length := List.length_pos_iff.2 empty
                split <;> omega
            | some cc =>
                obtain ⟨few, moved, after, stalled⟩ := holds
                have fair' : Fair t.answers := by rwa [moved.answers]
                apply ends_mono fun wr u rest => FullWrite.prepend few moved rest
                by_cases nothing : cc = 0
                · subst nothing
                  have moves' : (t.answers m).Moves := by rwa [moved.answers]
                  have soon := stalled rfl
                  exact sooner (m - t.asked) (by omega) fair' _ soon moves' rfl
                · obtain ⟨m', later', moves'⟩ := fair' t.asked
                  exact shorter _ (by rw [List.length_drop]; omega) fair' _ _ m' later' moves' rfl

structure Vars.Good (v : Vars) : Prop where
  status : v.status ≠ 0
  size : 0 < v.size

/-- What `bb_full_fd_action` leaves, from the head of the loop on. -/
structure Copied (continueOnWriteError : Bool) (v : Vars) (s : Os) (result : Int) (t : Os) (got put : Bytes) :
    Prop where
  moved : Moved s t got put
  front : put <+: got
  fake : v.dstFd < 0 → put = []
  result : result = -1 ∧ Refused s t ∨
    result = v.total + got.length ∧
      (0 ≤ v.dstFd → put = got ∨ continueOnWriteError = true ∧ Refused s t) ∧
      (v.status < 0 → got.length ≤ v.size) ∧
      (t.src = [] ∨ v.status < 0 ∧ got.length = v.size)

inductive Written (continueOnWriteError : Bool) (v : Vars) (s t : Os) (got : Bytes) : Bytes → Vars → Prop
  | all (real : 0 ≤ v.dstFd) : Written continueOnWriteError v s t got got v
  | none (fake : v.dstFd < 0) : Written continueOnWriteError v s t got [] v
  | part {put : Bytes} (front : put <+: got) (real : 0 ≤ v.dstFd) (ignored : continueOnWriteError = true)
      (refused : Refused s t) : Written continueOnWriteError v s t got put { v with dstFd := -1 }

def Vars.after (v : Vars) (rd : Nat) : Vars :=
  { v with total := v.total + rd, size := if v.status < 0 then v.size - rd else v.size }

section Round

variable {c : Bool} {v w : Vars} {s t u : Os} {got put : Bytes}

theorem Copied.round {got' put' : Bytes} {result : Int} (moved : Moved s t got put)
    (few : got.length ≤ v.size) (written : Written c v s t got put w)
    (rest : Copied c (w.after got.length) t result u got' put') :
    Copied c v s result u (got ++ got') (put ++ put') where
  moved := moved.trans rest.moved
  front := by
    cases written with
    | all real => exact (List.prefix_append_right_inj got).2 rest.front
    | none fake => rw [rest.fake fake]; exact List.nil_prefix
    | part front real ignored refused =>
        rw [rest.fake (by simp [Vars.after]), List.append_nil]
        exact front.trans (List.prefix_append _ _)
  fake fake := by
    cases written with
    | all real => omega
    | none fake => rw [rest.fake fake]; rfl
    | part front real ignored refused => omega
  result := by
    have status : w.status = v.status ∧ w.total = v.total ∧ w.size = v.size := by
      cases written <;> exact ⟨rfl, rfl, rfl⟩
    rcases rest.result with ⟨failed, refused⟩ | ⟨total, complete, small, ended⟩
    · exact .inl ⟨failed, refused.of_right moved⟩
    · simp only [Vars.after, status.1, status.2.1, status.2.2] at total small ended
      refine .inr ⟨?_, ?_, ?_, ?_⟩
      · rw [total, List.length_append]
        push_cast
        omega
      · intro real
        cases written with
        | all real =>
            rcases complete real with same | ⟨ignored, refused⟩
            · exact .inl (by rw [same])
            · exact .inr ⟨ignored, refused.of_right moved⟩
        | none fake => omega
        | part front real ignored refused => exact .inr ⟨ignored, refused.of_left rest.moved⟩
      · intro bounded
        have left := small bounded
        rw [if_pos bounded] at left
        rw [List.length_append]
        omega
      · rcases ended with eof | ⟨bounded, whole⟩
        · exact .inl eof
        · rw [if_pos bounded] at whole
          exact .inr ⟨bounded, by rw [List.length_append]; omega⟩

def Copies (c : Bool) (t : Os) (again : Nat → Vars → Prog Os Int) : Prop :=
  ∀ v : Vars, v.Good →
    Ends (fun fuel => again fuel v) (fun result u => ∃ got put, Copied c v t result u got put) t

theorem ends_account {again : Nat → Vars → Prog Os Int} (good : v.Good) (moved : Moved s t got put)
    (few : got.length ≤ v.size) (written : Written c v s t got put w) (next : Copies c t again) :
    Ends (fun fuel => account (again fuel) w got.length)
      (fun result u => ∃ got put, Copied c v s result u got put) t := by
  have status : w.status = v.status ∧ w.size = v.size := by
    cases written <;> exact ⟨rfl, rfl⟩
  have round : ∀ result u, (∃ got' put', Copied c (w.after got.length) t result u got' put') →
      ∃ got put, Copied c v s result u got put := by
    intro result u rest
    obtain ⟨got', put', rest⟩ := rest
    exact ⟨_, _, rest.round moved few written⟩
  apply ends_mono round
  by_cases bounded : w.status < 0
  · by_cases finished : w.size - got.length = 0
    · simp only [account, if_pos bounded, if_pos finished]
      refine ends_pure ⟨[], [], .refl t, List.prefix_rfl, fun _ => rfl, .inr ⟨?_, ?_, ?_, ?_⟩⟩
      · simp [Vars.result, Vars.after]
      · exact fun _ => .inl rfl
      · exact fun _ => Nat.zero_le _
      · exact .inr ⟨bounded, by simp [Vars.after, bounded, finished]⟩
    · have same : w.after got.length =
          { w with total := w.total + got.length, size := w.size - got.length } := by
        rw [Vars.after, if_pos bounded]
      simp only [account, if_pos bounded, if_neg finished]
      rw [same]
      exact next _ ⟨status.1 ▸ good.status, Nat.pos_of_ne_zero finished⟩
  · have same : w.after got.length = { w with total := w.total + got.length } := by
      rw [Vars.after, if_neg bounded]
    simp only [account, if_neg bounded]
    rw [same]
    exact next _ ⟨status.1 ▸ good.status, status.2 ▸ good.size⟩

theorem copied_eof (moved : Moved s t [] []) (eof : t.src = []) :
    ∃ got put, Copied c v s ({ v with status := 0 } : Vars).result t got put := by
  refine ⟨[], [], moved, List.prefix_rfl, fun _ => rfl, .inr ⟨?_, ?_, ?_, .inl eof⟩⟩
  · simp [Vars.result]
  · exact fun _ => .inl rfl
  · exact fun _ => Nat.zero_le _

theorem copied_refused (good : v.Good) (moved : Moved s t got put) (front : put <+: got)
    (fake : v.dstFd < 0 → put = []) (refused : Refused s t) :
    ∃ got put, Copied c v s v.result t got put :=
  ⟨got, put, moved, front, fake, .inl ⟨if_pos good.status, refused⟩⟩

theorem ends_readOk_sent {again : Nat → Vars → Prog Os Int} {count : Nat} (good : v.Good)
    (sending : v.sendfileSz ≠ 0) (real : 0 ≤ v.dstFd) (read : Got s t count got got)
    (few : count ≤ v.size) (next : got ≠ [] → Copies c t again) :
    Ends (fun fuel => readOk (again fuel) c fuel v got.length [])
      (fun result u => ∃ got put, Copied c v s result u got put) t := by
  by_cases nothing : got = []
  · subst nothing
    simp only [readOk, List.length_nil, if_true]
    exact ends_pure (copied_eof read.moved (read.eof rfl))
  · have length : got.length ≠ 0 := fun zero => nothing (List.length_eq_zero_iff.1 zero)
    simp only [readOk, if_neg length, if_neg fun both : 0 ≤ v.dstFd ∧ v.sendfileSz = 0 => sending both.2]
    exact ends_account good read.moved (read.few.trans few) (.all real) (next nothing)

theorem ends_readOk_read {again : Nat → Vars → Prog Os Int} {count : Nat} (good : v.Good)
    (reading : v.sendfileSz = 0) (fair : Fair t.answers) (read : Got s t count got [])
    (few : count ≤ v.size)
    (next : got ≠ [] → ∀ put u, Moved t u [] put → Copies c u again) :
    Ends (fun fuel => readOk (again fuel) c fuel v got.length got)
      (fun result u => ∃ got put, Copied c v s result u got put) t := by
  by_cases nothing : got = []
  · subst nothing
    simp only [readOk, List.length_nil, if_true]
    exact ends_pure (copied_eof read.moved (read.eof rfl))
  · have length : got.length ≠ 0 := fun zero => nothing (List.length_eq_zero_iff.1 zero)
    have small := read.few.trans few
    by_cases real : 0 ≤ v.dstFd
    · simp only [readOk, if_neg length, if_pos (And.intro real reading)]
      apply ends_bind
      apply ends_mono _ (ends_fullWriteLoop fair got 0)
      intro wr u wrote
      obtain ⟨put, front, moved, result⟩ := wrote
      have both := read.moved.trans moved
      rw [List.append_nil, List.nil_append] at both
      rcases result with ⟨rfl, rfl⟩ | ⟨less, refused⟩
      · simp only [if_neg (show ¬((0 : Nat) : Int) + (put.length : Int) < put.length by omega)]
        exact ends_account good both small (.all real) (next nothing _ _ moved)
      · have earlier := refused.of_right read.moved
        simp only [if_pos (show wr < (got.length : Int) by omega)]
        cases c with
        | true =>
            exact ends_account good both small (.part front real rfl earlier) (next nothing _ _ moved)
        | false =>
            have fake : v.dstFd < 0 → put = [] := fun fake => absurd real (not_le.2 fake)
            exact ends_pure (copied_refused good both front fake earlier)
    · simp only [readOk, if_neg length, if_neg fun both : 0 ≤ v.dstFd ∧ v.sendfileSz = 0 => real both.1]
      exact ends_account good read.moved small (.none (not_le.1 real)) (next nothing _ _ (.refl t))

theorem Copied.later {result : Int} (moved : Moved s t [] []) (rest : Copied c v t result u got put) :
    Copied c v s result u got put where
  moved := moved.trans rest.moved
  front := rest.front
  fake := rest.fake
  result := by
    rcases rest.result with ⟨failed, refused⟩ | ⟨total, complete, small, ended⟩
    · exact .inl ⟨failed, refused.of_right moved⟩
    · refine .inr ⟨total, ?_, small, ended⟩
      intro real
      exact (complete real).imp_right fun ignored => ⟨ignored.1, ignored.2.of_right moved⟩

theorem ends_readOn {again : Nat → Vars → Prog Os Int} (good : v.Good) (reading : v.sendfileSz = 0)
    (fair : Fair s.answers)
    (next : ∀ t : Os, t.answers = s.answers → t.src.length < s.src.length → Copies c t again) :
    Ends (fun fuel => readOn (again fuel) c fuel v)
      (fun result u => ∃ got put, Copied c v s result u got put) s := by
  have size := good.size
  have few : (if bufferSize < v.size then bufferSize else v.size) ≤ v.size := by split <;> omega
  have positive : 0 < if bufferSize < v.size then bufferSize else v.size := by
    split
    · decide
    · exact size
  apply ends_bind
  apply ends_mono _ (ends_safeRead positive fair)
  intro reply t holds
  cases reply with
  | none =>
      exact ends_pure (copied_refused good holds.1 List.prefix_rfl (fun _ => rfl) holds.2)
  | some got =>
      have moved := holds.moved
      apply ends_readOk_read good reading (by rwa [moved.answers]) holds few
      intro something put u written
      apply next u (written.answers.trans moved.answers)
      have length := List.length_pos_iff.2 something
      rw [moved.src, written.src, List.length_append, List.length_append]
      change u.src.length < got.length + (0 + u.src.length)
      omega

end Round

theorem copies_copyLoop (c : Bool) (s : Os) (fair : Fair s.answers) : Copies c s (copyLoop c) := by
  -- every round that goes on has read something
  induction size : s.src.length using Nat.strong_induction_on generalizing s with
  | _ size shorter =>
      subst size
      have next : ∀ t : Os, t.answers = s.answers → t.src.length < s.src.length →
          Copies c t (copyLoop c) := by
        intro t same less
        exact shorter _ less t (by rwa [same]) rfl
      intro v good
      apply ends_unroll
      by_cases sending : v.sendfileSz = 0
      · simp only [copyLoop, if_neg (not_not.2 sending)]
        exact ends_readOn good sending fair next
      · have size := good.size
        have few : (if v.sendfileSz < v.size then v.sendfileSz else v.size) ≤ v.size := by
          split <;> omega
        have positive : 0 < if v.sendfileSz < v.size then v.sendfileSz else v.size := by
          split <;> omega
        simp only [copyLoop, if_pos sending]
        obtain ⟨reply, t, ran, sent⟩ := (wp_iff_run _ _ _).1 (wp_sendfile positive v.dstFd)
        apply ends_call ran
        cases reply with
        | none =>
            apply ends_mono _ (ends_readOn (v := { v with sendfileSz := 0 }) ⟨good.status, size⟩ rfl
              (by rwa [sent.answers]) ?_)
            · intro result u copied
              obtain ⟨got, put, copied⟩ := copied
              have same : Copied c v t result u got put :=
                ⟨copied.moved, copied.front, copied.fake, copied.result⟩
              exact ⟨got, put, same.later sent⟩
            · intro u same less
              apply next u (same.trans sent.answers)
              rw [sent.src]
              exact less
        | some rd =>
            obtain ⟨real, got, rfl, read⟩ := sent
            apply ends_readOk_sent good sending real read few
            intro something
            apply next t read.moved.answers
            have length := List.length_pos_iff.2 something
            rw [read.moved.src, List.length_append]
            omega

structure FdAction (dstFd size : Int) (s : Os) (result : Int) (t : Os) (got put : Bytes) : Prop where
  moved : Moved s t got put
  front : put <+: got
  fake : dstFd < 0 → put = []
  result : result = -1 ∧ Refused s t ∨
    result = got.length ∧ (0 ≤ dstFd → put = got ∨ size < 0 ∧ Refused s t) ∧
      (size ≠ 0 → got.length ≤ size.natAbs) ∧ (t.src = [] ∨ size ≠ 0 ∧ got.length = size.natAbs)

theorem ends_copyAll {srcFd : Int} (opened : 0 ≤ srcFd) (dstFd : Int) {s : Os} (fair : Fair s.answers) :
    Ends (bbFullFdAction srcFd dstFd 0)
      (fun result t => ∃ got put, FdAction dstFd 0 s result t got put) s := by
  have untilEof : ¬(1 : Int) < 0 := by decide
  have copies := copies_copyLoop false s fair ⟨1, 0, sendfileBigbuf, sendfileBigbuf, dstFd⟩
    ⟨Int.one_ne_zero, show 0 < sendfileBigbuf by decide⟩
  have same : bbFullFdAction srcFd dstFd 0 = fun fuel =>
      copyLoop false fuel ⟨1, 0, sendfileBigbuf, sendfileBigbuf, dstFd⟩ := by
    funext fuel
    rw [bbFullFdAction, if_neg (not_lt.2 opened), if_pos rfl]
  rw [same]
  apply ends_mono _ copies
  intro result t copied
  obtain ⟨got, put, copied⟩ := copied
  refine ⟨got, put, copied.moved, copied.front, copied.fake, ?_⟩
  rcases copied.result with failed | ⟨total, complete, -, ended⟩
  · exact .inl failed
  · refine .inr ⟨by simpa using total, ?_, fun other => absurd rfl other, ?_⟩
    · intro real
      exact (complete real).imp_right fun ignored => absurd ignored.1 Bool.false_ne_true
    · exact ended.imp_right fun bounded => absurd bounded.1 untilEof

theorem ends_copySize {srcFd size : Int} (opened : 0 ≤ srcFd) (dstFd : Int) (bounded : size ≠ 0) {s : Os}
    (fair : Fair s.answers) :
    Ends (bbFullFdAction srcFd dstFd size)
      (fun result t => ∃ got put, FdAction dstFd size s result t got put) s := by
  have negative : (-1 : Int) < 0 := by decide
  have copies := copies_copyLoop (decide (size < 0)) s fair
    ⟨-1, 0, size.natAbs, sendfileBigbuf, dstFd⟩ ⟨negative.ne, Int.natAbs_pos.2 bounded⟩
  have same : bbFullFdAction srcFd dstFd size = fun fuel =>
      copyLoop (decide (size < 0)) fuel ⟨-1, 0, size.natAbs, sendfileBigbuf, dstFd⟩ := by
    funext fuel
    rw [bbFullFdAction, if_neg (not_lt.2 opened), if_neg bounded]
  rw [same]
  apply ends_mono _ copies
  intro result t copied
  obtain ⟨got, put, copied⟩ := copied
  refine ⟨got, put, copied.moved, copied.front, copied.fake, ?_⟩
  rcases copied.result with failed | ⟨total, complete, small, ended⟩
  · exact .inl failed
  · refine .inr ⟨by simpa using total, ?_, fun _ => small negative, ?_⟩
    · intro real
      exact (complete real).imp_right fun ignored => ⟨of_decide_eq_true ignored.1, ignored.2⟩
    · exact ended.imp_right fun whole => ⟨bounded, whole.2⟩

/-- However the calls are interrupted and cut short, the copy ends; what was written is the front of
what was read, and a result other than -1 is the number of bytes read. -/
theorem full_fd_action_copies (srcFd dstFd size : Int) (s : Os) (opened : 0 ≤ srcFd)
    (fair : Fair s.answers) :
    Ends (bbFullFdAction srcFd dstFd size)
      (fun result t => ∃ got put, FdAction dstFd size s result t got put) s := by
  by_cases zero : size = 0
  · subst zero
    exact ends_copyAll opened dstFd fair
  · exact ends_copySize opened dstFd zero fair

theorem full_fd_action_copies_interrupted :
    Ends (bbFullFdAction 3 4 0) (fun result t => ∃ got put,
      FdAction 4 0 ⟨fun k => if k % 2 = 0 then .eintr else .count 1, 0, [1, 2, 3], []⟩ result t got put)
      ⟨fun k => if k % 2 = 0 then .eintr else .count 1, 0, [1, 2, 3], []⟩ := by
  apply full_fd_action_copies 3 4 0 _ (by decide)
  intro k
  exact ⟨2 * k + 1, by omega, by simp [Answer.Moves]⟩

def Compared (calls : Calls) (source : Stat) : Prop :=
  calls.lstatSource = .stat source ∧ (calls.lstatDest = .enoent ∨
    ∃ dest, calls.lstatDest = .stat dest ∧ ¬(source.dev = dest.dev ∧ source.ino = dest.ino))

def SourceOpened (calls : Calls) : Prop :=
  (∃ source, Compared calls source ∧ source.regular = true) ∧ 0 ≤ calls.openSource

/-- The checks and calls that `copy_file` gives up at. -/
inductive GivesUp (calls : Calls) : Prop
  | source (missing : ∀ source, calls.lstatSource ≠ .stat source)
  | dest (error : calls.lstatDest = .error)
  | same {source dest : Stat} (found : calls.lstatSource = .stat source)
      (there : calls.lstatDest = .stat dest) (equal : source.dev = dest.dev ∧ source.ino = dest.ino)
  | openSource {source : Stat} (compared : Compared calls source) (regular : source.regular = true)
      (failed : calls.openSource < 0)
  | unlink (opened : SourceOpened calls) (unopened : calls.openDest = -1) (failed : calls.unlink = -1)

inductive CopyFile (calls : Calls) (d : Disk) : Int → Disk → Prop
  | copied {t : Disk} (source : SourceOpened calls) (opened : 0 ≤ calls.openDest)
      (apart : calls.linked = false) (dest : t.dest = some d.os.src) (closed : 0 ≤ calls.closeDest) :
      CopyFile calls d 0 t
  -- the source was emptied through `dest`
  | emptied {t : Disk} (source : SourceOpened calls) (opened : 0 ≤ calls.openDest)
      (linked : calls.linked = true) (src : t.os.src = []) (dest : t.dest = some [])
      (closed : 0 ≤ calls.closeDest) : CopyFile calls d 0 t
  -- `dest` could not be opened and is gone
  | removed {t : Disk} (source : SourceOpened calls) (unopened : calls.openDest = -1)
      (unlinked : calls.unlink = 0) (dest : t.dest = none) (os : t.os = d.os) : CopyFile calls d 0 t
  | skipped {source : Stat} (compared : Compared calls source) (special : source.regular = false) :
      CopyFile calls d 0 d
  | refused (failed : GivesUp calls) : CopyFile calls d (-1) d
  | short {t : Disk} {put : Bytes} (source : SourceOpened calls) (opened : 0 ≤ calls.openDest)
      (dest : t.dest = some put) (front : put <+: d.os.src)
      (failed : Refused d.os t.os ∨ calls.closeDest < 0) : CopyFile calls d (-1) t

theorem truncate_front (s : Os) (linked : Bool) : (s.truncate linked).src <+: s.src := by
  cases linked with
  | true => exact List.nil_prefix
  | false => exact List.prefix_rfl

theorem ends_copyOpened {calls : Calls} {d : Disk} (source : SourceOpened calls)
    (real : 0 ≤ calls.openDest) (fair : Fair d.os.answers) :
    Ends (copyOpened calls calls.linked calls.openDest) (CopyFile calls d) d := by
  obtain ⟨result, t, ⟨got, put, action⟩, enough, ran⟩ :=
    @ends_copyAll _ source.2 calls.openDest (d.os.truncate calls.linked) fair
  have src : (d.os.truncate calls.linked).src = got ++ t.src := action.moved.src
  have dst : t.dst = put := action.moved.dst
  apply ends_bind
  refine ⟨result, ⟨t, some t.dst⟩, ?_, enough, ?_⟩
  · apply ends_pure
    have short (failed : Refused d.os t ∨ calls.closeDest < 0) :
        CopyFile calls d (-1) ⟨t, some t.dst⟩ := by
      refine .short source real rfl ?_ failed
      have front : put <+: got ++ t.src := action.front.trans (List.prefix_append _ _)
      rw [dst]
      exact (src ▸ front).trans (truncate_front d.os calls.linked)
    by_cases closed : calls.closeDest < 0
    · rw [if_pos closed]
      exact short (.inr closed)
    · rw [if_neg closed]
      rcases action.result with ⟨rfl, refused⟩ | ⟨rfl, complete, -, ended⟩
      · exact short (.inl refused)
      · have eof : t.src = [] := ended.resolve_right fun bounded => bounded.1 rfl
        have all : put = got := (complete real).resolve_right fun negative => absurd negative.1 (by decide)
        have whole : t.dst = (d.os.truncate calls.linked).src := by
          rw [src, eof, List.append_nil, dst, all]
        rw [if_neg (by omega), whole]
        cases linked : calls.linked with
        | true => exact .emptied source real linked eof rfl (not_lt.1 closed)
        | false => exact .copied source real linked rfl (not_lt.1 closed)
  · intro fuel more
    change copyInto _ _ _ _ _ = _
    rw [copyInto, bbCopyfdEof, ran fuel more]

/-- What `open` and `unlink` may return. -/
structure Calls.Documented (calls : Calls) : Prop where
  openDest : -1 ≤ calls.openDest
  unlink : calls.unlink = 0 ∨ calls.unlink = -1

theorem ends_copyRegular {calls : Calls} {d : Disk} {source : Stat} (compared : Compared calls source)
    (regular : source.regular = true) (documented : calls.Documented) (fair : Fair d.os.answers) :
    Ends (copyRegular calls) (CopyFile calls d) d := by
  unfold copyRegular
  by_cases unread : calls.openSource < 0
  · simp only [if_pos unread]
    exact ends_pure (.refused (.openSource compared regular unread))
  · have opened : SourceOpened calls := ⟨⟨source, compared, regular⟩, not_lt.1 unread⟩
    by_cases unopened : calls.openDest = -1
    · simp only [if_neg unread, if_pos unopened]
      apply ends_call rfl
      rcases documented.unlink with removed | failed
      · simp only [removed, le_refl, if_true]
        exact ends_pure (.removed opened unopened removed rfl rfl)
      · have kept : (-1 : Int) ≤ 0 := by decide
        simp only [failed, if_pos kept]
        exact ends_pure (.refused (.unlink opened unopened failed))
    · have real : 0 ≤ calls.openDest := by
        have low := documented.openDest
        omega
      simp only [if_neg unread, if_neg unopened]
      exact ends_copyOpened opened real fair

theorem ends_copyOther {calls : Calls} {d : Disk} {source : Stat} (compared : Compared calls source)
    (documented : calls.Documented) (fair : Fair d.os.answers) :
    Ends (copyOther calls source) (CopyFile calls d) d := by
  unfold copyOther
  cases regular : source.regular with
  | true =>
      exact ends_copyRegular compared regular documented fair
  | false =>
      exact ends_pure (.skipped compared regular)

/-- `copy_file` ends, and 0 does not always mean that a copy was made: an existing `dest` that cannot
be opened is removed, a source that is no regular file is passed over, and a source that `dest` links
to is emptied. -/
theorem copy_file_ends (calls : Calls) (d : Disk) (documented : calls.Documented)
    (fair : Fair d.os.answers) : Ends (copyFile calls) (CopyFile calls d) d := by
  unfold copyFile
  cases found : calls.lstatSource with
  | enoent =>
      exact ends_pure (.refused (.source (by simp [found])))
  | error =>
      exact ends_pure (.refused (.source (by simp [found])))
  | stat source =>
      cases there : calls.lstatDest with
      | enoent =>
          exact ends_copyOther ⟨found, .inl there⟩ documented fair
      | error =>
          exact ends_pure (.refused (.dest there))
      | stat dest =>
          by_cases same : source.dev = dest.dev ∧ source.ino = dest.ino
          · simp only [if_pos same]
            exact ends_pure (.refused (.same found there same))
          · simp only [if_neg same]
            exact ends_copyOther ⟨found, .inr ⟨dest, there, same⟩⟩ documented fair

theorem copy_file_ends_regular :
    Ends (copyFile ⟨.stat ⟨1, 2, true⟩, .enoent, false, 3, 4, 0, 4, 0⟩)
      (CopyFile ⟨.stat ⟨1, 2, true⟩, .enoent, false, 3, 4, 0, 4, 0⟩ ⟨⟨fun _ => .count 2, 0, [1, 2, 3], []⟩, none⟩)
      ⟨⟨fun _ => .count 2, 0, [1, 2, 3], []⟩, none⟩ := by
  apply copy_file_ends _ _ ⟨by decide, .inl rfl⟩
  intro k
  exact ⟨k, le_rfl, Nat.succ_pos 1⟩

end DataStructure.Copywrite
