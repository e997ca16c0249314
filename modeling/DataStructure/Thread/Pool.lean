import DataStructure.Lib.System
import DataStructure.Lib.Monitor

/-! The thread pool of `thread/pool/thread_pool.c`.

The workers, any number of threads that call `tpool_add_work` and one that calls
`tpool_destroy` move one statement at a time. A pointer to a `tpool_work_t` is an address of
the heap. The threads are created detached, so that `pthread_join` returns at once; the
memory of the pool itself is kept as it was when `free(tpool)` was called. -/

namespace DataStructure.ThreadPool

open Monitor

structure Work (ρ α : Type) where
  routine : ρ
  arg : α
  next : Option Nat
  deriving DecidableEq, Repr

def Work.item {ρ α : Type} (cell : Work ρ α) : ρ × α := (cell.routine, cell.arg)

inductive Thread (n : Nat) (π : Type) where
  | worker (i : Fin n)
  | adder (p : π)
  | destroyer
  deriving DecidableEq

inductive WorkerPc where
  | lock
  | testHead
  | testShutdown
  | wait
  | blocked
  | woken
  | checkShutdown
  | unlockExit
  | exit
  | exited
  | take
  | unlock (work : Nat)
  | run (work : Nat)
  | free (work : Nat)
  deriving DecidableEq, Repr

inductive AdderPc where
  | idle
  | lock (work : Nat)
  | readHead (work : Nat)
  | walk (work member : Nat)
  | link (work member : Nat)
  | signal
  | unlock
  deriving DecidableEq, Repr

inductive DestroyPc where
  | start
  | returned
  | setShutdown
  | lock
  | broadcast
  | unlock
  | join (i : Nat)
  | freeIds
  | drain
  | destroyLock
  | destroyCond
  | freePool
  | done
  deriving DecidableEq, Repr

def DestroyPc.joining : DestroyPc → Bool
  | .join _ | .freeIds | .drain | .destroyLock | .destroyCond | .freePool | .done => true
  | _ => false

/-- `added`, `dequeued` and `ran` record what the critical sections and the workers did. -/
structure State (ρ α : Type) (n : Nat) (π : Type) where
  heap : Nat → Option (Work ρ α)
  queueHead : Option Nat
  shutdown : Bool
  owner : Option (Thread n π)
  worker : Fin n → WorkerPc
  adder : π → AdderPc
  destroyer : DestroyPc
  added : List (ρ × α)
  dequeued : List (ρ × α)
  ran : List (ρ × α)

/-- Who moves. A call comes with the result of its `malloc`, a step of `tpool_add_work` with
the worker that a signal picks. -/
inductive Event (ρ α : Type) (n : Nat) (π : Type) where
  | worker (i : Fin n)
  | call (p : π) (routine : Option ρ) (arg : α) (memory : Option Nat)
  | adder (p : π) (picked : Option (Fin n))
  | destroy

variable {ρ α : Type} {n : Nat} {π : Type}

namespace State

variable (s : State ρ α n π)

def goto (i : Fin n) (pc : WorkerPc) : State ρ α n π :=
  { s with worker := Function.update s.worker i pc }

def proceed [DecidableEq π] (p : π) (pc : AdderPc) : State ρ α n π :=
  { s with adder := Function.update s.adder p pc }

def write (a : Nat) (cell : Option (Work ρ α)) : State ρ α n π :=
  { s with heap := Function.update s.heap a cell }

def itemAt (a : Nat) : List (ρ × α) := ((s.heap a).map Work.item).toList

end State

def tpoolCreate (ρ α : Type) (n : Nat) (π : Type) : State ρ α n π where
  heap := fun _ => none
  queueHead := none
  shutdown := false
  owner := none
  worker := fun _ => .lock
  adder := fun _ => .idle
  destroyer := .start
  added := []
  dequeued := []
  ran := []

def threadRoutine (s : State ρ α n π) (i : Fin n) : Outcome (State ρ α n π) :=
  match s.worker i with
  | .lock =>
      if s.owner = none then .next { s.goto i .testHead with owner := some (.worker i) } else .waits
  | .testHead =>
      .next (s.goto i (if s.queueHead = none then .testShutdown else .checkShutdown))
  | .testShutdown => .next (s.goto i (if s.shutdown then .checkShutdown else .wait))
  | .wait => .next { s.goto i .blocked with owner := none }
  | .blocked => .waits
  | .woken =>
      if s.owner = none then .next { s.goto i .testHead with owner := some (.worker i) } else .waits
  | .checkShutdown => .next (s.goto i (if s.shutdown then .unlockExit else .take))
  | .unlockExit => .next { s.goto i .exit with owner := none }
  | .exit => .next (s.goto i .exited)
  | .exited => .waits
  | .take =>
      match s.queueHead with
      | none => .fault
      | some work =>
          match s.heap work with
          | none => .fault
          | some cell =>
              .next { s.goto i (.unlock work) with
                queueHead := cell.next
                dequeued := s.dequeued ++ [cell.item] }
  | .unlock work => .next { s.goto i (.run work) with owner := none }
  | .run work =>
      match s.heap work with
      | none => .fault
      | some cell => .next { s.goto i (.free work) with ran := s.ran ++ [cell.item] }
  | .free work =>
      match s.heap work with
      | none => .fault
      | some _ => .next ((s.write work none).goto i .lock)

def tpoolDestroy (s : State ρ α n π) : Outcome (State ρ α n π) :=
  match s.destroyer with
  | .start => .next { s with destroyer := if s.shutdown then .returned else .setShutdown }
  | .returned => .waits
  | .setShutdown => .next { s with shutdown := true, destroyer := .lock }
  | .lock =>
      if s.owner = none then .next { s with owner := some .destroyer, destroyer := .broadcast }
      else .waits
  | .broadcast =>
      .next { s with worker := broadcast .blocked .woken s.worker, destroyer := .unlock }
  | .unlock => .next { s with owner := none, destroyer := .join 0 }
  | .join i => .next { s with destroyer := if i < n then .join (i + 1) else .freeIds }
  | .freeIds => .next { s with destroyer := .drain }
  | .drain =>
      match s.queueHead with
      | none => .next { s with destroyer := .destroyLock }
      | some member =>
          match s.heap member with
          | none => .fault
          | some cell => .next { s.write member none with queueHead := cell.next }
  | .destroyLock => .next { s with destroyer := .destroyCond }
  | .destroyCond => .next { s with destroyer := .freePool }
  | .freePool => .next { s with destroyer := .done }
  | .done => .waits

/-- `tpool_add_work` up to the lock: the argument test, `malloc` and the new node. -/
def tpoolAddWork [DecidableEq π] (s : State ρ α n π) (p : π) (routine : Option ρ) (arg : α)
    (memory : Option Nat) : Outcome (State ρ α n π) :=
  match s.adder p, routine, memory with
  | .idle, some routine, some work =>
      match s.heap work with
      | none => .next ((s.write work (some ⟨routine, arg, none⟩)).proceed p (.lock work))
      | some _ => .waits
  | .idle, _, _ => .next s
  | _, _, _ => .waits

def tpoolAppend [DecidableEq π] (s : State ρ α n π) (p : π) (picked : Option (Fin n)) : Outcome (State ρ α n π) :=
  match s.adder p with
  | .idle => .waits
  | .lock work =>
      if s.owner = none then
        .next { s.proceed p (.readHead work) with owner := some (.adder p) }
      else
        .waits
  | .readHead work =>
      match s.queueHead with
      | none =>
          .next { s.proceed p .signal with
            queueHead := some work
            added := s.added ++ s.itemAt work }
      | some member => .next (s.proceed p (.walk work member))
  | .walk work member =>
      match s.heap member with
      | none => .fault
      | some cell =>
          match cell.next with
          | some next => .next (s.proceed p (.walk work next))
          | none => .next (s.proceed p (.link work member))
  | .link work member =>
      match s.heap member with
      | none => .fault
      | some last =>
          .next { (s.write member (some { last with next := some work })).proceed p .signal with
            added := s.added ++ s.itemAt work }
  | .signal =>
      match signal .blocked .woken s.worker picked with
      | none => .waits
      | some worker => .next { s.proceed p .unlock with worker := worker }
  | .unlock => .next { s.proceed p .idle with owner := none }

def step [DecidableEq π] (s : State ρ α n π) : Event ρ α n π → Outcome (State ρ α n π)
  | .worker i => threadRoutine s i
  | .call p routine arg memory => tpoolAddWork s p routine arg memory
  | .adder p picked => tpoolAppend s p picked
  | .destroy => tpoolDestroy s

def pool (ρ α : Type) (n : Nat) (π : Type) [DecidableEq π] : System (State ρ α n π) (Event ρ α n π) where
  initial s := s = tpoolCreate ρ α n π
  step := step

inductive WorkerMove (s : State ρ α n π) (i : Fin n) : State ρ α n π → Prop where
  | lock (here : s.worker i = .lock ∨ s.worker i = .woken) (free : s.owner = none) :
      WorkerMove s i { s.goto i .testHead with owner := some (.worker i) }
  | headEmpty (here : s.worker i = .testHead) (empty : s.queueHead = none) :
      WorkerMove s i (s.goto i .testShutdown)
  | headSome (here : s.worker i = .testHead) (filled : s.queueHead ≠ none) :
      WorkerMove s i (s.goto i .checkShutdown)
  | opened (here : s.worker i = .testShutdown) (clear : s.shutdown = false) :
      WorkerMove s i (s.goto i .wait)
  | closed (here : s.worker i = .testShutdown) (set : s.shutdown = true) :
      WorkerMove s i (s.goto i .checkShutdown)
  | wait (here : s.worker i = .wait) : WorkerMove s i { s.goto i .blocked with owner := none }
  | works (here : s.worker i = .checkShutdown) (clear : s.shutdown = false) :
      WorkerMove s i (s.goto i .take)
  | leaves (here : s.worker i = .checkShutdown) (set : s.shutdown = true) :
      WorkerMove s i (s.goto i .unlockExit)
  | unlockExit (here : s.worker i = .unlockExit) :
      WorkerMove s i { s.goto i .exit with owner := none }
  | exit (here : s.worker i = .exit) : WorkerMove s i (s.goto i .exited)
  | take (work : Nat) (cell : Work ρ α) (here : s.worker i = .take)
      (head : s.queueHead = some work) (stored : s.heap work = some cell) :
      WorkerMove s i { s.goto i (.unlock work) with
        queueHead := cell.next
        dequeued := s.dequeued ++ [cell.item] }
  | unlock (work : Nat) (here : s.worker i = .unlock work) :
      WorkerMove s i { s.goto i (.run work) with owner := none }
  | run (work : Nat) (cell : Work ρ α) (here : s.worker i = .run work)
      (stored : s.heap work = some cell) :
      WorkerMove s i { s.goto i (.free work) with ran := s.ran ++ [cell.item] }
  | free (work : Nat) (cell : Work ρ α) (here : s.worker i = .free work)
      (stored : s.heap work = some cell) :
      WorkerMove s i ((s.write work none).goto i .lock)

theorem threadRoutine_move (s t : State ρ α n π) (i : Fin n)
    (moved : threadRoutine s i = .next t) : WorkerMove s i t := by
  cases here : s.worker i with
  | lock =>
      simp only [threadRoutine, here] at moved
      split at moved <;> cases moved
      exact .lock (.inl here) (by assumption)
  | testHead =>
      simp only [threadRoutine, here] at moved
      cases moved
      split
      · exact .headEmpty here (by assumption)
      · exact .headSome here (by assumption)
  | testShutdown =>
      simp only [threadRoutine, here] at moved
      cases moved
      split
      · exact .closed here (by assumption)
      · exact .opened here (Bool.eq_false_of_not_eq_true (by assumption))
  | wait =>
      simp only [threadRoutine, here] at moved
      cases moved
      exact .wait here
  | blocked => simp [threadRoutine, here] at moved
  | woken =>
      simp only [threadRoutine, here] at moved
      split at moved <;> cases moved
      exact .lock (.inr here) (by assumption)
  | checkShutdown =>
      simp only [threadRoutine, here] at moved
      cases moved
      split
      · exact .leaves here (by assumption)
      · exact .works here (Bool.eq_false_of_not_eq_true (by assumption))
  | unlockExit =>
      simp only [threadRoutine, here] at moved
      cases moved
      exact .unlockExit here
  | exit =>
      simp only [threadRoutine, here] at moved
      cases moved
      exact .exit here
  | exited => simp [threadRoutine, here] at moved
  | take =>
      simp only [threadRoutine, here] at moved
      split at moved
      · cases moved
      · split at moved <;> cases moved
        exact .take _ _ here (by assumption) (by assumption)
  | unlock work =>
      simp only [threadRoutine, here] at moved
      cases moved
      exact .unlock work here
  | run work =>
      simp only [threadRoutine, here] at moved
      split at moved <;> cases moved
      exact .run work _ here (by assumption)
  | free work =>
      simp only [threadRoutine, here] at moved
      split at moved <;> cases moved
      exact .free work _ here (by assumption)

inductive DestroyMove (s : State ρ α n π) : State ρ α n π → Prop where
  | returns (here : s.destroyer = .start) (set : s.shutdown = true) :
      DestroyMove s { s with destroyer := .returned }
  | begins (here : s.destroyer = .start) (clear : s.shutdown = false) :
      DestroyMove s { s with destroyer := .setShutdown }
  | setShutdown (here : s.destroyer = .setShutdown) :
      DestroyMove s { s with shutdown := true, destroyer := .lock }
  | lock (here : s.destroyer = .lock) (free : s.owner = none) :
      DestroyMove s { s with owner := some .destroyer, destroyer := .broadcast }
  | broadcast (here : s.destroyer = .broadcast) :
      DestroyMove s { s with
        worker := Monitor.broadcast .blocked .woken s.worker
        destroyer := .unlock }
  | unlock (here : s.destroyer = .unlock) :
      DestroyMove s { s with owner := none, destroyer := .join 0 }
  | drain (member : Nat) (cell : Work ρ α) (here : s.destroyer = .drain)
      (head : s.queueHead = some member) (stored : s.heap member = some cell) :
      DestroyMove s { s.write member none with queueHead := cell.next }
  | ends (pc : DestroyPc) (here : s.destroyer.joining = true) (there : pc.joining = true) :
      DestroyMove s { s with destroyer := pc }

theorem tpoolDestroy_move (s t : State ρ α n π) (moved : tpoolDestroy s = .next t) :
    DestroyMove s t := by
  cases here : s.destroyer with
  | start =>
      simp only [tpoolDestroy, here] at moved
      cases moved
      split
      · exact .returns here (by assumption)
      · exact .begins here (Bool.eq_false_of_not_eq_true (by assumption))
  | returned => simp [tpoolDestroy, here] at moved
  | setShutdown =>
      simp only [tpoolDestroy, here] at moved
      cases moved
      exact .setShutdown here
  | lock =>
      simp only [tpoolDestroy, here] at moved
      split at moved <;> cases moved
      exact .lock here (by assumption)
  | broadcast =>
      simp only [tpoolDestroy, here] at moved
      cases moved
      exact .broadcast here
  | unlock =>
      simp only [tpoolDestroy, here] at moved
      cases moved
      exact .unlock here
  | drain =>
      simp only [tpoolDestroy, here] at moved
      split at moved
      · cases moved
        exact .ends _ (by rw [here]; rfl) rfl
      · split at moved <;> cases moved
        exact .drain _ _ here (by assumption) (by assumption)
  | join i =>
      simp only [tpoolDestroy, here] at moved
      cases moved
      exact .ends _ (by rw [here]; rfl) (by split <;> rfl)
  | freeIds | destroyLock | destroyCond | freePool =>
      simp only [tpoolDestroy, here] at moved
      cases moved
      exact .ends _ (by rw [here]; rfl) rfl
  | done => simp [tpoolDestroy, here] at moved

inductive CallMove [DecidableEq π] (s : State ρ α n π) (p : π) : State ρ α n π → Prop where
  | rejected : CallMove s p s
  | allocated (work : Nat) (routine : ρ) (arg : α) (here : s.adder p = .idle)
      (fresh : s.heap work = none) :
      CallMove s p ((s.write work (some ⟨routine, arg, none⟩)).proceed p (.lock work))

theorem tpoolAddWork_move [DecidableEq π] (s t : State ρ α n π) (p : π) (routine : Option ρ) (arg : α)
    (memory : Option Nat) (moved : tpoolAddWork s p routine arg memory = .next t) :
    CallMove s p t := by
  unfold tpoolAddWork at moved
  split at moved
  · split at moved <;> cases moved
    exact .allocated _ _ arg (by assumption) (by assumption)
  · cases moved
    exact .rejected
  · cases moved

inductive AdderMove [DecidableEq π] (s : State ρ α n π) (p : π) : State ρ α n π → Prop where
  | lock (work : Nat) (here : s.adder p = .lock work) (free : s.owner = none) :
      AdderMove s p { s.proceed p (.readHead work) with owner := some (.adder p) }
  | headEmpty (work : Nat) (here : s.adder p = .readHead work) (empty : s.queueHead = none) :
      AdderMove s p { s.proceed p .signal with
        queueHead := some work
        added := s.added ++ s.itemAt work }
  | headSome (work member : Nat) (here : s.adder p = .readHead work)
      (head : s.queueHead = some member) : AdderMove s p (s.proceed p (.walk work member))
  | walk (work member next : Nat) (cell : Work ρ α) (here : s.adder p = .walk work member)
      (stored : s.heap member = some cell) (onward : cell.next = some next) :
      AdderMove s p (s.proceed p (.walk work next))
  | walked (work member : Nat) (cell : Work ρ α) (here : s.adder p = .walk work member)
      (stored : s.heap member = some cell) (last : cell.next = none) :
      AdderMove s p (s.proceed p (.link work member))
  | link (work member : Nat) (cell : Work ρ α) (here : s.adder p = .link work member)
      (stored : s.heap member = some cell) :
      AdderMove s p
        { (s.write member (some { cell with next := some work })).proceed p .signal with
          added := s.added ++ s.itemAt work }
  | wakes (i : Fin n) (here : s.adder p = .signal) (waiting : s.worker i = .blocked) :
      AdderMove s p { s.proceed p .unlock with worker := Function.update s.worker i .woken }
  | wakesNone (here : s.adder p = .signal) (awake : ∀ i, s.worker i ≠ .blocked) :
      AdderMove s p (s.proceed p .unlock)
  | unlock (here : s.adder p = .unlock) : AdderMove s p { s.proceed p .idle with owner := none }

theorem tpoolAppend_move [DecidableEq π] (s t : State ρ α n π) (p : π) (picked : Option (Fin n))
    (moved : tpoolAppend s p picked = .next t) : AdderMove s p t := by
  cases here : s.adder p with
  | idle => simp [tpoolAppend, here] at moved
  | lock work =>
      simp only [tpoolAppend, here] at moved
      split at moved <;> cases moved
      exact .lock work here (by assumption)
  | readHead work =>
      simp only [tpoolAppend, here] at moved
      split at moved <;> cases moved
      · exact .headEmpty work here (by assumption)
      · exact .headSome work _ here (by assumption)
  | walk work member =>
      simp only [tpoolAppend, here] at moved
      split at moved
      · cases moved
      · split at moved <;> cases moved
        · exact .walk work member _ _ here (by assumption) (by assumption)
        · exact .walked work member _ here (by assumption) (by assumption)
  | link work member =>
      simp only [tpoolAppend, here] at moved
      split at moved <;> cases moved
      exact .link work member _ here (by assumption)
  | signal =>
      simp only [tpoolAppend, here] at moved
      cases picked with
      | none =>
          by_cases awake : ∀ i, s.worker i ≠ .blocked
          · simp only [signal, if_pos awake] at moved
            cases moved
            exact .wakesNone here awake
          · simp only [signal, if_neg awake] at moved
            cases moved
      | some i =>
          by_cases waiting : s.worker i = .blocked
          · simp only [signal, if_pos waiting] at moved
            cases moved
            exact .wakes i here waiting
          · simp only [signal, if_neg waiting] at moved
            cases moved
  | unlock =>
      simp only [tpoolAppend, here] at moved
      cases moved
      exact .unlock here

def WorkerPc.critical : WorkerPc → Bool
  | .testHead | .testShutdown | .wait | .checkShutdown | .unlockExit | .take | .unlock _ => true
  | _ => false

def AdderPc.critical : AdderPc → Bool
  | .readHead _ | .walk _ _ | .link _ _ | .signal | .unlock => true
  | _ => false

def DestroyPc.critical : DestroyPc → Bool
  | .broadcast | .unlock => true
  | _ => false

def State.Critical (s : State ρ α n π) : Thread n π → Prop
  | .worker i => (s.worker i).critical = true
  | .adder p => (s.adder p).critical = true
  | .destroyer => s.destroyer.critical = true

theorem goto_others (s : State ρ α n π) (i : Fin n) (pc : WorkerPc) (u : Thread n π)
    (other : u ≠ .worker i) : (s.goto i pc).Critical u ↔ s.Critical u := by
  cases u with
  | worker j =>
      have apart : j ≠ i := fun same => other (same ▸ rfl)
      simp only [State.Critical, State.goto, Function.update_of_ne apart]
  | adder p => rfl
  | destroyer => rfl

theorem proceed_others [DecidableEq π] (s : State ρ α n π) (p : π) (pc : AdderPc) (u : Thread n π)
    (other : u ≠ .adder p) : (s.proceed p pc).Critical u ↔ s.Critical u := by
  cases u with
  | worker i => rfl
  | adder q =>
      have apart : q ≠ p := fun same => other (same ▸ rfl)
      simp only [State.Critical, State.proceed, Function.update_of_ne apart]
  | destroyer => rfl

theorem goto_self (s : State ρ α n π) (i : Fin n) (pc : WorkerPc) :
    (s.goto i pc).Critical (.worker i) ↔ pc.critical = true := by
  simp only [State.Critical, State.goto, Function.update_self]

theorem proceed_self [DecidableEq π] (s : State ρ α n π) (p : π) (pc : AdderPc) :
    (s.proceed p pc).Critical (.adder p) ↔ pc.critical = true := by
  simp only [State.Critical, State.proceed, Function.update_self]

theorem critical_worker (s : State ρ α n π) (i : Fin n) (pc : WorkerPc) (here : s.worker i = pc) :
    s.Critical (.worker i) ↔ pc.critical = true := by
  rw [State.Critical, here]

theorem critical_adder (s : State ρ α n π) (p : π) (pc : AdderPc) (here : s.adder p = pc) :
    s.Critical (.adder p) ↔ pc.critical = true := by
  rw [State.Critical, here]

theorem goto_stays (s : State ρ α n π) (i : Fin n) (pc : WorkerPc)
    (same : pc.critical = (s.worker i).critical) :
    Moves (.worker i) s.Critical (s.goto i pc).Critical s.owner (s.goto i pc).owner := by
  apply Moves.stays
  · rw [goto_self, same]
    rfl
  · rfl

theorem proceed_stays [DecidableEq π] (s : State ρ α n π) (p : π) (pc : AdderPc)
    (same : pc.critical = (s.adder p).critical) :
    Moves (.adder p) s.Critical (s.proceed p pc).Critical s.owner (s.proceed p pc).owner := by
  apply Moves.stays
  · rw [proceed_self, same]
    rfl
  · rfl

theorem WorkerMove.exclusive {s t : State ρ α n π} {i : Fin n} (move : WorkerMove s i t)
    (held : Exclusive s.Critical s.owner) : Exclusive t.Critical t.owner := by
  cases move with
  | lock here free =>
      exact held.moves (.acquires free ((goto_self s i _).2 rfl) rfl) (goto_others s i _)
  | headEmpty here _ | headSome here _ | opened here _ | closed here _ | works here _
  | leaves here _ | exit here =>
      exact held.moves (goto_stays s i _ (by rw [here]; rfl)) (goto_others s i _)
  | wait here | unlockExit here | unlock _ here =>
      exact held.moves (.releases ((critical_worker s i _ here).2 rfl)
        ((goto_self s i _).not.2 (by simp [WorkerPc.critical])) rfl) (goto_others s i _)
  | take _ _ here _ _ | run _ _ here _ =>
      exact held.moves (goto_stays s i _ (by rw [here]; rfl)) (goto_others s i _)
  | free work _ here _ =>
      exact held.moves (goto_stays (s.write work none) i _
        (by rw [State.write, here]; rfl)) (goto_others (s.write work none) i _)

theorem DestroyPc.joining_not_critical (pc : DestroyPc) (joins : pc.joining = true) :
    pc.critical = false := by
  cases pc <;> first | rfl | cases joins

theorem wakes_critical {worker worker' : Fin n → WorkerPc}
    (wakes : Wakes .blocked .woken worker worker') (i : Fin n) :
    (worker' i).critical = (worker i).critical := by
  rcases wakes i with same | ⟨waiting, awake⟩
  · rw [same]
  · rw [waiting, awake]
    rfl

theorem DestroyMove.wakes {s t : State ρ α n π} (move : DestroyMove s t) :
    Wakes .blocked .woken s.worker t.worker := by
  cases move with
  | broadcast _ => exact wakes_broadcast _ _ _
  | _ => exact wakes_refl _ _ _

theorem DestroyMove.others {s t : State ρ α n π} (move : DestroyMove s t) (u : Thread n π)
    (other : u ≠ .destroyer) : t.Critical u ↔ s.Critical u := by
  cases u with
  | worker i => rw [State.Critical, State.Critical, wakes_critical move.wakes]
  | adder p => cases move <;> rfl
  | destroyer => exact absurd rfl other

theorem DestroyMove.exclusive {s t : State ρ α n π} (move : DestroyMove s t)
    (held : Exclusive s.Critical s.owner) : Exclusive t.Critical t.owner := by
  apply held.moves _ move.others
  cases move with
  | returns here _ | begins here _ | setShutdown here | broadcast here =>
      refine .stays ?_ rfl
      rw [State.Critical, State.Critical, here]
      rfl
  | lock here free => exact .acquires free (by rw [State.Critical]; rfl) rfl
  | unlock here =>
      refine .releases ?_ ?_ rfl
      · rw [State.Critical, here]
        rfl
      · rw [State.Critical]
        exact Bool.false_ne_true
  | drain member cell here head stored => exact .stays Iff.rfl rfl
  | ends pc here there =>
      refine .stays ?_ rfl
      rw [State.Critical, State.Critical, DestroyPc.joining_not_critical _ here,
        DestroyPc.joining_not_critical _ there]

theorem CallMove.exclusive [DecidableEq π] {s t : State ρ α n π} {p : π} (move : CallMove s p t)
    (held : Exclusive s.Critical s.owner) : Exclusive t.Critical t.owner := by
  cases move with
  | rejected => exact held
  | allocated work routine arg here fresh =>
      exact held.moves (proceed_stays (s.write work _) p _ (by rw [State.write, here]; rfl))
        (proceed_others (s.write work _) p _)

theorem AdderMove.exclusive [DecidableEq π] {s t : State ρ α n π} {p : π} (move : AdderMove s p t)
    (held : Exclusive s.Critical s.owner) : Exclusive t.Critical t.owner := by
  cases move with
  | lock work here free =>
      exact held.moves (.acquires free ((proceed_self s p _).2 rfl) rfl) (proceed_others s p _)
  | headEmpty _ here _ | headSome _ _ here _ | walk _ _ _ _ here _ _ | walked _ _ _ here _ _
  | wakesNone here _ =>
      exact held.moves (proceed_stays s p _ (by rw [here]; rfl)) (proceed_others s p _)
  | link work member cell here stored =>
      exact held.moves (proceed_stays (s.write member _) p _ (by rw [State.write, here]; rfl))
        (proceed_others (s.write member _) p _)
  | wakes i here waiting =>
      have woken := wakes_critical (wakes_update _ _ s.worker i waiting)
      refine held.moves (.stays ?_ rfl) ?_ (t := .adder p)
      · rw [critical_adder s p _ here]
        exact proceed_self s p _
      · intro u other
        cases u with
        | worker j => rw [State.Critical, State.Critical, woken]
        | adder q => exact proceed_others s p _ _ other
        | destroyer => rfl
  | unlock here =>
      exact held.moves (.releases ((critical_adder s p _ here).2 rfl)
        ((proceed_self s p _).not.2 (by simp [AdderPc.critical])) rfl) (proceed_others s p _)

theorem tpoolCreate_exclusive :
    Exclusive (tpoolCreate ρ α n π).Critical (tpoolCreate ρ α n π).owner := by
  intro u
  constructor
  · intro inside
    cases u <;> cases inside
  · intro owner
    cases owner

end DataStructure.ThreadPool
