import DataStructure.Lib.System
import DataStructure.Lib.Monitor

/-! The class `CThreadPool` of `socket/libcurl/pool/thread_pool.cpp`.

Its destructor writes `shutdown` and broadcasts without the mutex, so a worker may have
read the old value and not be blocked yet. -/

namespace DataStructure.CThreadPool

open Monitor

inductive Thread (n : Nat) (π : Type) where
  | worker (i : Fin n)
  | adder (p : π)
  deriving DecidableEq

/-- The statement of `thread_routine` a worker is about to execute; `job` is the pair of
routine and argument of the `CJob` it took. -/
inductive WorkerPc (κ : Type) where
  | lock
  | testSize
  | testShutdown
  | wait
  | blocked
  | woken
  | checkShutdown
  | unlockExit
  | exit
  | exited
  | take
  | unlock (job : κ)
  | run (job : κ)
  deriving DecidableEq, Repr

inductive AdderPc (κ : Type) where
  | idle
  | lock (job : κ)
  | push (job : κ)
  | unlock
  | signal
  deriving DecidableEq, Repr

inductive DestroyPc where
  | start
  | returned
  | setShutdown
  | broadcast
  | join (i : Nat)
  | clear
  | done
  deriving DecidableEq, Repr

structure State (κ : Type) (n : Nat) (π : Type) where
  queueJob : List κ
  curQueueSize : Int
  shutdown : Bool
  owner : Option (Thread n π)
  worker : Fin n → WorkerPc κ
  adder : π → AdderPc κ
  destroyer : DestroyPc
  ran : List κ

inductive Event (κ : Type) (n : Nat) (π : Type) where
  | worker (i : Fin n)
  | call (p : π) (job : κ)
  | adder (p : π) (picked : Option (Fin n))
  | destroy

variable {κ : Type} {n : Nat} {π : Type}

namespace State

variable (s : State κ n π)

def goto (i : Fin n) (pc : WorkerPc κ) : State κ n π :=
  { s with worker := Function.update s.worker i pc }

def proceed [DecidableEq π] (p : π) (pc : AdderPc κ) : State κ n π :=
  { s with adder := Function.update s.adder p pc }

end State

def threadRoutine (s : State κ n π) (i : Fin n) : Outcome (State κ n π) :=
  match s.worker i with
  | .lock =>
      if s.owner = none then .next { s.goto i .testSize with owner := some (.worker i) } else .waits
  | .testSize => .next (s.goto i (if s.curQueueSize = 0 then .testShutdown else .checkShutdown))
  | .testShutdown => .next (s.goto i (if s.shutdown then .checkShutdown else .wait))
  | .wait => .next { s.goto i .blocked with owner := none }
  | .blocked => .waits
  | .woken =>
      if s.owner = none then .next { s.goto i .testSize with owner := some (.worker i) } else .waits
  | .checkShutdown => .next (s.goto i (if s.shutdown then .unlockExit else .take))
  | .unlockExit => .next { s.goto i .exit with owner := none }
  | .exit => .next (s.goto i .exited)
  | .exited => .waits
  | .take =>
      -- the two assertions
      match s.queueJob with
      | [] => .fault
      | job :: rest =>
          if s.curQueueSize = 0 then .fault
          else
            .next { s.goto i (.unlock job) with
              queueJob := rest
              curQueueSize := s.curQueueSize - 1 }
  | .unlock job => .next { s.goto i (.run job) with owner := none }
  | .run job => .next { s.goto i .lock with ran := s.ran ++ [job] }

def create (κ : Type) (n : Nat) (π : Type) : State κ n π where
  queueJob := []
  curQueueSize := 0
  shutdown := false
  owner := none
  worker := fun _ => .lock
  adder := fun _ => .idle
  destroyer := .start
  ran := []

/-- The destructor. The threads are joinable: `pthread_join` waits for the end of each. -/
def destroy [DecidableEq κ] (s : State κ n π) : Outcome (State κ n π) :=
  match s.destroyer with
  | .start => .next { s with destroyer := if s.shutdown then .returned else .setShutdown }
  | .returned => .waits
  | .setShutdown => .next { s with shutdown := true, destroyer := .broadcast }
  | .broadcast =>
      .next { s with worker := broadcast .blocked .woken s.worker, destroyer := .join 0 }
  | .join i =>
      if inside : i < n then
        if s.worker ⟨i, inside⟩ = .exited then .next { s with destroyer := .join (i + 1) }
        else .waits
      else .next { s with destroyer := .clear }
  | .clear => .next { s with queueJob := [], destroyer := .done }
  | .done => .waits

section Adder

variable [DecidableEq π]

def poolAddJob (s : State κ n π) (p : π) (job : κ) : Outcome (State κ n π) :=
  match s.adder p with
  | .idle => .next (s.proceed p (.lock job))
  | _ => .waits

/-- `pool_add_job` from the lock on; the signal is sent after the mutex is released. -/
def poolPush [DecidableEq κ] (s : State κ n π) (p : π) (picked : Option (Fin n)) :
    Outcome (State κ n π) :=
  match s.adder p with
  | .idle => .waits
  | .lock job =>
      if s.owner = none then .next { s.proceed p (.push job) with owner := some (.adder p) }
      else .waits
  | .push job =>
      .next { s.proceed p .unlock with
        queueJob := s.queueJob ++ [job]
        curQueueSize := s.curQueueSize + 1 }
  | .unlock => .next { s.proceed p .signal with owner := none }
  | .signal =>
      match signal .blocked .woken s.worker picked with
      | none => .waits
      | some worker => .next { s.proceed p .idle with worker := worker }

def step [DecidableEq κ] (s : State κ n π) : Event κ n π → Outcome (State κ n π)
  | .worker i => threadRoutine s i
  | .call p job => poolAddJob s p job
  | .adder p picked => poolPush s p picked
  | .destroy => destroy s

end Adder

def pool (κ : Type) (n : Nat) (π : Type) [DecidableEq κ] [DecidableEq π] :
    System (State κ n π) (Event κ n π) where
  initial s := s = create κ n π
  step := step

def DestroyPc.flagged : DestroyPc → Bool
  | .start | .returned | .setShutdown => false
  | _ => true

/-- What a worker's step does to its place and to what the destructor writes: the wait is
reached only with the flag clear, and it is the only way to block. -/
theorem threadRoutine_place (s t : State κ n π) (i : Fin n) (moved : threadRoutine s i = .next t) :
    ∃ pc, t.worker = Function.update s.worker i pc ∧ t.shutdown = s.shutdown ∧
      t.destroyer = s.destroyer ∧ (pc = .wait → s.shutdown = false) ∧
      (pc = .blocked → s.worker i = .wait) := by
  cases here : s.worker i with
  | lock | woken =>
      simp only [threadRoutine, here] at moved
      split at moved <;> cases moved
      exact ⟨_, rfl, rfl, rfl, (by simp), (by simp)⟩
  | testSize =>
      simp only [threadRoutine, here] at moved
      cases moved
      refine ⟨_, rfl, rfl, rfl, ?_, ?_⟩ <;> split <;> simp
  | testShutdown =>
      simp only [threadRoutine, here] at moved
      cases moved
      refine ⟨_, rfl, rfl, rfl, ?_, ?_⟩
      · split
        · simp
        · next clear => exact fun _ => Bool.eq_false_of_not_eq_true clear
      · split <;> simp
  | wait =>
      simp only [threadRoutine, here] at moved
      cases moved
      exact ⟨_, rfl, rfl, rfl, (by simp), fun _ => rfl⟩
  | checkShutdown =>
      simp only [threadRoutine, here] at moved
      cases moved
      refine ⟨_, rfl, rfl, rfl, ?_, ?_⟩ <;> split <;> simp
  | take =>
      simp only [threadRoutine, here] at moved
      split at moved
      · cases moved
      · split at moved <;> cases moved
        exact ⟨_, rfl, rfl, rfl, (by simp), (by simp)⟩
  | unlockExit | exit | unlock _ | run _ =>
      simp only [threadRoutine, here] at moved
      cases moved
      exact ⟨_, rfl, rfl, rfl, (by simp), (by simp)⟩
  | blocked | exited => simp [threadRoutine, here] at moved

theorem poolAddJob_place [DecidableEq π] (s t : State κ n π) (p : π) (job : κ)
    (moved : poolAddJob s p job = .next t) :
    t.worker = s.worker ∧ t.shutdown = s.shutdown ∧ t.destroyer = s.destroyer := by
  unfold poolAddJob at moved
  split at moved <;> cases moved
  exact ⟨rfl, rfl, rfl⟩

theorem poolPush_place [DecidableEq π] [DecidableEq κ] (s t : State κ n π) (p : π)
    (picked : Option (Fin n)) (moved : poolPush s p picked = .next t) :
    Wakes .blocked .woken s.worker t.worker ∧ t.shutdown = s.shutdown ∧
      t.destroyer = s.destroyer := by
  cases here : s.adder p with
  | idle => simp [poolPush, here] at moved
  | lock job =>
      simp only [poolPush, here] at moved
      split at moved <;> cases moved
      exact ⟨wakes_refl _ _ _, rfl, rfl⟩
  | push job | unlock =>
      simp only [poolPush, here] at moved
      cases moved
      exact ⟨wakes_refl _ _ _, rfl, rfl⟩
  | signal =>
      simp only [poolPush, here] at moved
      split at moved <;> cases moved
      exact ⟨wakes_signal _ _ _ _ picked (by assumption), rfl, rfl⟩

theorem destroy_place [DecidableEq κ] (s t : State κ n π) (moved : destroy s = .next t) :
    Wakes .blocked .woken s.worker t.worker ∧ (s.shutdown = true → t.shutdown = true) ∧
      (t.destroyer.flagged = true → s.destroyer.flagged = true ∨ t.shutdown = true) := by
  cases here : s.destroyer with
  | start =>
      simp only [destroy, here] at moved
      cases moved
      refine ⟨wakes_refl _ _ _, id, ?_⟩
      show DestroyPc.flagged _ = true → _
      split <;> simp [DestroyPc.flagged]
  | setShutdown =>
      simp only [destroy, here] at moved
      cases moved
      exact ⟨wakes_refl _ _ _, fun _ => rfl, fun _ => .inr rfl⟩
  | broadcast =>
      simp only [destroy, here] at moved
      cases moved
      exact ⟨wakes_broadcast _ _ _, id, fun _ => .inl rfl⟩
  | join i =>
      simp only [destroy, here] at moved
      split at moved
      · split at moved <;> cases moved
        exact ⟨wakes_refl _ _ _, id, fun _ => .inl rfl⟩
      · cases moved
        exact ⟨wakes_refl _ _ _, id, fun _ => .inl rfl⟩
  | clear =>
      simp only [destroy, here] at moved
      cases moved
      exact ⟨wakes_refl _ _ _, id, fun _ => .inl rfl⟩
  | returned | done => simp [destroy, here] at moved

section Runs

variable [DecidableEq κ] [DecidableEq π]

theorem step_flagged (s : State κ n π) (e : Event κ n π) (t : State κ n π)
    (flagged : s.destroyer.flagged = true → s.shutdown = true) (moved : step s e = .next t) :
    t.destroyer.flagged = true → t.shutdown = true := by
  cases e with
  | worker i =>
      obtain ⟨_, _, shutdown, destroyer, _⟩ := threadRoutine_place s t i moved
      rwa [shutdown, destroyer]
  | call p job =>
      obtain ⟨_, shutdown, destroyer⟩ := poolAddJob_place s t p job moved
      rwa [shutdown, destroyer]
  | adder p picked =>
      obtain ⟨_, shutdown, destroyer⟩ := poolPush_place s t p picked moved
      rwa [shutdown, destroyer]
  | destroy =>
      obtain ⟨_, keeps, origin⟩ := destroy_place s t moved
      intro after
      exact (origin after).elim (fun before => keeps (flagged before)) id

theorem reachable_flagged (s : State κ n π) (reached : (pool κ n π).Reachable s) :
    s.destroyer.flagged = true → s.shutdown = true := by
  refine (pool κ n π).invariant (fun s => s.destroyer.flagged = true → s.shutdown = true) ?_
    step_flagged reached
  rintro _ rfl early
  cases early

structure Unblocked (s : State κ n π) : Prop where
  shutdown : s.shutdown = true
  places : ∀ i, s.worker i ≠ .blocked ∧ s.worker i ≠ .wait

omit [DecidableEq κ] [DecidableEq π] in
theorem Unblocked.woken {s t : State κ n π} (unblocked : Unblocked s)
    (wakes : Wakes .blocked .woken s.worker t.worker) (shutdown : t.shutdown = true) :
    Unblocked t :=
  ⟨shutdown, fun i => ⟨wakes.ne (by simp) (unblocked.places i).1, wakes.ne (by simp) (unblocked.places i).2⟩⟩

theorem step_unblocked (s : State κ n π) (e : Event κ n π) (t : State κ n π)
    (unblocked : Unblocked s) (moved : step s e = .next t) : Unblocked t := by
  cases e with
  | worker i =>
      obtain ⟨pc, worker, shutdown, _, waits, blocks⟩ := threadRoutine_place s t i moved
      refine ⟨shutdown.trans unblocked.shutdown, fun j => ?_⟩
      by_cases self : j = i
      · rw [worker, self, Function.update_self]
        refine ⟨fun blocked => (unblocked.places i).2 (blocks blocked), fun wait => ?_⟩
        exact absurd (unblocked.shutdown.symm.trans (waits wait)) (by simp)
      · rw [worker, Function.update_of_ne self]
        exact unblocked.places j
  | call p job =>
      obtain ⟨worker, shutdown, _⟩ := poolAddJob_place s t p job moved
      refine unblocked.woken ?_ (shutdown.trans unblocked.shutdown)
      rw [worker]
      exact wakes_refl _ _ _
  | adder p picked =>
      obtain ⟨wakes, shutdown, _⟩ := poolPush_place s t p picked moved
      exact unblocked.woken wakes (shutdown.trans unblocked.shutdown)
  | destroy =>
      obtain ⟨wakes, keeps, _⟩ := destroy_place s t moved
      exact unblocked.woken wakes (keeps unblocked.shutdown)

/-- From the broadcast on no worker is ever blocked without a wake-up. -/
def NeverBlocked (s : State κ n π) : Prop :=
  ∀ t, (pool κ n π).step s .destroy = .next t → ∀ u, (pool κ n π).Leads t u →
    ∀ i, u.worker i ≠ .blocked

/-- The broadcast reaches every worker exactly if none is between its test of the flag and
its wait. -/
theorem never_blocked_iff (s : State κ n π) (reached : (pool κ n π).Reachable s)
    (here : s.destroyer = .broadcast) : NeverBlocked s ↔ ∀ i, s.worker i ≠ .wait := by
  have moved : (pool κ n π).step s .destroy =
      .next { s with worker := broadcast .blocked .woken s.worker, destroyer := .join 0 } := by
    simp only [pool, step, destroy, here]
  constructor
  · intro never i waits
    have place : broadcast .blocked .woken s.worker i = .wait := by
      rw [broadcast, if_neg (by rw [waits]; simp), waits]
    have blocks : ∃ u, (pool κ n π).step
        { s with worker := broadcast .blocked .woken s.worker, destroyer := .join 0 } (.worker i) =
        .next u ∧ u.worker i = .blocked := by
      simp [pool, step, threadRoutine, place, State.goto]
    obtain ⟨u, blocking, blocked⟩ := blocks
    exact never _ moved u ((pool κ n π).leads_step blocking) i blocked
  · intro clear t moved' u leads i
    cases moved.symm.trans moved'
    have flagged := reachable_flagged s reached (by rw [here]; rfl)
    have start : Unblocked
        { s with worker := broadcast .blocked .woken s.worker, destroyer := .join 0 } :=
      ⟨flagged, fun j => ⟨broadcast_ne (.blocked : WorkerPc κ) .woken _ (by simp) j,
        (wakes_broadcast _ _ _).ne (by simp) (clear j)⟩⟩
    exact (((pool κ n π).leads_invariant Unblocked step_unblocked start leads).places i).1

end Runs

/-- The worker has read the flag, the destructor sets it and broadcasts, the worker blocks. -/
def stuckRun : List (Event Unit 1 Unit) :=
  List.replicate 3 (.worker 0) ++ List.replicate 3 .destroy ++ [.worker 0]

/-- The worker is blocked for good and the destructor waits for it in its first join. -/
theorem worker_blocked_forever :
    ∃ s : State Unit 1 Unit, (pool Unit 1 Unit).Reachable s ∧ s.destroyer = .join 0 ∧
      s.worker 0 = .blocked ∧ (pool Unit 1 Unit).step s (.worker 0) = .waits ∧
      (pool Unit 1 Unit).step s .destroy = .waits := by
  have ran : ∃ s, (pool Unit 1 Unit).run (create Unit 1 Unit) stuckRun = some s ∧
      s.destroyer = .join 0 ∧ s.worker 0 = .blocked ∧
      (pool Unit 1 Unit).step s (.worker 0) = .waits ∧
      (pool Unit 1 Unit).step s .destroy = .waits := ⟨_, rfl, rfl, rfl, rfl, rfl⟩
  obtain ⟨s, ran, joins, blocked, still⟩ := ran
  exact ⟨s, ⟨_, rfl, stuckRun, ran⟩, joins, blocked, still⟩

def wakingRun : List (Event Unit 1 Unit) :=
  List.replicate 4 (.worker 0) ++ List.replicate 2 .destroy

theorem never_blocked_iff_waiting_worker :
    ∃ s : State Unit 1 Unit, (pool Unit 1 Unit).Reachable s ∧ s.worker 0 = .blocked ∧
      NeverBlocked s := by
  have ran : ∃ s, (pool Unit 1 Unit).run (create Unit 1 Unit) wakingRun = some s ∧
      s.destroyer = .broadcast ∧ s.worker 0 = .blocked := ⟨_, rfl, rfl, rfl⟩
  obtain ⟨s, ran, here, blocked⟩ := ran
  have reached : (pool Unit 1 Unit).Reachable s := ⟨_, rfl, wakingRun, ran⟩
  refine ⟨s, reached, blocked, (never_blocked_iff s reached here).2 fun i => ?_⟩
  rw [Subsingleton.elim i 0, blocked]
  simp

end DataStructure.CThreadPool
