import DataStructure.Thread.Pool

/-! No wake-up of the thread pool is lost.

A worker blocks only after it saw the queue empty, and it holds the lock from that test to
`pthread_cond_wait`. The flag is set before the lock of the broadcast is taken, so that no
worker can still be on its way to the wait when the broadcast is made. -/

namespace DataStructure.ThreadPool

open Monitor

variable {ρ α : Type} {n : Nat} {π : Type}

def DestroyPc.closing : DestroyPc → Bool
  | .start | .returned | .setShutdown => false
  | _ => true

def DestroyPc.released : DestroyPc → Bool
  | .start | .returned | .setShutdown | .lock | .broadcast => false
  | _ => true

structure Awake (s : State ρ α n π) : Prop where
  exclusive : Exclusive s.Critical s.owner
  sawEmpty : ∀ i, s.worker i = .testShutdown ∨ s.worker i = .wait → s.queueHead = none
  attended : s.queueHead ≠ none → (∃ p, s.adder p = .signal) ∨ ∃ i, s.worker i ≠ .blocked
  flagged : s.destroyer.closing = true → s.shutdown = true
  released : s.destroyer.released = true → ∀ i, s.worker i ≠ .blocked ∧ s.worker i ≠ .wait

theorem tpoolCreate_awake : Awake (tpoolCreate ρ α n π) where
  exclusive := tpoolCreate_exclusive
  sawEmpty := fun _ _ => rfl
  attended := fun filled => absurd rfl filled
  flagged := fun early => by cases early
  released := fun early => by cases early

theorem DestroyPc.closing_of_released (pc : DestroyPc) (after : pc.released = true) :
    pc.closing = true := by
  cases pc <;> first | rfl | cases after

theorem Awake.alone {s : State ρ α n π} (awake : Awake s) {u v : Thread n π} (first : s.Critical u)
    (second : s.Critical v) : u = v :=
  awake.exclusive.unique first second

theorem Awake.no_worker_inside {s : State ρ α n π} (awake : Awake s) (here : s.destroyer = .broadcast)
    (i : Fin n) (pc : WorkerPc) (inside : pc.critical = true) : s.worker i ≠ pc := by
  intro there
  have held : s.Critical .destroyer := by
    rw [State.Critical, here]
    rfl
  have same := awake.alone ((critical_worker s i pc there).2 inside) held
  cases same

theorem Awake.attended_elsewhere {s : State ρ α n π} (awake : Awake s) (p : π)
    (silent : s.adder p ≠ .signal) (filled : s.queueHead ≠ none) :
    (∃ q, q ≠ p ∧ s.adder q = .signal) ∨ ∃ i, s.worker i ≠ .blocked := by
  rcases awake.attended filled with ⟨q, signals⟩ | worker
  · refine .inl ⟨q, ?_, signals⟩
    rintro rfl
    exact silent signals
  · exact .inr worker

theorem DestroyPc.released_of_joining (pc : DestroyPc) (joins : pc.joining = true) :
    pc.released = true := by
  cases pc <;> first | rfl | cases joins

section Worker

variable {s t : State ρ α n π} {i : Fin n}

theorem WorkerMove.sawEmpty (move : WorkerMove s i t) (awake : Awake s) (j : Fin n)
    (there : t.worker j = .testShutdown ∨ t.worker j = .wait) : t.queueHead = none := by
  cases move with
  | headEmpty here empty => exact empty
  | opened here clear => exact awake.sawEmpty i (.inl here)
  | take work cell here head stored =>
      -- a worker at its test would own the lock as well
      by_cases self : j = i
      · simp [self, State.goto] at there
      · simp only [State.goto, Function.update_of_ne self] at there
        have same := awake.alone (u := .worker j) (v := .worker i)
          (by rcases there with there | there <;> rw [State.Critical, there] <;> rfl)
          (by rw [State.Critical, here]; rfl)
        exact absurd (Thread.worker.inj same) self
  | _ =>
      by_cases self : j = i
      · simp [self, State.goto, State.write] at there
      · simp only [State.goto, State.write, Function.update_of_ne self] at there
        exact awake.sawEmpty j there

theorem WorkerMove.attended (move : WorkerMove s i t) (awake : Awake s)
    (filled : t.queueHead ≠ none) :
    (∃ p, t.adder p = .signal) ∨ ∃ j, t.worker j ≠ .blocked := by
  cases move with
  | wait here => exact absurd (awake.sawEmpty i (.inr here)) filled
  | _ => exact .inr ⟨i, by simp [State.goto]⟩

theorem WorkerMove.frame (move : WorkerMove s i t) :
    t.destroyer = s.destroyer ∧ t.shutdown = s.shutdown := by
  cases move <;> exact ⟨rfl, rfl⟩

theorem WorkerMove.released (move : WorkerMove s i t) (awake : Awake s)
    (after : t.destroyer.released = true) (j : Fin n) :
    t.worker j ≠ .blocked ∧ t.worker j ≠ .wait := by
  have before : s.destroyer.released = true := move.frame.1 ▸ after
  have flagged := awake.flagged (DestroyPc.closing_of_released _ before)
  have calm := awake.released before
  cases move with
  | opened here clear => exact absurd (flagged.symm.trans clear) (by simp)
  | wait here => exact absurd here (calm i).2
  | _ =>
      by_cases self : j = i
      · simp [self, State.goto]
      · simp only [State.goto, State.write, Function.update_of_ne self]
        exact calm j

theorem WorkerMove.awake (move : WorkerMove s i t) (awake : Awake s) : Awake t where
  exclusive := move.exclusive awake.exclusive
  sawEmpty := move.sawEmpty awake
  attended := move.attended awake
  flagged := by
    rw [move.frame.1, move.frame.2]
    exact awake.flagged
  released := move.released awake

end Worker

section Adder

variable [DecidableEq π] {s t : State ρ α n π} {p : π}

theorem AdderMove.onlyWakes (move : AdderMove s p t) : Wakes .blocked .woken s.worker t.worker := by
  cases move with
  | wakes i here waiting => exact wakes_update _ _ _ i waiting
  | _ => exact wakes_refl _ _ _

theorem AdderMove.frame (move : AdderMove s p t) :
    t.destroyer = s.destroyer ∧ t.shutdown = s.shutdown := by
  cases move <;> exact ⟨rfl, rfl⟩

/-- An adder that fills the empty queue is about to signal. -/
theorem AdderMove.queueHead (move : AdderMove s p t) :
    t.queueHead = s.queueHead ∨ (s.Critical (.adder p) ∧ t.adder p = .signal) := by
  cases move with
  | headEmpty work here empty =>
      refine .inr ⟨?_, ?_⟩
      · rw [State.Critical, here]
        rfl
      · simp [State.proceed]
  | _ => exact .inl rfl

theorem AdderMove.awake (positive : 0 < n) (move : AdderMove s p t) (awake : Awake s) :
    Awake t where
  exclusive := move.exclusive awake.exclusive
  sawEmpty := by
    intro j there
    have before : s.worker j = .testShutdown ∨ s.worker j = .wait := by
      rcases move.onlyWakes j with same | ⟨_, woken⟩
      · rwa [same] at there
      · simp [woken] at there
    rcases move.queueHead with kept | ⟨inside, _⟩
    · rw [kept]
      exact awake.sawEmpty j before
    · have same := awake.alone (u := .worker j) (v := .adder p)
        (by rcases before with before | before <;> rw [State.Critical, before] <;> rfl) inside
      cases same
  attended := by
    intro filled
    cases move with
    | wakes i here waiting => exact .inr ⟨i, by simp⟩
    | wakesNone here calm => exact .inr ⟨⟨0, positive⟩, calm _⟩
    | headEmpty work here empty => exact .inl ⟨p, by simp [State.proceed]⟩
    | link work member cell here stored => exact .inl ⟨p, by simp [State.proceed]⟩
    | lock _ here _ | headSome _ _ here _ | walk _ _ _ _ here _ _ | walked _ _ _ here _ _
    | unlock here =>
        rcases awake.attended_elsewhere p (by rw [here]; simp) filled with ⟨q, apart, signals⟩ | worker
        · exact .inl ⟨q, by simpa [State.proceed, apart] using signals⟩
        · exact .inr worker
  flagged := by
    rw [move.frame.1, move.frame.2]
    exact awake.flagged
  released := by
    intro after j
    have calm := awake.released (move.frame.1 ▸ after) j
    exact ⟨move.onlyWakes.ne (by simp) calm.1, move.onlyWakes.ne (by simp) calm.2⟩

end Adder

theorem CallMove.awake [DecidableEq π] {s t : State ρ α n π} {p : π} (move : CallMove s p t)
    (awake : Awake s) : Awake t where
  exclusive := move.exclusive awake.exclusive
  sawEmpty := by cases move <;> exact awake.sawEmpty
  attended := by
    cases move with
    | rejected => exact awake.attended
    | allocated work routine arg here fresh =>
        intro filled
        rcases awake.attended_elsewhere p (by rw [here]; simp) filled with ⟨q, apart, signals⟩ | worker
        · exact .inl ⟨q, by simpa [State.proceed, State.write, apart] using signals⟩
        · exact .inr worker
  flagged := by cases move <;> exact awake.flagged
  released := by cases move <;> exact awake.released

section Destroy

variable {s t : State ρ α n π}

theorem DestroyMove.queueHead (move : DestroyMove s t) :
    t.queueHead = s.queueHead ∨ s.queueHead ≠ none := by
  cases move with
  | drain member cell here head stored => exact .inr (by rw [head]; simp)
  | _ => exact .inl rfl

theorem DestroyMove.flagged (move : DestroyMove s t) (awake : Awake s)
    (closing : t.destroyer.closing = true) : t.shutdown = true := by
  cases move with
  | setShutdown here => rfl
  | returns here _ | begins here _ => cases closing
  | lock here _ | broadcast here | unlock here | drain _ _ here _ _ =>
      exact awake.flagged (by rw [here]; rfl)
  | ends pc here there =>
      have released := DestroyPc.released_of_joining _ here
      exact awake.flagged (DestroyPc.closing_of_released _ released)

theorem DestroyMove.released (move : DestroyMove s t) (awake : Awake s)
    (after : t.destroyer.released = true) (j : Fin n) :
    t.worker j ≠ .blocked ∧ t.worker j ≠ .wait := by
  have wakes := move.wakes
  cases move with
  | returns here _ | begins here _ | setShutdown here | lock here _ => cases after
  | broadcast here =>
      -- no worker is between its test and the wait
      have elsewhere : s.worker j ≠ .wait := awake.no_worker_inside here j .wait rfl
      exact ⟨broadcast_ne WorkerPc.blocked .woken _ (by simp) j, wakes.ne (by simp) elsewhere⟩
  | unlock here | drain _ _ here _ _ => exact awake.released (by rw [here]; rfl) j
  | ends pc here there =>
      exact awake.released (DestroyPc.released_of_joining _ here) j

theorem DestroyMove.awake (move : DestroyMove s t) (awake : Awake s) : Awake t where
  exclusive := move.exclusive awake.exclusive
  sawEmpty := by
    intro j there
    have before : s.worker j = .testShutdown ∨ s.worker j = .wait := by
      rcases move.wakes j with same | ⟨_, woken⟩
      · rwa [same] at there
      · simp [woken] at there
    have empty := awake.sawEmpty j before
    rcases move.queueHead with kept | filled
    · rw [kept]
      exact empty
    · exact absurd empty filled
  attended := by
    intro filled
    have adders : t.adder = s.adder := by cases move <;> rfl
    have before : s.queueHead ≠ none := by
      rcases move.queueHead with kept | filled'
      · rwa [kept] at filled
      · exact filled'
    rcases awake.attended before with signals | ⟨j, elsewhere⟩
    · rw [adders]
      exact .inl signals
    · exact .inr ⟨j, move.wakes.ne (by simp) elsewhere⟩
  flagged := move.flagged awake
  released := move.released awake

end Destroy

theorem step_awake [DecidableEq π] (positive : 0 < n) (s : State ρ α n π) (e : Event ρ α n π)
    (t : State ρ α n π) (awake : Awake s) (moved : step s e = .next t) : Awake t := by
  cases e with
  | worker i => exact (threadRoutine_move s t i moved).awake awake
  | call p routine arg memory => exact (tpoolAddWork_move s t p routine arg memory moved).awake awake
  | adder p picked => exact (tpoolAppend_move s t p picked moved).awake positive awake
  | destroy => exact (tpoolDestroy_move s t moved).awake awake

theorem reachable_awake [DecidableEq π] (positive : 0 < n) (s : State ρ α n π)
    (reached : (pool ρ α n π).Reachable s) : Awake s := by
  apply (pool ρ α n π).invariant Awake _ (step_awake positive) reached
  rintro _ rfl
  exact tpoolCreate_awake

/-- With the lock free and work in the queue some worker is not blocked; once the broadcast
has been made no worker is. -/
theorem no_lost_wakeup [DecidableEq π] (positive : 0 < n) (s : State ρ α n π)
    (reached : (pool ρ α n π).Reachable s) :
    (s.owner = none → s.shutdown = false → s.queueHead ≠ none → ¬ ∀ i, s.worker i = .blocked) ∧
      (s.destroyer.released = true → ∀ i, s.worker i ≠ .blocked) := by
  have awake := reachable_awake positive s reached
  refine ⟨?_, fun after i => (awake.released after i).1⟩
  intro free _ filled
  rcases awake.attended filled with ⟨p, signals⟩ | ⟨i, elsewhere⟩
  · have inside : s.Critical (.adder p) := by
      rw [State.Critical, signals]
      rfl
    exact absurd inside (awake.exclusive.none_critical free _)
  · exact fun every => elsewhere (every i)

/-- A worker blocks on the empty queue and one call wakes it: the lock is free, the queue is
not empty, and the wake-up is pending. -/
def wakingRun : List (Event Unit Unit 1 Unit) :=
  List.replicate 4 (.worker (Fin.last 0)) ++ [.call () (some ()) () (some 0), .adder () none,
    .adder () none, .adder () (some (Fin.last 0)), .adder () none]

theorem no_lost_wakeup_one_worker :
    ∃ s : State Unit Unit 1 Unit, (pool Unit Unit 1 Unit).Reachable s ∧ s.owner = none ∧
      s.shutdown = false ∧ s.queueHead = some 0 ∧ ¬ ∀ i, s.worker i = .blocked := by
  have ran : ∃ s, (pool Unit Unit 1 Unit).run (tpoolCreate Unit Unit 1 Unit) wakingRun = some s ∧
      s.owner = none ∧ s.shutdown = false ∧ s.queueHead = some 0 := ⟨_, rfl, rfl, rfl, rfl⟩
  obtain ⟨s, ran, free, clear, head⟩ := ran
  have reached : (pool Unit Unit 1 Unit).Reachable s := ⟨_, rfl, wakingRun, ran⟩
  exact ⟨s, reached, free, clear, head,
    (no_lost_wakeup (by decide) s reached).1 free clear (by rw [head]; simp)⟩

end DataStructure.ThreadPool
