import DataStructure.Thread.PoolQueue
import DataStructure.Thread.PoolWake

/-! `tpool_destroy` frees the pool without waiting for its workers.

The workers are detached, so the joins wait for nobody. Whether the freed pool is still used
depends on where the workers are when it is freed. -/

namespace DataStructure.ThreadPool

open Monitor Chain

variable {ρ α : Type} {n : Nat} {π : Type}

def WorkerPc.usesPool : WorkerPc → Bool
  | .blocked | .exit | .exited | .run _ | .free _ => false
  | _ => true

inductive Mover (n : Nat) where
  | worker (i : Fin n)
  | destroy
  deriving DecidableEq

/-- `tpool_destroy` together with the workers, from a state of the pool in which no call of
`tpool_add_work` is under way. -/
def teardown (ρ α : Type) (n : Nat) (π : Type) [DecidableEq π] : System (State ρ α n π) (Mover n) where
  initial s := (pool ρ α n π).Reachable s ∧ s.destroyer = .start ∧ ∀ p, s.adder p = .idle
  step s
    | .worker i => threadRoutine s i
    | .destroy => tpoolDestroy s

def PoolUnused [DecidableEq π] (s : State ρ α n π) : Prop :=
  ∀ t, (teardown ρ α n π).Leads s t → ∀ i u, threadRoutine t i = .next u →
    (t.worker i).usesPool = false

structure Closing (s : State ρ α n π) : Prop where
  awake : 0 < n → Awake s
  quiet : ∀ p, s.adder p = .idle
  queue : ∃ nodes, Queue s nodes
  idle : s.destroyer.released = true → ∀ i, s.worker i ≠ .take

theorem Queue.drain {s : State ρ α n π} {member : Nat} {nodes : List Nat} {cell : Work ρ α}
    (queue : Queue s (member :: nodes)) (quiet : ∀ p, s.adder p = .idle)
    (stored : s.heap member = some cell) :
    Queue { s.write member none with queueHead := cell.next } nodes := by
  obtain ⟨_, cell', stored', rest⟩ := queue.linked
  cases stored.symm.trans stored'
  have first : member ∉ nodes := (List.nodup_cons.1 (linked_nodup queue.linked)).1
  constructor
  · exact linked_frame rest first none
  · intro u a holds
    obtain ⟨outside, found, kept⟩ := queue.apart u a holds
    rw [List.mem_cons, not_or] at outside
    refine ⟨outside.2, found, ?_⟩
    simp only [State.write, Function.update_of_ne outside.1, kept]
  · exact queue.single
  · intro p a _ prepares
    rw [State.write, quiet p] at prepares
    cases prepares
  · intro p w m there
    exact absurd ((quiet p).symm.trans there) (by simp)
  · intro p w m there
    exact absurd ((quiet p).symm.trans there) (by simp)

theorem WorkerMove.closing {s t : State ρ α n π} {i : Fin n} (move : WorkerMove s i t)
    (closing : Closing s) : Closing t where
  awake := fun positive => move.awake (closing.awake positive)
  quiet := by
    have same : t.adder = s.adder := by cases move <;> rfl
    rw [same]
    exact closing.quiet
  queue := by
    obtain ⟨nodes, queue⟩ := closing.queue
    obtain ⟨nodes', queue', _⟩ := move.queue (closing.awake i.pos).exclusive queue
    exact ⟨nodes', queue'⟩
  idle := by
    intro after j
    have before : s.destroyer.released = true := move.frame.1 ▸ after
    have flagged := (closing.awake i.pos).flagged (DestroyPc.closing_of_released _ before)
    have elsewhere := closing.idle before j
    cases move with
    | works here clear => exact absurd (flagged.symm.trans clear) (by simp)
    | _ =>
        by_cases self : j = i
        · simp [self, State.goto]
        · simpa only [State.goto, State.write, Function.update_of_ne self] using elsewhere

theorem DestroyMove.closing {s t : State ρ α n π} (move : DestroyMove s t) (closing : Closing s) :
    Closing t where
  awake := fun positive => move.awake (closing.awake positive)
  quiet := by
    have same : t.adder = s.adder := by cases move <;> rfl
    rw [same]
    exact closing.quiet
  queue := by
    obtain ⟨nodes, queue⟩ := closing.queue
    have wakes := move.wakes
    cases move with
    | drain member cell here head stored =>
        cases nodes with
        | nil => exact absurd (head.symm.trans queue.linked) (by simp)
        | cons first rest =>
            cases head.symm.trans queue.linked.1
            exact ⟨rest, queue.drain closing.quiet stored⟩
    | _ => exact ⟨nodes, queue.woken rfl rfl wakes rfl⟩
  idle := by
    intro after i
    have wakes := move.wakes
    cases move with
    | returns here _ | begins here _ | setShutdown here | lock here _ => cases after
    | broadcast here =>
        have elsewhere : s.worker i ≠ .take := (closing.awake i.pos).no_worker_inside here i .take rfl
        exact wakes.ne (by simp) elsewhere
    | unlock here | drain _ _ here _ _ => exact closing.idle (by rw [here]; rfl) i
    | ends pc here there =>
        exact closing.idle (DestroyPc.released_of_joining _ here) i

theorem step_of_usesPool (s : State ρ α n π) (closing : Closing s) (freed : s.destroyer = .done)
    (i : Fin n) (uses : (s.worker i).usesPool = true) :
    ∃ j u, threadRoutine s j = .next u ∧ (s.worker j).usesPool = true := by
  -- inside the critical section nothing has to be waited for
  have inside (j : Fin n) (critical : (s.worker j).critical = true) :
      ∃ j u, threadRoutine s j = .next u ∧ (s.worker j).usesPool = true := by
    cases here : s.worker j with
    | take => exact absurd here (closing.idle (by rw [freed]; rfl) j)
    | testHead | testShutdown | wait | checkShutdown | unlockExit | unlock _ =>
        obtain ⟨u, moved⟩ : ∃ u, threadRoutine s j = .next u := by simp [threadRoutine, here]
        exact ⟨j, u, moved, by rw [here]; rfl⟩
    | _ => simp [here, WorkerPc.critical] at critical
  by_cases critical : (s.worker i).critical = true
  · exact inside i critical
  · have waits : s.worker i = .lock ∨ s.worker i = .woken := by
      cases here : s.worker i <;> simp_all [WorkerPc.usesPool, WorkerPc.critical]
    cases owner : s.owner with
    | none =>
        obtain ⟨u, moved⟩ : ∃ u, threadRoutine s i = .next u := by
          rcases waits with here | here <;> simp [threadRoutine, here, owner]
        exact ⟨i, u, moved, uses⟩
    | some u =>
        have holds := ((closing.awake i.pos).exclusive u).2 owner
        cases u with
        | worker j => exact inside j holds
        | adder p =>
            rw [State.Critical, closing.quiet p] at holds
            cases holds
        | destroyer =>
            rw [State.Critical, freed] at holds
            cases holds

section Teardown

variable [DecidableEq π]

theorem teardown_closing (s : State ρ α n π) (reached : (teardown ρ α n π).Reachable s) :
    Closing s := by
  apply (teardown ρ α n π).invariant Closing _ _ reached
  · rintro s ⟨before, start, quiet⟩
    have intact := reachable_intact s before
    obtain ⟨nodes, queue, _⟩ := intact.sound (by rw [start]; rfl)
    refine ⟨fun positive => reachable_awake positive s before, quiet, ⟨nodes, queue⟩, ?_⟩
    intro freed
    rw [start] at freed
    cases freed
  · intro s e t closing moved
    cases e with
    | worker i => exact (threadRoutine_move s t i moved).closing closing
    | destroy => exact (tpoolDestroy_move s t moved).closing closing

theorem leads_worker (s t : State ρ α n π) (i : Fin n) (moved : threadRoutine s i = .next t) :
    (teardown ρ α n π).Leads s t :=
  (teardown ρ α n π).leads_step (e := .worker i) moved

/-- A worker that has not left its loop comes to use the pool. -/
theorem leads_usesPool (s : State ρ α n π) (closing : Closing s) (freed : s.destroyer = .done)
    (i : Fin n) (stays : s.worker i ≠ .exit ∧ s.worker i ≠ .exited) :
    ∃ t, (teardown ρ α n π).Leads s t ∧ Closing t ∧ t.destroyer = .done ∧
      (t.worker i).usesPool = true := by
  obtain ⟨nodes, queue⟩ := closing.queue
  have looping (work : Nat) (t : State ρ α n π) (closing : Closing t) (freed : t.destroyer = .done)
      (here : t.worker i = .free work) :
      ∃ u, (teardown ρ α n π).Leads t u ∧ Closing u ∧ u.destroyer = .done ∧
        (u.worker i).usesPool = true := by
    obtain ⟨nodes, queue⟩ := closing.queue
    obtain ⟨cell, stored⟩ := queue.held i work (by rw [here]; rfl)
    have moved : threadRoutine t i = .next ((t.write work none).goto i .lock) := by
      simp only [threadRoutine, here, stored]
    refine ⟨_, leads_worker _ _ i moved, (threadRoutine_move _ _ i moved).closing closing, freed, ?_⟩
    simp [State.goto, WorkerPc.usesPool]
  cases here : s.worker i with
  | exit => exact absurd here stays.1
  | exited => exact absurd here stays.2
  | blocked =>
      exact absurd here ((closing.awake i.pos).released (by rw [freed]; rfl) i).1
  | run work =>
      obtain ⟨cell, stored⟩ := queue.held i work (by rw [here]; rfl)
      have moved : threadRoutine s i =
          .next { s.goto i (.free work) with ran := s.ran ++ [cell.item] } := by
        simp only [threadRoutine, here, stored]
      obtain ⟨u, leads, rest⟩ := looping work _
        ((threadRoutine_move _ _ i moved).closing closing) freed (by simp [State.goto])
      exact ⟨u, (teardown ρ α n π).leads_trans (leads_worker _ _ i moved) leads, rest⟩
  | free work => exact looping work s closing freed here
  | _ =>
      refine ⟨s, (teardown ρ α n π).leads_refl s, closing, freed, ?_⟩
      rw [here]
      rfl

theorem gone_step (s : State ρ α n π) (e : Mover n) (t : State ρ α n π)
    (freed : s.destroyer = .done) (left : ∀ i, s.worker i = .exit ∨ s.worker i = .exited)
    (moved : (teardown ρ α n π).step s e = .next t) :
    t.destroyer = .done ∧ ∀ i, t.worker i = .exit ∨ t.worker i = .exited := by
  cases e with
  | destroy => simp [teardown, tpoolDestroy, freed] at moved
  | worker i =>
      rcases left i with here | here
      · simp only [teardown, threadRoutine, here] at moved
        cases moved
        refine ⟨freed, fun j => ?_⟩
        by_cases self : j = i
        · simp [self, State.goto]
        · simpa [State.goto, self] using left j
      · simp [teardown, threadRoutine, here] at moved

/-- The freed pool is left alone exactly if every worker had left its loop. -/
theorem pool_unused_iff (s : State ρ α n π) (reached : (teardown ρ α n π).Reachable s)
    (freed : s.destroyer = .done) :
    PoolUnused s ↔ ∀ i, s.worker i = .exit ∨ s.worker i = .exited := by
  constructor
  · intro unused i
    by_contra stays
    rw [not_or] at stays
    obtain ⟨t, leads, closing, done, uses⟩ :=
      leads_usesPool s (teardown_closing s reached) freed i stays
    obtain ⟨j, u, moved, used⟩ := step_of_usesPool t closing done i uses
    exact absurd ((unused t leads j u moved).symm.trans used) (by simp)
  · intro left t leads i u moved
    have gone : t.destroyer = .done ∧ ∀ i, t.worker i = .exit ∨ t.worker i = .exited := by
      refine (teardown ρ α n π).leads_invariant
        (fun t => t.destroyer = .done ∧ ∀ i, t.worker i = .exit ∨ t.worker i = .exited) ?_
        ⟨freed, left⟩ leads
      rintro t e u ⟨done, left⟩ moved
      exact gone_step t e u done left moved
    rcases gone.2 i with here | here <;> rw [here] <;> rfl

theorem pool_used_after_free :
    ∃ s u : State Unit Unit 1 Unit, (teardown Unit Unit 1 Unit).Reachable s ∧
      s.destroyer = .done ∧ threadRoutine s 0 = .next u ∧ (s.worker 0).usesPool = true := by
  have start : (teardown Unit Unit 1 Unit).initial (tpoolCreate Unit Unit 1 Unit) :=
    ⟨⟨_, rfl, (pool Unit Unit 1 Unit).leads_refl _⟩, rfl, fun _ => rfl⟩
  have ran : ∃ s u, (teardown Unit Unit 1 Unit).run (tpoolCreate Unit Unit 1 Unit)
      (List.replicate 12 .destroy) = some s ∧ s.destroyer = .done ∧
      threadRoutine s 0 = .next u ∧ (s.worker 0).usesPool = true := ⟨_, _, rfl, rfl, rfl, rfl⟩
  obtain ⟨s, u, ran, freed, moved, uses⟩ := ran
  exact ⟨s, u, ⟨_, start, _, ran⟩, freed, moved, uses⟩

def leavingRun : List (Mover 1) :=
  List.replicate 5 .destroy ++ List.replicate 5 (.worker (Fin.last 0)) ++ List.replicate 7 .destroy

theorem pool_unused_iff_left :
    ∃ s : State Unit Unit 1 Unit, (teardown Unit Unit 1 Unit).Reachable s ∧
      s.destroyer = .done ∧ PoolUnused s := by
  have start : (teardown Unit Unit 1 Unit).initial (tpoolCreate Unit Unit 1 Unit) :=
    ⟨⟨_, rfl, (pool Unit Unit 1 Unit).leads_refl _⟩, rfl, fun _ => rfl⟩
  have ran : ∃ s, (teardown Unit Unit 1 Unit).run (tpoolCreate Unit Unit 1 Unit) leavingRun =
      some s ∧ s.destroyer = .done ∧ s.worker 0 = .exit := ⟨_, rfl, rfl, rfl⟩
  obtain ⟨s, ran, freed, left⟩ := ran
  have reached : (teardown Unit Unit 1 Unit).Reachable s := ⟨_, start, leavingRun, ran⟩
  refine ⟨s, reached, freed, (pool_unused_iff s reached freed).2 fun i => ?_⟩
  rw [Subsingleton.elim i 0]
  exact .inl left

end Teardown

end DataStructure.ThreadPool
