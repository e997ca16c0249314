import DataStructure.Lib.Chain
import DataStructure.Thread.Pool

/-! The work queue of the thread pool is first in, first out.

Every node is in the queue, or in the hands of one worker that took it, or of one caller
that has not appended it yet. Addresses are reused as `malloc` likes. -/

namespace DataStructure.ThreadPool

open Monitor Chain

variable {ρ α : Type} {n : Nat} {π : Type}

def WorkerPc.carries : WorkerPc → Option Nat
  | .unlock work | .run work | .free work => some work
  | _ => none

def WorkerPc.owes : WorkerPc → Option Nat
  | .unlock work | .run work => some work
  | _ => none

def AdderPc.prepares : AdderPc → Option Nat
  | .lock work | .readHead work | .walk work _ | .link work _ => some work
  | _ => none

theorem WorkerPc.carries_of_owes {pc : WorkerPc} {a : Nat} (owes : pc.owes = some a) :
    pc.carries = some a := by
  cases pc <;> first | exact owes | cases owes

namespace State

def Holding (s : State ρ α n π) : Thread n π → Nat → Prop
  | .worker i, a => (s.worker i).carries = some a
  | .adder p, a => (s.adder p).prepares = some a
  | .destroyer, _ => False

def inHand (s : State ρ α n π) (i : Fin n) : Multiset (ρ × α) :=
  (((s.worker i).owes.map s.itemAt).getD [] : List (ρ × α))

end State

structure Queue (s : State ρ α n π) (nodes : List Nat) : Prop where
  linked : Linked Work.next s.heap s.queueHead nodes
  apart : ∀ u a, s.Holding u a → a ∉ nodes ∧ ∃ cell, s.heap a = some cell
  single : ∀ u v a, s.Holding u a → s.Holding v a → u = v
  unlinked : ∀ p a cell, (s.adder p).prepares = some a → s.heap a = some cell → cell.next = none
  walking : ∀ p work member, s.adder p = .walk work member → member ∈ nodes
  linking : ∀ p work member, s.adder p = .link work member → ∃ before, nodes = before ++ [member]

/-- Nothing is lost, run twice or overtaken. -/
structure Record (s : State ρ α n π) (nodes : List Nat) : Prop where
  order : s.dequeued ++ nodes.flatMap s.itemAt = s.added
  once : (s.ran : Multiset (ρ × α)) + ∑ i, s.inHand i = s.dequeued

theorem Queue.transfer {s t : State ρ α n π} {nodes : List Nat} (queue : Queue s nodes)
    (heap : t.heap = s.heap) (head : t.queueHead = s.queueHead)
    (holding : ∀ u a, t.Holding u a → s.Holding u a)
    (walking : ∀ p work member, t.adder p = .walk work member → member ∈ nodes)
    (linking : ∀ p work member, t.adder p = .link work member →
      ∃ before, nodes = before ++ [member]) :
    Queue t nodes where
  linked := by
    rw [heap, head]
    exact queue.linked
  apart := by
    intro u a holds
    rw [heap]
    exact queue.apart u a (holding u a holds)
  single := fun u v a first second => queue.single u v a (holding u a first) (holding v a second)
  unlinked := by
    intro p a cell prepares stored
    rw [heap] at stored
    exact queue.unlinked p a cell (holding (.adder p) a prepares) stored
  walking := walking
  linking := linking

theorem State.inHand_congr {s t : State ρ α n π} (i : Fin n)
    (owes : (t.worker i).owes = (s.worker i).owes)
    (items : ∀ a, (s.worker i).owes = some a → t.itemAt a = s.itemAt a) :
    t.inHand i = s.inHand i := by
  rw [State.inHand, State.inHand, owes]
  cases owed : (s.worker i).owes with
  | none => rfl
  | some a => exact congrArg _ (items a owed)

theorem Record.transfer {s t : State ρ α n π} {nodes : List Nat} (record : Record s nodes)
    (items : ∀ a ∈ nodes, t.itemAt a = s.itemAt a) (hands : ∀ i, t.inHand i = s.inHand i)
    (added : t.added = s.added) (dequeued : t.dequeued = s.dequeued) (ran : t.ran = s.ran) :
    Record t nodes where
  order := by
    rw [added, dequeued, List.flatMap_congr items]
    exact record.order
  once := by
    rw [dequeued, ran, Finset.sum_congr rfl fun i _ => hands i]
    exact record.once

theorem holding_goto {s : State ρ α n π} {i : Fin n} {pc : WorkerPc} {u : Thread n π} {a : Nat}
    (holds : (s.goto i pc).Holding u a) :
    (u = .worker i ∧ pc.carries = some a) ∨ (u ≠ .worker i ∧ s.Holding u a) := by
  cases u with
  | worker j =>
      by_cases self : j = i
      · rw [self] at holds
        simp only [State.Holding, State.goto, Function.update_self] at holds
        exact .inl ⟨by rw [self], holds⟩
      · simp only [State.Holding, State.goto, Function.update_of_ne self] at holds
        exact .inr ⟨fun same => self (Thread.worker.inj same), holds⟩
  | adder p => exact .inr ⟨(by simp), holds⟩
  | destroyer => exact holds.elim

theorem holding_proceed [DecidableEq π] {s : State ρ α n π} {p : π} {pc : AdderPc}
    {u : Thread n π} {a : Nat} (holds : (s.proceed p pc).Holding u a) :
    (u = .adder p ∧ pc.prepares = some a) ∨ (u ≠ .adder p ∧ s.Holding u a) := by
  cases u with
  | worker i => exact .inr ⟨(by simp), holds⟩
  | adder q =>
      by_cases self : q = p
      · rw [self] at holds
        simp only [State.Holding, State.proceed, Function.update_self] at holds
        exact .inl ⟨by rw [self], holds⟩
      · simp only [State.Holding, State.proceed, Function.update_of_ne self] at holds
        exact .inr ⟨fun same => self (Thread.adder.inj same), holds⟩
  | destroyer => exact holds.elim

theorem adder_proceed [DecidableEq π] {s : State ρ α n π} {p q : π} {pc there : AdderPc}
    (now : (s.proceed p pc).adder q = there) :
    (q = p ∧ pc = there) ∨ (q ≠ p ∧ s.adder q = there) := by
  by_cases self : q = p
  · simp only [self, State.proceed, Function.update_self] at now
    exact .inl ⟨self, now⟩
  · simp only [State.proceed, Function.update_of_ne self] at now
    exact .inr ⟨self, now⟩

theorem Queue.calm {s : State ρ α n π} {u : Thread n π}
    (exclusive : Exclusive s.Critical s.owner) (inside : s.Critical u) (p : π) (other : u ≠ .adder p)
    (work member : Nat) : s.adder p ≠ .walk work member ∧ s.adder p ≠ .link work member := by
  constructor <;> intro there
  · exact other (exclusive.unique inside (by rw [State.Critical, there]; rfl))
  · exact other (exclusive.unique inside (by rw [State.Critical, there]; rfl))

theorem Queue.take {s : State ρ α n π} {i : Fin n} {work : Nat} {nodes : List Nat}
    {cell : Work ρ α} (queue : Queue s (work :: nodes)) (exclusive : Exclusive s.Critical s.owner)
    (here : s.worker i = .take) (stored : s.heap work = some cell) (dequeued : List (ρ × α)) :
    Queue { s.goto i (.unlock work) with queueHead := cell.next, dequeued := dequeued } nodes := by
  obtain ⟨_, cell', stored', rest⟩ := queue.linked
  cases stored.symm.trans stored'
  have inside : s.Critical (.worker i) := by
    rw [State.Critical, here]
    rfl
  have first : work ∉ nodes := (List.nodup_cons.1 (linked_nodup queue.linked)).1
  have free (u : Thread n π) : ¬ s.Holding u work :=
    fun holds => (queue.apart u work holds).1 List.mem_cons_self
  constructor
  · exact rest
  · intro u a holds
    rcases holding_goto holds with ⟨_, taken⟩ | ⟨_, before⟩
    · cases taken
      exact ⟨first, cell, stored⟩
    · have apart := queue.apart u a before
      exact ⟨fun deeper => apart.1 (List.mem_cons_of_mem work deeper), apart.2⟩
  · intro u v a holds holds'
    rcases holding_goto holds with ⟨self, taken⟩ | ⟨_, before⟩
    · rcases holding_goto holds' with ⟨self', _⟩ | ⟨_, before'⟩
      · rw [self, self']
      · cases taken
        exact absurd before' (free v)
    · rcases holding_goto holds' with ⟨_, taken'⟩ | ⟨_, before'⟩
      · cases taken'
        exact absurd before (free u)
      · exact queue.single u v a before before'
  · exact queue.unlinked
  · intro p w m there
    exact absurd there (Queue.calm exclusive inside p (by simp) w m).1
  · intro p w m there
    exact absurd there (Queue.calm exclusive inside p (by simp) w m).2

theorem Queue.free {s : State ρ α n π} {i : Fin n} {work : Nat} {nodes : List Nat}
    (queue : Queue s nodes) (here : s.worker i = .free work) :
    Queue ((s.write work none).goto i .lock) nodes := by
  have mine : s.Holding (.worker i) work := by
    rw [State.Holding, here]
    rfl
  have before (u : Thread n π) (a : Nat) (holds : ((s.write work none).goto i .lock).Holding u a) :
      s.Holding u a ∧ a ≠ work := by
    rcases holding_goto holds with ⟨_, nothing⟩ | ⟨other, kept⟩
    · cases nothing
    · refine ⟨kept, ?_⟩
      rintro rfl
      exact other (queue.single u _ a kept mine)
  constructor
  · exact linked_frame queue.linked (queue.apart _ work mine).1 none
  · intro u a holds
    obtain ⟨kept, other⟩ := before u a holds
    obtain ⟨outside, cell, stored⟩ := queue.apart u a kept
    refine ⟨outside, cell, ?_⟩
    simp only [State.goto, State.write, Function.update_of_ne other, stored]
  · intro u v a holds holds'
    exact queue.single u v a (before u a holds).1 (before v a holds').1
  · intro p a cell prepares stored
    have other := (before (.adder p) a prepares).2
    simp only [State.goto, State.write, Function.update_of_ne other] at stored
    exact queue.unlinked p a cell prepares stored
  · exact queue.walking
  · exact queue.linking

theorem sum_hand {β : Type} {f g : Fin n → Multiset β} (i : Fin n) (others : ∀ j, j ≠ i → f j = g j) :
    ∑ j, f j + g i = ∑ j, g j + f i := by
  rw [← Finset.add_sum_erase Finset.univ f (Finset.mem_univ i),
    ← Finset.add_sum_erase Finset.univ g (Finset.mem_univ i),
    Finset.sum_congr rfl fun j inside => others j (Finset.ne_of_mem_erase inside)]
  abel

theorem itemAt_stored {s : State ρ α n π} {a : Nat} {cell : Work ρ α}
    (stored : s.heap a = some cell) : s.itemAt a = [cell.item] := by
  rw [State.itemAt, stored]
  rfl

theorem inHand_owes {s : State ρ α n π} {i : Fin n} {a : Nat} {cell : Work ρ α}
    (owes : (s.worker i).owes = some a) (stored : s.heap a = some cell) :
    s.inHand i = {cell.item} := by
  rw [State.inHand, owes, Option.map_some, Option.getD_some, itemAt_stored stored]
  rfl

theorem inHand_nothing {s : State ρ α n π} {i : Fin n} (owes : (s.worker i).owes = none) :
    s.inHand i = 0 := by
  rw [State.inHand, owes]
  rfl

theorem goto_inHand_other (s : State ρ α n π) {i j : Fin n} (pc : WorkerPc) (other : j ≠ i) :
    (s.goto i pc).inHand j = s.inHand j := by
  simp only [State.inHand, State.goto, Function.update_of_ne other]
  rfl

theorem Record.take {s : State ρ α n π} {i : Fin n} {work : Nat} {nodes : List Nat}
    {cell : Work ρ α} (record : Record s (work :: nodes)) (here : s.worker i = .take)
    (stored : s.heap work = some cell) :
    Record { s.goto i (.unlock work) with
      queueHead := cell.next
      dequeued := s.dequeued ++ [cell.item] } nodes where
  order := by
    have order := record.order
    rw [List.flatMap_cons, itemAt_stored stored, ← List.append_assoc] at order
    exact order
  once := by
    have change := sum_hand i (fun j other => goto_inHand_other s (.unlock work) other)
    rw [inHand_nothing (s := s) (by rw [here]; rfl), add_zero,
      inHand_owes (s := s.goto i (.unlock work)) (a := work) (by simp [State.goto]; rfl) stored] at change
    have once := record.once
    show (s.ran : Multiset (ρ × α)) + ∑ j, (s.goto i (.unlock work)).inHand j =
      ((s.dequeued ++ [cell.item] : List (ρ × α)) : Multiset (ρ × α))
    rw [change, ← add_assoc, once, ← Multiset.coe_add]
    rfl

theorem Record.run {s : State ρ α n π} {i : Fin n} {work : Nat} {nodes : List Nat}
    {cell : Work ρ α} (record : Record s nodes) (here : s.worker i = .run work)
    (stored : s.heap work = some cell) :
    Record { s.goto i (.free work) with ran := s.ran ++ [cell.item] } nodes where
  order := record.order
  once := by
    have change := sum_hand i (fun j other => goto_inHand_other s (.free work) other)
    rw [inHand_owes (s := s) (a := work) (by rw [here]; rfl) stored,
      inHand_nothing (s := s.goto i (.free work)) (by simp [State.goto]; rfl), add_zero] at change
    have once := record.once
    show ((s.ran ++ [cell.item] : List (ρ × α)) : Multiset (ρ × α)) +
      ∑ j, (s.goto i (.free work)).inHand j = s.dequeued
    rw [← once, ← change, ← Multiset.coe_add, Multiset.coe_singleton]
    abel

theorem goto_transfer {s : State ρ α n π} {i : Fin n} {nodes : List Nat} (pc : WorkerPc)
    (queue : Queue s nodes) (carries : pc.carries = (s.worker i).carries)
    (owes : pc.owes = (s.worker i).owes) (owner : Option (Thread n π)) :
    Queue { s.goto i pc with owner := owner } nodes ∧
      (Record s nodes → Record { s.goto i pc with owner := owner } nodes) := by
  constructor
  · refine queue.transfer rfl rfl ?_ queue.walking queue.linking
    intro u a holds
    rcases holding_goto (s := s) holds with ⟨self, kept⟩ | ⟨_, before⟩
    · rw [self, State.Holding, ← carries]
      exact kept
    · exact before
  · intro record
    refine record.transfer (fun _ _ => rfl) ?_ rfl rfl rfl
    intro j
    refine State.inHand_congr j ?_ (fun _ _ => rfl)
    by_cases self : j = i
    · rw [self]
      simpa [State.goto] using owes
    · simp [State.goto, self]

theorem Record.free {s : State ρ α n π} {i : Fin n} {work : Nat} {nodes : List Nat}
    (record : Record s nodes) (queue : Queue s nodes) (here : s.worker i = .free work) :
    Record ((s.write work none).goto i .lock) nodes := by
  have mine : s.Holding (.worker i) work := by
    rw [State.Holding, here]
    rfl
  refine record.transfer ?_ ?_ rfl rfl rfl
  · intro a inside
    have other : a ≠ work := by
      rintro rfl
      exact (queue.apart _ a mine).1 inside
    simp only [State.itemAt, State.goto, State.write, Function.update_of_ne other]
  · intro j
    refine State.inHand_congr j ?_ ?_
    · by_cases self : j = i
      · rw [self, here]
        simp only [State.goto, Function.update_self]
        rfl
      · simp only [State.goto, Function.update_of_ne self]
        rfl
    · intro a owes
      have other : a ≠ work := by
        rintro rfl
        have same := queue.single (.worker j) (.worker i) a (WorkerPc.carries_of_owes owes) mine
        rw [Thread.worker.inj same, here] at owes
        cases owes
      simp only [State.itemAt, State.goto, State.write, Function.update_of_ne other]

theorem WorkerMove.queue {s t : State ρ α n π} {i : Fin n} {nodes : List Nat}
    (move : WorkerMove s i t) (exclusive : Exclusive s.Critical s.owner) (queue : Queue s nodes) :
    ∃ nodes', Queue t nodes' ∧ (Record s nodes → Record t nodes') := by
  cases move with
  | lock here _ =>
      refine ⟨nodes, goto_transfer _ queue ?_ ?_ _⟩ <;>
        rcases here with here | here <;> rw [here] <;> rfl
  | headEmpty here _ | headSome here _ | opened here _ | closed here _ | works here _
  | leaves here _ | exit here =>
      refine ⟨nodes, goto_transfer _ queue ?_ ?_ s.owner⟩ <;> rw [here] <;> rfl
  | wait here | unlockExit here | unlock _ here =>
      refine ⟨nodes, goto_transfer _ queue ?_ ?_ none⟩ <;> rw [here] <;> rfl
  | take work cell here head stored =>
      cases nodes with
      | nil => exact absurd (head.symm.trans queue.linked) (by simp)
      | cons first rest =>
          cases head.symm.trans queue.linked.1
          exact ⟨rest, queue.take exclusive here stored _, fun record => record.take here stored⟩
  | run work cell here stored =>
      refine ⟨nodes, ?_, fun record => record.run here stored⟩
      refine queue.transfer rfl rfl ?_ queue.walking queue.linking
      intro u a holds
      rcases holding_goto (s := s) holds with ⟨self, kept⟩ | ⟨_, before⟩
      · rw [self, State.Holding, here]
        exact kept
      · exact before
  | free work cell here stored =>
      exact ⟨nodes, queue.free here, fun record => record.free queue here⟩

def Sound (s : State ρ α n π) : Prop := ∃ nodes, Queue s nodes ∧ Record s nodes

theorem WorkerMove.sound {s t : State ρ α n π} {i : Fin n} (move : WorkerMove s i t)
    (exclusive : Exclusive s.Critical s.owner) (sound : Sound s) : Sound t := by
  obtain ⟨nodes, queue, record⟩ := sound
  obtain ⟨nodes', queue', kept⟩ := move.queue exclusive queue
  exact ⟨nodes', queue', kept record⟩

theorem Queue.woken {s t : State ρ α n π} {nodes : List Nat} (queue : Queue s nodes)
    (heap : t.heap = s.heap) (head : t.queueHead = s.queueHead)
    (wakes : Wakes .blocked .woken s.worker t.worker) (adder : t.adder = s.adder) :
    Queue t nodes := by
  refine queue.transfer heap head ?_ ?_ ?_
  · intro u a holds
    cases u with
    | worker j =>
        rcases wakes j with same | ⟨_, woken⟩
        · rw [State.Holding, same] at holds
          exact holds
        · rw [State.Holding, woken] at holds
          cases holds
    | adder p =>
        rw [State.Holding, adder] at holds
        exact holds
    | destroyer => exact holds
  · rw [adder]
    exact queue.walking
  · rw [adder]
    exact queue.linking

theorem Sound.woken {s t : State ρ α n π} (sound : Sound s) (heap : t.heap = s.heap)
    (head : t.queueHead = s.queueHead) (wakes : Wakes .blocked .woken s.worker t.worker)
    (adder : t.adder = s.adder) (added : t.added = s.added) (dequeued : t.dequeued = s.dequeued)
    (ran : t.ran = s.ran) : Sound t := by
  obtain ⟨nodes, queue, record⟩ := sound
  have items (a : Nat) : t.itemAt a = s.itemAt a := by
    rw [State.itemAt, State.itemAt, heap]
  refine ⟨nodes, queue.woken heap head wakes adder, record.transfer (fun a _ => items a) ?_
    added dequeued ran⟩
  intro j
  refine State.inHand_congr j ?_ (fun a _ => items a)
  rcases wakes j with same | ⟨waiting, woken⟩
  · rw [same]
  · rw [waiting, woken]
    rfl

theorem Record.append {s t : State ρ α n π} {nodes : List Nat} (record : Record s nodes) (work : Nat)
    (items : ∀ a, t.itemAt a = s.itemAt a) (worker : t.worker = s.worker)
    (added : t.added = s.added ++ s.itemAt work) (dequeued : t.dequeued = s.dequeued)
    (ran : t.ran = s.ran) : Record t (nodes ++ [work]) where
  order := by
    have order := record.order
    rw [funext items, added, dequeued, List.flatMap_append, ← List.append_assoc, order]
    simp
  once := by
    have hands (i : Fin n) : t.inHand i = s.inHand i :=
      State.inHand_congr i (by rw [worker]) (fun a _ => items a)
    rw [dequeued, ran, Finset.sum_congr rfl fun i _ => hands i]
    exact record.once

theorem itemAt_relinked {s : State ρ α n π} {member : Nat} {cell : Work ρ α}
    (stored : s.heap member = some cell) (next : Option Nat) (a : Nat) :
    (s.write member (some { cell with next := next })).itemAt a = s.itemAt a := by
  by_cases self : a = member
  · rw [self, itemAt_stored stored]
    have written : (s.write member (some { cell with next := next })).heap member =
        some { cell with next := next } := Function.update_self ..
    exact (itemAt_stored written).trans rfl
  · simp only [State.itemAt, State.write, Function.update_of_ne self]

section Adder

variable [DecidableEq π] {s : State ρ α n π} {p : π} {nodes : List Nat}

theorem proceed_queue (pc : AdderPc) (queue : Queue s nodes)
    (prepares : ∀ a, pc.prepares = some a → (s.adder p).prepares = some a)
    (walking : ∀ work member, pc = .walk work member → member ∈ nodes)
    (linking : ∀ work member, pc = .link work member → ∃ before, nodes = before ++ [member]) :
    Queue (s.proceed p pc) nodes := by
  refine queue.transfer rfl rfl ?_ ?_ ?_
  · intro u a holds
    rcases holding_proceed holds with ⟨self, kept⟩ | ⟨_, before⟩
    · rw [self]
      exact prepares a kept
    · exact before
  · intro q work member there
    rcases adder_proceed there with ⟨_, now⟩ | ⟨_, before⟩
    · exact walking work member now
    · exact queue.walking q work member before
  · intro q work member there
    rcases adder_proceed there with ⟨_, now⟩ | ⟨_, before⟩
    · exact linking work member now
    · exact queue.linking q work member before

theorem Record.reowned {s : State ρ α n π} (record : Record s nodes) (pc : AdderPc)
    (owner : Option (Thread n π)) : Record { s.proceed p pc with owner := owner } nodes :=
  record.transfer (fun _ _ => rfl) (fun _ => rfl) rfl rfl rfl

/-- The caller that leaves the list: its node is on it now, and nobody else walks it. -/
structure Leaves (s t : State ρ α n π) (p : π) (work : Nat) : Prop where
  holding : ∀ u a, t.Holding u a → s.Holding u a ∧ a ≠ work
  adders : ∀ q w m, t.adder q ≠ .walk w m ∧ t.adder q ≠ .link w m

theorem Queue.leaves (queue : Queue s nodes) (exclusive : Exclusive s.Critical s.owner)
    {work : Nat} (mine : s.Holding (.adder p) work) (inside : s.Critical (.adder p)) :
    Leaves s (s.proceed p .signal) p work where
  holding := by
    intro u a holds
    rcases holding_proceed holds with ⟨_, nothing⟩ | ⟨other, kept⟩
    · cases nothing
    · refine ⟨kept, ?_⟩
      rintro rfl
      exact other (queue.single u _ a kept mine)
  adders := by
    intro q w m
    by_cases self : q = p
    · simp [self, State.proceed]
    · simp only [State.proceed, Function.update_of_ne self]
      exact Queue.calm exclusive inside q (fun same => self (Thread.adder.inj same).symm) w m

theorem Queue.headEmpty {work : Nat} (queue : Queue s []) (here : s.adder p = .readHead work)
    (exclusive : Exclusive s.Critical s.owner) (added : List (ρ × α)) :
    Queue { s.proceed p .signal with queueHead := some work, added := added } [work] := by
  have mine : s.Holding (.adder p) work := by
    rw [State.Holding, here]
    rfl
  have leaves := queue.leaves exclusive mine (by rw [State.Critical, here]; rfl)
  obtain ⟨_, cell, stored⟩ := queue.apart _ work mine
  constructor
  · exact ⟨rfl, cell, stored, queue.unlinked p work cell mine stored⟩
  · intro u a holds
    obtain ⟨kept, other⟩ := leaves.holding u a holds
    exact ⟨by simpa using other, (queue.apart u a kept).2⟩
  · intro u v a holds holds'
    exact queue.single u v a (leaves.holding u a holds).1 (leaves.holding v a holds').1
  · intro q a cell' prepares stored'
    exact queue.unlinked q a cell' (leaves.holding (.adder q) a prepares).1 stored'
  · intro q w m there
    exact absurd there (leaves.adders q w m).1
  · intro q w m there
    exact absurd there (leaves.adders q w m).2

theorem Queue.link {work member : Nat} {before : List Nat} {cell : Work ρ α}
    (queue : Queue s (before ++ [member])) (here : s.adder p = .link work member)
    (exclusive : Exclusive s.Critical s.owner) (added : List (ρ × α)) :
    Queue { (s.write member (some { cell with next := some work })).proceed p .signal with
      added := added } (before ++ [member, work]) := by
  have mine : s.Holding (.adder p) work := by
    rw [State.Holding, here]
    rfl
  have leaves := queue.leaves exclusive mine (by rw [State.Critical, here]; rfl)
  obtain ⟨outside, fresh, stored⟩ := queue.apart _ work mine
  have elsewhere (u : Thread n π) (a : Nat) (holds : s.Holding u a) : a ≠ member := by
    rintro rfl
    exact (queue.apart u a holds).1 (by simp)
  constructor
  · exact linked_snoc queue.linked outside stored (queue.unlinked p work fresh mine stored) rfl
  · intro u a holds
    obtain ⟨kept, other⟩ := leaves.holding u a holds
    obtain ⟨apart, found, stored'⟩ := queue.apart u a kept
    refine ⟨?_, found, ?_⟩
    · simpa [other] using apart
    · simp only [State.proceed, State.write, Function.update_of_ne (elsewhere u a kept), stored']
  · intro u v a holds holds'
    exact queue.single u v a (leaves.holding u a holds).1 (leaves.holding v a holds').1
  · intro q a cell' prepares stored'
    have kept := (leaves.holding (.adder q) a prepares).1
    simp only [State.proceed, State.write, Function.update_of_ne (elsewhere _ a kept)] at stored'
    exact queue.unlinked q a cell' kept stored'
  · intro q w m there
    exact absurd there (leaves.adders q w m).1
  · intro q w m there
    exact absurd there (leaves.adders q w m).2

theorem Queue.allocated {work : Nat} (queue : Queue s nodes) (fresh : s.heap work = none)
    (routine : ρ) (arg : α) :
    Queue ((s.write work (some ⟨routine, arg, none⟩)).proceed p (.lock work)) nodes := by
  have outside : work ∉ nodes := by
    intro inside
    obtain ⟨cell, stored⟩ := linked_stored queue.linked inside
    exact absurd (fresh.symm.trans stored) (by simp)
  have elsewhere (u : Thread n π) (a : Nat) (holds : s.Holding u a) : a ≠ work := by
    rintro rfl
    obtain ⟨_, cell, stored⟩ := queue.apart u a holds
    exact absurd (fresh.symm.trans stored) (by simp)
  constructor
  · exact linked_frame queue.linked outside _
  · intro u a holds
    rcases holding_proceed holds with ⟨_, now⟩ | ⟨_, before⟩
    · cases now
      exact ⟨outside, _, Function.update_self ..⟩
    · obtain ⟨apart, cell, stored⟩ := queue.apart u a before
      refine ⟨apart, cell, ?_⟩
      simp only [State.proceed, State.write, Function.update_of_ne (elsewhere u a before), stored]
  · intro u v a holds holds'
    rcases holding_proceed holds with ⟨self, now⟩ | ⟨_, before⟩
    · rcases holding_proceed holds' with ⟨self', _⟩ | ⟨_, before'⟩
      · rw [self, self']
      · cases now
        exact absurd rfl (elsewhere v _ before')
    · rcases holding_proceed holds' with ⟨_, now'⟩ | ⟨_, before'⟩
      · cases now'
        exact absurd rfl (elsewhere u _ before)
      · exact queue.single u v a before before'
  · intro q a cell prepares stored
    rcases holding_proceed (u := .adder q) prepares with ⟨_, now⟩ | ⟨_, before⟩
    · cases now
      simp only [State.proceed, State.write, Function.update_self] at stored
      cases stored
      rfl
    · simp only [State.proceed, State.write, Function.update_of_ne (elsewhere (.adder q) a before)]
        at stored
      exact queue.unlinked q a cell before stored
  · intro q w m there
    rcases adder_proceed there with ⟨_, now⟩ | ⟨_, before⟩
    · cases now
    · exact queue.walking q w m before
  · intro q w m there
    rcases adder_proceed there with ⟨_, now⟩ | ⟨_, before⟩
    · cases now
    · exact queue.linking q w m before

theorem CallMove.sound {t : State ρ α n π} (move : CallMove s p t) (sound : Sound s) : Sound t := by
  obtain ⟨nodes, queue, record⟩ := sound
  cases move with
  | rejected => exact ⟨nodes, queue, record⟩
  | allocated work routine arg here fresh =>
      have items (a : Nat) (kept : ∃ cell, s.heap a = some cell) :
          ((s.write work (some ⟨routine, arg, none⟩)).proceed p (.lock work)).itemAt a =
            s.itemAt a := by
        have other : a ≠ work := by
          rintro rfl
          obtain ⟨cell, stored⟩ := kept
          exact absurd (fresh.symm.trans stored) (by simp)
        simp only [State.itemAt, State.proceed, State.write, Function.update_of_ne other]
      refine ⟨nodes, queue.allocated fresh routine arg, record.transfer ?_ ?_ rfl rfl rfl⟩
      · intro a inside
        exact items a (linked_stored queue.linked inside)
      · intro i
        refine State.inHand_congr i rfl (fun a owes => items a ?_)
        exact (queue.apart (.worker i) a (WorkerPc.carries_of_owes owes)).2

theorem proceed_sound (pc : AdderPc) (owner : Option (Thread n π)) (queue : Queue s nodes)
    (record : Record s nodes)
    (prepares : ∀ a, pc.prepares = some a → (s.adder p).prepares = some a)
    (walking : ∀ work member, pc = .walk work member → member ∈ nodes)
    (linking : ∀ work member, pc = .link work member → ∃ before, nodes = before ++ [member]) :
    Sound { s.proceed p pc with owner := owner } := by
  have moved := proceed_queue pc queue prepares walking linking
  exact ⟨nodes, moved.transfer rfl rfl (fun _ _ holds => holds) moved.walking moved.linking,
    record.reowned pc owner⟩

theorem AdderMove.sound {t : State ρ α n π} (move : AdderMove s p t)
    (exclusive : Exclusive s.Critical s.owner) (sound : Sound s) : Sound t := by
  obtain ⟨nodes, queue, record⟩ := sound
  cases move with
  | lock work here free =>
      apply proceed_sound _ _ queue record
      · intro a kept
        rw [here]
        exact kept
      · simp
      · simp
  | wakesNone here _ =>
      exact proceed_sound .unlock s.owner queue record (by simp [AdderPc.prepares]) (by simp) (by simp)
  | unlock here =>
      exact proceed_sound .idle none queue record (by simp [AdderPc.prepares]) (by simp) (by simp)
  | headSome work member here head =>
      have first : member ∈ nodes := by
        cases nodes with
        | nil => exact absurd (head.symm.trans queue.linked) (by simp)
        | cons a rest =>
            cases head.symm.trans queue.linked.1
            exact List.mem_cons_self
      apply proceed_sound _ s.owner queue record
      · intro a kept
        rw [here]
        exact kept
      · intro w m there
        cases there
        exact first
      · simp
  | walk work member next cell here stored onward =>
      apply proceed_sound _ s.owner queue record
      · intro a kept
        rw [here]
        exact kept
      · intro w m there
        cases there
        exact linked_onward queue.linked (queue.walking p work member here) stored onward
      · simp
  | walked work member cell here stored last =>
      apply proceed_sound _ s.owner queue record
      · intro a kept
        rw [here]
        exact kept
      · simp
      · intro w m there
        cases there
        exact linked_last queue.linked (queue.walking p work member here) stored last
  | wakes i here waiting =>
      have moved : Sound { s.proceed p .unlock with owner := s.owner } :=
        proceed_sound .unlock s.owner queue record (by simp [AdderPc.prepares]) (by simp) (by simp)
      exact moved.woken rfl rfl (wakes_update _ _ s.worker i waiting) rfl rfl rfl rfl
  | headEmpty work here empty =>
      cases nodes with
      | nil =>
          exact ⟨[work], queue.headEmpty here exclusive _,
            record.append work (fun _ => rfl) rfl rfl rfl rfl⟩
      | cons a rest => exact absurd (empty.symm.trans queue.linked.1) (by simp)
  | link work member cell here stored =>
      obtain ⟨before, rfl⟩ := queue.linking p work member here
      refine ⟨before ++ [member, work], queue.link here exclusive _, ?_⟩
      have appended := record.append work
        (t := { (s.write member (some { cell with next := some work })).proceed p .signal with
          added := s.added ++ s.itemAt work }) (itemAt_relinked stored _) rfl rfl rfl rfl
      rwa [List.append_assoc] at appended

end Adder

theorem tpoolCreate_sound : Sound (tpoolCreate ρ α n π) := by
  refine ⟨[], ?_, rfl, ?_⟩
  · constructor
    · rfl
    · intro u a holds
      cases u <;> cases holds
    · intro u v a holds
      cases u <;> cases holds
    · intro p a _ prepares
      cases prepares
    · intro p w m there
      cases there
    · intro p w m there
      cases there
  · exact (zero_add _).trans (Finset.sum_const_zero)

theorem DestroyMove.sound {s t : State ρ α n π} (move : DestroyMove s t)
    (early : t.destroyer.joining = false) (sound : Sound s) : Sound t := by
  cases move with
  | broadcast here => exact sound.woken rfl rfl (wakes_broadcast _ _ _) rfl rfl rfl rfl
  | drain member cell here head stored =>
      rw [State.write, here] at early
      cases early
  | ends pc here there => exact absurd (there.symm.trans early) (by simp)
  | _ => exact sound.woken rfl rfl (wakes_refl _ _ _) rfl rfl rfl rfl

theorem DestroyMove.early {s t : State ρ α n π} (move : DestroyMove s t)
    (early : t.destroyer.joining = false) : s.destroyer.joining = false := by
  cases move with
  | drain member cell here head stored => exact early
  | ends pc here there => exact absurd (there.symm.trans early) (by simp)
  | returns here _ | begins here _ | setShutdown here | lock here _ | broadcast here | unlock here =>
      rw [here]
      rfl

/-- A worker that goes for the head of the queue has seen that there is one. -/
def Stocked (s : State ρ α n π) : Prop :=
  ∀ i, (s.worker i = .take → s.queueHead ≠ none) ∧
    (s.worker i = .checkShutdown → s.queueHead ≠ none ∨ s.shutdown = true)

theorem WorkerMove.stocked {s t : State ρ α n π} {i : Fin n} (move : WorkerMove s i t)
    (exclusive : Exclusive s.Critical s.owner) (stocked : Stocked s) : Stocked t := by
  intro j
  by_cases self : j = i
  · rw [self]
    cases move with
    | headSome here filled => simp [State.goto, filled]
    | closed here set => simp [State.goto, set]
    | works here clear =>
        have filled : s.queueHead ≠ none := by simpa [clear] using (stocked i).2 here
        simp [State.goto, filled]
    | _ => simp [State.goto]
  · cases move with
    | take work cell here head stored =>
        -- the lock is taken, so no other worker goes for the head
        have apart (pc : WorkerPc) (inside : pc.critical = true) : s.worker j ≠ pc := by
          rintro rfl
          have same := exclusive.unique (t := .worker j) (u := .worker i) inside
            (by rw [State.Critical, here]; rfl)
          exact self (Thread.worker.inj same)
        simp only [State.goto, Function.update_of_ne self]
        exact ⟨fun there => absurd there (apart _ rfl), fun there => absurd there (apart _ rfl)⟩
    | _ =>
        simp only [State.goto, State.write, Function.update_of_ne self]
        exact stocked j

theorem Stocked.woken {s t : State ρ α n π} (stocked : Stocked s)
    (wakes : Wakes .blocked .woken s.worker t.worker)
    (head : s.queueHead ≠ none → t.queueHead ≠ none)
    (shutdown : s.shutdown = true → t.shutdown = true) : Stocked t := by
  intro i
  have before (pc : WorkerPc) (there : t.worker i = pc) (other : pc ≠ .woken) :
      s.worker i = pc := by
    rcases wakes i with same | ⟨_, woken⟩
    · exact same.symm.trans there
    · exact absurd (there.symm.trans woken) other
  refine ⟨fun there => head ((stocked i).1 (before _ there (by simp))), fun there => ?_⟩
  exact ((stocked i).2 (before _ there (by simp))).imp head shutdown

structure Intact (s : State ρ α n π) : Prop where
  exclusive : Exclusive s.Critical s.owner
  sound : s.destroyer.joining = false → Sound s
  stocked : s.destroyer.joining = false → Stocked s

theorem WorkerMove.intact {s t : State ρ α n π} {i : Fin n} (move : WorkerMove s i t)
    (intact : Intact s) : Intact t := by
  have same : t.destroyer = s.destroyer := by cases move <;> rfl
  constructor
  · exact move.exclusive intact.exclusive
  · rw [same]
    exact fun early => move.sound intact.exclusive (intact.sound early)
  · rw [same]
    exact fun early => move.stocked intact.exclusive (intact.stocked early)

theorem CallMove.intact [DecidableEq π] {s t : State ρ α n π} {p : π} (move : CallMove s p t)
    (intact : Intact s) : Intact t := by
  have same : t.destroyer = s.destroyer := by cases move <;> rfl
  constructor
  · exact move.exclusive intact.exclusive
  · rw [same]
    exact fun early => move.sound (intact.sound early)
  · intro early
    cases move <;> exact intact.stocked early

theorem AdderMove.intact [DecidableEq π] {s t : State ρ α n π} {p : π} (move : AdderMove s p t)
    (intact : Intact s) : Intact t := by
  have same : t.destroyer = s.destroyer := by cases move <;> rfl
  constructor
  · exact move.exclusive intact.exclusive
  · rw [same]
    exact fun early => move.sound intact.exclusive (intact.sound early)
  · rw [same]
    intro early
    have stocked := intact.stocked early
    cases move with
    | wakes i here waiting =>
        exact stocked.woken (wakes_update _ _ _ i waiting) id id
    | headEmpty work here empty =>
        exact stocked.woken (wakes_refl _ _ _) (fun _ => by simp) id
    | _ => exact stocked.woken (wakes_refl _ _ _) id id

theorem DestroyMove.intact {s t : State ρ α n π} (move : DestroyMove s t) (intact : Intact s) :
    Intact t := by
  constructor
  · exact move.exclusive intact.exclusive
  · exact fun early => move.sound early (intact.sound (move.early early))
  · intro early
    have stocked := intact.stocked (move.early early)
    have wakes := move.wakes
    cases move with
    | drain member cell here head stored =>
        rw [State.write, here] at early
        cases early
    | _ => exact stocked.woken wakes id (fun set => by first | exact set | rfl)

theorem step_intact [DecidableEq π] (s : State ρ α n π) (e : Event ρ α n π) (t : State ρ α n π)
    (intact : Intact s) (moved : step s e = .next t) : Intact t := by
  cases e with
  | worker i => exact (threadRoutine_move s t i moved).intact intact
  | call p routine arg memory => exact (tpoolAddWork_move s t p routine arg memory moved).intact intact
  | adder p picked => exact (tpoolAppend_move s t p picked moved).intact intact
  | destroy => exact (tpoolDestroy_move s t moved).intact intact

theorem reachable_intact [DecidableEq π] (s : State ρ α n π) (reached : (pool ρ α n π).Reachable s) :
    Intact s := by
  apply (pool ρ α n π).invariant Intact _ step_intact reached
  rintro _ rfl
  refine ⟨tpoolCreate_exclusive, fun _ => tpoolCreate_sound, fun _ i => ⟨?_, ?_⟩⟩
  · intro there
    cases there
  · intro there
    cases there

theorem Queue.held {s : State ρ α n π} {nodes : List Nat} (queue : Queue s nodes) (i : Fin n)
    (work : Nat) (carries : (s.worker i).carries = some work) : ∃ cell, s.heap work = some cell :=
  (queue.apart (.worker i) work carries).2

theorem threadRoutine_no_fault (s : State ρ α n π) (sound : Sound s) (stocked : Stocked s)
    (i : Fin n) : threadRoutine s i ≠ .fault := by
  obtain ⟨nodes, queue, _⟩ := sound
  cases here : s.worker i with
  | take =>
      have filled := (stocked i).1 here
      cases nodes with
      | nil => exact absurd queue.linked filled
      | cons work rest =>
          obtain ⟨head, cell, stored, _⟩ := queue.linked
          simp [threadRoutine, here, head, stored]
  | run work =>
      obtain ⟨cell, stored⟩ := queue.held i work (by rw [here]; rfl)
      simp [threadRoutine, here, stored]
  | free work =>
      obtain ⟨cell, stored⟩ := queue.held i work (by rw [here]; rfl)
      simp [threadRoutine, here, stored]
  | lock | woken =>
      simp only [threadRoutine, here]
      split <;> simp
  | _ => simp [threadRoutine, here]

/-- No thread follows a null or dangling pointer while the pool is in use. -/
theorem pool_no_fault [DecidableEq π] (s : State ρ α n π) (reached : (pool ρ α n π).Reachable s)
    (early : s.destroyer.joining = false) (e : Event ρ α n π) : step s e ≠ .fault := by
  have intact := reachable_intact s reached
  have sound := intact.sound early
  cases e with
  | worker i => exact threadRoutine_no_fault s sound (intact.stocked early) i
  | call p routine arg memory =>
      simp only [step, tpoolAddWork]
      split
      · split <;> simp
      · simp
      · simp
  | adder p picked =>
      obtain ⟨nodes, queue, _⟩ := sound
      simp only [step]
      cases here : s.adder p with
      | walk work member =>
          obtain ⟨cell, stored⟩ := linked_stored queue.linked (queue.walking p work member here)
          simp only [tpoolAppend, here, stored]
          split <;> simp
      | link work member =>
          obtain ⟨before, split⟩ := queue.linking p work member here
          obtain ⟨cell, stored⟩ := linked_stored queue.linked (a := member) (by simp [split])
          simp [tpoolAppend, here, stored]
      | idle | unlock => simp [tpoolAppend, here]
      | lock work | readHead work | signal =>
          simp only [tpoolAppend, here]
          split <;> simp
  | destroy =>
      simp only [step]
      cases here : s.destroyer with
      | drain =>
          rw [here] at early
          cases early
      | lock =>
          simp only [tpoolDestroy, here]
          split <;> simp
      | _ => simp [tpoolDestroy, here]

end DataStructure.ThreadPool
