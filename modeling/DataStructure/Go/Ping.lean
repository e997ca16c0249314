import DataStructure.Lib.System

/-! The concurrent `Ping` goroutines of `go/ping.go`.

All of them test and decrement the one variable `count`. Connections are made and every read ends,
by a reply or by the deadline. -/

namespace DataStructure.Ping

structure Flags where
  count : Int
  timeout : Int
  neverstop : Bool

/-- How one request ends: `failed` if there is no reply to it, after `duration` milliseconds. -/
structure Reply where
  failed : Bool
  duration : Int

inductive Pc where
  | test
  | send
  | decrement
  | stat
  | signal
  | done
  deriving DecidableEq, Repr

structure Report where
  sent : Nat
  received : Nat
  lost : Nat
  percent : Nat
  times : Option (Int × Int × Int)

structure Goroutine where
  pc : Pc
  sendN : Nat
  recvN : Nat
  lostN : Nat
  shortT : Int
  longT : Int
  sumT : Int
  report : Option Report

structure State (hosts : Nat) where
  count : Int
  pings : Fin hosts → Goroutine
  received : Nat
  exited : Bool

inductive Event (hosts : Nat) where
  | ping (i : Fin hosts) (reply : Reply)
  -- `c <- 1` of one goroutine meets `<-ch`.
  | receive (i : Fin hosts)
  | exit

def Goroutine.request (g : Goroutine) (timeout : Int) (reply : Reply) : Goroutine :=
  let g := { g with pc := .decrement, sendN := g.sendN + 1, sumT := g.sumT + reply.duration }
  if reply.failed || reply.duration ≥ timeout then { g with lostN := g.lostN + 1 }
  else
    { g with
      shortT := if g.shortT = -1 ∨ g.shortT > reply.duration then reply.duration else g.shortT
      longT := if g.longT = -1 ∨ g.longT < reply.duration then reply.duration else g.longT
      recvN := g.recvN + 1 }

/-- `stat`, which divides by `sendN`. -/
def Goroutine.stat (g : Goroutine) : Option Report :=
  if g.sendN = 0 then none
  else some
    { sent := g.sendN
      received := g.recvN
      lost := g.lostN
      percent := g.lostN * 100 / g.sendN
      times := if g.recvN ≠ 0 then some (g.shortT, g.longT, g.sumT.tdiv g.sendN) else none }

variable {hosts : Nat}

def State.set (s : State hosts) (i : Fin hosts) (g : Goroutine) : State hosts :=
  { s with pings := Function.update s.pings i g }

def ping (flags : Flags) (s : State hosts) (i : Fin hosts) (reply : Reply) : Outcome (State hosts) :=
  let g := s.pings i
  match g.pc with
  | .test =>
      if s.count > 0 ∨ flags.neverstop then .next (s.set i { g with pc := .send })
      else .next (s.set i { g with pc := .stat })
  | .send => .next (s.set i (g.request flags.timeout reply))
  | .decrement => .next { s.set i { g with pc := .test } with count := s.count - 1 }
  | .stat =>
      match g.stat with
      | none => .fault
      | some report => .next (s.set i { g with pc := .signal, report := some report })
  | .signal | .done => .waits

/-- `main` behind the start of the goroutines; without hosts it exits at once. -/
def step (flags : Flags) (s : State hosts) (e : Event hosts) : Outcome (State hosts) :=
  if s.exited then .waits
  else match e with
    | .ping i reply => ping flags s i reply
    | .receive i =>
        if (s.pings i).pc = .signal ∧ s.received < hosts then
          .next { s.set i { s.pings i with pc := .done } with received := s.received + 1 }
        else .waits
    | .exit => if s.received = hosts then .next { s with exited := true } else .waits

def Goroutine.start : Goroutine := ⟨.test, 0, 0, 0, -1, -1, 0, none⟩

def State.start (flags : Flags) : State hosts := ⟨flags.count, fun _ => .start, 0, false⟩

def program (flags : Flags) (hosts : Nat) : System (State hosts) (Event hosts) where
  initial s := s = State.start flags
  step := step flags

def Flags.times (n : Nat) (timeout : Int) : Flags := ⟨n, timeout, false⟩

/-- Every interleaving ends, and in each one every `Ping` sends `n` requests. -/
structure SendsAll (n : Nat) (timeout : Int) (hosts : Nat) : Prop where
  stat_called : ∀ s, (program (.times n timeout) hosts).Reachable s →
    ∀ i, (s.pings i).pc = .stat → (s.pings i).sendN = n
  no_fault : ∀ s, (program (.times n timeout) hosts).Reachable s →
    ∀ e, step (.times n timeout) s e ≠ .fault
  bounded : ∃ bound, ∀ es t,
    (program (.times n timeout) hosts).run (State.start (.times n timeout)) es = some t →
      es.length ≤ bound
  moves : ∀ s, (program (.times n timeout) hosts).Reachable s → s.exited = false →
    ∃ e t, step (.times n timeout) s e = .next t
  all_sent : ∀ s, (program (.times n timeout) hosts).Reachable s → s.exited = true →
    ∀ i, (s.pings i).sendN = n ∧ ∃ report, (s.pings i).report = some report ∧ report.sent = n

section Moves

variable {flags : Flags} {s t : State hosts}

inductive Move (flags : Flags) (s : State hosts) : State hosts → Prop where
  | enter (i) (here : (s.pings i).pc = .test) (more : s.count > 0 ∨ flags.neverstop) :
      Move flags s (s.set i { s.pings i with pc := .send })
  | leave (i) (here : (s.pings i).pc = .test) (stop : ¬(s.count > 0 ∨ flags.neverstop)) :
      Move flags s (s.set i { s.pings i with pc := .stat })
  | send (i reply) (here : (s.pings i).pc = .send) :
      Move flags s (s.set i ((s.pings i).request flags.timeout reply))
  | decrement (i) (here : (s.pings i).pc = .decrement) :
      Move flags s { s.set i { s.pings i with pc := .test } with count := s.count - 1 }
  | stat (i report) (here : (s.pings i).pc = .stat) (printed : (s.pings i).stat = some report) :
      Move flags s (s.set i { s.pings i with pc := .signal, report := some report })
  | receive (i) (here : (s.pings i).pc = .signal) (waiting : s.received < hosts) :
      Move flags s { s.set i { s.pings i with pc := .done } with received := s.received + 1 }
  | exit (complete : s.received = hosts) : Move flags s { s with exited := true }

/-- The three ways a step of a goroutine can go: only `stat` without a request faults, and only
`main` is waited for. -/
theorem ping_cases (flags : Flags) (s : State hosts) (i : Fin hosts) (reply : Reply) :
    (∃ t, ping flags s i reply = .next t ∧ Move flags s t) ∨
    (ping flags s i reply = .fault ∧ (s.pings i).pc = .stat ∧ (s.pings i).sendN = 0) ∨
    (ping flags s i reply = .waits ∧ ((s.pings i).pc = .signal ∨ (s.pings i).pc = .done)) := by
  unfold ping
  dsimp only
  cases here : (s.pings i).pc with
  | test =>
      by_cases more : s.count > 0 ∨ flags.neverstop
      · exact .inl ⟨_, if_pos more, .enter i here more⟩
      · exact .inl ⟨_, if_neg more, .leave i here more⟩
  | send => exact .inl ⟨_, rfl, .send i reply here⟩
  | decrement => exact .inl ⟨_, rfl, .decrement i here⟩
  | stat =>
      cases printed : (s.pings i).stat with
      | none =>
          have unsent : (s.pings i).sendN = 0 := by
            by_contra sent
            rw [Goroutine.stat, if_neg sent] at printed
            cases printed
          exact .inr (.inl ⟨rfl, rfl, unsent⟩)
      | some report => exact .inl ⟨_, rfl, .stat i report here printed⟩
  | signal => exact .inr (.inr ⟨rfl, .inl rfl⟩)
  | done => exact .inr (.inr ⟨rfl, .inr rfl⟩)

theorem ping_move {i : Fin hosts} {reply : Reply} (moved : ping flags s i reply = .next t) :
    Move flags s t := by
  rcases ping_cases flags s i reply with next | fault | waits
  · obtain ⟨u, same, move⟩ := next
    cases moved.symm.trans same
    exact move
  · cases moved.symm.trans fault.1
  · cases moved.symm.trans waits.1

theorem step_move {e : Event hosts} (moved : step flags s e = .next t) :
    s.exited = false ∧ Move flags s t := by
  unfold step at moved
  split at moved
  · cases moved
  · rename_i running
    have going : s.exited = false := Bool.eq_false_iff.mpr running
    cases e with
    | ping i reply => exact ⟨going, ping_move moved⟩
    | receive i =>
        dsimp only at moved
        split at moved
        · rename_i ready
          cases moved
          exact ⟨going, .receive i ready.1 ready.2⟩
        · cases moved
    | exit =>
        dsimp only at moved
        split at moved
        · rename_i complete
          cases moved
          exact ⟨going, .exit complete⟩
        · cases moved

theorem ping_fault {i : Fin hosts} {reply : Reply} (faults : ping flags s i reply = .fault) :
    (s.pings i).pc = .stat ∧ (s.pings i).sendN = 0 := by
  rcases ping_cases flags s i reply with next | fault | waits
  · obtain ⟨t, moved, _⟩ := next
    cases faults.symm.trans moved
  · exact fault.2
  · cases faults.symm.trans waits.1

theorem step_fault {e : Event hosts} (faults : step flags s e = .fault) :
    ∃ i, (s.pings i).pc = .stat ∧ (s.pings i).sendN = 0 := by
  unfold step at faults
  split at faults
  · cases faults
  · cases e with
    | ping i reply => exact ⟨i, ping_fault faults⟩
    | receive i =>
        dsimp only at faults
        split at faults <;> cases faults
    | exit =>
        dsimp only at faults
        split at faults <;> cases faults

theorem ping_waits {i : Fin hosts} {reply : Reply} (blocked : ping flags s i reply = .waits) :
    (s.pings i).pc = .signal ∨ (s.pings i).pc = .done := by
  rcases ping_cases flags s i reply with next | fault | waits
  · obtain ⟨t, moved, _⟩ := next
    cases blocked.symm.trans moved
  · cases blocked.symm.trans fault.1
  · exact waits.2

theorem step_ping (running : s.exited = false) (i : Fin hosts) (reply : Reply) :
    step flags s (.ping i reply) = ping flags s i reply := by
  rw [step, running]
  rfl

end Moves

@[simp] theorem Goroutine.request_pc (g : Goroutine) (timeout : Int) (reply : Reply) :
    (g.request timeout reply).pc = .decrement := by
  unfold request
  dsimp only
  split <;> rfl

@[simp] theorem Goroutine.request_sendN (g : Goroutine) (timeout : Int) (reply : Reply) :
    (g.request timeout reply).sendN = g.sendN + 1 := by
  unfold request
  dsimp only
  split <;> rfl

theorem Goroutine.stat_sent {g : Goroutine} {report : Report} (printed : g.stat = some report) :
    report.sent = g.sendN := by
  unfold stat at printed
  split at printed
  · cases printed
  · cases printed
    rfl

section Single

variable {n : Nat} {timeout : Int} {s t : State hosts}

def Phase (n : Nat) (count : Int) (g : Goroutine) : Prop :=
  match g.pc with
  | .test => 0 ≤ count ∧ count + g.sendN = n
  | .send => 0 < count ∧ count + g.sendN = n
  | .decrement => 0 < count ∧ count + g.sendN = n + 1
  | .stat => g.sendN = n
  | .signal | .done => g.sendN = n ∧ ∃ report, g.report = some report ∧ report.sent = n

structure Single (n : Nat) (s : State hosts) : Prop where
  phase : ∀ i, Phase n s.count (s.pings i)
  received : ∀ i, s.received = if (s.pings i).pc = .done then 1 else 0
  received_le : s.received ≤ hosts
  exited : s.exited = true → s.received = hosts

def Goroutine.left (count : Int) (g : Goroutine) : Nat :=
  match g.pc with
  | .test => 3 * count.toNat + 3
  | .send => 3 * count.toNat + 2
  | .decrement => 3 * count.toNat + 1
  | .stat => 2
  | .signal => 1
  | .done => 0

def State.left (s : State hosts) : Nat :=
  (∑ i, (s.pings i).left s.count) + if s.exited then 0 else 1

theorem single_start : Single n (State.start (.times n timeout) : State hosts) where
  phase i := by simp [Phase, State.start, Goroutine.start, Flags.times]
  received i := rfl
  received_le := Nat.zero_le _
  exited := by
    intro ended
    cases ended

theorem Single.advance [Subsingleton (Fin hosts)] (single : Single n s) (going : s.exited = false)
    {i : Fin hosts} {g : Goroutine} {count : Int} (running : (s.pings i).pc ≠ .done)
    (unfinished : g.pc ≠ .done) (phase : Phase n count g)
    (less : g.left count < (s.pings i).left s.count) :
    Single n { s.set i g with count } ∧ State.left { s.set i g with count } < s.left := by
  have received := single.received i
  rw [if_neg running] at received
  constructor
  · constructor
    · intro j
      rw [Subsingleton.elim j i]
      simpa [State.set] using phase
    · intro j
      rw [Subsingleton.elim j i]
      simpa [State.set, unfinished] using received
    · exact single.received_le
    · intro ended
      exact absurd (going.symm.trans ended) Bool.false_ne_true
  · rw [State.left, State.left, Fintype.sum_subsingleton _ i, Fintype.sum_subsingleton _ i]
    simpa [State.set, going] using less

theorem Single.finish [Subsingleton (Fin hosts)] (single : Single n s) (going : s.exited = false)
    {i : Fin hosts} (here : (s.pings i).pc = .signal) (waiting : s.received < hosts) :
    Single n { s.set i { s.pings i with pc := .done } with received := s.received + 1 } ∧
      State.left { s.set i { s.pings i with pc := .done } with received := s.received + 1 } <
        s.left := by
  have phase := single.phase i
  have received := single.received i
  simp only [Phase, here] at phase
  simp only [here, reduceCtorEq, if_false] at received
  constructor
  · constructor
    · intro j
      rw [Subsingleton.elim j i]
      simpa [State.set, Phase] using phase
    · intro j
      rw [Subsingleton.elim j i]
      simp [State.set, received]
    · exact waiting
    · intro ended
      exact absurd (going.symm.trans ended) Bool.false_ne_true
  · rw [State.left, State.left, Fintype.sum_subsingleton _ i, Fintype.sum_subsingleton _ i]
    simp [State.set, going, Goroutine.left, here]

/-- A step of the only goroutine or of `main` keeps the phases and lowers what is left. -/
theorem Single.move [Subsingleton (Fin hosts)] (single : Single n s) (going : s.exited = false)
    (move : Move (.times n timeout) s t) : Single n t ∧ t.left < s.left := by
  cases move with
  | enter i here more =>
      have phase := single.phase i
      simp only [Phase, here] at phase
      simp only [Flags.times, Bool.false_eq_true, or_false] at more
      apply single.advance going (by simp [here]) (by simp)
      · exact ⟨more, phase.2⟩
      · simp [Goroutine.left, here]
  | leave i here stop =>
      have phase := single.phase i
      simp only [Phase, here] at phase
      simp only [Flags.times, Bool.false_eq_true, or_false] at stop
      apply single.advance going (by simp [here]) (by simp)
      · show (s.pings i).sendN = n
        omega
      · simp [Goroutine.left, here]
  | send i reply here =>
      have phase := single.phase i
      simp only [Phase, here] at phase
      apply single.advance going (by simp [here]) (by simp)
      · simp only [Phase, Goroutine.request_pc, Goroutine.request_sendN]
        omega
      · simp [Goroutine.left, here]
  | decrement i here =>
      have phase := single.phase i
      simp only [Phase, here] at phase
      apply single.advance going (by simp [here]) (by simp)
      · simp only [Phase]
        omega
      · simp only [Goroutine.left, here]
        omega
  | stat i report here printed =>
      have phase := single.phase i
      simp only [Phase, here] at phase
      apply single.advance going (by simp [here]) (by simp)
      · exact ⟨phase, report, rfl, (Goroutine.stat_sent printed).trans phase⟩
      · simp [Goroutine.left, here]
  | receive i here waiting => exact single.finish going here waiting
  | exit complete =>
      constructor
      · exact ⟨single.phase, single.received, single.received_le, fun _ => complete⟩
      · simp [State.left, going]

theorem single_reachable [Subsingleton (Fin hosts)]
    (reached : (program (.times n timeout) hosts).Reachable s) : Single n s := by
  apply (program (.times n timeout) hosts).invariant (Single n)
  · intro s first
    rw [first]
    exact single_start
  · intro s e t single moved
    obtain ⟨going, move⟩ := step_move moved
    exact (single.move going move).1
  · exact reached

theorem single_bounded [Subsingleton (Fin hosts)] (es : List (Event hosts)) (t : State hosts)
    (ran : (program (.times n timeout) hosts).run (State.start (.times n timeout)) es = some t) :
    es.length ≤ (State.start (.times n timeout) : State hosts).left := by
  have kept := (program (.times n timeout) hosts).run_induction
    (fun es u => Single n u ∧
      es.length + u.left ≤ (State.start (.times n timeout) : State hosts).left)
    (State.start (.times n timeout)) ⟨single_start, by simp⟩
    (by
      intro es s e u so_far moved
      obtain ⟨going, move⟩ := step_move moved
      obtain ⟨single, less⟩ := so_far.1.move going move
      have bound := so_far.2
      rw [List.length_append, List.length_singleton]
      exact ⟨single, by omega⟩)
    es t ran
  omega

theorem Single.no_fault (pos : 0 < n) (single : Single n s) (e : Event hosts) :
    step (.times n timeout) s e ≠ .fault := by
  intro faults
  obtain ⟨i, here, none_sent⟩ := step_fault faults
  have phase := single.phase i
  simp only [Phase, here] at phase
  omega

theorem Single.goes_on [Subsingleton (Fin hosts)] (pos : 0 < n) (single : Single n s)
    (going : s.exited = false) : ∃ e t, step (.times n timeout) s e = .next t := by
  have few : hosts ≤ 1 := Fin.subsingleton_iff_le_one.mp inferInstance
  by_cases complete : s.received = hosts
  · exact ⟨.exit, { s with exited := true }, by simp [step, going, complete]⟩
  · have waiting : s.received < hosts := lt_of_le_of_ne single.received_le complete
    have someone : 0 < hosts := by omega
    cases moved : step (.times n timeout) s (.ping ⟨0, someone⟩ ⟨true, 0⟩) with
    | next t => exact ⟨_, t, moved⟩
    | fault => exact absurd moved (single.no_fault pos _)
    | waits =>
        rw [step_ping going] at moved
        rcases ping_waits moved with signal | done
        · have meets : (s.pings ⟨0, someone⟩).pc = .signal ∧ s.received < hosts := ⟨signal, waiting⟩
          apply Exists.intro (.receive ⟨0, someone⟩)
          rw [step, going, if_neg Bool.false_ne_true]
          exact ⟨_, if_pos meets⟩
        · have received := single.received ⟨0, someone⟩
          rw [if_pos done] at received
          omega

theorem Single.all_sent [Subsingleton (Fin hosts)] (single : Single n s) (ended : s.exited = true)
    (i : Fin hosts) :
    (s.pings i).sendN = n ∧ ∃ report, (s.pings i).report = some report ∧ report.sent = n := by
  have received := single.received i
  have complete := single.exited ended
  have someone := i.pos
  have done : (s.pings i).pc = .done := by
    by_contra other
    rw [if_neg other] at received
    omega
  have phase := single.phase i
  simp only [Phase, done] at phase
  exact phase

theorem sendsAll_of_le_one (pos : 0 < n) (few : hosts ≤ 1) : SendsAll n timeout hosts := by
  have alone : Subsingleton (Fin hosts) := Fin.subsingleton_iff_le_one.mpr few
  constructor
  · intro s reached i here
    have phase := (single_reachable reached).phase i
    simp only [Phase, here] at phase
    exact phase
  · intro s reached e
    exact (single_reachable reached).no_fault pos e
  · exact ⟨_, single_bounded⟩
  · intro s reached going
    exact (single_reachable reached).goes_on pos going
  · intro s reached ended i
    exact (single_reachable reached).all_sent ended i

end Single

section Several

variable (n : Nat) (timeout : Int)

theorem leads_ping {flags : Flags} {s t : State hosts} {i : Fin hosts} {reply : Reply}
    (going : s.exited = false) (moved : ping flags s i reply = .next t) :
    (program flags hosts).Leads s t := by
  have stepped : (program flags hosts).step s (.ping i reply) = .next t :=
    (step_ping going i reply).trans moved
  exact System.leads_step _ stepped

theorem round {s : State hosts} {i : Fin hosts} (here : (s.pings i).pc = .test)
    (going : s.exited = false) (positive : s.count > 0) :
    ∃ t, (program (.times n timeout) hosts).Leads s t ∧ t.count = s.count - 1 ∧
      t.exited = false ∧ (t.pings i).pc = .test ∧ ∀ j, j ≠ i → t.pings j = s.pings j := by
  let reply : Reply := ⟨true, 0⟩
  obtain ⟨tested, isTested⟩ : ∃ t, t = s.set i { s.pings i with pc := .send } := ⟨_, rfl⟩
  obtain ⟨sent, isSent⟩ : ∃ t, t = tested.set i ((tested.pings i).request timeout reply) := ⟨_, rfl⟩
  have first : ping (.times n timeout) s i reply = .next tested := by
    simp [ping, here, positive, isTested]
  have second : ping (.times n timeout) tested i reply = .next sent := by
    have sending : (tested.pings i).pc = .send := by simp [isTested, State.set]
    simp [ping, sending, isSent, Flags.times]
  have third : ping (.times n timeout) sent i reply =
      .next { sent.set i { sent.pings i with pc := .test } with count := sent.count - 1 } := by
    have decrementing : (sent.pings i).pc = .decrement := by simp [isSent, State.set]
    simp [ping, decrementing]
  have testedGoing : tested.exited = false := by simp [isTested, State.set, going]
  have sentGoing : sent.exited = false := by simp [isSent, State.set, testedGoing]
  have path := System.leads_trans _ (leads_ping going first)
    (System.leads_trans _ (leads_ping testedGoing second) (leads_ping sentGoing third))
  apply Exists.intro _
  apply And.intro path
  simp +contextual [isSent, isTested, State.set, going]

/-- One goroutine can use up `count` before the others test it. -/
theorem drain (m : Nat) {s : State hosts} {i : Fin hosts} (here : (s.pings i).pc = .test)
    (going : s.exited = false) (count : s.count = m) :
    ∃ t, (program (.times n timeout) hosts).Leads s t ∧ t.count = 0 ∧ t.exited = false ∧
      ∀ j, j ≠ i → t.pings j = s.pings j := by
  induction m generalizing s with
  | zero => exact ⟨s, System.leads_refl _ s, count, going, fun _ _ => rfl⟩
  | succ m ih =>
      obtain ⟨t, once, lower, running, testing, same⟩ := round n timeout here going (by omega)
      obtain ⟨u, later, empty, still, kept⟩ := ih testing running (by omega)
      exact ⟨u, System.leads_trans _ once later, empty, still,
        fun j other => (kept j other).trans (same j other)⟩

variable {n timeout}

theorem not_sendsAll (pos : 0 < n) (several : 2 ≤ hosts) : ¬SendsAll n timeout hosts := by
  intro all
  let start : State hosts := State.start (.times n timeout)
  let second : Fin hosts := ⟨1, several⟩
  have apart : second ≠ ⟨0, by omega⟩ := by simp [second]
  have testing : (start.pings ⟨0, by omega⟩).pc = .test := rfl
  obtain ⟨t, leads, empty, going, same⟩ := drain n timeout n testing rfl rfl
  have fresh : t.pings second = .start := same second apart
  have stop : ¬(t.count > 0 ∨ (Flags.times n timeout).neverstop = true) := by
    simp [empty, Flags.times]
  have left : ping (.times n timeout) t second ⟨true, 0⟩ =
      .next (t.set second { Goroutine.start with pc := .stat }) := by
    rw [ping, fresh]
    exact if_neg stop
  have reached : (program (.times n timeout) hosts).Reachable (t.set second { Goroutine.start with pc := .stat }) :=
    ⟨start, rfl, System.leads_trans _ leads (leads_ping going left)⟩
  have called := all.stat_called _ reached second (by simp [State.set])
  simp only [State.set, Function.update_self, Goroutine.start] at called
  omega

end Several

/-- Every `Ping` sends `n` requests in every interleaving exactly if there are not two of them: one
of two can find that the other has used up `count`, and its `stat` divides by zero. -/
theorem pings_send_all_iff (n : Nat) (timeout : Int) (hosts : Nat) (pos : 0 < n) :
    SendsAll n timeout hosts ↔ hosts ≤ 1 := by
  constructor
  · intro all
    by_contra several
    exact not_sendsAll pos (by omega) all
  · intro few
    exact sendsAll_of_le_one pos few

theorem pings_send_all_one_host : SendsAll 4 1000 1 :=
  (pings_send_all_iff 4 1000 1 (by decide)).mpr (by decide)

theorem two_pings_not_send_all : ¬SendsAll 1 1000 2 := not_sendsAll (by decide) (by decide)

end DataStructure.Ping
