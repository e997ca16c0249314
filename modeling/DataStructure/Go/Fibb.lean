import DataStructure.Lib.Channel
import DataStructure.Lib.System

/-! The Fibonacci channel network of `go/study0507/q27.go`.

The goroutine of `fibb` feeds a channel whose values the goroutine of `dup3` copies to three
others; two of them come back to `fibb`. An `int` has 64 bits. -/

namespace DataStructure.Fibb

open Channel

def capacity : Nat := 2

inductive DupPc where
  | receive
  | sendA (x : Int64)
  | sendB (x : Int64)
  | sendC (x : Int64)
  deriving DecidableEq

/-- Where the goroutine of `fibb` is; the operands of the sum are received from left to
right. -/
inductive FibbPc where
  | sendZero
  | sendOne
  | discard
  | receiveA
  | receiveB (left : Int64)
  | sendSum (sum : Int64)
  deriving DecidableEq

structure State where
  x : List Int64
  a : List Int64
  b : List Int64
  out : List Int64
  dup : DupPc
  fibb : FibbPc
  received : List Int64
  deriving DecidableEq

inductive Event where
  | dup
  | fibb
  | consume
  deriving DecidableEq

def send (channel : List Int64) (v : Int64) (next : List Int64 → State) : Outcome State :=
  if channel.length < capacity then .next (next (channel ++ [v])) else .waits

def receive (channel : List Int64) (next : Int64 → List Int64 → State) : Outcome State :=
  match channel with
  | [] => .waits
  | v :: rest => .next (next v rest)

def dup3 (s : State) : Outcome State :=
  match s.dup with
  | .receive => receive s.x fun v rest => { s with x := rest, dup := .sendA v }
  | .sendA v => send s.a v fun a => { s with a := a, dup := .sendB v }
  | .sendB v => send s.b v fun b => { s with b := b, dup := .sendC v }
  | .sendC v => send s.out v fun c => { s with out := c, dup := .receive }

def fibb (s : State) : Outcome State :=
  match s.fibb with
  | .sendZero => send s.x 0 fun x => { s with x := x, fibb := .sendOne }
  | .sendOne => send s.x 1 fun x => { s with x := x, fibb := .discard }
  | .discard => receive s.a fun _ rest => { s with a := rest, fibb := .receiveA }
  | .receiveA => receive s.a fun v rest => { s with a := rest, fibb := .receiveB v }
  | .receiveB left => receive s.b fun v rest => { s with b := rest, fibb := .sendSum (left + v) }
  | .sendSum sum => send s.x sum fun x => { s with x := x, fibb := .receiveA }

def step (s : State) : Event → Outcome State
  | .dup => dup3 s
  | .fibb => fibb s
  | .consume => receive s.out fun v rest => { s with out := rest, received := s.received ++ [v] }

def network : System State Event where
  initial s := s = ⟨[], [], [], [], .receive, .sendZero, []⟩
  step := step

def F (k : Nat) : Int64 := Int64.ofNat (Nat.fib k)

theorem F_add (k : Nat) : F (k + 1) + F k = F (k + 2) := by
  rw [F, F, F, Nat.fib_add_two, Int64.ofNat_add, Int64.add_comm]

/-- How many values have been sent and received on each channel. -/
structure Counts where
  sentX : Nat
  takenX : Nat
  sentA : Nat
  takenA : Nat
  sentB : Nat
  takenB : Nat
  sentC : Nat
  takenC : Nat

def Counts.DupAt (c : Counts) : DupPc → Prop
  | .receive => c.sentA = c.takenX ∧ c.sentB = c.takenX ∧ c.sentC = c.takenX
  | .sendA v =>
      c.takenX = c.sentA + 1 ∧ c.sentB = c.sentA ∧ c.sentC = c.sentA ∧ v = F c.sentA
  | .sendB v =>
      c.sentA = c.takenX ∧ c.takenX = c.sentB + 1 ∧ c.sentC = c.sentB ∧ v = F c.sentB
  | .sendC v =>
      c.sentA = c.takenX ∧ c.sentB = c.takenX ∧ c.takenX = c.sentC + 1 ∧ v = F c.sentC

def Counts.FibbAt (c : Counts) : FibbPc → Prop
  | .sendZero => c.sentX = 0 ∧ c.takenA = 0 ∧ c.takenB = 0
  | .sendOne => c.sentX = 1 ∧ c.takenA = 0 ∧ c.takenB = 0
  | .discard => c.sentX = 2 ∧ c.takenA = 0 ∧ c.takenB = 0
  | .receiveA => c.sentX = c.takenB + 2 ∧ c.takenA = c.takenB + 1
  | .receiveB left =>
      c.sentX = c.takenB + 2 ∧ c.takenA = c.takenB + 2 ∧ left = F (c.takenB + 1)
  | .sendSum sum => c.sentX = c.takenB + 1 ∧ c.takenA = c.takenB + 1 ∧ sum = F c.sentX

structure Carries (s : State) (c : Counts) : Prop where
  x : s.x = window F c.takenX c.sentX
  a : s.a = window F c.takenA c.sentA
  b : s.b = window F c.takenB c.sentB
  out : s.out = window F c.takenC c.sentC
  received : s.received = window F 0 c.takenC
  order : c.takenX ≤ c.sentX ∧ c.takenA ≤ c.sentA ∧ c.takenB ≤ c.sentB ∧ c.takenC ≤ c.sentC
  dup : c.DupAt s.dup
  fibb : c.FibbAt s.fibb

theorem send_next {channel : List Int64} {v : Int64} {next : List Int64 → State} {t : State}
    (moved : send channel v next = .next t) : t = next (channel ++ [v]) := by
  rw [send] at moved
  split at moved <;> cases moved
  rfl

theorem receive_next {channel : List Int64} {next : Int64 → List Int64 → State} {t : State}
    (moved : receive channel next = .next t) :
    ∃ v rest, channel = v :: rest ∧ t = next v rest := by
  unfold receive at moved
  split at moved <;> cases moved
  exact ⟨_, _, rfl, rfl⟩

theorem dup3_carries (s t : State) (c : Counts) (carries : Carries s c)
    (moved : dup3 s = .next t) : ∃ c', Carries t c' := by
  obtain ⟨x, a, b, out, received, order, dup, fibb⟩ := carries
  obtain ⟨sentX, takenX, sentA, takenA, sentB, takenB, sentC, takenC⟩ := c
  dsimp only at x a b out received order
  cases here : s.dup with
  | receive =>
      simp only [dup3, here] at moved
      obtain ⟨v, rest, held, rfl⟩ := receive_next moved
      obtain ⟨some, rfl, rfl⟩ := window_cons F (x.symm.trans held)
      simp only [here, Counts.DupAt] at dup
      refine ⟨⟨sentX, takenX + 1, sentA, takenA, sentB, takenB, sentC, takenC⟩, rfl, a, b, out,
        received, ⟨some, order.2⟩, ?_, fibb⟩
      exact ⟨by rw [dup.1], by rw [dup.1, dup.2.1], by rw [dup.1, dup.2.2], by rw [dup.1]⟩
  | sendA v =>
      simp only [dup3, here] at moved
      cases send_next moved
      simp only [here, Counts.DupAt] at dup
      obtain ⟨ahead, levelB, levelC, rfl⟩ := dup
      refine ⟨⟨sentX, takenX, sentA + 1, takenA, sentB, takenB, sentC, takenC⟩, x, ?_, b, out,
        received, ⟨order.1, order.2.1.trans (Nat.le_succ _), order.2.2⟩, ?_, fibb⟩
      · rw [a]
        exact window_send F order.2.1
      · exact ⟨ahead.symm, by rw [ahead, levelB], levelC.trans levelB.symm, by rw [levelB]⟩
  | sendB v =>
      simp only [dup3, here] at moved
      cases send_next moved
      simp only [here, Counts.DupAt] at dup
      obtain ⟨levelA, ahead, levelC, rfl⟩ := dup
      refine ⟨⟨sentX, takenX, sentA, takenA, sentB + 1, takenB, sentC, takenC⟩, x, a, ?_, out,
        received, ⟨order.1, order.2.1, order.2.2.1.trans (Nat.le_succ _), order.2.2.2⟩, ?_, fibb⟩
      · rw [b]
        exact window_send F order.2.2.1
      · exact ⟨levelA, ahead.symm, by rw [ahead, levelC], by rw [levelC]⟩
  | sendC v =>
      simp only [dup3, here] at moved
      cases send_next moved
      simp only [here, Counts.DupAt] at dup
      obtain ⟨levelA, levelB, ahead, rfl⟩ := dup
      refine ⟨⟨sentX, takenX, sentA, takenA, sentB, takenB, sentC + 1, takenC⟩, x, a, b, ?_,
        received, ⟨order.1, order.2.1, order.2.2.1, order.2.2.2.trans (Nat.le_succ _)⟩, ?_, fibb⟩
      · rw [out]
        exact window_send F order.2.2.2
      · exact ⟨levelA, levelB, ahead.symm⟩

theorem fibb_carries (s t : State) (c : Counts) (carries : Carries s c)
    (moved : fibb s = .next t) : ∃ c', Carries t c' := by
  obtain ⟨x, a, b, out, received, order, dup, fibbAt⟩ := carries
  obtain ⟨sentX, takenX, sentA, takenA, sentB, takenB, sentC, takenC⟩ := c
  dsimp only at x a b out received order
  -- what is sent to `x` is the next value of the stream
  have sends (v : Int64) (next : v = F sentX) (pc : FibbPc)
      (at' : Counts.FibbAt ⟨sentX + 1, takenX, sentA, takenA, sentB, takenB, sentC, takenC⟩ pc) :
      Carries { s with x := s.x ++ [v], fibb := pc }
        ⟨sentX + 1, takenX, sentA, takenA, sentB, takenB, sentC, takenC⟩ := by
    refine ⟨?_, a, b, out, received, ⟨order.1.trans (Nat.le_succ _), order.2⟩, dup, at'⟩
    rw [x, next]
    exact window_send F order.1
  cases here : s.fibb with
  | sendZero =>
      simp only [fibb, here] at moved
      cases send_next moved
      simp only [here, Counts.FibbAt] at fibbAt
      exact ⟨_, sends 0 (by rw [fibbAt.1]; rfl) .sendOne ⟨by rw [fibbAt.1], fibbAt.2⟩⟩
  | sendOne =>
      simp only [fibb, here] at moved
      cases send_next moved
      simp only [here, Counts.FibbAt] at fibbAt
      exact ⟨_, sends 1 (by rw [fibbAt.1]; rfl) .discard ⟨by rw [fibbAt.1], fibbAt.2⟩⟩
  | sendSum sum =>
      simp only [fibb, here] at moved
      cases send_next moved
      simp only [here, Counts.FibbAt] at fibbAt
      exact ⟨_, sends sum fibbAt.2.2 .receiveA ⟨by rw [fibbAt.1], fibbAt.2.1⟩⟩
  | discard =>
      simp only [fibb, here] at moved
      obtain ⟨v, rest, held, rfl⟩ := receive_next moved
      obtain ⟨some, rfl, rfl⟩ := window_cons F (a.symm.trans held)
      simp only [here, Counts.FibbAt] at fibbAt
      obtain ⟨rfl, rfl, rfl⟩ := fibbAt
      exact ⟨⟨2, takenX, sentA, 1, sentB, 0, sentC, takenC⟩, x, rfl, b, out, received,
        ⟨order.1, some, order.2.2⟩, dup, rfl, rfl⟩
  | receiveA =>
      simp only [fibb, here] at moved
      obtain ⟨v, rest, held, rfl⟩ := receive_next moved
      obtain ⟨some, rfl, rfl⟩ := window_cons F (a.symm.trans held)
      simp only [here, Counts.FibbAt] at fibbAt
      obtain ⟨rfl, rfl⟩ := fibbAt
      exact ⟨⟨takenB + 2, takenX, sentA, takenB + 2, sentB, takenB, sentC, takenC⟩, x, rfl, b, out,
        received, ⟨order.1, some, order.2.2⟩, dup, rfl, rfl, rfl⟩
  | receiveB left =>
      simp only [fibb, here] at moved
      obtain ⟨v, rest, held, rfl⟩ := receive_next moved
      obtain ⟨some, rfl, rfl⟩ := window_cons F (b.symm.trans held)
      simp only [here, Counts.FibbAt] at fibbAt
      obtain ⟨rfl, rfl, rfl⟩ := fibbAt
      exact ⟨⟨takenB + 2, takenX, sentA, takenB + 2, sentB, takenB + 1, sentC, takenC⟩, x, a, rfl,
        out, received, ⟨order.1, order.2.1, some, order.2.2.2⟩, dup, rfl, rfl, F_add takenB⟩

theorem step_carries (s : State) (e : Event) (t : State) (carries : ∃ c, Carries s c)
    (moved : step s e = .next t) : ∃ c, Carries t c := by
  obtain ⟨c, carries⟩ := carries
  cases e with
  | dup => exact dup3_carries s t c carries moved
  | fibb => exact fibb_carries s t c carries moved
  | consume =>
      obtain ⟨x, a, b, out, received, order, dup, fibb⟩ := carries
      obtain ⟨v, rest, held, rfl⟩ := receive_next moved
      obtain ⟨some, rfl, rfl⟩ := window_cons F (out.symm.trans held)
      refine ⟨{ c with takenC := c.takenC + 1 }, x, a, b, rfl, ?_,
        ⟨order.1, order.2.1, order.2.2.1, some⟩, dup, fibb⟩
      rw [received]
      exact window_send F (Nat.zero_le _)

theorem reachable_carries (s : State) (reached : network.Reachable s) : ∃ c, Carries s c := by
  apply network.invariant (fun s => ∃ c, Carries s c) _ step_carries reached
  rintro _ rfl
  exact ⟨⟨0, 0, 0, 0, 0, 0, 0, 0⟩, rfl, rfl, rfl, rfl, rfl, by decide, ⟨rfl, rfl, rfl⟩,
    ⟨rfl, rfl, rfl⟩⟩

theorem send_waits {channel : List Int64} {v : Int64} {next : List Int64 → State}
    (stuck : ∀ t, send channel v next ≠ .next t) : capacity ≤ channel.length := by
  by_contra room
  rw [send, if_pos (by omega)] at stuck
  exact stuck _ rfl

theorem receive_waits {channel : List Int64} {next : Int64 → List Int64 → State}
    (stuck : ∀ t, receive channel next ≠ .next t) : channel.length = 0 := by
  cases channel with
  | nil => rfl
  | cons v rest => exact absurd rfl (stuck _)

/-- With the output empty, `dup3` can only be stuck for want of input or at a full branch. -/
theorem dup3_stuck (s : State) (c : Counts) (carries : Carries s c) (empty : s.out = [])
    (stuck : ∀ t, dup3 s ≠ .next t) :
    (c.sentX = c.takenX ∧ c.sentA = c.takenX ∧ c.sentB = c.takenX) ∨
      (c.takenX = c.sentA + 1 ∧ c.sentB = c.sentA ∧ c.takenA + 2 ≤ c.sentA) ∨
      (c.sentA = c.takenX ∧ c.takenX = c.sentB + 1 ∧ c.takenB + 2 ≤ c.sentB) := by
  obtain ⟨x, a, b, out, received, order, dup, fibb⟩ := carries
  cases here : s.dup with
  | receive =>
      simp only [dup3, here, Counts.DupAt] at stuck dup
      have none := receive_waits stuck
      rw [x, window_length] at none
      omega
  | sendA v =>
      simp only [dup3, here, Counts.DupAt] at stuck dup
      have full := send_waits stuck
      rw [a, window_length, capacity] at full
      omega
  | sendB v =>
      simp only [dup3, here, Counts.DupAt] at stuck dup
      have full := send_waits stuck
      rw [b, window_length, capacity] at full
      omega
  | sendC v =>
      simp only [dup3, here] at stuck
      have full := send_waits stuck
      rw [empty, List.length_nil, capacity] at full
      omega

theorem fibb_stuck (s : State) (c : Counts) (carries : Carries s c)
    (stuck : ∀ t, fibb s ≠ .next t) :
    (c.takenX + 2 ≤ c.sentX ∧ c.sentX = c.takenB + 1 ∧ c.takenA = c.takenB + 1) ∨
      (c.sentX = 2 ∧ c.takenA = 0 ∧ c.sentA = 0) ∨
      (c.sentX = c.takenB + 2 ∧ c.takenA = c.takenB + 1 ∧ c.sentA = c.takenA) ∨
      (c.sentX = c.takenB + 2 ∧ c.takenA = c.takenB + 2 ∧ c.sentB = c.takenB) := by
  obtain ⟨x, a, b, out, received, order, dup, at'⟩ := carries
  cases here : s.fibb with
  | sendZero | sendOne | sendSum _ =>
      simp only [fibb, here, Counts.FibbAt] at stuck at'
      have full := send_waits stuck
      rw [x, window_length, capacity] at full
      omega
  | discard | receiveA =>
      simp only [fibb, here, Counts.FibbAt] at stuck at'
      have none := receive_waits stuck
      rw [a, window_length] at none
      omega
  | receiveB left =>
      simp only [fibb, here, Counts.FibbAt] at stuck at'
      have none := receive_waits stuck
      rw [b, window_length] at none
      omega

theorem not_stuck (s : State) (c : Counts) (carries : Carries s c) (empty : s.out = []) :
    (∃ t, dup3 s = .next t) ∨ ∃ t, fibb s = .next t := by
  by_contra stuck
  simp only [not_or, not_exists] at stuck
  have dup := dup3_stuck s c carries empty stuck.1
  have fibb := fibb_stuck s c carries stuck.2
  have order := carries.order
  omega

theorem fibonacci_network (s : State) (reached : network.Reachable s) :
    s.received = (List.range s.received.length).map F ∧
      (s.out = [] → (∃ t, network.step s .dup = .next t) ∨ ∃ t, network.step s .fibb = .next t) := by
  obtain ⟨c, carries⟩ := reachable_carries s reached
  refine ⟨?_, not_stuck s c carries⟩
  rw [carries.received, window_length, window, List.range_eq_range']

def rounds : List Event :=
  [.fibb, .fibb, .dup, .dup, .dup, .dup, .consume, .dup, .dup, .dup, .dup, .consume, .fibb, .fibb,
    .fibb, .fibb, .dup, .dup, .dup, .dup, .consume]

theorem fibonacci_network_three_values :
    ∃ s, network.Reachable s ∧ s.received = [F 0, F 1, F 2] ∧ s.out = [] ∧
      ((∃ t, network.step s .dup = .next t) ∨ ∃ t, network.step s .fibb = .next t) := by
  have ran : ∃ s, network.run ⟨[], [], [], [], .receive, .sendZero, []⟩ rounds = some s ∧
      s.received.length = 3 ∧ s.out = [] := ⟨_, rfl, rfl, rfl⟩
  obtain ⟨s, ran, three, empty⟩ := ran
  have reached : network.Reachable s := ⟨_, rfl, rounds, ran⟩
  have result := fibonacci_network s reached
  refine ⟨s, reached, ?_, empty, result.2 empty⟩
  rw [result.1, three]
  rfl

end DataStructure.Fibb
