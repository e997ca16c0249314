import DataStructure.Lib.System

/-! The receive buffer of one connection of `libev/server.c`, with `libev/buffer.c`.

The event loop calls `server_recv_cb` again and again until the server is freed. What `recv` and
`send` answer is given with each call. An access to the freed server is a fault; sizes are unbounded,
as `ss_realloc` leaves the program when there is no memory left. -/

namespace DataStructure.LibevServer

def bufSize : Nat := 2048

structure Buffer where
  len : Nat
  capacity : Nat
  deriving DecidableEq

def balloc (capacity : Nat) : Buffer := ⟨0, capacity⟩

def brealloc (buf : Buffer) (len capacity : Nat) : Buffer :=
  let realCapacity := max len capacity
  if buf.capacity < realCapacity then { buf with capacity := realCapacity } else buf

/-- The answer of `recv`: the number of bytes, no data yet, the end of the stream or an error. -/
inductive Recv where
  | data (r : Nat)
  | wouldBlock
  | closed
  | failed
  deriving DecidableEq

inductive Send where
  | complete
  | partly
  | wouldBlock
  | failed
  deriving DecidableEq

/-- The answers that one call of the callback gets; it may return before it sends. -/
structure Answers where
  recv : Recv
  send : Send
  deriving DecidableEq

inductive Server where
  | live (buf : Buffer)
  | freed
  deriving DecidableEq

def newServer : Server := .live (balloc bufSize)

def serverRecvCb (buf : Buffer) (answers : Answers) : Outcome Server :=
  match answers.recv with
  | .wouldBlock => .next (.live buf)
  -- the branches free the server and go on to `server->buf->array`
  | .closed => .fault
  | .failed => .fault
  | .data r =>
      let buf := { buf with len := buf.len + r }
      if r ≥ bufSize then .next (.live (brealloc buf buf.len (buf.len + bufSize)))
      else
        match answers.send with
        | .wouldBlock => .next (.live buf)
        | .failed => .next .freed
        | .partly => .next (.live buf)
        | .complete => .next .freed

/-- The buffer at each call of `recv`. -/
def recvCalls : Server → List Answers → List Buffer
  | _, [] => []
  | .freed, _ :: _ => []
  | .live buf, answers :: rest =>
      buf :: match serverRecvCb buf answers with
        | .next server => recvCalls server rest
        | _ => []

def Answers.Ordinary (answers : Answers) : Prop :=
  (answers.recv = .wouldBlock ∨ ∃ r, answers.recv = .data r ∧ 1 ≤ r ∧ r ≤ bufSize) ∧
    answers.send ≠ .failed

def Answers.Short (answers : Answers) : Prop := ∃ r, answers.recv = .data r ∧ r < bufSize

def Room (buf : Buffer) : Prop := buf.len + bufSize ≤ buf.capacity

/-- No call follows a short read whose data could not be answered completely. -/
def Stops (calls : List Answers) : Prop :=
  ∀ before answers after, calls = before ++ answers :: after →
    (∀ other ∈ before, other.Short → other.send ≠ .complete) →
    answers.Short → answers.send ≠ .complete → after = []

theorem stops_nil : Stops [] := by
  intro before answers after split
  simp at split

theorem stops_cons (first : Answers) (rest : List Answers) :
    Stops (first :: rest) ↔
      (first.Short → first.send ≠ .complete → rest = []) ∧
        ((first.Short → first.send ≠ .complete) → Stops rest) := by
  constructor
  · intro stops
    constructor
    · exact stops [] first rest rfl (by simp)
    · intro goes before answers after split unclosed
      apply stops (first :: before) answers after (by rw [split]; rfl)
      intro other member
      rcases List.mem_cons.mp member with rfl | later
      · exact goes
      · exact unclosed other later
  · intro both before answers after split unclosed
    obtain ⟨now, later⟩ := both
    cases before with
    | nil =>
        cases split
        exact now
    | cons head before =>
        cases split
        apply later (unclosed first List.mem_cons_self) before answers after rfl
        intro other member
        exact unclosed other (List.mem_cons_of_mem first member)

theorem serverRecvCb_cases (buf : Buffer) {answers : Answers} (ordinary : answers.Ordinary) :
    (answers.recv = .wouldBlock ∧ serverRecvCb buf answers = .next (.live buf)) ∨
      (answers.recv = .data bufSize ∧ serverRecvCb buf answers = .next (.live
        (brealloc ⟨buf.len + bufSize, buf.capacity⟩ (buf.len + bufSize)
          (buf.len + bufSize + bufSize)))) ∨
      ∃ r, answers.recv = .data r ∧ 1 ≤ r ∧ r < bufSize ∧
        serverRecvCb buf answers =
          if answers.send = .complete then .next .freed
          else .next (.live ⟨buf.len + r, buf.capacity⟩) := by
  obtain ⟨received, sent⟩ := ordinary
  rcases received with nothing | ⟨r, bytes, positive, bound⟩
  · left
    refine ⟨nothing, ?_⟩
    rw [serverRecvCb, nothing]
  · right
    by_cases full : r = bufSize
    · left
      subst full
      refine ⟨bytes, ?_⟩
      rw [serverRecvCb, bytes]
      simp only [ge_iff_le, le_refl, if_true]
    · right
      have less : r < bufSize := by omega
      refine ⟨r, bytes, positive, less, ?_⟩
      rw [serverRecvCb, bytes]
      simp only [ge_iff_le, if_neg (by omega : ¬bufSize ≤ r)]
      cases kind : answers.send with
      | failed => exact absurd kind sent
      | complete => rfl
      | partly => rfl
      | wouldBlock => rfl

def Ready (buf : Buffer) : Prop := buf.capacity = buf.len + bufSize

theorem ready_room {buf : Buffer} (ready : Ready buf) : Room buf := by
  rw [Room, ready]

theorem ready_realloc {buf : Buffer} (ready : Ready buf) :
    Ready (brealloc ⟨buf.len + bufSize, buf.capacity⟩ (buf.len + bufSize)
      (buf.len + bufSize + bufSize)) := by
  have grows : buf.capacity < max (buf.len + bufSize) (buf.len + bufSize + bufSize) := by
    rw [ready, bufSize]
    omega
  rw [brealloc, if_pos grows]
  show max (buf.len + bufSize) (buf.len + bufSize + bufSize) = buf.len + bufSize + bufSize
  omega

theorem short_no_room {buf : Buffer} (ready : Ready buf) {r : Nat} (positive : 1 ≤ r) :
    ¬Room ⟨buf.len + r, buf.capacity⟩ := by
  intro room
  have bound : buf.len + r + bufSize ≤ buf.capacity := room
  rw [ready] at bound
  omega

theorem recvCalls_next {buf : Buffer} {answers : Answers} {server : Server}
    (step : serverRecvCb buf answers = .next server) (rest : List Answers) :
    recvCalls (.live buf) (answers :: rest) = buf :: recvCalls server rest := by
  rw [recvCalls, step]

theorem no_room_iff {buf : Buffer} (full : ¬Room buf) (calls : List Answers) :
    (∀ at_call ∈ recvCalls (.live buf) calls, Room at_call) ↔ calls = [] := by
  cases calls with
  | nil => simp [recvCalls]
  | cons answers rest =>
      constructor
      · intro all
        exact absurd (all buf (by rw [recvCalls]; exact List.mem_cons_self)) full
      · intro nothing
        cases nothing

theorem recvCalls_room_iff (calls : List Answers) (ordinary : ∀ answers ∈ calls, answers.Ordinary)
    (buf : Buffer) (ready : Ready buf) :
    (∀ at_call ∈ recvCalls (.live buf) calls, Room at_call) ↔ Stops calls := by
  induction calls generalizing buf with
  | nil => simp [recvCalls, stops_nil]
  | cons answers rest ih =>
      have later := ih fun other member => ordinary other (List.mem_cons_of_mem answers member)
      have room := ready_room ready
      rw [stops_cons]
      rcases serverRecvCb_cases buf (ordinary answers List.mem_cons_self) with
        ⟨nothing, step⟩ | ⟨full, step⟩ | ⟨r, bytes, positive, less, step⟩
      · have long : ¬answers.Short := by
          intro short
          obtain ⟨r, bytes, -⟩ := short
          rw [nothing] at bytes
          cases bytes
        rw [recvCalls_next step, List.forall_mem_cons, and_iff_right room, later buf ready]
        simp only [long, false_implies, true_implies, true_and]
      · have long : ¬answers.Short := by
          intro short
          obtain ⟨r, bytes, less⟩ := short
          rw [full] at bytes
          cases bytes
          omega
        rw [recvCalls_next step, List.forall_mem_cons, and_iff_right room,
          later _ (ready_realloc ready)]
        simp only [long, false_implies, true_implies, true_and]
      · have short : answers.Short := ⟨r, bytes, less⟩
        by_cases complete : answers.send = .complete
        · -- the server is freed and `recv` is not called again
          rw [if_pos complete] at step
          have none_left : recvCalls .freed rest = [] := by
            cases rest <;> rfl
          rw [recvCalls_next step, none_left]
          simp [room, short, complete]
        · rw [if_neg complete] at step
          rw [recvCalls_next step, List.forall_mem_cons, and_iff_right room,
            no_room_iff (short_no_room ready positive)]
          constructor
          · intro nothing
            subst nothing
            exact ⟨fun _ _ => rfl, fun _ => stops_nil⟩
          · intro both
            exact both.1 short complete

/-- At every call of `recv` there is room for `BUF_SIZE` bytes exactly if no call follows a short read
that was not answered completely. -/
theorem recv_room_iff (calls : List Answers) (ordinary : ∀ answers ∈ calls, answers.Ordinary) :
    (∀ buf ∈ recvCalls newServer calls, buf.len + bufSize ≤ buf.capacity) ↔ Stops calls :=
  recvCalls_room_iff calls ordinary (balloc bufSize) (by rw [Ready, balloc, Nat.zero_add])

theorem recv_room_full_read :
    (∀ buf ∈ recvCalls newServer [⟨.data 2048, .partly⟩, ⟨.data 1, .complete⟩],
        buf.len + bufSize ≤ buf.capacity) ↔
      Stops [⟨.data 2048, .partly⟩, ⟨.data 1, .complete⟩] := by
  apply recv_room_iff
  intro answers member
  simp only [List.mem_cons, List.not_mem_nil, or_false] at member
  rcases member with rfl | rfl
  · exact ⟨.inr ⟨2048, rfl, by decide, by decide⟩, by decide⟩
  · exact ⟨.inr ⟨1, rfl, by decide, by decide⟩, by decide⟩

/-- After one byte that is answered in part, `recv` is told of a byte more than there is. -/
theorem short_read_overfull :
    recvCalls newServer [⟨.data 1, .partly⟩, ⟨.wouldBlock, .complete⟩] =
      [⟨0, 2048⟩, ⟨1, 2048⟩] ∧ ¬1 + bufSize ≤ 2048 := by
  decide

end DataStructure.LibevServer
