import DataStructure.Proto.Lemon

/-! The receive loop of `connectionHandler` in `go/tcpserver/server/tcpserver.go`, on the
`Updated upstream` side of its merge conflict. The reader of the channel takes every
message that is sent. -/

namespace DataStructure.Proto.Receive

open DataStructure.Go

def maxRead : Nat := 1024 * 1024

/-- `ibuf[:length]` after `conn.Read` has stored the bytes and `ibuf[MaxRead] = 0`. -/
def readBuffer (received : List UInt8) : List UInt8 :=
  let ibuf := received ++ List.replicate (maxRead + 1 - received.length) 0
  (ibuf.set maxRead 0).take received.length

def receiveLoop : Nat → Slice UInt8 → Action UInt8 Unit
  | 0, _ => throw .stuck
  | fuel + 1, tmpBuffer => do
      let tmpBuffer ← Server.unpackLemon3 tmpBuffer
      if 0 < tmpBuffer.len then do
        let tmpBuffer ← Server.unpackLemon3 tmpBuffer
        receiveLoop fuel tmpBuffer
      else pure ()

/-- What `connectionHandler` does with the bytes of one `Read`; `fresh` is the memory
behind them in the array that `append` allocates. -/
def receive (received fresh : List UInt8) : Action UInt8 Unit :=
  receiveLoop (received.length + 1) ((⟨[], []⟩ : Slice UInt8).append fresh (readBuffer received))

theorem readBuffer_eq (received : List UInt8) (bounded : received.length ≤ maxRead) :
    readBuffer received = received := by
  rw [readBuffer, List.set_append_right _ _ bounded, List.take_left]

def frames (messages : List (List UInt8 × UInt32)) : List UInt8 :=
  messages.flatMap fun m => Server.packetLemon3 m.1 m.2

theorem frame_length (message : List UInt8) (cmd : UInt32) :
    (Server.packetLemon3 message cmd).length = 8 + message.length := by
  simp [server_frame]
  omega

theorem frames_cons (m : List UInt8 × UInt32) (messages : List (List UInt8 × UInt32)) :
    (frames (m :: messages)).length = 8 + m.1.length + (frames messages).length := by
  rw [frames, List.flatMap_cons, List.length_append, frame_length, frames]

theorem frames_bound (messages : List (List UInt8 × UInt32)) :
    messages.length ≤ (frames messages).length ∧
      ∀ m ∈ messages, m.1.length ≤ (frames messages).length := by
  induction messages with
  | nil => simp
  | cons m messages ih =>
      obtain ⟨count, each⟩ := ih
      rw [frames_cons, List.length_cons]
      refine ⟨by omega, ?_⟩
      intro k member
      rcases List.mem_cons.mp member with rfl | member
      · omega
      · have bound := each k member
        omega

theorem unpackLemon3_frame (message : List UInt8) (cmd : UInt32) (rest : List UInt8)
    (buffer : Slice UInt8) (w : World UInt8) (small : message.length < 2 ^ 31)
    (content : buffer.data = Server.packetLemon3 message cmd ++ rest) :
    ∃ spare, exec (Server.unpackLemon3 buffer) w = (.ok ⟨rest, spare⟩, w.deliver [message]) := by
  have field : beNat (buffer.data.take 4) = message.length := by
    rw [content, server_frame, List.append_assoc, List.take_left' (intToBytes_length _),
      beNat_intToBytes _ small]
  have size : buffer.data.length = 8 + message.length + rest.length := by
    rw [content, List.length_append, frame_length]
  have body : buffer.data.drop 8 = message ++ rest := by
    rw [content, server_frame, List.append_assoc, List.append_assoc, drop_eight _ _ _ rfl rfl]
  obtain ⟨spare, ran⟩ := Server.unpackLemon3_complete buffer w message.length field (by omega)
  rw [← List.drop_drop, body, List.take_left, List.drop_left] at ran
  exact ⟨spare, ran⟩

/-- Nothing is left: the four bytes of the length are taken from memory that was not
received, or there are none, and cutting off the frame panics. -/
theorem unpackLemon3_empty (buffer : Slice UInt8) (w : World UInt8) (empty : buffer.data = []) :
    ∃ w', exec (Server.unpackLemon3 buffer) w = (.error .bounds, w') := by
  apply Server.unpackLemon3_short
  intro r w' _
  rw [empty, List.length_nil]
  omega

/-- Two frames are consumed per iteration, and only after the first of them does the loop
look whether anything is left. -/
theorem receiveLoop_spec (messages : List (List UInt8 × UInt32)) (fuel : Nat) (buffer : Slice UInt8)
    (w : World UInt8) (small : ∀ m ∈ messages, m.1.length < 2 ^ 31)
    (content : buffer.data = frames messages) (enough : messages.length < fuel) :
    if messages.length % 2 = 1 then
      exec (receiveLoop fuel buffer) w = (.ok (), w.deliver (messages.map Prod.fst))
    else ∃ w', exec (receiveLoop fuel buffer) w = (.error .bounds, w') := by
  obtain _ | fuel := fuel
  · omega
  match messages with
  | [] =>
      obtain ⟨w', failed⟩ := unpackLemon3_empty buffer w content
      exact ⟨w', exec_bind_error _ _ w w' _ failed⟩
  | [first] =>
      obtain ⟨spare, ran⟩ := unpackLemon3_frame first.1 first.2 [] buffer w (small _ (by simp)) content
      rw [if_pos (by simp), receiveLoop, exec_bind_ok _ _ w _ _ ran]
      rfl
  | first :: second :: rest =>
      obtain ⟨spare, ran⟩ := unpackLemon3_frame first.1 first.2 (frames (second :: rest)) buffer w
        (small _ (by simp)) content
      obtain ⟨spare', again⟩ := unpackLemon3_frame second.1 second.2 (frames rest)
        ⟨frames (second :: rest), spare⟩ (w.deliver [first.1]) (small _ (by simp)) rfl
      have more : 0 < (⟨frames (second :: rest), spare⟩ : Slice UInt8).len := by
        simp only [Slice.len, frames_cons]
        omega
      have iteration : exec (receiveLoop (fuel + 1) buffer) w =
          exec (receiveLoop fuel ⟨frames rest, spare'⟩) (w.deliver [first.1, second.1]) := by
        rw [receiveLoop, exec_bind_ok _ _ w _ _ ran, if_pos more,
          exec_bind_ok _ _ (w.deliver [first.1]) _ _ again, World.deliver_deliver]
        rfl
      have tail := receiveLoop_spec rest fuel ⟨frames rest, spare'⟩ (w.deliver [first.1, second.1])
        (fun m member => small m (by simp [member])) rfl (by simp only [List.length_cons] at enough; omega)
      have parity : (first :: second :: rest).length % 2 = rest.length % 2 := by
        simp only [List.length_cons]
        omega
      rw [parity, iteration]
      simpa only [List.map_cons, World.deliver_deliver, List.cons_append, List.nil_append] using tail

def Receives (messages : List (List UInt8 × UInt32)) (fresh : List UInt8) : Prop :=
  exec (receive (frames messages) fresh) ⟨[], false⟩ = (.ok (), ⟨messages.map Prod.fst, false⟩)

/-- One `Read` that returns whole frames is handled exactly when their number is odd. -/
theorem receives_iff_odd (messages : List (List UInt8 × UInt32)) (fresh : List UInt8)
    (bounded : (frames messages).length ≤ maxRead) :
    Receives messages fresh ↔ messages.length % 2 = 1 := by
  obtain ⟨count, each⟩ := frames_bound messages
  have small (m : List UInt8 × UInt32) (member : m ∈ messages) : m.1.length < 2 ^ 31 := by
    have bound := each m member
    simp only [maxRead] at bounded
    omega
  have looped := receiveLoop_spec messages ((frames messages).length + 1)
    ((⟨[], []⟩ : Slice UInt8).append fresh (readBuffer (frames messages))) ⟨[], false⟩ small
    (by rw [Slice.append_data, List.nil_append, readBuffer_eq _ bounded]) (by omega)
  rw [Receives, receive]
  split_ifs at looped with odd
  · exact ⟨fun _ => odd, fun _ => looped⟩
  · obtain ⟨w', failed⟩ := looped
    rw [failed]
    constructor
    · intro equal
      cases equal
    · intro even
      exact absurd even odd

theorem receives_one :
    (frames [([7], 0x10)]).length ≤ maxRead ∧ Receives [([7], 0x10)] [0, 0, 0, 0, 0, 0, 0, 0] := by
  have bounded : (frames [([7], 0x10)]).length ≤ maxRead := by decide
  exact ⟨bounded, (receives_iff_odd [([7], 0x10)] [0, 0, 0, 0, 0, 0, 0, 0] bounded).mpr rfl⟩

/-- Two frames that arrive together: after both were delivered the loop takes eight bytes
that were not received for a third frame, sends its empty message and panics. -/
theorem receive_two_panics :
    exec (receive (frames [([7], 0x10), ([9], 0x10)]) (List.replicate 14 0)) ⟨[], false⟩ =
        (.error .bounds, ⟨[[7], [9], []], true⟩) ∧
      ¬Receives [([7], 0x10), ([9], 0x10)] (List.replicate 14 0) := by
  have panics : exec (receive (frames [([7], 0x10), ([9], 0x10)]) (List.replicate 14 0)) ⟨[], false⟩ =
      (.error .bounds, ⟨[[7], [9], []], true⟩) := by
    rw [receive, readBuffer_eq _ (by decide)]
    decide
  refine ⟨panics, ?_⟩
  intro received
  rw [Receives, panics] at received
  cases received

end DataStructure.Proto.Receive
