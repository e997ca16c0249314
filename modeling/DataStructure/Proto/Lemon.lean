import DataStructure.Proto.Packet

/-! The Lemon3 frames of `go/tcpserver/proto/proto3.go` and `go/tcpclient/proto/proto3.go`:
eight bytes of length and command in front of the message. The two packages order the
two fields differently. -/

namespace DataStructure.Proto

open DataStructure.Go

-- The length as the server reads it: printed in hexadecimal and parsed again.

def hexDigit (n : Nat) : Char := Char.ofNat (if n < 10 then 48 + n else 87 + n)

def sprintfX (bytes : List UInt8) : List Char :=
  bytes.flatMap fun b => [hexDigit (b.toNat / 16), hexDigit (b.toNat % 16)]

def digitValue (c : Char) : Option Nat :=
  if '0' ≤ c ∧ c ≤ '9' then some (c.toNat - 48)
  else if 'a' ≤ c ∧ c ≤ 'f' then some (c.toNat - 87)
  else if 'A' ≤ c ∧ c ≤ 'F' then some (c.toNat - 55)
  else none

def parseDigits (digits : List Char) : Option Nat :=
  digits.foldlM (fun n c => (digitValue c).map fun d => n * 16 + d) 0

/-- `strconv.ParseInt(s, 16, 0)`; no result is an error. -/
def parseInt (s : List Char) : Option Int :=
  let negative := s.head? = some '-'
  let digits := if negative ∨ s.head? = some '+' then s.tail else s
  if digits = [] then none
  else (parseDigits digits).bind fun n =>
    if negative then if n ≤ 2 ^ 63 then some (-n) else none
    else if n < 2 ^ 63 then some n else none

theorem digitValue_hexDigit (n : Nat) (small : n < 16) : digitValue (hexDigit n) = some n := by
  interval_cases n <;> decide

theorem hexDigit_ne_sign (n : Nat) (small : n < 16) : hexDigit n ≠ '-' ∧ hexDigit n ≠ '+' := by
  interval_cases n <;> decide

theorem foldlM_sprintfX (bytes : List UInt8) (n : Nat) :
    (sprintfX bytes).foldlM (fun n c => (digitValue c).map fun d => n * 16 + d) n =
      some (bytes.foldl (fun n b => n * 256 + b.toNat) n) := by
  induction bytes generalizing n with
  | nil => rfl
  | cons b bytes ih =>
      have byte := b.toNat_lt
      have step : (n * 16 + b.toNat / 16) * 16 + b.toNat % 16 = n * 256 + b.toNat := by omega
      have high := digitValue_hexDigit (b.toNat / 16) (by omega)
      have low := digitValue_hexDigit (b.toNat % 16) (by omega)
      rw [sprintfX, List.flatMap_cons, ← sprintfX, List.foldl_cons]
      simp only [List.cons_append, List.nil_append, List.foldlM_cons, high, low, Option.map_some,
        Option.bind_eq_bind, Option.bind_some, step, ih]

theorem beNat_lt (b₀ b₁ b₂ b₃ : UInt8) : beNat [b₀, b₁, b₂, b₃] < 2 ^ 32 := by
  have h₀ := b₀.toNat_lt
  have h₁ := b₁.toNat_lt
  have h₂ := b₂.toNat_lt
  have h₃ := b₃.toNat_lt
  simp only [beNat, List.foldl_cons, List.foldl_nil]
  omega

theorem parseInt_sprintfX (bytes : List UInt8) (four : bytes.length = 4) :
    parseInt (sprintfX bytes) = some (beNat bytes : Int) := by
  match bytes, four with
  | [b₀, b₁, b₂, b₃], _ =>
      obtain ⟨minus, plus⟩ := hexDigit_ne_sign (b₀.toNat / 16) (by have := b₀.toNat_lt; omega)
      have digits : parseDigits (sprintfX [b₀, b₁, b₂, b₃]) = some (beNat [b₀, b₁, b₂, b₃]) :=
        foldlM_sprintfX _ 0
      have first : (sprintfX [b₀, b₁, b₂, b₃]).head? = some (hexDigit (b₀.toNat / 16)) := rfl
      have some : sprintfX [b₀, b₁, b₂, b₃] ≠ [] := List.cons_ne_nil _ _
      have bound : beNat [b₀, b₁, b₂, b₃] < 2 ^ 63 := (beNat_lt b₀ b₁ b₂ b₃).trans (by norm_num)
      simp only [parseInt, first, Option.some.injEq, minus, plus, or_self, if_false, some, digits,
        Option.bind_some, bound, if_true]

namespace Server

def packetLemon3 (message : List UInt8) (cmd : UInt32) : List UInt8 :=
  intToBytes message.length ++ uintToBytes cmd ++ message

def unpackLemon3 (buffer : Slice UInt8) : Action UInt8 (Slice UInt8) := do
  let totalLength ← buffer.sub 0 4
  let _cmdId ← buffer.sub 4 8
  match parseInt (sprintfX totalLength.data) with
  | none => pure ⟨[], []⟩
  | some length => do
      let message ← buffer.sub 8 (length + 8)
      send message
      buffer.after (length + 8)

theorem unpackLemon3_complete (buffer : Slice UInt8) (w : World UInt8) (n : Nat)
    (field : beNat (buffer.data.take 4) = n) (complete : 8 + n ≤ buffer.data.length) :
    ∃ spare, exec (unpackLemon3 buffer) w =
      (.ok ⟨buffer.data.drop (8 + n), spare⟩, w.deliver [(buffer.data.drop 8).take n]) := by
  have total : exec (buffer.sub 0 4) w = _ := exec_sub buffer 0 4 0 4 w rfl rfl (by omega)
  have command : exec (buffer.sub 4 8) w = _ := exec_sub buffer 4 8 4 4 w rfl rfl (by omega)
  have message : exec (buffer.sub 8 (n + 8)) w = _ :=
    exec_sub buffer 8 (n + 8) 8 n w rfl (by omega) (by omega)
  have four : (buffer.data.take 4).length = 4 := by
    rw [List.length_take]
    omega
  rw [unpackLemon3, exec_bind_ok _ _ w w _ total, exec_bind_ok _ _ w w _ command]
  simp only [List.drop_zero, parseInt_sprintfX _ four, field]
  rw [exec_bind_ok _ _ w w _ message, exec_bind_ok _ _ w _ _ (exec_send _ w)]
  exact exec_after buffer _ (8 + n) _ (by omega) complete

theorem unpackLemon3_short (buffer : Slice UInt8) (w : World UInt8)
    (short : ∀ r w', exec (buffer.sub 0 4) w = (.ok r, w') →
      buffer.data.length < 8 + beNat r.data) :
    ∃ w', exec (unpackLemon3 buffer) w = (.error .bounds, w') := by
  rw [unpackLemon3]
  rcases exec_sub_cases buffer 0 4 w with failed | ⟨total, w₁, taken, four⟩
  · exact ⟨w, exec_bind_error _ _ w w _ failed⟩
  have beyond := short total w₁ taken
  rw [exec_bind_ok _ _ w w₁ _ taken]
  rcases exec_sub_cases buffer 4 8 w₁ with failed | ⟨command, w₂, taken, _⟩
  · exact ⟨w₁, exec_bind_error _ _ w₁ w₁ _ failed⟩
  rw [exec_bind_ok _ _ w₁ w₂ _ taken]
  simp only [parseInt_sprintfX total.data (by omega)]
  rcases exec_sub_cases buffer 8 (beNat total.data + 8) w₂ with failed | ⟨message, w₃, taken, _⟩
  · exact ⟨w₂, exec_bind_error _ _ w₂ w₂ _ failed⟩
  rw [exec_bind_ok _ _ w₂ w₃ _ taken, exec_bind_ok _ _ w₃ _ _ (exec_send message w₃)]
  refine ⟨_, exec_after_panic buffer _ _ ?_⟩
  simp only [Slice.len]
  omega

end Server

namespace Client

def packetLemon3 (message : List UInt8) (cmd : UInt32) : List UInt8 :=
  uintToBytes cmd ++ intToBytes message.length ++ message

def unpackLemon3 (buffer : Slice UInt8) : Action UInt8 (Slice UInt8) := do
  let _cmdId ← buffer.sub 0 4
  let totalLength ← buffer.sub 4 8
  let message ← buffer.after 8
  if message.len = (bytesToUint totalLength.data).toNat then
    send (← buffer.after (message.len + 8))
  buffer.after (message.len + 8)

/-- What is sent is never the message but what follows it, which is nothing. -/
theorem unpackLemon3_spec (buffer : Slice UInt8) (w : World UInt8) (n : UInt32)
    (field : bytesToUint ((buffer.data.drop 4).take 4) = n) (header : 8 ≤ buffer.data.length) :
    ∃ spare, exec (unpackLemon3 buffer) w = (.ok ⟨[], spare⟩,
      w.deliver (if buffer.data.length = 8 + n.toNat then [[]] else [])) := by
  have command : exec (buffer.sub 0 4) w = _ := exec_sub buffer 0 4 0 4 w rfl rfl (by omega)
  have total : exec (buffer.sub 4 8) w = _ := exec_sub buffer 4 8 4 4 w rfl rfl (by omega)
  obtain ⟨spare, message⟩ := exec_after buffer 8 8 w rfl header
  have size : (⟨buffer.data.drop 8, spare⟩ : Slice UInt8).len = buffer.data.length - 8 := by
    simp only [Slice.len, List.length_drop]
    omega
  have rest (w : World UInt8) : ∃ spare, exec (buffer.after (buffer.data.length - 8 + 8)) w =
      (.ok ⟨[], spare⟩, w) := by
    have ran := exec_after buffer (buffer.data.length - 8 + 8) buffer.data.length w (by omega) (le_refl _)
    rwa [List.drop_length] at ran
  obtain ⟨behind, sent⟩ := rest w
  rw [unpackLemon3, exec_bind_ok _ _ w w _ command, exec_bind_ok _ _ w w _ total,
    exec_bind_ok _ _ w w _ message]
  simp only [field, size]
  by_cases equal : buffer.data.length = 8 + n.toNat
  · rw [if_pos (by omega), if_pos equal, exec_bind_ok _ _ w w _ sent,
      exec_bind_ok _ _ w _ _ (exec_send _ w)]
    exact rest _
  · rw [if_neg (by omega), if_neg equal, World.deliver_nil]
    exact rest w

end Client

theorem server_frame (message : List UInt8) (cmd : UInt32) :
    Server.packetLemon3 message cmd = intToBytes message.length ++ (uintToBytes cmd ++ message) :=
  List.append_assoc _ _ _

theorem client_frame (message : List UInt8) (cmd : UInt32) :
    Client.packetLemon3 message cmd = uintToBytes cmd ++ (intToBytes message.length ++ message) :=
  List.append_assoc _ _ _

theorem beNat_uintToBytes (n : UInt32) : beNat (uintToBytes n) = n.toNat := by
  rw [uintToBytes, beNat_bigEndian]
  exact Nat.mod_eq_of_lt n.toNat_lt

theorem bytesToUint_uintToBytes (n : UInt32) : bytesToUint (uintToBytes n) = n := by
  have word : ofBigEndian (uintToBytes n) = n.toNat := beNat_uintToBytes n
  rw [bytesToUint, word, UInt32.ofNat_toNat]

theorem drop_eight (first second message : List UInt8) (four : first.length = 4)
    (four' : second.length = 4) : (first ++ (second ++ message)).drop 8 = message := by
  rw [← List.append_assoc]
  exact List.drop_left' (by simp [four, four'])

/-- The server takes the command of a client's frame for the length. -/
theorem server_reads_client_iff (message spare : List UInt8) (cmd : UInt32) :
    Delivers (Server.unpackLemon3 ⟨Client.packetLemon3 message cmd, spare⟩) [message] [] ↔
      cmd.toNat = message.length := by
  have field : beNat ((Client.packetLemon3 message cmd).take 4) = cmd.toNat := by
    rw [client_frame, List.take_left' (uintToBytes_length cmd), beNat_uintToBytes]
  have body : (Client.packetLemon3 message cmd).drop 8 = message := by
    rw [client_frame, drop_eight _ _ _ rfl rfl]
  have size : (Client.packetLemon3 message cmd).length = 8 + message.length := by
    simp [client_frame]
    omega
  by_cases complete : cmd.toNat ≤ message.length
  · obtain ⟨behind, ran⟩ := Server.unpackLemon3_complete ⟨Client.packetLemon3 message cmd, spare⟩
      ⟨[], false⟩ cmd.toNat field (by simp only [size]; omega)
    simp only [← List.drop_drop, body] at ran
    constructor
    · rintro ⟨_, _, delivered⟩
      rw [ran] at delivered
      have sent : [message.take cmd.toNat] = [message] :=
        congrArg (fun result => result.2.sent) delivered
      have all := List.take_eq_self_iff message |>.mp (List.cons.inj sent).1
      omega
    · intro equal
      rw [equal, List.take_length, List.drop_length] at ran
      exact ⟨behind, false, ran⟩
  · have total := exec_sub ⟨Client.packetLemon3 message cmd, spare⟩ 0 4 0 4 ⟨[], false⟩ rfl rfl
      (by simp only [size]; omega)
    obtain ⟨w, failed⟩ := Server.unpackLemon3_short ⟨Client.packetLemon3 message cmd, spare⟩ ⟨[], false⟩ (by
      intro r w' taken
      rw [total] at taken
      cases taken
      simp only [List.drop_zero, field, size]
      omega)
    constructor
    · rintro ⟨_, _, delivered⟩
      rw [failed] at delivered
      cases delivered
    · omega

/-- The client sends on the bytes behind the message. -/
theorem client_reads_server_iff (message spare : List UInt8) (cmd : UInt32) :
    Delivers (Client.unpackLemon3 ⟨Server.packetLemon3 message cmd, spare⟩) [message] [] ↔
      message = [] ∧ cmd = 0 := by
  have field : bytesToUint (((Server.packetLemon3 message cmd).drop 4).take 4) = cmd := by
    rw [server_frame, List.drop_left' (intToBytes_length _), List.take_left' (uintToBytes_length cmd),
      bytesToUint_uintToBytes]
  have size : (Server.packetLemon3 message cmd).length = 8 + message.length := by
    simp [server_frame]
    omega
  obtain ⟨behind, ran⟩ := Client.unpackLemon3_spec ⟨Server.packetLemon3 message cmd, spare⟩ ⟨[], false⟩ cmd
    field (by simp only [size]; omega)
  simp only [size] at ran
  constructor
  · rintro ⟨_, _, delivered⟩
    rw [ran] at delivered
    have sent : (if 8 + message.length = 8 + cmd.toNat then [[]] else []) = [message] :=
      congrArg (fun result => result.2.sent) delivered
    split_ifs at sent with equal
    obtain rfl := (List.cons.inj sent).1
    refine ⟨rfl, UInt32.toNat_inj.mp ?_⟩
    simpa using equal.symm
  · rintro ⟨rfl, rfl⟩
    exact ⟨behind, false, ran⟩

/-- Each side delivers the message of a frame that the other side packed, and nothing
remains. The spare capacity of the two frames is arbitrary. -/
def Agree (message : List UInt8) (cmd : UInt32) (spare spare' : List UInt8) : Prop :=
  Delivers (Server.unpackLemon3 ⟨Client.packetLemon3 message cmd, spare⟩) [message] [] ∧
    Delivers (Client.unpackLemon3 ⟨Server.packetLemon3 message cmd, spare'⟩) [message] []

/-- Client and server agree on the empty message with command 0 and on nothing else. -/
theorem lemon3_agree_iff (message : List UInt8) (cmd : UInt32) (spare spare' : List UInt8) :
    Agree message cmd spare spare' ↔ message = [] ∧ cmd = 0 := by
  rw [Agree, server_reads_client_iff, client_reads_server_iff]
  constructor
  · exact And.right
  · rintro ⟨rfl, rfl⟩
    exact ⟨rfl, rfl, rfl⟩

/-- The server panics on a client's login request, and the client delivers nothing of
the same request packed by the server. -/
theorem lemon3_login_disagree :
    exec (Server.unpackLemon3 ⟨Client.packetLemon3 [7] 0x10, []⟩) ⟨[], false⟩ =
        (.error .bounds, ⟨[], false⟩) ∧
      exec (Client.unpackLemon3 ⟨Server.packetLemon3 [7] 0x10, []⟩) ⟨[], false⟩ =
        (.ok ⟨[], []⟩, ⟨[], false⟩) ∧
      ¬Agree [7] 0x10 [] [] := by
  have server : exec (Server.unpackLemon3 ⟨Client.packetLemon3 [7] 0x10, []⟩) ⟨[], false⟩ =
      (.error .bounds, ⟨[], false⟩) := by decide
  refine ⟨server, by decide, ?_⟩
  rintro ⟨⟨_, _, delivered⟩, _⟩
  rw [server] at delivered
  cases delivered

end DataStructure.Proto
