import DataStructure.Lib.Framing
import DataStructure.Lib.Go

/-! The framing of `go/tcpserver/proto/packet.go`: a header, the length in four bytes and
the message. `go/tcpclient/proto/packet.go` has the same functions. `int` has 64 bits. -/

namespace DataStructure.Proto

open DataStructure.Framing DataStructure.Go

def bigEndian (n : Nat) : List UInt8 :=
  [UInt8.ofNat (n / 2 ^ 24), UInt8.ofNat (n / 2 ^ 16), UInt8.ofNat (n / 2 ^ 8), UInt8.ofNat n]

def beNat (bytes : List UInt8) : Nat := bytes.foldl (fun n b => n * 256 + b.toNat) 0

/-- The word read by `binary.Read`, which leaves the 0 of the variable when it finds
fewer than four bytes. -/
def ofBigEndian (bytes : List UInt8) : Nat := if bytes.length < 4 then 0 else beNat (bytes.take 4)

def int32 (n : Nat) : Int := if n < 2 ^ 31 then n else n - 2 ^ 32

def intToBytes (n : Int) : List UInt8 := bigEndian (n % 2 ^ 32).toNat

def bytesToInt (b : List UInt8) : Int := int32 (ofBigEndian b)

def uintToBytes (n : UInt32) : List UInt8 := bigEndian n.toNat

def bytesToUint (b : List UInt8) : UInt32 := UInt32.ofNat (ofBigEndian b)

@[simp] theorem intToBytes_length (n : Int) : (intToBytes n).length = 4 := rfl

@[simp] theorem uintToBytes_length (n : UInt32) : (uintToBytes n).length = 4 := rfl

theorem beNat_bigEndian (n : Nat) : beNat (bigEndian n) = n % 2 ^ 32 := by
  simp only [beNat, bigEndian, List.foldl_cons, List.foldl_nil, UInt8.toNat_ofNat']
  omega

theorem ofBigEndian_bigEndian (n : Nat) : ofBigEndian (bigEndian n) = n % 2 ^ 32 := by
  rw [← beNat_bigEndian]
  rfl

theorem beNat_intToBytes (n : Nat) (small : n < 2 ^ 31) : beNat (intToBytes n) = n := by
  rw [intToBytes, beNat_bigEndian]
  omega

theorem bytesToInt_intToBytes (n : Nat) (small : n < 2 ^ 31) : bytesToInt (intToBytes n) = n := by
  have word : ((n : Int) % 2 ^ 32).toNat % 2 ^ 32 = n := by omega
  rw [bytesToInt, intToBytes, ofBigEndian_bigEndian, word, int32, if_pos small]

theorem bytesToInt_neg_iff (b₀ b₁ b₂ b₃ : UInt8) :
    bytesToInt [b₀, b₁, b₂, b₃] < 0 ↔ 128 ≤ b₀.toNat := by
  have h₀ := b₀.toNat_lt
  have h₁ := b₁.toNat_lt
  have h₂ := b₂.toNat_lt
  have h₃ := b₃.toNat_lt
  have value : ofBigEndian [b₀, b₁, b₂, b₃] =
      ((b₀.toNat * 256 + b₁.toNat) * 256 + b₂.toNat) * 256 + b₃.toNat := by
    simp [ofBigEndian, beNat]
  rw [bytesToInt, value, int32]
  split <;> omega

def constHeader : List UInt8 := "www.hiweeds.com".toList.map fun c => UInt8.ofNat c.toNat

def constHeaderLength : Nat := 15

def constSaveDataLength : Nat := 4

theorem constHeader_length : constHeader.length = 15 := rfl

def packet (message : List UInt8) : List UInt8 :=
  constHeader ++ intToBytes message.length ++ message

/-- The loop of `Unpack`; its result is the value of `i` at which it stops. -/
def unpackLoop (buffer : Slice UInt8) : Nat → Int → Action UInt8 Int
  | 0, _ => throw .stuck
  | fuel + 1, i =>
      if i < buffer.len then
        if buffer.len < i + constHeader.length + constSaveDataLength then pure i
        else do
          let header ← buffer.sub i (i + constHeaderLength)
          if header.data = constHeader then do
            let save ← buffer.sub (i + constHeaderLength) (i + constHeaderLength + constSaveDataLength)
            let messageLength := bytesToInt save.data
            if buffer.len < i + constHeaderLength + constSaveDataLength + messageLength then pure i
            else do
              let data ← buffer.sub (i + constHeaderLength + constSaveDataLength)
                (i + constHeaderLength + constSaveDataLength + messageLength)
              send data
              unpackLoop buffer fuel
                (i + (constHeaderLength + constSaveDataLength + messageLength - 1) + 1)
          else unpackLoop buffer fuel (i + 1)
      else pure i

def unpack (buffer : Slice UInt8) : Action UInt8 (Slice UInt8) := do
  let i ← unpackLoop buffer (buffer.data.length + 1) 0
  if i = buffer.len then pure ⟨[], []⟩ else buffer.after i

def messageLength (xs : List UInt8) : Int := bytesToInt ((xs.drop 15).take 4)

/-- The decision of the loop body on the bytes from `i` on. -/
def unpackMove (xs : List UInt8) : Move (List UInt8) :=
  if xs.length < 19 then .wait
  else if xs.take 15 = constHeader then
    if messageLength xs < 0 then .fail
    else if xs.length < 19 + (messageLength xs).toNat then .wait
    else .take (19 + (messageLength xs).toNat) [(xs.drop 19).take (messageLength xs).toNat]
  else .take 1 []

theorem unpackMove_within (xs : List UInt8) (n : Nat) (out : List (List UInt8))
    (decision : unpackMove xs = .take n out) : 0 < n ∧ n ≤ xs.length := by
  unfold unpackMove at decision
  split_ifs at decision <;> cases decision <;> omega

theorem unpackMove_stable (xs ys : List UInt8) (decided : unpackMove xs ≠ .wait) :
    unpackMove (xs ++ ys) = unpackMove xs := by
  have long : ¬xs.length < 19 := by
    intro short
    exact decided (by rw [unpackMove, if_pos short])
  have longer : ¬(xs ++ ys).length < 19 := by
    rw [List.length_append]
    omega
  have header : (xs ++ ys).take 15 = xs.take 15 := List.take_append_of_le_length (by omega)
  have save : messageLength (xs ++ ys) = messageLength xs := by
    rw [messageLength, window_append xs ys 15 4 (by omega), messageLength]
  simp only [unpackMove, long, longer, header, save, if_false] at decided ⊢
  by_cases atHeader : xs.take 15 = constHeader
  · simp only [atHeader, if_true] at decided ⊢
    by_cases negative : messageLength xs < 0
    · simp only [negative, if_true]
    · simp only [negative, if_false] at decided ⊢
      have complete : ¬xs.length < 19 + (messageLength xs).toNat := by
        intro short
        exact decided (if_pos short)
      rw [if_neg complete, if_neg (by rw [List.length_append]; omega),
        window_append xs ys 19 _ (by omega)]
  · simp only [atHeader, if_false]

def unpackScanner : Scanner UInt8 (List UInt8) where
  move := unpackMove
  within := unpackMove_within
  stable := unpackMove_stable

theorem unpackScanner_move (xs : List UInt8) : unpackScanner.move xs = unpackMove xs := rfl

theorem unpackLoop_message (buffer : Slice UInt8) (fuel i : Nat) (length : Int) (w : World UInt8)
    (inside : i + 19 ≤ buffer.data.length) :
    exec (if buffer.len < (i : Int) + 19 + length then pure (i : Int) else do
        let data ← buffer.sub (i + 19) (i + 19 + length)
        send data
        unpackLoop buffer fuel (i + (constHeaderLength + constSaveDataLength + length - 1) + 1)) w =
      if length < 0 then (.error .bounds, w)
      else if (buffer.data.drop i).length < 19 + length.toNat then (.ok (i : Int), w)
      else exec (unpackLoop buffer fuel (i + (19 + length.toNat) : Nat))
        (w.deliver [((buffer.data.drop i).drop 19).take length.toNat]) := by
  rw [List.length_drop]
  by_cases negative : length < 0
  · have go : ¬buffer.len < (i : Int) + 19 + length := by
      simp only [Slice.len]
      omega
    simp only [go, negative, if_true, if_false]
    exact exec_bind_error _ _ w w _ (exec_sub_panic buffer _ _ w (by omega))
  simp only [negative, if_false]
  obtain ⟨n, size⟩ := Int.eq_ofNat_of_zero_le (not_lt.mp negative)
  rw [size, Int.toNat_natCast]
  by_cases incomplete : buffer.data.length - i < 19 + n
  · have stop : buffer.len < (i : Int) + 19 + n := by
      simp only [Slice.len]
      omega
    simp only [stop, incomplete, if_true, exec_pure]
  have go : ¬buffer.len < (i : Int) + 19 + n := by
    simp only [Slice.len]
    omega
  simp only [go, incomplete, if_false]
  have data : exec (buffer.sub (i + 19) (i + 19 + n)) w = _ :=
    exec_sub buffer _ _ (i + 19) n w rfl rfl (by omega)
  rw [exec_bind_ok _ _ w w _ data, exec_bind_ok _ _ w _ _ (exec_send _ w), ← List.drop_drop]
  congr 2
  simp only [constHeaderLength, constSaveDataLength]
  omega

/-- One iteration of the loop carries out the scanner's decision. -/
theorem unpackLoop_step (buffer : Slice UInt8) (fuel i : Nat) (w : World UInt8)
    (inside : i ≤ buffer.data.length) :
    exec (unpackLoop buffer (fuel + 1) i) w = match unpackMove (buffer.data.drop i) with
      | .wait => (.ok (i : Int), w)
      | .fail => (.error .bounds, w)
      | .take n out => exec (unpackLoop buffer fuel (i + n : Nat)) (w.deliver out) := by
  have length : (buffer.data.drop i).length = buffer.data.length - i := List.length_drop
  rw [unpackLoop, unpackMove]
  by_cases short : (buffer.data.drop i).length < 19
  · have stop : buffer.len < (i : Int) + constHeader.length + constSaveDataLength := by
      simp only [Slice.len, constHeader_length, constSaveDataLength]
      omega
    simp only [stop, if_true, ite_self, short, exec_pure]
  have more : (i : Int) < buffer.len := by
    simp only [Slice.len]
    omega
  have go : ¬buffer.len < (i : Int) + constHeader.length + constSaveDataLength := by
    simp only [Slice.len, constHeader_length, constSaveDataLength]
    omega
  simp only [more, go, short, if_true, if_false]
  have header : exec (buffer.sub i (i + constHeaderLength)) w = _ :=
    exec_sub buffer _ _ i 15 w rfl rfl (by omega)
  rw [exec_bind_ok _ _ w w _ header]
  by_cases found : (buffer.data.drop i).take 15 = constHeader
  · simp only [found, if_true]
    have save : exec (buffer.sub (i + constHeaderLength)
        (i + constHeaderLength + constSaveDataLength)) w = _ :=
      exec_sub buffer _ _ (i + 15) 4 w rfl rfl (by omega)
    have field : bytesToInt (((buffer.data.drop i).drop 15).take 4) = messageLength (buffer.data.drop i) := rfl
    have total : (i : Int) + constHeaderLength + constSaveDataLength = i + 19 := by
      simp only [constHeaderLength, constSaveDataLength]
      omega
    rw [exec_bind_ok _ _ w w _ save, ← List.drop_drop, field]
    simp only [total]
    rw [unpackLoop_message buffer fuel i _ w (by omega)]
    split_ifs <;> rfl
  · simp only [found, if_false, World.deliver_nil, Nat.cast_add, Nat.cast_one]

/-- `Unpack` from position `i` on does what the scanner does on the bytes from there. -/
theorem unpackLoop_spec (buffer : Slice UInt8) (fuel i : Nat) (w : World UInt8)
    (messages : List (List UInt8)) (rest : List UInt8) (inside : i ≤ buffer.data.length)
    (enough : buffer.data.length - i < fuel)
    (scanned : unpackScanner.run (buffer.data.drop i) = some (messages, rest)) :
    ∃ k : Nat, k ≤ buffer.data.length ∧ buffer.data.drop k = rest ∧
      exec (unpackLoop buffer fuel i) w = (.ok (k : Int), w.deliver messages) := by
  induction fuel generalizing i w messages with
  | zero => omega
  | succ fuel ih =>
      rw [unpackLoop_step buffer fuel i w inside]
      cases decision : unpackMove (buffer.data.drop i) with
      | wait =>
          rw [unpackScanner.run_wait _ decision] at scanned
          obtain ⟨rfl, rfl⟩ := Prod.mk.inj (Option.some.inj scanned)
          exact ⟨i, inside, rfl, by simp⟩
      | fail => simp [unpackScanner.run_fail _ decision] at scanned
      | take n out =>
          obtain ⟨positive, bound⟩ := unpackMove_within _ n out decision
          rw [List.length_drop] at bound
          rw [unpackScanner.run_take _ n out decision, List.drop_drop] at scanned
          obtain ⟨⟨later, _⟩, again, same⟩ := Option.map_eq_some_iff.mp scanned
          obtain ⟨rfl, rfl⟩ := Prod.mk.inj same
          obtain ⟨k, bound, rest, ran⟩ := ih (i + n) (w.deliver out) later (by omega) (by omega) again
          exact ⟨k, bound, rest, by simp only [ran, World.deliver_deliver]⟩

theorem unpack_spec (buffer : Slice UInt8) (w : World UInt8) (messages : List (List UInt8))
    (rest : List UInt8) (scanned : unpackScanner.run buffer.data = some (messages, rest)) :
    ∃ spare, exec (unpack buffer) w = (.ok ⟨rest, spare⟩, w.deliver messages) := by
  obtain ⟨k, bound, tail, ran⟩ := unpackLoop_spec buffer (buffer.data.length + 1) 0 w messages rest
    (by omega) (by omega) scanned
  rw [Nat.cast_zero] at ran
  rw [unpack, exec_bind_ok _ _ w _ _ ran]
  by_cases whole : (k : Int) = buffer.len
  · rw [if_pos whole]
    have all : k = buffer.data.length := by
      simp only [Slice.len] at whole
      omega
    rw [all, List.drop_length] at tail
    exact ⟨[], by rw [← tail, exec_pure]⟩
  · rw [if_neg whole, ← tail]
    exact exec_after buffer k k _ rfl bound

/-- `rest = Unpack(append(rest, chunk...), ch)` for every chunk. With each chunk stands what
lies behind the bytes in an array that `append` may have to allocate. -/
def feed : Slice UInt8 → List (List UInt8 × List UInt8) → Action UInt8 (Slice UInt8)
  | rest, [] => pure rest
  | rest, (chunk, fresh) :: chunks => do
      let next ← unpack (rest.append fresh chunk)
      feed next chunks

theorem feed_spec (chunks : List (List UInt8 × List UInt8)) (rest : Slice UInt8) (w : World UInt8)
    (messages : List (List UInt8)) (last : List UInt8)
    (scanned : unpackScanner.feed rest.data (chunks.map Prod.fst) = some (messages, last)) :
    ∃ spare, exec (feed rest chunks) w = (.ok ⟨last, spare⟩, w.deliver messages) := by
  induction chunks generalizing rest w messages with
  | nil =>
      obtain ⟨rfl, rfl⟩ := Prod.mk.inj (Option.some.inj scanned)
      exact ⟨rest.spare, by simp [feed]⟩
  | cons chunk chunks ih =>
      obtain ⟨⟨first, middle⟩, ran, fed⟩ := Option.bind_eq_some_iff.mp scanned
      obtain ⟨⟨later, _⟩, again, same⟩ := Option.map_eq_some_iff.mp fed
      obtain ⟨rfl, rfl⟩ := Prod.mk.inj same
      rw [← Slice.append_data rest chunk.2] at ran
      obtain ⟨spare, unpacked⟩ := unpack_spec _ w first middle ran
      obtain ⟨spare', done⟩ := ih ⟨middle, spare⟩ (w.deliver first) later again
      refine ⟨spare', ?_⟩
      rw [feed, exec_bind_ok _ _ w _ _ unpacked, done, World.deliver_deliver]

def AtHeader (stream : List UInt8) (i : Nat) : Prop := (stream.drop i).take 15 = constHeader

instance (stream : List UInt8) (i : Nat) : Decidable (AtHeader stream i) :=
  inferInstanceAs (Decidable (_ = _))

inductive Reached (stream : List UInt8) : Nat → Prop where
  | start : Reached stream 0
  | skip (i : Nat) : Reached stream i → i + 19 ≤ stream.length → ¬AtHeader stream i →
      Reached stream (i + 1)
  | body (i n : Nat) : Reached stream i → AtHeader stream i →
      messageLength (stream.drop i) = n → i + 19 + n ≤ stream.length → Reached stream (i + (19 + n))

/-- No header that `Unpack` reaches is followed by a length whose top bit is set. -/
def Readable (stream : List UInt8) : Prop :=
  ∀ i, Reached stream i → AtHeader stream i → i + 19 ≤ stream.length →
    (stream.getD (i + 15) 0).toNat < 128

theorem messageLength_neg_iff (stream : List UInt8) (i : Nat) (long : i + 19 ≤ stream.length) :
    messageLength (stream.drop i) < 0 ↔ 128 ≤ (stream.getD (i + 15) 0).toNat := by
  have field : 4 ≤ (stream.drop (i + 15)).length := by
    rw [List.length_drop]
    omega
  have first : stream.getD (i + 15) 0 = (stream.drop (i + 15)).getD 0 0 := by simp
  rw [messageLength, List.drop_drop, first]
  match stream.drop (i + 15), field with
  | b₀ :: b₁ :: b₂ :: b₃ :: _, _ => exact bytesToInt_neg_iff b₀ b₁ b₂ b₃

theorem run_of_readable (stream : List UInt8) (readable : Readable stream) :
    ∃ messages rest, unpackScanner.run stream = some (messages, rest) := by
  have ran := unpackScanner.run_isSome stream (Reached stream) 0 .start (Nat.zero_le _) ?_ ?_
  · obtain ⟨result, ran⟩ := Option.isSome_iff_exists.mp ran
    exact ⟨result.1, result.2, ran⟩
  · intro i reached failed
    simp only [unpackScanner, unpackMove, List.length_drop] at failed
    split_ifs at failed with short found negative
    have readableHere := readable i reached found (by omega)
    have topBit := (messageLength_neg_iff stream i (by omega)).mp negative
    omega
  · intro i n out reached decision
    simp only [unpackScanner, unpackMove, List.length_drop] at decision
    split_ifs at decision with short found negative incomplete
    · obtain ⟨rfl, _⟩ := Move.take.inj decision
      exact .body i _ reached found (by omega) (by omega)
    · obtain ⟨rfl, _⟩ := Move.take.inj decision
      exact .skip i reached (by omega) found

/-- A packed message is recognised whatever follows it. -/
theorem unpackMove_packet (message rest : List UInt8) (small : message.length < 2 ^ 31) :
    unpackMove (packet message ++ rest) = .take (packet message).length [message] := by
  have size : (packet message).length = 19 + message.length := by
    simp [packet, constHeader_length]
    omega
  have header : (packet message ++ rest).take 15 = constHeader := by
    rw [packet, List.append_assoc, List.append_assoc, ← constHeader_length, List.take_left]
  have body : (packet message ++ rest).drop 15 = intToBytes message.length ++ (message ++ rest) := by
    rw [packet, List.append_assoc, List.append_assoc, ← constHeader_length, List.drop_left]
  have length : messageLength (packet message ++ rest) = message.length := by
    rw [messageLength, body, List.take_left' (intToBytes_length _), bytesToInt_intToBytes _ small]
  have tail : (packet message ++ rest).drop 19 = message ++ rest := by
    rw [← List.drop_drop (i := 4) (j := 15), body, List.drop_left' (intToBytes_length _)]
  simp only [unpackMove, header, length, tail, List.length_append, size, Int.toNat_natCast]
  rw [if_neg (by omega), if_pos trivial, if_neg (by omega), if_neg (by omega), List.take_left]

theorem run_packets (messages : List (List UInt8)) (small : ∀ m ∈ messages, m.length < 2 ^ 31) :
    unpackScanner.run (messages.flatMap packet) = some (messages, []) := by
  have recognised : ∀ m ∈ messages, ∀ ys,
      unpackScanner.move (packet m ++ ys) = .take (packet m).length [m] := by
    intro m member ys
    rw [unpackScanner_move, unpackMove_packet m ys (small m member)]
  have scanned := unpackScanner.run_encoded packet messages [] recognised
  rw [List.append_nil, unpackScanner.run_wait [] rfl] at scanned
  simpa using scanned

def Delivers (program : Action UInt8 (Slice UInt8)) (messages : List (List UInt8))
    (rest : List UInt8) : Prop :=
  ∃ spare overread, exec program ⟨[], false⟩ = (.ok ⟨rest, spare⟩, ⟨messages, overread⟩)

theorem delivers_feed (chunks : List (List UInt8 × List UInt8)) (messages : List (List UInt8))
    (rest : List UInt8)
    (scanned : unpackScanner.run (chunks.map Prod.fst).flatten = some (messages, rest)) :
    Delivers (feed ⟨[], []⟩ chunks) messages rest := by
  have fed := unpackScanner.feed_eq_run [] (chunks.map Prod.fst) (unpackScanner.run_wait [] rfl)
  obtain ⟨spare, ran⟩ := feed_spec chunks ⟨[], []⟩ ⟨[], false⟩ messages rest (fed.trans scanned)
  exact ⟨spare, false, ran⟩

/-- Feeding a readable stream in chunks delivers the messages and leaves the remainder of a
single `Unpack` of it; for a stream of packed messages these are the messages, and nothing
remains. -/
theorem unpack_in_chunks :
    (∀ (chunks : List (List UInt8 × List UInt8)) (spare : List UInt8),
      Readable (chunks.map Prod.fst).flatten → ∃ messages rest,
        Delivers (unpack ⟨(chunks.map Prod.fst).flatten, spare⟩) messages rest ∧
        Delivers (feed ⟨[], []⟩ chunks) messages rest) ∧
    ∀ (messages : List (List UInt8)) (chunks : List (List UInt8 × List UInt8)),
      (∀ m ∈ messages, m.length < 2 ^ 31) →
      (chunks.map Prod.fst).flatten = messages.flatMap packet →
      Delivers (feed ⟨[], []⟩ chunks) messages [] := by
  constructor
  · intro chunks spare readable
    obtain ⟨messages, rest, scanned⟩ := run_of_readable _ readable
    obtain ⟨spare', ran⟩ := unpack_spec ⟨_, spare⟩ ⟨[], false⟩ messages rest scanned
    exact ⟨messages, rest, ⟨spare', false, ran⟩, delivers_feed chunks messages rest scanned⟩
  · intro messages chunks small stream
    apply delivers_feed
    rw [stream]
    exact run_packets messages small

theorem unpack_in_chunks_cut_header :
    Readable (packet [1, 2]) ∧
      (∃ messages rest,
        Delivers (unpack ⟨packet [1, 2], []⟩) messages rest ∧
        Delivers (feed ⟨[], []⟩ [((packet [1, 2]).take 7, []), ((packet [1, 2]).drop 7, [0])])
          messages rest) ∧
      Delivers (feed ⟨[], []⟩ [((packet [1, 2]).take 7, []), ((packet [1, 2]).drop 7, [0])])
        [[1, 2]] [] := by
  have positions (i : Nat) (reached : Reached (packet [1, 2]) i) : i = 0 ∨ i = 21 := by
    have length : (packet [1, 2]).length = 21 := rfl
    induction reached with
    | start => exact Or.inl rfl
    | skip i _ long missed ih =>
        rcases ih with rfl | rfl
        · exact absurd (by decide) missed
        · omega
    | body i n _ found size long ih =>
        rcases ih with rfl | rfl
        · have two : messageLength ((packet [1, 2]).drop 0) = 2 := by decide
          omega
        · omega
  have readable : Readable (packet [1, 2]) := by
    intro i reached _ long
    have length : (packet [1, 2]).length = 21 := rfl
    rcases positions i reached with rfl | rfl
    · decide
    · omega
  exact ⟨readable,
    unpack_in_chunks.1 [((packet [1, 2]).take 7, []), ((packet [1, 2]).drop 7, [0])] [] readable,
    unpack_in_chunks.2 [[1, 2]] _ (by simp) (by decide)⟩

end DataStructure.Proto
