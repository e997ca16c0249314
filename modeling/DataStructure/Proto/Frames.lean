import DataStructure.Proto.Packet

/-! What `Unpack` does with arbitrary bytes. -/

namespace DataStructure.Proto

open DataStructure.Framing DataStructure.Go

/-- A message in the buffer, behind its header and its length, and the bytes skipped in front. -/
structure Frame where
  skipped : List UInt8
  save : List UInt8
  message : List UInt8
  size : save.length = constSaveDataLength
  counts : bytesToInt save = message.length

def Frame.bytes (frame : Frame) : List UInt8 :=
  frame.skipped ++ constHeader ++ frame.save ++ frame.message

def Framed (buffer : List UInt8) (messages : List (List UInt8)) (rest : List UInt8) : Prop :=
  ∃ (frames : List Frame) (tail : List UInt8),
    buffer = frames.flatMap Frame.bytes ++ tail ++ rest ∧ messages = frames.map Frame.message

theorem framed_cons (frame : Frame) (buffer : List UInt8) (messages : List (List UInt8))
    (rest : List UInt8) (framed : Framed buffer messages rest) :
    Framed (frame.bytes ++ buffer) (frame.message :: messages) rest := by
  obtain ⟨frames, tail, rfl, rfl⟩ := framed
  exact ⟨frame :: frames, tail, by simp, rfl⟩

/-- A skipped byte belongs to the next frame, or to what lies behind the last one. -/
theorem framed_skip (b : UInt8) (buffer : List UInt8) (messages : List (List UInt8))
    (rest : List UInt8) (framed : Framed buffer messages rest) :
    Framed (b :: buffer) messages rest := by
  obtain ⟨frames, tail, rfl, rfl⟩ := framed
  cases frames with
  | nil => exact ⟨[], b :: tail, rfl, rfl⟩
  | cons frame frames =>
      exact ⟨{ frame with skipped := b :: frame.skipped } :: frames, tail, by simp [Frame.bytes], rfl⟩

theorem bytesToInt_nonneg_save {xs : List UInt8} (nonneg : ¬messageLength xs < 0) :
    bytesToInt ((xs.drop 15).take 4) = (messageLength xs).toNat := by
  rw [Int.toNat_of_nonneg (not_lt.1 nonneg)]
  rfl

theorem unpackMove_framed (xs : List UInt8) (n : Nat) (out later : List (List UInt8))
    (rest : List UInt8) (decision : unpackMove xs = .take n out)
    (framed : Framed (xs.drop n) later rest) : Framed xs (out ++ later) rest := by
  unfold unpackMove at decision
  split_ifs at decision with short found negative incomplete
  · obtain ⟨rfl, rfl⟩ := Move.take.inj decision
    have body : ((xs.drop 19).take (messageLength xs).toNat).length = (messageLength xs).toNat := by
      rw [List.length_take, List.length_drop]
      omega
    have four : ((xs.drop 15).take 4).length = constSaveDataLength := by
      rw [List.length_take, List.length_drop, constSaveDataLength]
      omega
    have whole := framed_cons ⟨[], (xs.drop 15).take 4, (xs.drop 19).take (messageLength xs).toNat,
      four, by rw [body, bytesToInt_nonneg_save negative]⟩ _ _ _ framed
    have cut : constHeader ++ (xs.drop 15).take 4 ++ (xs.drop 19).take (messageLength xs).toNat ++
        xs.drop (19 + (messageLength xs).toNat) = xs := by
      rw [List.append_assoc, ← List.drop_drop, List.take_append_drop, List.append_assoc,
        ← List.drop_drop (i := 4) (j := 15), List.take_append_drop, ← found, List.take_append_drop]
    rw [Frame.bytes, List.nil_append, cut] at whole
    exact whole
  · obtain ⟨rfl, rfl⟩ := Move.take.inj decision
    cases xs with
    | nil => exact absurd (by decide) short
    | cons b xs => exact framed_skip b xs later rest framed

theorem framed_of_run (buffer rest : List UInt8) (messages : List (List UInt8))
    (scanned : unpackScanner.run buffer = some (messages, rest)) : Framed buffer messages rest := by
  apply unpackScanner.run_induction Framed _ _ buffer rest messages scanned
  · intro xs _
    exact ⟨[], [], rfl, rfl⟩
  · intro xs n out later rest decision framed
    exact unpackMove_framed xs n out later rest decision framed

theorem unpackLoop_panics (buffer : Slice UInt8) (fuel i : Nat) (w : World UInt8)
    (inside : i ≤ buffer.data.length) (enough : buffer.data.length - i < fuel)
    (failed : unpackScanner.run (buffer.data.drop i) = none) :
    ∃ w', exec (unpackLoop buffer fuel i) w = (.error .bounds, w') := by
  induction fuel generalizing i w with
  | zero => omega
  | succ fuel ih =>
      rw [unpackLoop_step buffer fuel i w inside]
      cases decision : unpackMove (buffer.data.drop i) with
      | wait => simp [unpackScanner.run_wait _ decision] at failed
      | fail => exact ⟨w, rfl⟩
      | take n out =>
          obtain ⟨positive, bound⟩ := unpackMove_within _ n out decision
          rw [List.length_drop] at bound
          rw [unpackScanner.run_take _ n out decision, List.drop_drop, Option.map_eq_none_iff] at failed
          exact ih (i + n) (w.deliver out) (by omega) (by omega) failed

theorem unpack_panics (buffer : Slice UInt8) (w : World UInt8)
    (failed : unpackScanner.run buffer.data = none) :
    ∃ w', exec (unpack buffer) w = (.error .bounds, w') := by
  obtain ⟨w', ran⟩ := unpackLoop_panics buffer (buffer.data.length + 1) 0 w (Nat.zero_le _)
    (by omega) failed
  rw [Nat.cast_zero] at ran
  exact ⟨w', exec_bind_error _ _ w w' _ ran⟩

theorem not_delivers_of_run_none (buffer spare rest : List UInt8) (messages : List (List UInt8))
    (failed : unpackScanner.run buffer = none) : ¬Delivers (unpack ⟨buffer, spare⟩) messages rest := by
  intro ⟨_, _, ran⟩
  obtain ⟨w', panicked⟩ := unpack_panics ⟨buffer, spare⟩ ⟨[], false⟩ failed
  rw [panicked] at ran
  cases (Prod.mk.inj ran).1

theorem run_reached (stream : List UInt8) (i : Nat) (reached : Reached stream i)
    (ran : unpackScanner.run stream ≠ none) : unpackScanner.run (stream.drop i) ≠ none := by
  induction reached with
  | start => exact ran
  | skip i _ long missed ih =>
      have decision : unpackMove (stream.drop i) = .take 1 [] := by
        rw [AtHeader] at missed
        rw [unpackMove, if_neg (by rw [List.length_drop]; omega), if_neg missed]
      rw [← List.drop_drop]
      exact unpackScanner.run_drop_ne_none _ 1 [] decision ih
  | body i n _ found size long ih =>
      have decision : unpackMove (stream.drop i) =
          .take (19 + n) [((stream.drop i).drop 19).take n] := by
        rw [AtHeader] at found
        rw [unpackMove, if_neg (by rw [List.length_drop]; omega), if_pos found, size,
          if_neg (by omega), if_neg (by rw [List.length_drop, Int.toNat_natCast]; omega),
          Int.toNat_natCast]
      rw [← List.drop_drop]
      exact unpackScanner.run_drop_ne_none _ _ _ decision ih

theorem readable_of_run (stream : List UInt8) (ran : unpackScanner.run stream ≠ none) :
    Readable stream := by
  intro i reached found long
  by_contra topBit
  have negative := (messageLength_neg_iff stream i long).mpr (not_lt.1 topBit)
  have decision : unpackMove (stream.drop i) = .fail := by
    rw [AtHeader] at found
    rw [unpackMove, if_neg (by rw [List.length_drop]; omega), if_pos found, if_pos negative]
  exact run_reached stream i reached ran (unpackScanner.run_fail _ decision)

def Robust (buffer spare : List UInt8) : Prop :=
  ∃ messages rest, Delivers (unpack ⟨buffer, spare⟩) messages rest ∧ Framed buffer messages rest

/-- `Unpack` is robust exactly on the buffers in which no header it reaches is followed by a
length whose top bit is set. -/
theorem robust_iff_readable (buffer spare : List UInt8) :
    Robust buffer spare ↔ Readable buffer := by
  constructor
  · intro ⟨messages, rest, delivers, _⟩
    apply readable_of_run
    intro failed
    exact not_delivers_of_run_none buffer spare rest messages failed delivers
  · intro readable
    obtain ⟨messages, rest, scanned⟩ := run_of_readable buffer readable
    obtain ⟨spare', ran⟩ := unpack_spec ⟨buffer, spare⟩ ⟨[], false⟩ messages rest scanned
    exact ⟨messages, rest, ⟨spare', false, ran⟩, framed_of_run buffer rest messages scanned⟩

theorem negative_length_panics : ¬Robust (constHeader ++ [0xff, 0xff, 0xff, 0xff]) [] := by
  intro ⟨messages, rest, delivers, _⟩
  apply not_delivers_of_run_none _ _ rest messages _ delivers
  exact unpackScanner.run_fail _ (by decide)

end DataStructure.Proto
