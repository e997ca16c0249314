import DataStructure.Lib.CText

/-! The echo handler `Handle` of `go/count/count.go`. -/

namespace DataStructure.Echo

inductive ReadError where
  | eof
  | other
  deriving DecidableEq, Repr

structure Piece where
  bytes : List UInt8
  short : bytes.length ≤ 1024

structure Buf where
  bytes : List UInt8
  size : bytes.length = 1024

def Buf.zeroed : Buf := ⟨List.replicate 1024 0, List.length_replicate⟩

/-- `Read` overwrites the front of `buf` and leaves what is behind it. -/
def Buf.fill (buf : Buf) (piece : Piece) : Buf where
  bytes := piece.bytes ++ buf.bytes.drop piece.bytes.length
  size := by
    have short := piece.short
    rw [List.length_append, List.length_drop, buf.size]
    omega

/-- What the calls of `Read` return in turn; after that there is the end of the stream for ever. -/
abbrev Conn := List (Piece × Option ReadError)

def Conn.read : Conn → Piece × Option ReadError × Conn
  | [] => (⟨[], Nat.zero_le _⟩, some .eof, [])
  | (piece, err) :: conn => (piece, err, conn)

def firstLine (data : List UInt8) : List UInt8 := (List.splitOn 10 data).headD []

/-- The loop: `none` while it is still running, else what is written, if anything is. -/
def handleLoop : Nat → Conn → Buf → List UInt8 → Option (Option (List UInt8))
  | 0, _, _, _ => none
  | fuel + 1, conn, buf, data =>
      let (piece, err, conn) := conn.read
      if err = some .other then some none
      else if 10 ∈ (buf.fill piece).bytes then some (some (firstLine (data ++ piece.bytes)))
      else handleLoop fuel conn (buf.fill piece) (data ++ piece.bytes)

def handle (fuel : Nat) (conn : Conn) : Option (Option (List UInt8)) :=
  handleLoop fuel conn Buf.zeroed []

def sends (pieces : List Piece) : Conn := pieces.map fun piece => (piece, none)

def stream (pieces : List Piece) : List UInt8 := (pieces.map Piece.bytes).flatten

def Echoes (pieces : List Piece) : Prop :=
  ∃ fuel, handle fuel (sends pieces) = some (some ((stream pieces).takeWhile (· ≠ 10)))

theorem firstLine_eq (data rest : List UInt8) (newline : 10 ∈ data) :
    firstLine data = (data ++ rest).takeWhile (· ≠ 10) := by
  obtain ⟨front, back, split, before⟩ := List.eq_append_cons_of_mem newline
  rw [firstLine, split, List.splitOn_append_cons_self_of_not_mem before, List.headD_cons,
    List.append_assoc, List.cons_append, CText.takeWhile_stop before]

theorem mem_fill {buf : Buf} (piece : Piece) (clean : 10 ∉ buf.bytes) :
    10 ∈ (buf.fill piece).bytes ↔ 10 ∈ piece.bytes := by
  have behind : 10 ∉ buf.bytes.drop piece.bytes.length := fun inside => clean (List.mem_of_mem_drop inside)
  rw [Buf.fill, List.mem_append, or_iff_left behind]

/-- Bytes left in `buf` by earlier reads never hold a newline, since the loop ends with the first one. -/
theorem handleLoop_sends (fuel : Nat) (piece : Piece) (pieces : List Piece) {buf : Buf}
    (data : List UInt8) (clean : 10 ∉ buf.bytes) :
    handleLoop (fuel + 1) (sends (piece :: pieces)) buf data =
      if 10 ∈ piece.bytes then some (some (firstLine (data ++ piece.bytes)))
      else handleLoop fuel (sends pieces) (buf.fill piece) (data ++ piece.bytes) := by
  rw [handleLoop, sends, List.map_cons, Conn.read]
  simp only [mem_fill piece clean, reduceCtorEq, if_false]
  rfl

theorem handleLoop_ends {pieces : List Piece} {buf : Buf} (clean : 10 ∉ buf.bytes) (data : List UInt8)
    (newline : 10 ∈ stream pieces) :
    ∃ fuel, handleLoop fuel (sends pieces) buf data =
      some (some ((data ++ stream pieces).takeWhile (· ≠ 10))) := by
  induction pieces generalizing buf data with
  | nil => cases newline
  | cons piece pieces ih =>
      have flat : stream (piece :: pieces) = piece.bytes ++ stream pieces := rfl
      rw [flat] at newline ⊢
      by_cases here : 10 ∈ piece.bytes
      · refine ⟨1, ?_⟩
        rw [handleLoop_sends 0 piece pieces data clean, if_pos here, ← List.append_assoc]
        rw [firstLine_eq _ (stream pieces) (List.mem_append_right data here)]
      · have later : 10 ∈ stream pieces := (List.mem_append.mp newline).resolve_left here
        obtain ⟨fuel, ran⟩ := ih (mt (mem_fill piece clean).1 here) (data ++ piece.bytes) later
        refine ⟨fuel + 1, ?_⟩
        rw [handleLoop_sends fuel piece pieces data clean, if_neg here, ran, List.append_assoc]

/-- Without a newline the loop goes on after the end of the stream. -/
theorem handleLoop_runs (fuel : Nat) {pieces : List Piece} {buf : Buf} (clean : 10 ∉ buf.bytes)
    (data : List UInt8) (absent : 10 ∉ stream pieces) : handleLoop fuel (sends pieces) buf data = none := by
  induction fuel generalizing pieces buf data with
  | zero => rfl
  | succ fuel ih =>
      cases pieces with
      | nil =>
          have nothing : (buf.fill ⟨[], Nat.zero_le _⟩) = buf := rfl
          rw [handleLoop, sends, List.map_nil, Conn.read]
          simp only [nothing, clean, Option.some.injEq, reduceCtorEq, if_false, List.append_nil]
          exact ih clean data absent
      | cons piece pieces =>
          have flat : stream (piece :: pieces) = piece.bytes ++ stream pieces := rfl
          rw [flat, List.mem_append, not_or] at absent
          rw [handleLoop_sends fuel piece pieces data clean, if_neg absent.1]
          exact ih (mt (mem_fill piece clean).1 absent.1) _ absent.2

theorem zeroed_clean : 10 ∉ Buf.zeroed.bytes := by
  intro newline
  exact absurd (List.eq_of_mem_replicate newline) (by decide)

theorem not_echoes {pieces : List Piece} (absent : 10 ∉ stream pieces) : ¬Echoes pieces := by
  intro echoes
  obtain ⟨fuel, ran⟩ := echoes
  rw [handle, handleLoop_runs fuel zeroed_clean [] absent] at ran
  cases ran

/-- `Handle` ends and writes back the bytes before the first newline exactly if the client sends one,
however `Read` cuts the stream. -/
theorem echoes_iff (pieces : List Piece) : Echoes pieces ↔ 10 ∈ stream pieces := by
  constructor
  · intro echoes
    by_contra absent
    exact not_echoes absent echoes
  · intro newline
    exact handleLoop_ends zeroed_clean [] newline

theorem not_echoes_hi : ¬Echoes [⟨[104, 105], by decide⟩] := not_echoes (by decide)

end DataStructure.Echo
