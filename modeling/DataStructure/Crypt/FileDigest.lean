import DataStructure.Crypt.Md5

/-! The digest of a file in `md5sum/calc.c`.

The file is what `read` answers, one call after another: the bytes it delivers, `none` for an
error. When the answers are used up, `read` is at the end of the file and returns 0. -/

namespace DataStructure.FileDigest

open Crypt

def READ_DATA_SIZE : Nat := 1024

def MD5_STR_LEN : Nat := 32

/-- The loop over `read`; the inner `none` is the return after an error. -/
def readLoop (md5 : Context) : List (Option (List UInt8)) → Option (Option Context)
  | [] => do
      let md5 ← md5Update md5 [] 0
      return some md5
  | none :: _ => some none
  | some data :: answers => do
      let md5 ← md5Update md5 data data.length
      if data.length = 0 ∨ data.length < READ_DATA_SIZE then
        return some md5
      else
        readLoop md5 answers

def hexDigit (n : Nat) : UInt8 := if n < 10 then 0x30 + .ofNat n else 0x57 + .ofNat n

def printHex (value : UInt8) : List UInt8 :=
  [hexDigit (value.toNat / 16), hexDigit (value.toNat % 16)]

def printLoop : List UInt8 → Nat → List UInt8 → List UInt8
  | [], _, md5Str => md5Str
  | value :: values, i, md5Str =>
      printLoop values (i + 1) (memcpy md5Str (i * 2) (printHex value ++ [0]) 3)

def computeFileMd5 (opened : Bool) (answers : List (Option (List UInt8))) (md5 : Context)
    (md5Str : List UInt8) : Option (Int × List UInt8) :=
  if opened then do
    match ← readLoop (md5Init md5) answers with
    | none => return (-1, md5Str)
    | some md5 =>
        let value ← md5Final md5
        return (0, (printLoop value 0 md5Str).set MD5_STR_LEN 0)
  else
    some (-1, md5Str)

def hexDigits (bytes : List UInt8) : List UInt8 := bytes.flatMap printHex

theorem hexDigit_injective : ∀ m < 16, ∀ n < 16, hexDigit m = hexDigit n → m = n := by
  decide

theorem printHex_injective (a b : UInt8) (same : printHex a = printHex b) : a = b := by
  have smallA := a.toNat_lt
  have smallB := b.toNat_lt
  simp only [printHex, List.cons.injEq, and_true] at same
  have high := hexDigit_injective _ (by omega) _ (by omega) same.1
  have low := hexDigit_injective _ (by omega) _ (by omega) same.2
  apply UInt8.toNat_inj.1
  omega

theorem hexDigits_injective (xs ys : List UInt8) (same : hexDigits xs = hexDigits ys) : xs = ys := by
  induction xs generalizing ys with
  | nil =>
      cases ys with
      | nil => rfl
      | cons y ys => cases same
  | cons x xs ih =>
      cases ys with
      | nil => cases same
      | cons y ys =>
          have heads : printHex x ++ hexDigits xs = printHex y ++ hexDigits ys := same
          obtain ⟨first, rest⟩ := List.append_inj heads rfl
          rw [printHex_injective x y first, ih ys rest]

/-- Each round overwrites the terminator of the one before it. -/
theorem printLoop_spec (values : List UInt8) (i : Nat) (md5Str : List UInt8)
    (room : (i + values.length) * 2 + 1 ≤ md5Str.length) :
    (printLoop values i md5Str).length = md5Str.length ∧
      (printLoop values i md5Str).take ((i + values.length) * 2) =
        md5Str.take (i * 2) ++ hexDigits values := by
  induction values generalizing i md5Str with
  | nil => simp [printLoop, hexDigits]
  | cons value values ih =>
      rw [List.length_cons] at room
      have three : 3 ≤ (printHex value ++ [0]).length := le_rfl
      have size := memcpy_length md5Str (printHex value ++ [0]) (i * 2) 3 (by omega) three
      have front := take_memcpy md5Str (printHex value ++ [0]) (i * 2) 3 (by omega) three
      obtain ⟨length, digits⟩ := ih (i + 1) (memcpy md5Str (i * 2) (printHex value ++ [0]) 3)
        (by rw [size]; omega)
      have kept : (memcpy md5Str (i * 2) (printHex value ++ [0]) 3).take ((i + 1) * 2) =
          md5Str.take (i * 2) ++ printHex value := by
        have shorter := congrArg (List.take ((i + 1) * 2)) front
        rw [List.take_take, Nat.min_eq_left (by omega)] at shorter
        have all : (printHex value ++ [0]).take 3 = printHex value ++ [0] := rfl
        rw [shorter, all, ← List.append_assoc]
        apply List.take_left'
        rw [List.length_append, List.length_take, Nat.min_eq_left (by omega), printHex]
        simp only [List.length_cons, List.length_nil]
        omega
      rw [printLoop, List.length_cons]
      refine ⟨length.trans size, ?_⟩
      rw [show i + (values.length + 1) = i + 1 + values.length by omega, digits, kept,
        List.append_assoc]
      rfl

theorem digest_length (m : List UInt8) : (Md5.digest m).length = 16 := by
  simp [Md5.digest]

theorem printed (m md5Str : List UInt8) (room : MD5_STR_LEN < md5Str.length) :
    ((printLoop (Md5.digest m) 0 md5Str).set MD5_STR_LEN 0).take (MD5_STR_LEN + 1) =
      hexDigits (Md5.digest m) ++ [0] := by
  have size := digest_length m
  rw [MD5_STR_LEN] at room ⊢
  obtain ⟨length, digits⟩ := printLoop_spec (Md5.digest m) 0 md5Str (by omega)
  rw [size] at digits
  simp only [Nat.zero_add, Nat.zero_mul, List.take_zero, List.nil_append] at digits
  rw [List.take_add_one, List.take_set_of_le le_rfl, List.getElem?_set_self (by omega), digits]
  rfl

/-- What has been read when the loop ends: it takes a short count for the end of the file. -/
def taken : List (List UInt8) → List UInt8
  | [] => []
  | data :: chunks => if data.length < READ_DATA_SIZE then data else data ++ taken chunks

theorem taken_prefix (chunks : List (List UInt8)) : taken chunks <+: chunks.flatten := by
  induction chunks with
  | nil => exact List.prefix_refl []
  | cons data chunks ih =>
      rw [taken, List.flatten_cons]
      split
      · exact List.prefix_append data chunks.flatten
      · exact (List.prefix_append_right_inj data).2 ih

def FullReads (chunks : List (List UInt8)) : Prop :=
  ∀ chunk ∈ chunks.dropLast, chunk.length = READ_DATA_SIZE

theorem taken_eq_flatten_iff (chunks : List (List UInt8))
    (counts : ∀ chunk ∈ chunks, 1 ≤ chunk.length ∧ chunk.length ≤ READ_DATA_SIZE) :
    taken chunks = chunks.flatten ↔ FullReads chunks := by
  induction chunks with
  | nil => simp [taken, FullReads]
  | cons data chunks ih =>
      obtain ⟨_, most⟩ := counts data List.mem_cons_self
      rw [taken, List.flatten_cons]
      cases chunks with
      | nil => simp [taken, FullReads]
      | cons next chunks =>
          have later := ih fun chunk inside => counts chunk (List.mem_cons_of_mem data inside)
          rw [FullReads, List.dropLast_cons_cons, List.forall_mem_cons, ← FullReads, ← later]
          by_cases partly : data.length < READ_DATA_SIZE
          · -- the bytes of the next read are left out
            have some : 1 ≤ next.length := (counts next (by simp)).1
            rw [if_pos partly]
            constructor
            · intro same
              have length := congrArg List.length same
              rw [List.length_append, List.flatten_cons, List.length_append] at length
              omega
            · intro full
              exact absurd full.1 partly.ne
          · rw [if_neg partly, List.append_right_inj]
            exact (and_iff_right (le_antisymm most (not_lt.1 partly))).symm

theorem readLoop_spec (chunks : List (List UInt8)) (md5 : Context) (m : List UInt8)
    (held : Represents md5 m) (short : ∀ chunk ∈ chunks, chunk.length ≤ READ_DATA_SIZE) :
    ∃ md5', readLoop md5 (chunks.map some) = some (some md5') ∧
      Represents md5' (m ++ taken chunks) := by
  induction chunks generalizing md5 m with
  | nil =>
      obtain ⟨next, ran, nextHeld⟩ := md5Update_spec md5 m [] 0 held (by simp) (by decide)
      rw [List.take_nil] at nextHeld
      refine ⟨next, ?_, nextHeld⟩
      rw [List.map_nil, readLoop, ran]
      rfl
  | cons data chunks ih =>
      have few := short data List.mem_cons_self
      rw [READ_DATA_SIZE] at few
      have length : (data.length : Md5.Word).toNat = data.length := by
        rw [BitVec.natCast_eq_ofNat, BitVec.toNat_ofNat]
        omega
      obtain ⟨next, ran, nextHeld⟩ := md5Update_spec md5 m data data.length held length.le (by omega)
      rw [length, List.take_length] at nextHeld
      rw [List.map_cons, readLoop, ran, taken, Option.bind_eq_bind, Option.bind_some]
      by_cases partly : data.length < READ_DATA_SIZE
      · rw [if_pos (.inr partly), if_pos partly]
        exact ⟨next, rfl, nextHeld⟩
      · have whole : ¬(data.length = 0 ∨ data.length < READ_DATA_SIZE) := by
          rw [READ_DATA_SIZE] at partly ⊢
          omega
        rw [if_neg whole, if_neg partly, ← List.append_assoc]
        exact ih next (m ++ data) nextHeld
          fun other inside => short other (List.mem_cons_of_mem data inside)

theorem computeFileMd5_eq (chunks : List (List UInt8)) (md5 : Context) (md5Str : List UInt8)
    (room : md5.buffer.length = 64)
    (short : ∀ chunk ∈ chunks, chunk.length ≤ READ_DATA_SIZE) :
    computeFileMd5 true (chunks.map some) md5 md5Str =
      some (0, (printLoop (Md5.digest (taken chunks)) 0 md5Str).set MD5_STR_LEN 0) := by
  obtain ⟨last, ran, held⟩ := readLoop_spec chunks (md5Init md5) [] (md5Init_represents md5 room) short
  rw [List.nil_append] at held
  rw [computeFileMd5, if_pos rfl, ran]
  simp only [Option.bind_eq_bind, Option.bind_some, md5Final_spec last _ held]
  rfl

/-- The call succeeds and leaves the digits of the digest of `content`, with a terminator. -/
def Digested (chunks : List (List UInt8)) (md5 : Context) (md5Str content : List UInt8) : Prop :=
  ∃ result, computeFileMd5 true (chunks.map some) md5 md5Str = some (0, result) ∧
    result.take (MD5_STR_LEN + 1) = hexDigits (Md5.digest content) ++ [0]

theorem digested_iff_taken (chunks : List (List UInt8)) (md5 : Context) (md5Str content : List UInt8)
    (buffer : md5.buffer.length = 64) (room : MD5_STR_LEN < md5Str.length)
    (short : ∀ chunk ∈ chunks, chunk.length ≤ READ_DATA_SIZE) :
    Digested chunks md5 md5Str content ↔ Md5.digest (taken chunks) = Md5.digest content := by
  have returned := computeFileMd5_eq chunks md5 md5Str buffer short
  have digits := printed (taken chunks) md5Str room
  constructor
  · intro ⟨result, ran, found⟩
    rw [returned] at ran
    obtain rfl := (Prod.mk.inj (Option.some.inj ran)).2
    rw [digits] at found
    exact hexDigits_injective _ _ (List.append_cancel_right found)
  · intro same
    exact ⟨_, returned, by rw [digits, same]⟩

/-- However `read` cuts the content, the digest is right when every read but the last fills the
buffer. Otherwise it is the digest of a part of the content. -/
theorem computeFileMd5_correct (content : List UInt8) (chunks : List (List UInt8))
    (md5 : Context) (md5Str : List UInt8) (buffer : md5.buffer.length = 64)
    (room : MD5_STR_LEN < md5Str.length) (delivers : chunks.flatten = content)
    (counts : ∀ chunk ∈ chunks, 1 ≤ chunk.length ∧ chunk.length ≤ READ_DATA_SIZE) :
    (FullReads chunks → Digested chunks md5 md5Str content) ∧
      (¬FullReads chunks → ∃ front, front <+: content ∧ front ≠ content ∧
        Digested chunks md5 md5Str front) := by
  have digested (front : List UInt8) := digested_iff_taken chunks md5 md5Str front buffer room
    fun chunk inside => (counts chunk inside).2
  have whole := taken_eq_flatten_iff chunks counts
  rw [delivers] at whole
  constructor
  · intro full
    rw [digested, whole.2 full]
  · intro partly
    refine ⟨taken chunks, delivers ▸ taken_prefix chunks, whole.not.2 partly, ?_⟩
    rw [digested]

theorem computeFileMd5_correct_two_reads :
    ¬FullReads [[0x61], [0x62, 0x63, 0x64]] ∧ ∃ front, front <+: [0x61, 0x62, 0x63, 0x64] ∧
      front ≠ [0x61, 0x62, 0x63, 0x64] ∧
      Digested [[0x61], [0x62, 0x63, 0x64]] ⟨0, 0, ⟨0, 0, 0, 0⟩, List.replicate 64 0⟩
        (List.replicate 33 0) front := by
  have partly : ¬FullReads [[0x61], [0x62, 0x63, 0x64]] := by
    intro full
    exact absurd (full [0x61] (by decide)) (by decide)
  exact ⟨partly, (computeFileMd5_correct [0x61, 0x62, 0x63, 0x64] [[0x61], [0x62, 0x63, 0x64]] _ _
    List.length_replicate (by decide) rfl (by decide)).2 partly⟩

theorem md5Chunks_single (md5 : Context) (buffer : md5.buffer.length = 64) (m : List UInt8)
    (short : m.length < 2 ^ 32 - 64) : md5Chunks md5 [m] = some (Md5.digest m) := by
  obtain ⟨last, ran, held⟩ := md5Chunks_spec [m] (md5Init md5) [] (md5Init_represents md5 buffer)
    fun chunk inside => by rwa [List.mem_singleton.1 inside]
  rw [md5Chunks, ran]
  rw [List.nil_append, List.flatten_singleton] at held
  exact md5Final_spec last m held

/-- Two bytes that arrive one by one: only the first is digested. -/
theorem second_read_ignored :
    ¬ Digested [[0x61], [0x62]] ⟨0, 0, ⟨0, 0, 0, 0⟩, List.replicate 64 0⟩ (List.replicate 33 0)
      [0x61, 0x62] := by
  rw [digested_iff_taken _ _ _ _ List.length_replicate (by decide) (by decide)]
  intro same
  have differ : md5Chunks ⟨0, 0, ⟨0, 0, 0, 0⟩, List.replicate 64 0⟩ [[0x61]] ≠
      md5Chunks ⟨0, 0, ⟨0, 0, 0, 0⟩, List.replicate 64 0⟩ [[0x61, 0x62]] := by decide +kernel
  apply differ
  rw [md5Chunks_single _ List.length_replicate _ (by simp),
    md5Chunks_single _ List.length_replicate _ (by simp)]
  exact congrArg some same

end DataStructure.FileDigest
