import DataStructure.Lib.CText

/-! `walkips` of `test/walkips.c`, which prints the addresses of a range `first-last`.

The string is cut in place, so the parts are texts of their own. A store outside `ip` and a number
that is no `int` give `none`. -/

namespace DataStructure.Walkips

open CText

def sameText (a b : List Char) : Bool := a.map Char.toLower = b.map Char.toLower

def printInt : Int → List Char
  | .ofNat n => Nat.toDigits 10 n
  | .negSucc n => '-' :: Nat.toDigits 10 (n + 1)

/-- `sprintf(ip, "%s.%d", start, i)` into `char ip[16]`. -/
def ipText (start : List Char) (i : Int) : Option (List Char) :=
  sprintf 16 (start ++ '.' :: printInt i)

/-- The loop `for (i = start_num; i < end_num; i++)`, with the number of rounds. -/
def emit (start : List Char) : Nat → Int → Option (List (List Char))
  | 0, _ => some []
  | rounds + 1, i => do
      let ip ← ipText start i
      let rest ← emit start rounds (i + 1)
      some (ip :: rest)

def walkRange (start last : List Char) : Option (Int × List (List Char)) :=
  match strrchr start '.', strrchr last '.' with
  | some startLast, some endLast => do
      let startNum ← atoi (start.drop (startLast + 1))
      let endNum ← atoi (last.drop (endLast + 1))
      let low := if startNum > endNum then endNum else startNum
      let high := if startNum > endNum then startNum else endNum
      let emitted ← emit (start.take startLast) (high - low).toNat low
      some (0, emitted)
  | _, _ => some (-2, [])

def walkips (ips : List Char) : Option (Int × List (List Char)) :=
  match strstr ['-'] ips with
  | none => some (0, [])
  | some dash =>
      let start := ips.take (ips.length - dash.length)
      let last := dash.tail
      if sameText start last then some (0, [start]) else walkRange start last

def threePart (x y z : Nat) : List Char :=
  Nat.toDigits 10 x ++ '.' :: (Nat.toDigits 10 y ++ '.' :: Nat.toDigits 10 z)

def address (front : List Char) (k : Nat) : List Char := front ++ '.' :: Nat.toDigits 10 k

theorem mem_threePart {x y z : Nat} {c : Char} (member : c ∈ threePart x y z) :
    c.isDigit ∨ c = '.' := by
  have digit : ∀ n, c ∈ Nat.toDigits 10 n → c.isDigit :=
    fun n inside => Nat.isDigit_of_mem_toDigits (by norm_num) le_rfl inside
  simp only [threePart, List.mem_append, List.mem_cons] at member
  rcases member with first | dot | second | dot | third
  · exact .inl (digit x first)
  · exact .inr dot
  · exact .inl (digit y second)
  · exact .inr dot
  · exact .inl (digit z third)

theorem mem_address {x y z k : Nat} {c : Char} (member : c ∈ address (threePart x y z) k) :
    c.isDigit ∨ c = '.' := by
  simp only [address, List.mem_append, List.mem_cons] at member
  rcases member with front | dot | number
  · exact mem_threePart front
  · exact .inr dot
  · exact .inl (Nat.isDigit_of_mem_toDigits (by norm_num) le_rfl number)

theorem toLower_plain {c : Char} (plain : c.isDigit ∨ c = '.') : c.toLower = c := by
  rcases plain with digit | dot
  · apply Char.toLower_eq_of_not_isUpper
    simp only [Char.isDigit, Char.isUpper, Bool.and_eq_true, decide_eq_true_eq, ge_iff_le,
      UInt32.le_iff_toNat_le] at digit ⊢
    intro upper
    have high : c.val.toNat ≤ 57 := digit.2
    have low : 65 ≤ c.val.toNat := upper.1
    omega
  · subst dot
    decide

theorem dot_not_digit (n : Nat) : '.' ∉ Nat.toDigits 10 n := by
  intro member
  have digit := Nat.isDigit_of_mem_toDigits (by norm_num) le_rfl member
  revert digit
  decide

theorem toDigits_byte {n : Nat} (byte : n ≤ 255) : (Nat.toDigits 10 n).length ≤ 3 :=
  (Nat.length_toDigits_le_iff (by norm_num) (by norm_num)).mpr (by omega)

theorem address_length {x y z k : Nat} (hx : x ≤ 255) (hy : y ≤ 255) (hz : z ≤ 255)
    (hk : k ≤ 255) : (address (threePart x y z) k).length < 16 := by
  have first := toDigits_byte hx
  have second := toDigits_byte hy
  have third := toDigits_byte hz
  have fourth := toDigits_byte hk
  simp only [address, threePart, List.length_append, List.length_cons]
  omega

theorem sameText_address (x y z a b : Nat) :
    sameText (address (threePart x y z) a) (address (threePart x y z) b) = decide (a = b) := by
  have plain : ∀ k, (address (threePart x y z) k).map Char.toLower = address (threePart x y z) k := by
    intro k
    calc
      (address (threePart x y z) k).map Char.toLower = (address (threePart x y z) k).map id :=
        List.map_congr_left fun c member => toLower_plain (mem_address member)
      _ = address (threePart x y z) k := List.map_id _
  rw [sameText, plain, plain]
  by_cases same : a = b
  · simp [same]
  · have differ : address (threePart x y z) a ≠ address (threePart x y z) b := by
      intro equal
      rw [address, address] at equal
      exact same (toDigits_injective (List.cons.inj (List.append_cancel_left equal)).2)
    simp [same, differ]

theorem strstr_dash {front : List Char} (clean : '-' ∉ front) (back : List Char) :
    strstr ['-'] (front ++ '-' :: back) = some ('-' :: back) := by
  rw [strstr_skip '-' [] front _ clean, strstr, if_pos (by simp)]

theorem walkips_split {start : List Char} (clean : '-' ∉ start) (last : List Char) :
    walkips (start ++ '-' :: last) =
      if sameText start last then some (0, [start]) else walkRange start last := by
  have cut : (start ++ '-' :: last).take ((start ++ '-' :: last).length - ('-' :: last).length) =
      start := by
    rw [List.length_append, Nat.add_sub_cancel]
    exact List.take_left
  rw [walkips, strstr_dash clean]
  simp only [cut, List.tail_cons]

theorem emit_addresses {x y z : Nat} (hx : x ≤ 255) (hy : y ≤ 255) (hz : z ≤ 255)
    (rounds low : Nat) (bound : low + rounds ≤ 256) :
    emit (threePart x y z) rounds low =
      some ((List.range' low rounds).map (address (threePart x y z))) := by
  induction rounds generalizing low with
  | zero => rfl
  | succ rounds ih =>
      have printed : ipText (threePart x y z) (low : Int) =
          some (address (threePart x y z) low) := if_pos (address_length hx hy hz (by omega))
      have later := ih (low + 1) (by omega)
      push_cast at later
      rw [emit, printed, List.range'_succ, List.map_cons]
      simp only [Option.bind_eq_bind, Option.bind_some, later]

/-- For two different ends the addresses from the lower end on are printed, without the upper. -/
theorem walkRange_address {x y z a b : Nat} (hx : x ≤ 255) (hy : y ≤ 255) (hz : z ≤ 255)
    (ha : a ≤ 255) (hb : b ≤ 255) :
    walkRange (address (threePart x y z) a) (address (threePart x y z) b) =
      some (0, (List.range' (min a b) (max a b - min a b)).map (address (threePart x y z))) := by
  have dot : ∀ k, strrchr (address (threePart x y z) k) '.' = some (threePart x y z).length :=
    fun k => strrchr_last _ (dot_not_digit k)
  have number : ∀ k, (address (threePart x y z) k).drop ((threePart x y z).length + 1) =
      Nat.toDigits 10 k := by
    intro k
    rw [address, List.drop_append, List.drop_of_length_le (by omega), List.nil_append,
      Nat.add_sub_cancel_left, List.drop_succ_cons, List.drop_zero]
  have low : (if (a : Int) > b then (b : Int) else a) = (min a b : Nat) := by
    split <;> omega
  have high : (if (a : Int) > b then (a : Int) else b) = (max a b : Nat) := by
    split <;> omega
  have rounds : ((max a b : Nat) - (min a b : Nat) : Int).toNat = max a b - min a b := by
    omega
  rw [walkRange, dot, dot]
  simp only [number, atoi_toDigits (by omega : a < 2 ^ 31), atoi_toDigits (by omega : b < 2 ^ 31),
    Option.bind_eq_bind, Option.bind_some, low, high, rounds]
  rw [address, List.take_left, emit_addresses hx hy hz _ _ (by omega)]
  rfl

/-- All addresses of the range are printed exactly if both ends are the same. -/
theorem walkips_range_iff (x y z a b : Nat) (hx : x ≤ 255) (hy : y ≤ 255) (hz : z ≤ 255)
    (ha : a ≤ 255) (hb : b ≤ 255) :
    (∃ result, walkips (address (threePart x y z) a ++ '-' :: address (threePart x y z) b) =
        some (result,
          (List.range' (min a b) (max a b - min a b + 1)).map (address (threePart x y z)))) ↔
      a = b := by
  have clean : '-' ∉ address (threePart x y z) a := by
    intro member
    have plain := mem_address member
    revert plain
    decide
  rw [walkips_split clean, sameText_address]
  by_cases same : a = b
  · subst same
    simp
  · rw [decide_eq_false same, if_neg Bool.false_ne_true, walkRange_address hx hy hz ha hb]
    constructor
    · intro emitted
      obtain ⟨result, equal⟩ := emitted
      have lengths := congrArg (fun out => out.map fun pair => pair.2.length) equal
      simp at lengths
    · intro equal
      exact absurd equal same

theorem walkips_range_single :
    (∃ result, walkips (address (threePart 1 2 3) 4 ++ '-' :: address (threePart 1 2 3) 4) =
        some (result, (List.range' (min 4 4) (max 4 4 - min 4 4 + 1)).map
          (address (threePart 1 2 3)))) ↔ 4 = 4 :=
  walkips_range_iff 1 2 3 4 4 (by decide) (by decide) (by decide) (by decide) (by decide)

theorem walkips_drops_end :
    ¬∃ result, walkips (address (threePart 1 2 3) 4 ++ '-' :: address (threePart 1 2 3) 5) =
      some (result, (List.range' (min 4 5) (max 4 5 - min 4 5 + 1)).map (address (threePart 1 2 3))) := by
  have printed : walkips (address (threePart 1 2 3) 4 ++ '-' :: address (threePart 1 2 3) 5) =
      some (0, [address (threePart 1 2 3) 4]) := by
    decide +kernel
  intro emitted
  obtain ⟨result, equal⟩ := emitted
  rw [printed] at equal
  have lengths := congrArg (fun out => out.map fun pair => pair.2.length) equal
  simp at lengths

end DataStructure.Walkips
