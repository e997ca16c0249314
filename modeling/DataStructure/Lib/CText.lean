import DataStructure.Lib.CInt

/-! Searching in a text and reading it line by line, as `strstr`, `strchr` and `fgets` do, splitting it
at separators, and the numbers that `atoi` reads. -/

namespace DataStructure.CText

variable {α : Type} [DecidableEq α]

theorem takeWhile_stop {stop : α} {text : List α} (clean : stop ∉ text) (rest : List α) :
    (text ++ stop :: rest).takeWhile (· ≠ stop) = text := by
  have front : ∀ c ∈ text, decide (c ≠ stop) = true := by
    intro c inside
    simpa using ne_of_mem_of_not_mem inside clean
  rw [List.takeWhile_append_of_pos front]
  simp

def ascii (text : List Char) : List UInt8 := text.map fun c => UInt8.ofNat c.toNat

/-- `sprintf` into an array of `size` elements, one of them for the terminator. -/
def sprintf {β : Type} (size : Nat) (text : List β) : Option (List β) :=
  if text.length < size then some text else none

omit [DecidableEq α] in
theorem sprintf_eq_some {size : Nat} {text line : List α} :
    sprintf size text = some line ↔ text.length < size ∧ text = line := by
  rw [sprintf]
  split <;> simp [*]

def strstr (pattern : List α) : List α → Option (List α)
  | [] => if pattern = [] then some [] else none
  | c :: text => if pattern <+: c :: text then some (c :: text) else strstr pattern text

/-- A part without the first element of the pattern is skipped. -/
theorem strstr_skip (c : α) (pattern front text : List α) (clean : c ∉ front) :
    strstr (c :: pattern) (front ++ text) = strstr (c :: pattern) text := by
  induction front with
  | nil => rfl
  | cons d front ih =>
      obtain ⟨other, rest⟩ := not_or.1 (mt List.mem_cons.2 clean)
      have missed : ¬c :: pattern <+: d :: (front ++ text) := by
        intro ⟨tail, same⟩
        exact other (List.cons.inj same).1
      rw [List.cons_append, strstr, if_neg missed, ih rest]

theorem strstr_front (c : α) (pattern text : List α) :
    strstr (c :: pattern) (c :: pattern ++ text) = some (c :: pattern ++ text) := by
  rw [List.cons_append, strstr, ← List.cons_append, if_pos (List.prefix_append _ text)]

omit [DecidableEq α] in
/-- A pattern without the element behind `word` is a prefix of `word` alone. -/
theorem prefix_word (pattern word rest : List α) (c : α) (clean : c ∉ pattern) :
    pattern <+: word ++ c :: rest ↔ pattern <+: word := by
  constructor
  · intro front
    rcases Nat.lt_or_ge word.length pattern.length with longer | short
    · have through : word ++ [c] <+: word ++ c :: rest := by
        rw [List.append_cons word c rest]
        exact List.prefix_append (word ++ [c]) rest
      have inside : word ++ [c] <+: pattern :=
        List.prefix_of_prefix_length_le through front (by simpa using longer)
      exact absurd (inside.subset (by simp)) clean
    · exact (List.isPrefix_append_of_length short).1 front
  · intro front
    exact front.trans (List.prefix_append word _)

def strchr (text : List α) (c : α) : Option Nat := text.idxOf? c

def strrchr (text : List α) (c : α) : Option Nat :=
  (text.reverse.idxOf? c).map (text.length - 1 - ·)

theorem strchr_absent {text : List α} {c : α} (absent : c ∉ text) : strchr text c = none :=
  List.idxOf?_eq_none_iff.mpr absent

theorem strchr_first {front : List α} {c : α} (clean : c ∉ front) (back : List α) :
    strchr (front ++ c :: back) c = some front.length := by
  induction front with
  | nil => simp [strchr, List.idxOf?_cons]
  | cons d front ih =>
      obtain ⟨other, rest⟩ := not_or.1 (mt List.mem_cons.2 clean)
      have step := ih rest
      rw [strchr] at step
      simp [strchr, List.idxOf?_cons, step, Ne.symm other]

theorem strrchr_last (front : List α) {c : α} {back : List α} (clean : c ∉ back) :
    strrchr (front ++ c :: back) c = some front.length := by
  have mirrored : (front ++ c :: back).reverse = back.reverse ++ c :: front.reverse := by simp
  have found := strchr_first (mt List.mem_reverse.1 clean) front.reverse
  rw [strchr] at found
  rw [strrchr, mirrored, found, Option.map_some, List.length_reverse, List.length_append,
    List.length_cons]
  congr 1
  omega

/-- What one `fgets` takes: at most `limit` elements, not beyond the first newline. -/
def fgets (newline : α) (limit : Nat) (text : List α) : List α :=
  (text.take limit).takeWhile (· ≠ newline) ++ ((text.take limit).dropWhile (· ≠ newline)).take 1

theorem fgets_length_le (newline : α) (limit : Nat) (text : List α) :
    (fgets newline limit text).length ≤ text.length := by
  have whole := congrArg List.length
    (List.takeWhile_append_dropWhile (p := (· ≠ newline)) (l := text.take limit))
  rw [List.length_append, List.length_take] at whole
  rw [fgets, List.length_append, List.length_take]
  omega

theorem fgets_prefix (newline : α) (limit : Nat) (text : List α) :
    fgets newline limit text <+: text := by
  have front : fgets newline limit text <+: text.take limit := by
    rw [fgets]
    nth_rewrite 3 [← List.takeWhile_append_dropWhile (p := (· ≠ newline)) (l := text.take limit)]
    exact (List.prefix_append_right_inj _).mpr (List.take_prefix 1 _)
  exact front.trans (List.take_prefix limit text)

theorem fgets_eq_nil {newline : α} {limit : Nat} (positive : 0 < limit) {text : List α}
    (nothing : fgets newline limit text = []) : text = [] := by
  rw [fgets, List.append_eq_nil_iff] at nothing
  obtain ⟨front, back⟩ := nothing
  have rest : (text.take limit).dropWhile (· ≠ newline) = [] := by
    simpa using back
  have whole := List.takeWhile_append_dropWhile (p := (· ≠ newline)) (l := text.take limit)
  rw [front, rest, List.append_nil] at whole
  rcases List.take_eq_nil_iff.mp whole.symm with zero | empty
  · omega
  · exact empty

def fgetsAll (newline : α) (limit : Nat) (text : List α) : List (List α) :=
  if 0 < (fgets newline limit text).length then
    fgets newline limit text :: fgetsAll newline limit (text.drop (fgets newline limit text).length)
  else []
termination_by text.length
decreasing_by
  have inside := fgets_length_le newline limit text
  rw [List.length_drop]
  omega

theorem fgetsAll_flatten (newline : α) {limit : Nat} (positive : 0 < limit) (text : List α) :
    (fgetsAll newline limit text).flatten = text := by
  induction text using fgetsAll.induct newline limit with
  | case1 text more ih =>
      obtain ⟨rest, whole⟩ := fgets_prefix newline limit text
      have left : text.drop (fgets newline limit text).length = rest := by
        nth_rewrite 2 [← whole]
        exact List.drop_left
      rw [left] at ih
      rw [fgetsAll, if_pos more, List.flatten_cons, left, ih, whole]
  | case2 text nothing =>
      have empty : fgets newline limit text = [] :=
        List.length_eq_zero_iff.mp (Nat.eq_zero_of_not_pos nothing)
      rw [fgetsAll, if_neg nothing, fgets_eq_nil positive empty]
      rfl

theorem fgets_line (newline : α) (limit : Nat) (line rest : List α) (clean : newline ∉ line)
    (short : line.length < limit) :
    fgets newline limit (line ++ newline :: rest) = line ++ [newline] := by
  have front : ∀ c ∈ line, decide (c ≠ newline) = true := by
    intro c inside
    simpa using ne_of_mem_of_not_mem inside clean
  have read : (line ++ newline :: rest).take limit =
      line ++ newline :: rest.take (limit - line.length - 1) := by
    rw [List.take_append, List.take_of_length_le short.le]
    obtain ⟨more, left⟩ : ∃ more, limit - line.length = more + 1 := ⟨limit - line.length - 1, by omega⟩
    rw [left, List.take_succ_cons]
    rfl
  rw [fgets, read, List.takeWhile_append_of_pos front, List.dropWhile_append_of_pos front]
  simp

theorem fgetsAll_lines (newline : α) (limit : Nat) (lines : List (List α))
    (each : ∀ line ∈ lines, newline ∉ line ∧ line.length < limit) :
    fgetsAll newline limit (lines.map (· ++ [newline])).flatten = lines.map (· ++ [newline]) := by
  induction lines with
  | nil =>
      rw [fgetsAll, if_neg (by simp [fgets])]
      rfl
  | cons line lines ih =>
      obtain ⟨clean, short⟩ := each line List.mem_cons_self
      have first := fgets_line newline limit line (lines.map (· ++ [newline])).flatten clean short
      have text : ((line :: lines).map (· ++ [newline])).flatten =
          line ++ newline :: (lines.map (· ++ [newline])).flatten := by simp
      have later := ih fun other inside => each other (List.mem_cons_of_mem line inside)
      rw [text, fgetsAll, first, if_pos (by simp), List.map_cons,
        List.append_cons line newline (lines.map (· ++ [newline])).flatten, List.drop_left, later]

theorem splitOn_words (blank : α) (word : List α) (words : List (List α))
    (clean : ∀ other ∈ word :: words, blank ∉ other) :
    List.splitOn blank (word ++ words.flatMap fun other => blank :: other) = word :: words := by
  induction words generalizing word with
  | nil =>
      rw [List.flatMap_nil, List.append_nil]
      exact List.splitOn_eq_singleton (clean word List.mem_cons_self)
  | cons next words ih =>
      rw [List.flatMap_cons, List.cons_append,
        List.splitOn_append_cons_self_of_not_mem (clean word List.mem_cons_self),
        ih next fun other inside => clean other (List.mem_cons_of_mem word inside)]

theorem splitOn_lines (newline : α) (lines : List (List α)) (clean : ∀ line ∈ lines, newline ∉ line) :
    List.splitOn newline (lines.map (· ++ [newline])).flatten = lines ++ [[]] := by
  induction lines with
  | nil => rfl
  | cons line lines ih =>
      rw [List.map_cons, List.flatten_cons, List.append_assoc, List.singleton_append,
        List.splitOn_append_cons_self_of_not_mem (clean line List.mem_cons_self),
        ih fun other inside => clean other (List.mem_cons_of_mem line inside)]
      rfl

theorem mem_splitOn (c : α) (text piece : List α) (inside : piece ∈ List.splitOn c text) :
    ∀ d ∈ piece, d ∈ text ∧ d ≠ c := by
  induction text generalizing piece with
  | nil =>
      rw [List.splitOn_nil, List.mem_singleton] at inside
      simp [inside]
  | cons first text ih =>
      have weaken : ∀ other ∈ List.splitOn c text, ∀ d ∈ other, d ∈ first :: text ∧ d ≠ c :=
        fun other member d here => ⟨List.mem_cons_of_mem first (ih other member d here).1,
          (ih other member d here).2⟩
      rw [List.splitOn_cons_eq_if_modifyHead] at inside
      split at inside
      · rcases List.mem_cons.1 inside with rfl | later
        · simp
        · exact weaken piece later
      · next different =>
          cases pieces : List.splitOn c text with
          | nil => exact absurd pieces (List.splitOn_ne_nil c text)
          | cons head tail =>
              rw [pieces] at inside weaken
              rcases List.mem_cons.1 inside with rfl | later
              · intro d here
                rcases List.mem_cons.1 here with rfl | here
                · exact ⟨List.mem_cons_self, by simpa using different⟩
                · exact weaken head List.mem_cons_self d here
              · exact weaken piece (List.mem_cons_of_mem head later)

def isspace (code : Nat) : Bool := code = 32 || (9 ≤ code && code ≤ 13)

/-- The number that the digits at the front stand for; `none` if it is no `int`. -/
def readDigits (negative : Bool) (text : List Char) : Option Int :=
  let value : Int := Nat.ofDigitChars 10 (text.takeWhile Char.isDigit) 0
  CInt.checked (if negative then -value else value)

def atoi (text : List Char) : Option Int :=
  match text.dropWhile (isspace ·.toNat) with
  | '-' :: rest => readDigits true rest
  | '+' :: rest => readDigits false rest
  | rest => readDigits false rest

theorem not_isspace_of_isDigit {c : Char} (digit : c.isDigit) : isspace c.toNat = false := by
  simp only [Char.isDigit, Bool.and_eq_true, decide_eq_true_eq, ge_iff_le, UInt32.le_iff_toNat_le]
    at digit
  have range : 48 ≤ c.toNat := digit.1
  simp [isspace]
  omega

theorem ofDigitChars_lt {text : List Char} (digits : ∀ c ∈ text, c.isDigit) (start : Nat) :
    Nat.ofDigitChars 10 text start < (start + 1) * 10 ^ text.length := by
  induction text generalizing start with
  | nil => simp [Nat.ofDigitChars]
  | cons c text ih =>
      have digit := digits c List.mem_cons_self
      simp only [Char.isDigit, Bool.and_eq_true, decide_eq_true_eq, UInt32.le_iff_toNat_le] at digit
      have small : c.toNat - '0'.toNat ≤ 9 := by
        have upper : c.toNat ≤ 57 := digit.2
        have zero : '0'.toNat = 48 := rfl
        omega
      calc
        Nat.ofDigitChars 10 (c :: text) start =
            Nat.ofDigitChars 10 text (10 * start + (c.toNat - '0'.toNat)) := rfl
        _ < (10 * start + (c.toNat - '0'.toNat) + 1) * 10 ^ text.length :=
          ih (fun d member => digits d (List.mem_cons_of_mem c member)) _
        _ ≤ (10 * (start + 1)) * 10 ^ text.length := Nat.mul_le_mul_right _ (by omega)
        _ = (start + 1) * 10 ^ (c :: text).length := by
          rw [List.length_cons, pow_succ]
          ring

theorem atoi_digits {text : List Char} (digits : ∀ c ∈ text, c.isDigit)
    (small : Nat.ofDigitChars 10 text 0 < 2 ^ 31) :
    atoi text = some (Nat.ofDigitChars 10 text 0 : Int) := by
  have all : text.takeWhile Char.isDigit = text := List.takeWhile_eq_self_iff.mpr digits
  have value : readDigits false text = some (Nat.ofDigitChars 10 text 0 : Int) := by
    rw [readDigits, all]
    exact CInt.checked_eq_some.2 ⟨rfl, by simp only [Bool.false_eq_true, if_false]; omega,
      by simp only [Bool.false_eq_true, if_false]; omega⟩
  rw [atoi]
  cases text with
  | nil => exact value
  | cons c rest =>
      have first := digits c List.mem_cons_self
      rw [List.dropWhile_cons, not_isspace_of_isDigit first, if_neg Bool.false_ne_true]
      split
      · next same =>
          cases (List.cons.inj same).1
          exact absurd first (by decide)
      · next same =>
          cases (List.cons.inj same).1
          exact absurd first (by decide)
      · exact value

theorem toDigits_injective {n m : Nat} (same : Nat.toDigits 10 n = Nat.toDigits 10 m) : n = m := by
  have values := congrArg (Nat.ofDigitChars 10 · 0) same
  simpa only [Nat.ofDigitChars_toDigits (by norm_num : 1 < 10) le_rfl] using values

theorem ascii_injective {xs ys : List Char} (plain : ∀ c ∈ xs, c.toNat < 256)
    (plain' : ∀ c ∈ ys, c.toNat < 256) (same : ascii xs = ascii ys) : xs = ys := by
  induction xs generalizing ys with
  | nil => exact (List.map_eq_nil_iff.1 same.symm).symm
  | cons x xs ih =>
      cases ys with
      | nil => cases same
      | cons y ys =>
          obtain ⟨head, tail⟩ := List.cons.inj same
          have codes := congrArg UInt8.toNat head
          rw [UInt8.toNat_ofNat', UInt8.toNat_ofNat', Nat.mod_eq_of_lt (plain x List.mem_cons_self),
            Nat.mod_eq_of_lt (plain' y List.mem_cons_self)] at codes
          rw [Char.toNat_inj.1 codes, ih (fun c inside => plain c (List.mem_cons_of_mem x inside))
            (fun c inside => plain' c (List.mem_cons_of_mem y inside)) tail]

theorem ascii_toDigits_injective {n m : Nat}
    (same : ascii (Nat.toDigits 10 n) = ascii (Nat.toDigits 10 m)) : n = m := by
  have plain (k : Nat) : ∀ c ∈ Nat.toDigits 10 k, c.toNat < 256 := by
    intro c inside
    have digit := Nat.isDigit_of_mem_toDigits (by norm_num : 0 < 10) le_rfl inside
    simp only [Char.isDigit, Bool.and_eq_true, decide_eq_true_eq, UInt32.le_iff_toNat_le] at digit
    have small : c.toNat ≤ 57 := digit.2
    omega
  exact toDigits_injective (ascii_injective (plain n) (plain m) same)

theorem atoi_toDigits {n : Nat} (small : n < 2 ^ 31) : atoi (Nat.toDigits 10 n) = some (n : Int) := by
  have value : Nat.ofDigitChars 10 (Nat.toDigits 10 n) 0 = n :=
    Nat.ofDigitChars_toDigits (by norm_num) le_rfl
  have digits : ∀ c ∈ Nat.toDigits 10 n, c.isDigit :=
    fun c member => Nat.isDigit_of_mem_toDigits (by norm_num) le_rfl member
  rw [atoi_digits digits (by rw [value]; exact small), value]

end DataStructure.CText
