import DataStructure.Lib.CText

/-! Formatted input as `scanf` and its relatives read it.

A directive of the format takes text from the front of the input. A conversion knows the object
that it stores in: a text that is too long for its array and a number outside the range of its
type have no defined result. -/

namespace DataStructure.Scanf

open CText (isspace)

structure Input where
  rest : List UInt8
  ended : Bool
  deriving DecidableEq, Repr

inductive Value where
  | text (bytes : List UInt8)
  | number (n : Int)
  deriving DecidableEq, Repr

inductive Directive where
  | space
  | skipWord
  | word (size : Nat)
  -- A set of bytes with a width, as `%17[0-9]`, into an array of `size` bytes.
  | oneOf (width : Nat) (accepts : UInt8 → Bool) (size : Nat)
  -- `%d` or `%x` into an object that holds the numbers from `lower` to `upper - 1`.
  | number (base : Nat) (lower upper : Int)

def digitValue (c : UInt8) : Nat :=
  if 48 ≤ c ∧ c ≤ 57 then c.toNat - 48
  else if 65 ≤ c ∧ c ≤ 70 then c.toNat - 55
  else if 97 ≤ c ∧ c ≤ 102 then c.toNat - 87
  else 16

def isDigit (base : Nat) (c : UInt8) : Bool := digitValue c < base

def digitsValue (base : Nat) (digits : List UInt8) : Nat :=
  digits.foldl (fun n c => n * base + digitValue c) 0

/-- Takes the longest text of accepted bytes, up to a width. A byte that stops the text is looked
at, but not one behind the width. -/
def Input.take (s : Input) (width : Nat) (accepts : UInt8 → Bool) : List UInt8 × Input :=
  let taken := (s.rest.take width).takeWhile accepts
  (taken, ⟨s.rest.drop taken.length,
    s.ended || ((s.rest.drop taken.length).isEmpty && taken.length < width)⟩)

def Input.takeAll (s : Input) (accepts : UInt8 → Bool) : List UInt8 × Input :=
  s.take (s.rest.length + 1) accepts

def Input.skipSpace (s : Input) : Input := (s.takeAll (isspace ·.toNat)).2

def Input.sign (s : Input) : Bool × Input :=
  match s.rest with
  | 45 :: rest => (true, { s with rest })
  | 43 :: rest => (false, { s with rest })
  | _ => (false, s)

/-- The `0x` that a number in base 16 may start with. -/
def Input.skipZeroX (s : Input) (base : Nat) : Input :=
  match s.rest with
  | 48 :: x :: rest => if base = 16 ∧ (x = 120 ∨ x = 88) then { s with rest } else s
  | _ => s

inductive Reading where
  | failed (left : Input)
  | undefined
  | read (value : Option Value) (left : Input)

def storeText (size : Nat) (text : List UInt8) (left : Input) : Reading :=
  if text = [] then .failed left
  else if text.length < size then .read (some (.text text)) left
  else .undefined

def Directive.read (s : Input) : Directive → Reading
  | .space => .read none s.skipSpace
  | .skipWord =>
      let (text, left) := s.skipSpace.takeAll (! isspace ·.toNat)
      if text = [] then .failed left else .read none left
  | .word size =>
      let (text, left) := s.skipSpace.takeAll (! isspace ·.toNat)
      storeText size text left
  | .oneOf width accepts size =>
      let (text, left) := s.take width accepts
      storeText size text left
  | .number base lower upper =>
      let (negative, s) := s.skipSpace.sign
      let (digits, left) := (s.skipZeroX base).takeAll (isDigit base)
      let n : Int := if negative then -(digitsValue base digits) else digitsValue base digits
      if digits = [] then .failed left
      else if lower ≤ n ∧ n < upper then .read (some (.number n)) left
      else .undefined

/-- A call with the given format: the values stored and what is left of the input. -/
def scan : List Directive → Input → Option (List Value × Input)
  | [], s => some ([], s)
  | directive :: format, s =>
      match directive.read s with
      | .failed left => some ([], left)
      | .undefined => none
      | .read value left => do
          let (values, left) ← scan format left
          some (value.toList ++ values, left)

section Scan

variable {directive : Directive} {format : List Directive} {s left final : Input}

theorem scan_skip (first : directive.read s = .read none left) :
    scan (directive :: format) s = scan format left := by
  rw [scan, first]
  dsimp only
  cases scan format left <;> rfl

theorem scan_store {value : Value} {values : List Value}
    (first : directive.read s = .read (some value) left)
    (rest : scan format left = some (values, final)) :
    scan (directive :: format) s = some (value :: values, final) := by
  rw [scan, first]
  dsimp only
  rw [rest]
  rfl

end Scan

section Words

variable {text gap rest : List UInt8} {c : UInt8} {ended : Bool}

theorem take_stop {width : Nat} {accepts : UInt8 → Bool} (all : ∀ b ∈ text, accepts b)
    (fits : text.length ≤ width) (stop : accepts c = false) :
    Input.take ⟨text ++ c :: rest, ended⟩ width accepts = (text, ⟨c :: rest, ended⟩) := by
  have taken : ((text ++ c :: rest).take width).takeWhile accepts = text := by
    rw [List.take_append, List.take_of_length_le fits, List.takeWhile_append_of_pos all]
    cases width - text.length with
    | zero => simp
    | succ more => rw [List.take_succ_cons, List.takeWhile_cons_of_neg (by simp [stop]), List.append_nil]
  simp [Input.take, taken]

theorem takeAll_stop {accepts : UInt8 → Bool} (all : ∀ b ∈ text, accepts b)
    (stop : accepts c = false) :
    Input.takeAll ⟨text ++ c :: rest, ended⟩ accepts = (text, ⟨c :: rest, ended⟩) :=
  take_stop all (by simp only [List.length_append]; omega) stop

theorem skipSpace_stop (blank : ∀ b ∈ gap, isspace b.toNat) (stop : isspace c.toNat = false) :
    Input.skipSpace ⟨gap ++ c :: rest, ended⟩ = ⟨c :: rest, ended⟩ := by
  rw [Input.skipSpace, takeAll_stop blank stop]

theorem read_space (blank : ∀ b ∈ gap, isspace b.toNat) (nonempty : text ≠ [])
    (black : ∀ b ∈ text, isspace b.toNat = false) :
    Directive.space.read ⟨gap ++ (text ++ rest), ended⟩ = .read none ⟨text ++ rest, ended⟩ := by
  obtain ⟨first, more, rfl⟩ := List.exists_cons_of_ne_nil nonempty
  rw [Directive.read, List.cons_append, skipSpace_stop blank (black first List.mem_cons_self)]

theorem takeWord (blank : ∀ b ∈ gap, isspace b.toNat) (nonempty : text ≠ [])
    (black : ∀ b ∈ text, isspace b.toNat = false) (stop : isspace c.toNat) :
    (Input.skipSpace ⟨gap ++ (text ++ c :: rest), ended⟩).takeAll (! isspace ·.toNat) =
      (text, ⟨c :: rest, ended⟩) := by
  obtain ⟨first, more, rfl⟩ := List.exists_cons_of_ne_nil nonempty
  rw [List.cons_append, skipSpace_stop blank (black first List.mem_cons_self), ← List.cons_append]
  apply takeAll_stop
  · intro b inside
    simp [black b inside]
  · simp [stop]

theorem read_skipWord_blank (blank : ∀ b ∈ gap, isspace b.toNat) :
    ∃ left, Directive.skipWord.read ⟨gap, ended⟩ = .failed left := by
  have all : gap.takeWhile (isspace ·.toNat) = gap := List.takeWhile_eq_self_iff.mpr blank
  have skipped : (Input.skipSpace ⟨gap, ended⟩).rest = [] := by
    simp [Input.skipSpace, Input.takeAll, Input.take, List.take_of_length_le, all]
  refine ⟨((Input.skipSpace ⟨gap, ended⟩).takeAll (! isspace ·.toNat)).2, ?_⟩
  rw [Directive.read]
  simp [Input.takeAll, Input.take, skipped]

theorem read_skipWord (blank : ∀ b ∈ gap, isspace b.toNat) (nonempty : text ≠ [])
    (black : ∀ b ∈ text, isspace b.toNat = false) (stop : isspace c.toNat) :
    Directive.skipWord.read ⟨gap ++ (text ++ c :: rest), ended⟩ = .read none ⟨c :: rest, ended⟩ := by
  simp only [Directive.read, takeWord blank nonempty black stop, if_neg nonempty]

theorem read_word {size : Nat} (blank : ∀ b ∈ gap, isspace b.toNat) (nonempty : text ≠ [])
    (black : ∀ b ∈ text, isspace b.toNat = false) (fits : text.length < size) (stop : isspace c.toNat) :
    (Directive.word size).read ⟨gap ++ (text ++ c :: rest), ended⟩ =
      .read (some (.text text)) ⟨c :: rest, ended⟩ := by
  simp only [Directive.read, takeWord blank nonempty black stop, storeText, if_neg nonempty,
    if_pos fits]

theorem read_oneOf {width size : Nat} {accepts : UInt8 → Bool} (nonempty : text ≠ [])
    (all : ∀ b ∈ text, accepts b) (short : text.length ≤ width) (fits : text.length < size)
    (stop : accepts c = false) :
    (Directive.oneOf width accepts size).read ⟨text ++ c :: rest, ended⟩ =
      .read (some (.text text)) ⟨c :: rest, ended⟩ := by
  simp only [Directive.read, take_stop all short stop, storeText, if_neg nonempty, if_pos fits]

end Words

theorem digitValue_of_isspace {c : UInt8} (blank : isspace c.toNat) : digitValue c = 16 := by
  revert c
  decide +kernel

theorem not_isspace_of_isDigit {base : Nat} {c : UInt8} (small : base ≤ 16) (digit : isDigit base c) :
    isspace c.toNat = false := by
  by_contra blank
  rw [isDigit, digitValue_of_isspace (by simpa using blank)] at digit
  simp at digit
  omega

theorem digitsValue_lt {base : Nat} {digits : List UInt8} (all : ∀ c ∈ digits, isDigit base c) :
    digitsValue base digits < base ^ digits.length := by
  have bounded (n : Nat) : digits.foldl (fun n c => n * base + digitValue c) n <
      (n + 1) * base ^ digits.length := by
    induction digits generalizing n with
    | nil => simp
    | cons c digits ih =>
        have digit : digitValue c < base := by simpa [isDigit] using all c List.mem_cons_self
        have rest := ih (fun d inside => all d (List.mem_cons_of_mem c inside)) (n * base + digitValue c)
        calc
          _ < (n * base + digitValue c + 1) * base ^ digits.length := rest
          _ ≤ (n * base + base) * base ^ digits.length := Nat.mul_le_mul_right _ (by omega)
          _ = (n + 1) * base ^ (c :: digits).length := by
            rw [List.length_cons, pow_succ]
            ring
  simpa [digitsValue] using bounded 0

section Numbers

variable {gap digits rest : List UInt8} {c : UInt8} {ended : Bool} {base : Nat}

theorem sign_digit (first : digitValue c < 16) :
    Input.sign ⟨c :: rest, ended⟩ = (false, ⟨c :: rest, ended⟩) := by
  rw [Input.sign]
  split
  · next minus =>
      cases (List.cons.inj minus).1
      exact absurd first (by decide)
  · next plus =>
      cases (List.cons.inj plus).1
      exact absurd first (by decide)
  · rfl

theorem skipZeroX_digits (all : ∀ b ∈ digits, digitValue b < 16) (stop : isspace c.toNat) :
    Input.skipZeroX ⟨digits ++ c :: rest, ended⟩ base = ⟨digits ++ c :: rest, ended⟩ := by
  have plain : ∀ x, x ∈ digits ++ [c] → ¬(x = 120 ∨ x = 88) := by
    intro x inside letter
    rcases List.mem_append.mp inside with digit | last
    · have value := all x digit
      rcases letter with rfl | rfl
      · exact absurd value (by decide)
      · exact absurd value (by decide)
    · rw [List.mem_singleton.mp last] at letter
      rcases letter with rfl | rfl
      · exact absurd stop (by decide)
      · exact absurd stop (by decide)
  rw [Input.skipZeroX]
  split
  · next x more front =>
      have second : x ∈ digits ++ [c] := by
        rcases digits with _ | ⟨first, _ | ⟨second, tail⟩⟩
        · cases (List.cons.inj front).1
          exact absurd stop (by decide)
        · rw [(List.cons.inj (List.cons.inj front).2).1.symm]
          simp
        · rw [(List.cons.inj (List.cons.inj front).2).1.symm]
          simp
      rw [if_neg fun letter => plain x second letter.2]
  · rfl

theorem read_number {lower upper : Int} (small : base ≤ 16) (blank : ∀ b ∈ gap, isspace b.toNat)
    (nonempty : digits ≠ []) (all : ∀ b ∈ digits, isDigit base b) (stop : isspace c.toNat)
    (low : lower ≤ 0) (fits : (digitsValue base digits : Int) < upper) :
    (Directive.number base lower upper).read ⟨gap ++ (digits ++ c :: rest), ended⟩ =
      .read (some (.number (digitsValue base digits))) ⟨c :: rest, ended⟩ := by
  have values : ∀ b ∈ digits, digitValue b < 16 := by
    intro b inside
    have digit := all b inside
    rw [isDigit, decide_eq_true_eq] at digit
    omega
  have ends : isDigit base c = false := by
    rw [isDigit, digitValue_of_isspace stop]
    simpa using small
  obtain ⟨first, more, split⟩ := List.exists_cons_of_ne_nil nonempty
  have started : isspace first.toNat = false :=
    not_isspace_of_isDigit small (all first (split ▸ List.mem_cons_self))
  have begins : Input.skipSpace ⟨gap ++ (digits ++ c :: rest), ended⟩ = ⟨digits ++ c :: rest, ended⟩ := by
    rw [split, List.cons_append, skipSpace_stop blank started]
  have unsigned : Input.sign ⟨digits ++ c :: rest, ended⟩ = (false, ⟨digits ++ c :: rest, ended⟩) := by
    rw [split, List.cons_append, sign_digit (values first (split ▸ List.mem_cons_self))]
  simp only [Directive.read, begins, unsigned, skipZeroX_digits values stop, takeAll_stop all ends,
    if_neg nonempty, Bool.false_eq_true, if_false]
  rw [if_pos ⟨by omega, fits⟩]

end Numbers

end DataStructure.Scanf
