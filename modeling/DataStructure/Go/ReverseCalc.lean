import DataStructure.Go.Stack

/-! The reverse Polish calculator of `go/study0507/reverse_calc.go`.

`none` stands for a panic. The numbers of a line are pushed by the spaces behind them, and an
operator prints its result and does not push it. -/

namespace DataStructure.ReverseCalc

open GoStack

def decimal (digits : List Char) : Nat :=
  digits.foldl (fun n c => 10 * n + (c.toNat - '0'.toNat)) 0

/-- `strconv.Atoi` of a string of digits without its error: no digits give 0, and a number that
is too large the largest `int`. -/
def atoi (token : List Char) : Int64 := Int64.ofNat (min (decimal token) (2 ^ 63 - 1))

structure Calc where
  token : List Char
  st : Stack
  printed : List Int64

def popTwo (st : Stack) : Option (Int64 × Int64 × Stack) := do
  let (p, st) ← pop st
  let (q, st) ← pop st
  some (p, q, st)

def operate (s : Calc) (f : Int64 → Int64 → Int64) : Option Calc := do
  let (p, q, st) ← popTwo s.st
  some { s with st := st, printed := s.printed ++ [f p q] }

/-- The cases of the `switch` but for `q`. -/
def char (s : Calc) (c : Char) : Option Calc :=
  if c.isDigit then some { s with token := s.token ++ [c] }
  else if c = ' ' then do
    let st ← push s.st (atoi s.token)
    some { s with st := st, token := [] }
  else if c = '+' then operate s fun p q => p + q
  else if c = '*' then operate s fun p q => p * q
  else if c = '-' then operate s fun p q => q - p
  else some s

/-- The loop over the characters of a line; the flag says that `main` goes on. -/
def line : List Char → Calc → Option (Bool × Calc)
  | [], s => some (true, s)
  | c :: cs, s => if c = 'q' then some (false, s) else do line cs (← char s c)

def lastPrinted (st : Stack) (text : List Char) : Option Int64 := do
  let (_, s) ← line text ⟨[], st, []⟩
  s.printed.getLast?

inductive Op where
  | add
  | sub
  | mul
  deriving DecidableEq

def Op.symbol : Op → Char
  | add => '+'
  | sub => '-'
  | mul => '*'

def Op.apply : Op → Int → Int → Int
  | add, x, y => x + y
  | sub, x, y => x - y
  | mul, x, y => x * y

structure Numeral where
  digits : List Char
  nonempty : digits ≠ []
  digit : ∀ c ∈ digits, c.isDigit = true

inductive Expr where
  | num (n : Numeral)
  | binary (op : Op) (l r : Expr)

def Expr.value : Expr → Int
  | num n => decimal n.digits
  | binary op l r => op.apply l.value r.value

def Expr.tokens : Expr → List (List Char)
  | num n => [n.digits]
  | binary op l r => l.tokens ++ r.tokens ++ [[op.symbol]]

def Expr.text (e : Expr) : List Char := [' '].intercalate e.tokens ++ ['\n']

def Expr.slots : Expr → Nat
  | num _ => 1
  | binary _ l r => max l.slots (r.slots + 1)

def InRange (n : Int) : Prop := -2 ^ 63 ≤ n ∧ n < 2 ^ 63

def Expr.NoOverflow : Expr → Prop
  | num n => InRange (decimal n.digits)
  | binary op l r => l.NoOverflow ∧ r.NoOverflow ∧ InRange (op.apply l.value r.value)

/-- What stands for an operand on the stack: a number, but 0 for the result of an operator. -/
def Expr.kept : Expr → Int
  | num n => decimal n.digits
  | binary _ _ _ => 0

theorem char_digit (s : Calc) (c : Char) (digit : c.isDigit = true) :
    char s c = some { s with token := s.token ++ [c] } := by
  rw [char, if_pos digit]

theorem char_space {s : Calc} {xs : List Int64} (shows : Shows s.st xs) (room : xs.length < 10) :
    ∃ st, char s ' ' = some ⟨[], st, s.printed⟩ ∧ Shows st (atoi s.token :: xs) := by
  obtain ⟨st, pushed, shown⟩ := push_spec shows (atoi s.token) room
  refine ⟨st, ?_, shown⟩
  rw [char, if_neg (by decide), if_pos rfl, pushed]
  rfl

def Op.compute : Op → Int64 → Int64 → Int64
  | add, q, p => p + q
  | sub, q, p => q - p
  | mul, q, p => p * q

theorem operate_spec {s : Calc} {xs : List Int64} {p q : Int64} (f : Int64 → Int64 → Int64)
    (shows : Shows s.st (p :: q :: xs)) :
    ∃ st, operate s f = some ⟨s.token, st, s.printed ++ [f p q]⟩ ∧ Shows st xs := by
  obtain ⟨st, popped, shown⟩ := pop_cons shows
  obtain ⟨st', again, rest⟩ := pop_cons shown
  refine ⟨st', ?_, rest⟩
  rw [operate, popTwo, popped]
  simp only [Option.bind_eq_bind, Option.bind_some, again]

theorem char_symbol {s : Calc} {xs : List Int64} {p q : Int64} (op : Op)
    (shows : Shows s.st (p :: q :: xs)) :
    ∃ st, char s op.symbol = some ⟨s.token, st, s.printed ++ [op.compute q p]⟩ ∧ Shows st xs := by
  cases op with
  | add => exact operate_spec (fun p q => p + q) shows
  | sub => exact operate_spec (fun p q => q - p) shows
  | mul => exact operate_spec (fun p q => p * q) shows

theorem line_cons {c : Char} {s s' : Calc} (goes : c ≠ 'q') (done : char s c = some s')
    (cs : List Char) : line (c :: cs) s = line cs s' := by
  rw [line, if_neg goes, done]
  rfl

theorem line_digits (digits : List Char) (digit : ∀ c ∈ digits, c.isDigit = true) (s : Calc)
    (rest : List Char) :
    line (digits ++ rest) s = line rest { s with token := s.token ++ digits } := by
  induction digits generalizing s with
  | nil => rw [List.nil_append, List.append_nil]
  | cons c digits ih =>
      have here : c.isDigit = true := digit c List.mem_cons_self
      have goes : c ≠ 'q' := by
        intro quit
        rw [quit] at here
        exact absurd here (by decide)
      rw [List.cons_append, line_cons goes (char_digit s c here),
        ih fun d member => digit d (List.mem_cons_of_mem c member)]
      rw [List.append_assoc, List.singleton_append]

def Expr.spaced (e : Expr) : List Char := e.tokens.flatMap (· ++ [' '])

def Expr.pushed : Expr → Int64
  | num n => atoi n.digits
  | binary _ _ _ => 0

theorem Expr.one_le_slots (e : Expr) : 1 ≤ e.slots := by
  cases e with
  | num n => exact le_rfl
  | binary op l r => exact le_trans (Nat.le_add_left 1 r.slots) (le_max_right _ _)

theorem line_spaced (e : Expr) (st : Stack) (printed : List Int64) (xs : List Int64)
    (shows : Shows st xs) (fits : xs.length + e.slots ≤ 10) (rest : List Char) :
    ∃ st' more, line (e.spaced ++ rest) ⟨[], st, printed⟩ = line rest ⟨[], st', printed ++ more⟩ ∧
      Shows st' (e.pushed :: xs) := by
  induction e generalizing st printed xs rest with
  | num n =>
      obtain ⟨st', spaced, shown⟩ :=
        char_space (s := ⟨n.digits, st, printed⟩) shows (by rw [Expr.slots] at fits; omega)
      refine ⟨st', [], ?_, shown⟩
      rw [Expr.spaced, Expr.tokens, List.flatMap_singleton, List.append_assoc,
        line_digits n.digits n.digit, List.nil_append, List.singleton_append,
        line_cons (by decide) spaced, List.append_nil]
  | binary op l r ihl ihr =>
      have slots : max l.slots (r.slots + 1) = (Expr.binary op l r).slots := rfl
      have goes : op.symbol ≠ 'q' := by cases op <;> decide
      obtain ⟨st₁, more₁, ran₁, shown₁⟩ :=
        ihl st printed xs shows (by omega) (r.spaced ++ (op.symbol :: ' ' :: rest))
      obtain ⟨st₂, more₂, ran₂, shown₂⟩ :=
        ihr st₁ (printed ++ more₁) (l.pushed :: xs) shown₁ (by rw [List.length_cons]; omega)
          (op.symbol :: ' ' :: rest)
      obtain ⟨st₃, operated, shown₃⟩ :=
        char_symbol (s := ⟨[], st₂, printed ++ more₁ ++ more₂⟩) op shown₂
      obtain ⟨st₄, spaced, shown₄⟩ :=
        char_space (s := ⟨[], st₃, printed ++ more₁ ++ more₂ ++ [op.compute l.pushed r.pushed]⟩) shown₃
          (by have one := r.one_le_slots; omega)
      refine ⟨st₄, more₁ ++ more₂ ++ [op.compute l.pushed r.pushed], ?_, shown₄⟩
      have split : (Expr.binary op l r).spaced ++ rest =
          l.spaced ++ (r.spaced ++ (op.symbol :: ' ' :: rest)) := by
        simp [Expr.spaced, Expr.tokens]
      rw [split, ran₁, ran₂, line_cons goes operated, line_cons (by decide) spaced]
      simp only [List.append_assoc]

theorem text_binary (op : Op) (l r : Expr) :
    (Expr.binary op l r).text = l.spaced ++ (r.spaced ++ [op.symbol, '\n']) := by
  have joined : ∀ (ts : List (List Char)) (t : List Char),
      [' '].intercalate (ts ++ [t]) = ts.flatMap (· ++ [' ']) ++ t := by
    intro ts t
    induction ts with
    | nil => simp [List.intercalate]
    | cons head tail ih =>
        rw [List.cons_append, List.flatMap_cons, List.append_assoc, ← ih]
        cases tail with
        | nil => simp [List.intercalate]
        | cons next tail => simp [List.intercalate]
  rw [Expr.text, Expr.tokens, joined, List.flatMap_append]
  simp only [Expr.spaced, List.append_assoc, List.singleton_append]

/-- The last number printed is the last operator's result on what was pushed for its operands. -/
theorem lastPrinted_binary (op : Op) (l r : Expr) (st : Stack) (empty : st.i = 0)
    (fits : (Expr.binary op l r).slots ≤ 10) :
    lastPrinted st (Expr.binary op l r).text = some (op.compute l.pushed r.pushed) := by
  have slots : max l.slots (r.slots + 1) = (Expr.binary op l r).slots := rfl
  have goes : op.symbol ≠ 'q' := by cases op <;> decide
  obtain ⟨st₁, more₁, ran₁, shown₁⟩ :=
    line_spaced l st [] [] (shows_nil st empty) (by rw [List.length_nil]; omega)
      (r.spaced ++ [op.symbol, '\n'])
  obtain ⟨st₂, more₂, ran₂, shown₂⟩ :=
    line_spaced r st₁ ([] ++ more₁) [l.pushed] shown₁ (by rw [List.length_singleton]; omega)
      [op.symbol, '\n']
  obtain ⟨st₃, operated, -⟩ := char_symbol (s := ⟨[], st₂, [] ++ more₁ ++ more₂⟩) op shown₂
  rw [lastPrinted, text_binary, ran₁, ran₂, line_cons goes operated, line_cons (by decide) rfl, line]
  exact List.getLast?_concat

theorem atoi_toInt (token : List Char) (small : InRange (decimal token)) :
    (atoi token).toInt = decimal token := by
  have bound : decimal token < 2 ^ 63 := by
    have upper := small.2
    omega
  rw [atoi, Nat.min_eq_left (by omega)]
  exact Int64.toInt_ofNat_of_lt bound

theorem pushed_toInt (e : Expr) (small : e.NoOverflow) : e.pushed.toInt = e.kept := by
  cases e with
  | num n => exact atoi_toInt n.digits small
  | binary op l r => rfl

theorem compute_toInt (op : Op) (x y : Int64) (small : InRange (op.apply x.toInt y.toInt)) :
    (op.compute x y).toInt = op.apply x.toInt y.toInt := by
  have same : ∀ n : Int, InRange n → n.bmod (2 ^ 64) = n := by
    intro n range
    exact Int.bmod_eq_of_le (by have := range.1; omega) (by have := range.2; omega)
  cases op with
  | add =>
      rw [Op.compute, Int64.toInt_add, add_comm]
      exact same _ small
  | sub =>
      rw [Op.compute, Int64.toInt_sub]
      exact same _ small
  | mul =>
      rw [Op.compute, Int64.toInt_mul, mul_comm]
      exact same _ small

theorem kept_range (e : Expr) (small : e.NoOverflow) : 0 ≤ e.kept ∧ e.kept < 2 ^ 63 := by
  cases e with
  | num n => exact ⟨Int.natCast_nonneg _, small.2⟩
  | binary op l r => exact ⟨le_rfl, by norm_num [Expr.kept]⟩

theorem kept_cases (e : Expr) : e.kept = 0 ∨ e.kept = e.value := by
  cases e with
  | num n => exact Or.inr rfl
  | binary op l r => exact Or.inl rfl

/-- The kept operands give no overflow where the operands themselves give none. -/
theorem inRange_kept (op : Op) (l r : Expr) (small : (Expr.binary op l r).NoOverflow) :
    InRange (op.apply l.kept r.kept) := by
  obtain ⟨left, right, result⟩ := small
  have rangeL := kept_range l left
  have rangeR := kept_range r right
  rcases kept_cases l with zero | wholeL
  · rw [zero]
    cases op <;> simp only [Op.apply, InRange] <;> omega
  · rcases kept_cases r with zero | wholeR
    · rw [zero]
      cases op <;> simp only [Op.apply, InRange] <;> omega
    · rw [wholeL, wholeR]
      exact result

/-- The last number printed is the value of the expression exactly when the last operator gives
the same with 0 in the place of each operand that is not a number. -/
theorem lastPrinted_value_iff (op : Op) (l r : Expr) (st : Stack) (empty : st.i = 0)
    (fits : (Expr.binary op l r).slots ≤ 10) (small : (Expr.binary op l r).NoOverflow) :
    (lastPrinted st (Expr.binary op l r).text).map Int64.toInt = some (Expr.binary op l r).value ↔
      op.apply l.kept r.kept = (Expr.binary op l r).value := by
  have left : l.pushed.toInt = l.kept := pushed_toInt l small.1
  have right : r.pushed.toInt = r.kept := pushed_toInt r small.2.1
  have range := inRange_kept op l r small
  rw [← left, ← right] at range
  rw [lastPrinted_binary op l r st empty fits, Option.map_some, compute_toInt op _ _ range, left, right,
    Option.some.injEq]

def Numeral.single (c : Char) (digit : c.isDigit = true) : Numeral :=
  ⟨[c], List.cons_ne_nil c [], by simpa using digit⟩

def difference : Expr := .binary .sub (.num (.single '1' rfl)) (.num (.single '2' rfl))

theorem lastPrinted_difference :
    (difference.slots ≤ 10 ∧ difference.NoOverflow) ∧
      ((lastPrinted zero difference.text).map Int64.toInt = some difference.value ↔
        Op.sub.apply 1 2 = difference.value) := by
  have small : difference.NoOverflow := by
    simp [difference, Numeral.single, Expr.NoOverflow, InRange, decimal, Op.apply, Expr.value]
  exact ⟨⟨by decide, small⟩, lastPrinted_value_iff .sub _ _ zero rfl (by decide) small⟩

/-- `1 2 - 3 *` prints the product of 0 and 3. -/
theorem lastPrinted_nested :
    (lastPrinted zero (Expr.binary .mul difference (.num (.single '3' rfl))).text).map
      Int64.toInt ≠ some (Expr.binary .mul difference (.num (.single '3' rfl))).value := by
  decide +kernel

end DataStructure.ReverseCalc
