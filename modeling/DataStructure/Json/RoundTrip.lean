import DataStructure.Json.ParseStore

/-! Printing and parsing back.

`Json` is what a text stands for and `Item.value` what an item does. The text that is printed for an
item, with or without white space, is read as an item of the same value. -/

namespace DataStructure.CJson

open Program Binary64
open CText (ascii)

abbrev CString := { bytes : Text // 0 ∉ bytes }

inductive Json where
  | null
  | bool (b : Bool)
  | number (n : Int32)
  | string (bytes : CString)
  | array (elements : List Json)
  | object (members : List (CString × Json))

def cString : Option Text → Option CString
  | none => none
  | some bytes => if inside : 0 ∉ bytes then some ⟨bytes, inside⟩ else none

mutual

/-- The value of an item whose numbers are integers. -/
def Item.value : Item → Option Json
  | ⟨block, type, isReference, valuestring, valueint, valuedouble, string, child⟩ =>
      match type with
      | .NULL => some .null
      | .False => some (.bool false)
      | .True => some (.bool true)
      | .Number =>
          if isIntValued ⟨block, type, isReference, valuestring, valueint, valuedouble, string, child⟩ then
            some (.number valueint)
          else none
      | .String => (cString (valuestring.map Str.text)).map .string
      | .Array => (values child).map .array
      | .Object => (members child).map .object
termination_by structural item => item

def values : List Item → Option (List Json)
  | [] => some []
  | c :: next =>
      match c.value, values next with
      | some first, some rest => some (first :: rest)
      | _, _ => none
termination_by structural chain => chain

def members : List Item → Option (List (CString × Json))
  | [] => some []
  | c :: next =>
      match cString c.name, c.value, members next with
      | some name, some first, some rest => some ((name, first) :: rest)
      | _, _, _ => none
termination_by structural chain => chain

end

theorem values_congr {xs ys : List Item} (same : List.Forall₂ (fun a b => a.value = b.value) xs ys) :
    values xs = values ys := by
  induction same with
  | nil => rfl
  | cons first _ ih => rw [values, values, first, ih]

theorem members_congr {xs ys : List Item}
    (same : List.Forall₂ (fun a b => a.value = b.value ∧ a.name = b.name) xs ys) :
    members xs = members ys := by
  induction same with
  | nil => rfl
  | cons first _ ih => rw [members, members, first.1, first.2, ih]

theorem values_isSome {chain : List Item} (whole : (values chain).isSome) :
    ∀ c ∈ chain, c.value.isSome := by
  induction chain with
  | nil =>
      intro c inside
      cases inside
  | cons c chain ih =>
      rw [values] at whole
      split at whole
      · next first rest foundFirst foundRest =>
          intro d inside
          rcases List.mem_cons.1 inside with rfl | later
          · rw [foundFirst]
            rfl
          · exact ih (by rw [foundRest]; rfl) d later
      · cases whole

theorem members_isSome {chain : List Item} (whole : (members chain).isSome) :
    ∀ c ∈ chain, c.value.isSome ∧ ∃ name, 0 ∉ name ∧ c.name = some name := by
  induction chain with
  | nil =>
      intro c inside
      cases inside
  | cons c chain ih =>
      rw [members] at whole
      split at whole
      · next name first rest foundName foundFirst foundRest =>
          intro d inside
          rcases List.mem_cons.1 inside with rfl | later
          · refine ⟨by rw [foundFirst]; rfl, ?_⟩
            cases named : d.name with
            | none =>
                rw [named] at foundName
                cases foundName
            | some bytes =>
                refine ⟨bytes, ?_, rfl⟩
                intro zero
                rw [named, cString, dif_neg (not_not.2 zero)] at foundName
                cases foundName
          · exact ih (by rw [foundRest]; rfl) d later
      · cases whole

theorem unescape_letter (c : UInt8) :
    (escapeLetter c).all (fun letter => letter ≠ 117 && unescapeLetter letter = c) = true := by
  revert c
  decide +kernel

theorem hexValue_hexDigit {k : Nat} (small : k < 16) : hexValue (hexDigit k) = some k := by
  revert k
  decide +kernel

theorem parseHex4_unicode (c : UInt8) (more : Text) :
    parseHex4 (48 :: 48 :: hexDigit (c.toNat / 16) :: hexDigit (c.toNat % 16) :: more) = c.toNat := by
  have byte : c.toNat < 256 := c.toNat_lt
  have zero : hexValue 48 = some 0 := by decide
  have high := hexValue_hexDigit (k := c.toNat / 16) (by omega)
  have low := hexValue_hexDigit (k := c.toNat % 16) (by omega)
  simp only [parseHex4, hexLoop, cur, List.headD_cons, List.tail_cons, zero, high, low]
  omega

theorem utf8_ascii {c : UInt8} (small : c.toNat < 128) : utf8 c.toNat = [c] := by
  have length : utf8Length c.toNat = 1 := by
    rw [utf8Length, if_pos small]
  rw [utf8, length]
  simp [utf8Tail, firstByteMark]

theorem small_of_escaped {c : UInt8} (special : ¬(31 < c ∧ c ≠ 34 ∧ c ≠ 92))
    (unlettered : escapeLetter c = none) : c.toNat < 32 := by
  revert c
  decide +kernel

/-- The escape of a byte is read as that byte. -/
theorem unescape_escapeTail {c : UInt8} (nonzero : c ≠ 0) (special : ¬(31 < c ∧ c ≠ 34 ∧ c ≠ 92))
    (more : Text) : unescape (escapeTail c ++ more) = some ([c], more) := by
  rw [escapeTail]
  cases found : escapeLetter c with
  | some letter =>
      have table := unescape_letter c
      rw [found] at table
      simp only [Option.all_some, Bool.and_eq_true, decide_eq_true_eq] at table
      change unescape (letter :: more) = _
      rw [unescape, if_neg table.1, table.2]
  | none =>
      have small := small_of_escaped special found
      have positive : c.toNat ≠ 0 := fun zero => nonzero (UInt8.toNat_inj.1 zero)
      change unescape (117 :: 48 :: 48 :: hexDigit (c.toNat / 16) :: hexDigit (c.toNat % 16) :: more) = _
      rw [unescape, if_pos rfl, unescapeUnicode, if_neg (by simp), parseHex4_unicode]
      dsimp only
      rw [if_neg (by omega), if_neg (by omega), utf8_ascii (by omega)]
      rfl

theorem countString_cons {c : UInt8} (plain : c ≠ 34 ∧ c ≠ 0 ∧ c ≠ 92) {str : Text} {n : Nat}
    (counted : countString str = pure n) : countString (c :: str) = pure (n + 1) := by
  obtain ⟨quote, zero, back⟩ := plain
  cases str with
  | nil =>
      have none : n = 0 := by
        have same := congrArg (fun program => program.run (holding (fun _ _ => true) 0)) counted
        cases same
        rfl
      rw [countString, if_neg (by simp [quote, zero]), if_neg back, none]
  | cons d str =>
      rw [countString, if_neg (by simp [quote, zero]), if_neg back, counted]
      rfl

theorem countString_escape {c : UInt8} (nonzero : c ≠ 0) {more : Text} {n : Nat}
    (counted : countString more = pure n) :
    ∃ k, 1 ≤ k ∧ k ≤ (escape c).length ∧ countString (escape c ++ more) = pure (n + k) := by
  rw [escape]
  split
  · next plain => exact ⟨1, le_rfl, by simp, countString_cons ⟨plain.2.1, nonzero, plain.2.2⟩ counted⟩
  · next special =>
      have behind : ∀ d str m, countString str = pure m → countString (92 :: d :: str) = pure (m + 1) := by
        intro d str m same
        rw [countString, if_neg (by decide), if_pos rfl, same]
        rfl
      rw [escapeTail]
      cases found : escapeLetter c with
      | some letter => exact ⟨1, le_rfl, by simp, behind letter more n counted⟩
      | none =>
          have small := small_of_escaped special found
          have digit : ∀ k < 16, hexDigit k ≠ 34 ∧ hexDigit k ≠ 0 ∧ hexDigit k ≠ 92 :=
            fun k less => hex_plain _ (by rw [hexValue_hexDigit less]; rfl)
          have high := countString_cons (digit (c.toNat % 16) (by omega)) counted
          have low := countString_cons (digit (c.toNat / 16) (by omega)) high
          have zero : (48 : UInt8) ≠ 34 ∧ (48 : UInt8) ≠ 0 ∧ (48 : UInt8) ≠ 92 := by decide
          have zeros := countString_cons zero (countString_cons zero low)
          exact ⟨5, by omega, by simp [unicodeText], behind 117 _ _ zeros⟩

theorem countString_escaped {str : Text} (inside : 0 ∉ str) (more : Text) :
    ∃ n, countString (escaped str ++ 34 :: more) = pure n ∧ str.length ≤ n ∧
      n ≤ (escaped str).length := by
  induction str with
  | nil =>
      refine ⟨0, ?_, le_rfl, le_rfl⟩
      cases more <;> rfl
  | cons c str ih =>
      rw [List.mem_cons, not_or] at inside
      obtain ⟨n, counted, enough, few⟩ := ih inside.2
      have nonzero : c ≠ 0 := Ne.symm inside.1
      obtain ⟨k, one, size, whole⟩ := countString_escape nonzero counted
      rw [escaped, if_neg nonzero, List.append_assoc, List.length_append]
      exact ⟨n + k, whole, by simp; omega, by omega⟩

theorem decodeString_escaped {size : Nat} {str : Text} (inside : 0 ∉ str) (more out : Text)
    (room : out.length + str.length ≤ size) :
    decodeString size (escaped str ++ 34 :: more) out = pure (out ++ str, 34 :: more) := by
  induction str generalizing out with
  | nil =>
      change decodeString size (34 :: more) out = _
      rw [decodeString, if_pos (.inl rfl), List.append_nil]
  | cons c str ih =>
      rw [List.mem_cons, not_or] at inside
      have nonzero : c ≠ 0 := Ne.symm inside.1
      rw [List.length_cons] at room
      have rest := ih inside.2 (out ++ [c]) (by simp; omega)
      have stored : put size out [c] = pure (out ++ [c]) := by
        rw [put, if_pos (by simp; omega)]
      rw [List.append_assoc, List.singleton_append] at rest
      rw [escaped, if_neg nonzero, List.append_assoc, escape]
      split
      · next plain =>
          change decodeString size (c :: (escaped str ++ 34 :: more)) out = _
          rw [decodeString, if_neg (by simp [plain.2.1, nonzero]), if_pos plain.2.2, stored]
          exact rest
      · next special =>
          have read := unescape_escapeTail nonzero special (escaped str ++ 34 :: more)
          change decodeString size (92 :: (escapeTail c ++ (escaped str ++ 34 :: more))) out = _
          rw [decodeString, if_neg (by decide), if_neg (by decide)]
          split
          · next missing =>
              rw [read] at missing
              cases missing
          · next bytes left found =>
              rw [read] at found
              cases found
              rw [stored]
              exact rest

def Stops (more : Text) : Prop :=
  isDigit (cur more) = false ∧ cur more ≠ 46 ∧ cur more ≠ 101 ∧ cur more ≠ 69

theorem isDigit_ascii {c : Char} (digit : c.isDigit) :
    isDigit (UInt8.ofNat c.toNat) = true ∧ (UInt8.ofNat c.toNat).toNat = c.toNat ∧
      48 ≤ c.toNat ∧ c.toNat ≤ 57 := by
  have bounds : 48 ≤ c.toNat ∧ c.toNat ≤ 57 := by
    simpa [Char.isDigit, UInt32.le_iff_toNat_le] using digit
  have same : (UInt8.ofNat c.toNat).toNat = c.toNat := by
    rw [UInt8.toNat_ofNat']
    omega
  refine ⟨?_, same, bounds⟩
  rw [isDigit, decide_eq_true_eq, UInt8.le_iff_toNat_le, UInt8.le_iff_toNat_le, same]
  exact bounds

theorem readDigits_stops {more : Text} (stops : isDigit (cur more) = false) (n : Binary64) :
    readDigits n more = (n, 0, more) := by
  cases more with
  | nil => rfl
  | cons c more =>
      change isDigit c = false at stops
      rw [readDigits, stops]
      rfl

/-- As long as the number is below 2^53 no digit is lost to rounding. -/
theorem readDigits_ascii {digits : List Char} (all : ∀ c ∈ digits, c.isDigit) {more : Text}
    (stops : isDigit (cur more) = false) (n : Nat) (small : Nat.ofDigitChars 10 digits n < 2 ^ 53) :
    readDigits (ofInt n) (ascii digits ++ more) =
      (ofInt (Nat.ofDigitChars 10 digits n : Nat), digits.length, more) := by
  induction digits generalizing n with
  | nil => exact readDigits_stops stops _
  | cons c digits ih =>
      obtain ⟨digit, same, low, high⟩ := isDigit_ascii (all c List.mem_cons_self)
      rw [Nat.ofDigitChars_cons] at small ⊢
      have value : (10 * n + (c.toNat - '0'.toNat)) < 2 ^ 53 := by
        rw [Nat.ofDigitChars_eq_ofDigitChars_zero] at small
        have scale : 1 ≤ 10 ^ digits.length := Nat.one_le_pow _ _ (by norm_num)
        nlinarith
      have next : add (mul (ofInt n) (ofInt 10)) (ofInt ((UInt8.ofNat c.toNat).toNat - 48)) =
          ofInt ((10 * n + (c.toNat - '0'.toNat) : Nat) : Int) := by
        have zero : '0'.toNat = 48 := rfl
        rw [zero] at value ⊢
        rw [same, ofInt_mul (by rw [abs_lt]; omega) (by decide),
          ofInt_add (by rw [abs_lt]; omega) (by rw [abs_lt]; omega)]
        congr 1
        omega
      change readDigits (ofInt n) (UInt8.ofNat c.toNat :: (ascii digits ++ more)) = _
      rw [readDigits, digit, if_pos rfl, next,
        ih (fun d inside => all d (List.mem_cons_of_mem c inside)) _ small]
      rfl

theorem isDigit_toDigits (n : Nat) (more : Text) :
    isDigit (cur (ascii (Nat.toDigits 10 n) ++ more)) = true := by
  cases found : Nat.toDigits 10 n with
  | nil => exact absurd found Nat.toDigits_ne_nil
  | cons c digits =>
      have digit : c.isDigit := by
        apply Nat.isDigit_of_mem_toDigits (by norm_num : 0 < 10) le_rfl (n := n)
        rw [found]
        exact List.mem_cons_self
      exact (isDigit_ascii digit).1

theorem toDigits_head {n : Nat} (positive : 0 < n) :
    ∃ c digits, Nat.toDigits 10 n = c :: digits ∧ c.isDigit ∧ c ≠ '0' := by
  induction n using Nat.strongRecOn with
  | ind n ih =>
      rw [Nat.toDigits_eq_if (by norm_num)]
      split
      · next small =>
          refine ⟨n.digitChar, [], rfl, ?_⟩
          interval_cases n <;> decide
      · next large =>
          obtain ⟨c, digits, found, digit, nonzero⟩ := ih (n / 10) (by omega) (by omega)
          exact ⟨c, digits ++ [(n % 10).digitChar], by rw [found]; rfl, digit, nonzero⟩

theorem readWhole_toDigits {n : Nat} (small : n < 2 ^ 53) {more : Text} (stops : Stops more) :
    readWhole (ascii (Nat.toDigits 10 n) ++ more) = (ofInt n, more) := by
  obtain rfl | positive := Nat.eq_zero_or_pos n
  · have ends : ¬(49 ≤ cur more ∧ cur more ≤ 57) := by
      rintro ⟨low, high⟩
      have digit : isDigit (cur more) = true :=
        decide_eq_true ⟨UInt8.le_trans (by decide : (48 : UInt8) ≤ 49) low, high⟩
      rw [stops.1] at digit
      cases digit
    have zero : cur (48 :: more) = 48 := rfl
    change readWhole (48 :: more) = _
    simp only [readWhole, zero, if_true, List.tail_cons, ends, if_false, Nat.cast_zero]
  · have value : Nat.ofDigitChars 10 (Nat.toDigits 10 n) 0 = n := Nat.ofDigitChars_ten_toDigits
    have read := readDigits_ascii
      (fun c inside => Nat.isDigit_of_mem_toDigits (by norm_num) le_rfl inside) stops.1 0
      (by rwa [value])
    obtain ⟨c, digits, found, digit, nonzero⟩ := toDigits_head positive
    obtain ⟨_, same, low, high⟩ := isDigit_ascii digit
    have first : 49 ≤ UInt8.ofNat c.toNat ∧ UInt8.ofNat c.toNat ≤ 57 := by
      have other : c.toNat ≠ 48 := fun zero => nonzero (Char.toNat_inj.1 zero)
      rw [UInt8.le_iff_toNat_le, UInt8.le_iff_toNat_le, same]
      exact ⟨by change 49 ≤ c.toNat; omega, high⟩
    have notZero : UInt8.ofNat c.toNat ≠ 48 := by
      rintro zero
      rw [zero] at first
      exact absurd first.1 (by decide)
    rw [value, found] at read
    rw [found, readWhole]
    have head : cur (ascii (c :: digits) ++ more) = UInt8.ofNat c.toNat := rfl
    rw [head, if_neg notZero]
    dsimp only
    rw [head, if_pos first, ← Nat.cast_zero, read]

theorem setNumber_ofInt (machine : Machine) (item : Item) (n : Int32) {sign : Int}
    (signed : sign * n.toInt.natAbs = n.toInt) (small : |sign| < 2 ^ 53) :
    setNumber machine item sign (ofInt n.toInt.natAbs) 0 0 =
      { item with type := .Number, valueint := n, valuedouble := ofInt n.toInt } := by
  have low := n.le_toInt
  have high := n.toInt_lt
  have one : machine.pow10 (add (ofInt (-((0 : Nat) : Int))) (ofInt 0)) = ofInt 1 := by
    rw [Nat.cast_zero, neg_zero, ofInt_add (by decide) (by decide)]
    exact machine.pow10_zero
  have times : mul (mul (ofInt sign) (ofInt n.toInt.natAbs)) (ofInt 1) = ofInt n.toInt := by
    rw [ofInt_mul small (by rw [abs_lt]; omega), signed,
      ofInt_mul (by rw [abs_lt]; omega) (by decide), mul_one]
  have back : machine.toInt (ofInt n.toInt) = n := by
    rw [ofInt_eq (by rw [abs_lt]; omega)]
    apply machine.toInt_finite
    rw [Int.ceil_intCast, Int.floor_intCast, ite_self]
  simp only [setNumber, one, times, back]

/-- What `print_number` writes for an `int`, `parse_number` reads. -/
theorem parseNumber_intText (machine : Machine) (item : Item) (n : Int32) {more : Text}
    (stops : Stops more) :
    parseNumber machine item (intText n.toInt ++ more) =
      some ({ item with type := .Number, valueint := n, valuedouble := ofInt n.toInt }, more) := by
  have low := n.le_toInt
  have high := n.toInt_lt
  have whole : readWhole (ascii (Nat.toDigits 10 n.toInt.natAbs) ++ more) =
      (ofInt n.toInt.natAbs, more) := readWhole_toDigits (by omega) stops
  have fraction : ∀ k, readFraction k more = (k, 0, more) := by
    intro k
    rw [readFraction, if_neg (by simp [stops.2.1])]
  have scale : readScale more = some (0, more) := by
    rw [readScale, if_neg (by simp [stops.2.2.1, stops.2.2.2])]
  by_cases negative : n.toInt < 0
  · have text : intText n.toInt ++ more = 45 :: (ascii (Nat.toDigits 10 n.toInt.natAbs) ++ more) := by
      rw [intText, if_pos negative]
      rfl
    have stored := @setNumber_ofInt machine item n (-1) (by omega) (by decide)
    rw [text, parseNumber]
    simp only [cur, List.headD_cons, List.tail_cons, if_true, whole, fraction, scale,
      Option.map_some, stored]
  · have text : intText n.toInt ++ more = ascii (Nat.toDigits 10 n.toInt.natAbs) ++ more := by
      rw [intText, if_neg negative]
      rfl
    have head : cur (ascii (Nat.toDigits 10 n.toInt.natAbs) ++ more) ≠ 45 := by
      intro minus
      have digit := isDigit_toDigits n.toInt.natAbs more
      rw [minus] at digit
      cases digit
    have stored := @setNumber_ofInt machine item n 1 (by omega) (by decide)
    rw [text, parseNumber]
    simp only [head, if_false, whole, fraction, scale, Option.map_some, stored]

theorem sub_self_ofInt (n : Int32) : fabs (sub (ofInt n.toInt) (ofInt n.toInt)) = fabs (ofInt 0) := by
  have low := n.le_toInt
  have high := n.toInt_lt
  rw [ofInt_eq (by rw [abs_lt]; omega : |n.toInt| < 2 ^ 53), sub, neg, add, add_neg_cancel, ofInt,
    Int.cast_zero]

theorem isIntValued_ofInt {item : Item} (same : item.valuedouble = ofInt item.valueint.toInt) :
    isIntValued item = true := by
  have low := item.valueint.le_toInt
  have high := item.valueint.toInt_lt
  have zero : le (fabs (ofInt 0)) dblEpsilon = true := by decide +kernel
  rw [isIntValued, same, sub_self_ofInt, zero, ofInt_le (by rw [abs_lt]; omega) (by decide),
    ofInt_le (by decide) (by rw [abs_lt]; omega), Bool.and_eq_true, Bool.and_eq_true]
  exact ⟨⟨rfl, decide_eq_true (by omega)⟩, decide_eq_true (by omega)⟩

def ReadAs (good : Item → Prop) (more : Text) (s : Env) (result : Item × Option Text) (t : Env) :
    Prop :=
  result.2 = none ∧ s.refused < t.refused ∨
    t.refused = s.refused ∧ result.2 = some more ∧ good result.1

/-- `parse` reads `text` into an item `item` as one that is `good`. -/
def Reads (ready : Item → Prop) (parse : Item → Text → Prog Env (Item × Option Text)) (bound : Nat)
    (text : Text) (good : Item → Item → Prop) : Prop :=
  ∀ item more s, ready item → Stops more → (text ++ more).length < bound →
    wp (parse item (text ++ more)) (ReadAs (good item) more s) s

theorem wp_parseString_text (item : Item) {str : Text} (inside : 0 ∉ str) (more : Text) (s : Env)
    (small : (stringText (some str) ++ more).length < 2 ^ 31) :
    wp (parseString item (stringText (some str) ++ more)) (fun result t =>
      result.2 = none ∧ s.refused < t.refused ∨ t.refused = s.refused ∧
        ∃ block, result =
          ({ item with valuestring := some ⟨block, str⟩, type := .String }, some more)) s := by
  have text : stringText (some str) ++ more = 34 :: (escaped str ++ 34 :: more) := by
    simp [stringText]
  obtain ⟨n, counted, enough, few⟩ := countString_escaped inside more
  rw [text] at small ⊢
  simp only [List.length_cons, List.length_append] at small
  rw [parseString, if_neg (by simp [cur]), List.tail_cons, counted, wp_bind, wp_pure, wp_bind,
    wp_intLen (by omega), wp_bind]
  apply wp_malloc
  · have stored : decodeString (n + 1) (escaped str ++ 34 :: more) [] = pure ([] ++ str, 34 :: more) :=
      decodeString_escaped inside more [] (by simp; omega)
    dsimp only
    rw [stored]
    have closed : put (n + 1) str [0] = pure (str ++ [0]) := by
      rw [put, if_pos (by simp; omega)]
    simp only [wp_bind, wp_pure, List.nil_append, terminate, closed]
    exact .inr ⟨rfl, s.asked, rfl⟩
  · exact .inl ⟨rfl, Nat.lt_succ_self _⟩

def Blank (gap : Text) : Prop := ∀ c ∈ gap, c ≠ 0 ∧ c ≤ 32

theorem skip_append {gap : Text} (blank : Blank gap) (text : Text) : skip (gap ++ text) = skip text := by
  rw [skip, List.dropWhile_append_of_pos (fun c inside => decide_eq_true (blank c inside)), skip]

theorem skip_of_lt {text : Text} (head : 32 < cur text) : skip text = text := by
  cases text with
  | nil => rfl
  | cons c text =>
      change 32 < c at head
      rw [skip, List.dropWhile_cons_of_neg]
      rw [decide_eq_true_eq, not_and]
      exact fun _ => UInt8.not_le.2 head

theorem cur_append {text : Text} (head : 32 < cur text) (more : Text) : cur (text ++ more) = cur text := by
  cases text with
  | nil => exact absurd head (by decide)
  | cons c text => rfl

theorem skip_piece {text : Text} (head : 32 < cur text) (more : Text) :
    skip (text ++ more) = text ++ more :=
  skip_of_lt (by rwa [cur_append head])

theorem blank_nil : Blank [] := fun _ inside => absurd inside List.not_mem_nil

theorem blank_fmtText (fmt : Bool) {gap : Text} (blank : Blank gap) : Blank (fmtText fmt gap) := by
  cases fmt with
  | true => exact blank
  | false => exact blank_nil

def tailText (gap stop : Text) (close : UInt8) (piece : Item → Text) : List Item → Text → Text
  | [], more => stop ++ close :: more
  | c :: next, more => 44 :: (gap ++ (piece c ++ tailText gap stop close piece next more))

section Chains

variable {parse element : Item → Text → Prog Env (Item × Option Text)} {bound : Nat}
  {piece : Item → Text} {good : Item → Item → Prop} {gap stop : Text} {close : UInt8}

/-- `close` is a closing bracket, and the white space is white space. -/
structure Layout (gap stop : Text) (close : UInt8) : Prop where
  gap : Blank gap
  stop : Blank stop
  close : close = 93 ∨ close = 125

structure Pieces (element : Item → Text → Prog Env (Item × Option Text)) (bound : Nat)
    (piece : Item → Text) (good : Item → Item → Prop) (close : UInt8) (chain : List Item) : Prop where
  head : ∀ c ∈ chain, 32 < cur (piece c) ∧ cur (piece c) ≠ close
  reads : ∀ c ∈ chain, Reads IsNew element bound (piece c) fun _ item => good item c

theorem Pieces.tail {c : Item} {next : List Item}
    (pieces : Pieces element bound piece good close (c :: next)) :
    Pieces element bound piece good close next :=
  ⟨fun d inside => pieces.head d (List.mem_cons_of_mem c inside),
    fun d inside => pieces.reads d (List.mem_cons_of_mem c inside)⟩

theorem stops_cons {c : UInt8} (other : c ≤ 32 ∨ c = 44 ∨ c = 93 ∨ c = 125) (more : Text) :
    Stops (c :: more) := by
  change isDigit c = false ∧ c ≠ 46 ∧ c ≠ 101 ∧ c ≠ 69
  revert c
  decide +kernel

theorem Layout.stops (layout : Layout gap stop close) (next : List Item) (more : Text) :
    Stops (tailText gap stop close piece next more) := by
  cases next with
  | nil =>
      rw [tailText]
      cases stop with
      | nil => exact stops_cons (.inr (.inr layout.close)) more
      | cons c stop => exact stops_cons (.inl (layout.stop c List.mem_cons_self).2) _
  | cons c next => exact stops_cons (.inr (.inl rfl)) _

theorem Layout.skip_stop (layout : Layout gap stop close) (more : Text) :
    skip (stop ++ close :: more) = close :: more := by
  rw [skip_append layout.stop]
  apply skip_of_lt
  rcases layout.close with rfl | rfl
  · exact (by decide : (32 : UInt8) < 93)
  · exact (by decide : (32 : UInt8) < 125)

theorem wp_parseRest_text (layout : Layout gap stop close) (next : List Item)
    (pieces : Pieces element bound piece good close next) (more : Text) (fuel : Nat)
    (done : List Item) (s : Env)
    (enough : (skip (tailText gap stop close piece next more)).length < fuel)
    (small : (tailText gap stop close piece next more).length ≤ bound) :
    wp (parseRest element close fuel done (skip (tailText gap stop close piece next more)))
      (fun result t => result.2 = none ∧ s.refused < t.refused ∨ t.refused = s.refused ∧
        result.2 = some more ∧ ∃ new, result.1 = done ++ new ∧ List.Forall₂ good new next) s := by
  induction next generalizing fuel done s with
  | nil =>
      rw [tailText, layout.skip_stop] at enough ⊢
      obtain ⟨fuel, rfl⟩ : ∃ k, fuel = k + 1 := ⟨fuel - 1, by simp at enough; omega⟩
      have other : cur (close :: more) ≠ 44 := by
        rcases layout.close with rfl | rfl
        · exact (by decide : (93 : UInt8) ≠ 44)
        · exact (by decide : (125 : UInt8) ≠ 44)
      rw [parseRest, if_neg other, if_pos (by rfl)]
      exact .inr ⟨rfl, rfl, [], (List.append_nil done).symm, .nil⟩
  | cons c next ih =>
      have comma : skip (tailText gap stop close piece (c :: next) more) =
          44 :: (gap ++ (piece c ++ tailText gap stop close piece next more)) := by
        rw [tailText]
        exact skip_of_lt (by decide : (32 : UInt8) < 44)
      have head := (pieces.head c List.mem_cons_self).1
      have reads := pieces.reads c List.mem_cons_self
      rw [comma] at enough ⊢
      rw [tailText] at small
      simp only [List.length_cons, List.length_append] at enough small
      obtain ⟨fuel, rfl⟩ : ∃ k, fuel = k + 1 := ⟨fuel - 1, by omega⟩
      rw [parseRest, if_pos (by rfl), List.tail_cons, skip_append layout.gap, skip_piece head, wp_bind]
      apply wp_newItem
      · apply wp_seq _ _ _ _ _ (reads (blank s.asked) _ (granted s) ⟨_, rfl⟩ (layout.stops next more)
          (by simp only [List.length_append]; omega))
        rintro ⟨child, rest⟩ t read
        rcases read with ⟨rfl, refused⟩ | ⟨granted, rfl, isGood⟩
        · exact .inl ⟨rfl, refused⟩
        · have shorter := (passes_skip (tailText gap stop close piece next more)).length_le
          apply wp_mono _ _ _ t (ih pieces.tail fuel (done ++ [child]) t (by omega) (by omega))
          rintro ⟨chain, rest⟩ u outcome
          rcases outcome with ⟨none, refused⟩ | ⟨same, ends, new, whole, each⟩
          · exact .inl ⟨none, granted ▸ refused⟩
          · refine .inr ⟨same.trans granted, ends, child :: new, ?_, .cons isGood each⟩
            rw [whole, List.append_assoc, List.singleton_append]
      · exact .inl ⟨rfl, Nat.lt_succ_self _⟩

theorem wp_parseChain_text (layout : Layout gap stop close) {c : Item} {next : List Item}
    (pieces : Pieces element bound piece good close (c :: next)) {lead : Text} (space : Blank lead)
    (item : Item) (bracket : UInt8) (more : Text) (s : Env)
    (small : (bracket :: (lead ++ (piece c ++ tailText gap stop close piece next more))).length ≤ bound) :
    wp (parseChain element close item
      (bracket :: (lead ++ (piece c ++ tailText gap stop close piece next more))))
      (ReadAs (fun result => ∃ chain, result = { item with child := chain } ∧
        List.Forall₂ good chain (c :: next)) more s) s := by
  obtain ⟨head, other⟩ := pieces.head c List.mem_cons_self
  have reads := pieces.reads c List.mem_cons_self
  have start : skip (lead ++ (piece c ++ tailText gap stop close piece next more)) =
      piece c ++ tailText gap stop close piece next more := by
    rw [skip_append space, skip_piece head]
  simp only [List.length_cons, List.length_append] at small
  rw [parseChain, List.tail_cons, start]
  dsimp only
  rw [if_neg (by rwa [cur_append head]), skip_piece head, wp_bind]
  apply wp_newItem
  · apply wp_seq _ _ _ _ _ (reads (blank s.asked) _ (granted s) ⟨_, rfl⟩ (layout.stops next more)
      (by simp only [List.length_append]; omega))
    rintro ⟨child, rest⟩ t read
    rcases read with ⟨rfl, refused⟩ | ⟨granted, rfl, isGood⟩
    · exact .inl ⟨rfl, refused⟩
    · have shorter := (passes_skip (tailText gap stop close piece next more)).length_le
      apply wp_seq _ _ _ _ _ (wp_parseRest_text layout next pieces.tail more _ [child] t
        (by omega) (by omega))
      rintro ⟨chain, rest⟩ u outcome
      rcases outcome with ⟨none, refused⟩ | ⟨same, ends, new, rfl, each⟩
      · exact .inl ⟨none, granted ▸ refused⟩
      · exact .inr ⟨same.trans granted, ends, [child] ++ new, rfl, .cons isGood each⟩
  · exact .inl ⟨rfl, Nat.lt_succ_self _⟩

theorem parseChain_empty (layout : Layout gap stop close) (item : Item) (bracket : UInt8) (more : Text) :
    parseChain element close item (bracket :: (stop ++ close :: more)) = pure (item, some more) := by
  rw [parseChain, List.tail_cons, layout.skip_stop]
  dsimp only
  rw [if_pos (by rfl)]
  rfl

def memberText (depth : Nat) (fmt : Bool) (c : Item) : Text :=
  stringText c.name ++ (58 :: (fmtText fmt [9] ++ c.text depth fmt))

theorem reads_member {c : Item} {depth : Nat} {fmt : Bool} {name : Text} (inside : 0 ∉ name)
    (named : c.name = some name) (head : 32 < cur (c.text depth fmt)) (limit : bound ≤ 2 ^ 31)
    (reads : Reads Fresh parse bound (c.text depth fmt) fun target item =>
      item.value = c.value ∧ item.string = target.string) :
    Reads IsNew (parseMember parse) bound (memberText depth fmt c) fun _ item =>
      item.value = c.value ∧ item.name = c.name := by
  rintro item more s ⟨node, rfl⟩ stops small
  have text : memberText depth fmt c ++ more =
      stringText (some name) ++ (58 :: (fmtText fmt [9] ++ (c.text depth fmt ++ more))) := by
    simp [memberText, named]
  have opens : 32 < cur (stringText (some name)) := (by decide : (32 : UInt8) < 34)
  have quote : skip (stringText (some name) ++ (58 :: (fmtText fmt [9] ++ (c.text depth fmt ++ more)))) =
      stringText (some name) ++ (58 :: (fmtText fmt [9] ++ (c.text depth fmt ++ more))) :=
    skip_piece opens _
  have colon : skip (58 :: (fmtText fmt [9] ++ (c.text depth fmt ++ more))) =
      58 :: (fmtText fmt [9] ++ (c.text depth fmt ++ more)) :=
    skip_of_lt (by decide : (32 : UInt8) < 58)
  have tab : Blank [9] := by
    intro d isTab
    rw [List.mem_singleton.1 isTab]
    decide
  rw [text] at small ⊢
  rw [parseMember, quote]
  apply wp_seq _ _ _ _ _ (wp_parseString_text (blank node) inside _ s (by omega))
  rintro result t read
  rcases read with ⟨none, refused⟩ | ⟨granted, block, rfl⟩
  · obtain ⟨child, rest⟩ := result
    cases none
    exact .inl ⟨rfl, refused⟩
  · dsimp only
    simp only [List.length_append, List.length_cons] at small
    rw [colon, wp_ite, if_neg (by simp [cur]), List.tail_cons, skip_append (blank_fmtText fmt tab),
      skip_piece head]
    apply wp_mono _ _ _ t (reads { blank node with type := .String, string := some ⟨block, name⟩ } more t
      ⟨rfl, rfl, rfl⟩ stops (by simp only [List.length_append]; omega))
    intro result u outcome
    rcases outcome with ⟨none, refused⟩ | ⟨same, ends, value, string⟩
    · exact .inl ⟨none, granted ▸ refused⟩
    · refine .inr ⟨same.trans granted, ends, value, ?_⟩
      rw [Item.name, string, named]
      rfl

end Chains

theorem arrayBody_eq (depth : Nat) (fmt : Bool) (c : Item) (next : List Item) (more : Text) :
    arrayBody fmt (texts (c :: next) depth fmt) ++ 93 :: more =
      c.text depth fmt ++ tailText (fmtText fmt [32]) [] 93 (·.text depth fmt) next more := by
  induction next generalizing c with
  | nil => simp [texts, arrayBody, tailText]
  | cons d next ih =>
      have rest := ih d
      rw [texts] at rest ⊢
      rw [texts, arrayBody, tailText, ← rest]
      simp

theorem objectBody_eq (depth : Nat) (fmt : Bool) (c : Item) (next : List Item) (more : Text) :
    objectBody (depth + 1) fmt (fieldTexts (c :: next) (depth + 1) fmt) ++
        (fmtText fmt (List.replicate depth 9) ++ 125 :: more) =
      fmtText fmt (List.replicate (depth + 1) 9) ++ (memberText (depth + 1) fmt c ++
        tailText (fmtText fmt (10 :: List.replicate (depth + 1) 9))
          (fmtText fmt (10 :: List.replicate depth 9)) 125 (memberText (depth + 1) fmt) next more) := by
  induction next generalizing c with
  | nil => cases fmt <;> simp [fieldTexts, objectBody, tailText, memberText, fmtText]
  | cons d next ih =>
      have rest := ih d
      have gap : fmtText fmt (10 :: List.replicate (depth + 1) 9) =
          fmtText fmt [10] ++ fmtText fmt (List.replicate (depth + 1) 9) := by
        cases fmt <;> rfl
      rw [fieldTexts] at rest ⊢
      rw [fieldTexts, objectBody, tailText]
      nth_rewrite 1 [gap]
      rw [List.append_assoc (fmtText fmt [10]), ← rest]
      simp [memberText]

theorem not_word {c : UInt8} {word value : Text} (other : cur value ≠ c) : ¬(c :: word) <+: value := by
  rintro ⟨rest, rfl⟩
  exact other rfl

theorem ascii_words : ascii "null".toList = [110, 117, 108, 108] ∧
    ascii "false".toList = [102, 97, 108, 115, 101] ∧ ascii "true".toList = [116, 114, 117, 101] := by
  decide +kernel

theorem parseValue_of_head (machine : Machine) (fuel : Nat) (item : Item) {value : Text}
    (head : cur value ≠ 110 ∧ cur value ≠ 102 ∧ cur value ≠ 116) :
    parseValue machine (fuel + 1) item value =
      if cur value = 34 then parseString item value
      else if cur value = 45 || isDigit (cur value) then
        returnNumber (parseNumber machine item value)
      else if cur value = 91 then parseArray (parseValue machine fuel) item value
      else if cur value = 123 then parseObject (parseValue machine fuel) item value
      else do
        setEp (some value)
        return (item, none) := by
  obtain ⟨null, false, true⟩ := ascii_words
  rw [parseValue, null, false, true, if_neg (not_word head.1), if_neg (not_word head.2.1),
    if_neg (not_word head.2.2)]

theorem parseValue_quote (machine : Machine) (fuel : Nat) (item : Item) {value : Text}
    (head : cur value = 34) : parseValue machine (fuel + 1) item value = parseString item value := by
  rw [parseValue_of_head machine fuel item (by rw [head]; decide), if_pos head]

theorem parseValue_bracket (machine : Machine) (fuel : Nat) (item : Item) {value : Text}
    (head : cur value = 91) :
    parseValue machine (fuel + 1) item value = parseArray (parseValue machine fuel) item value := by
  rw [parseValue_of_head machine fuel item (by rw [head]; decide), if_neg (by rw [head]; decide),
    if_neg (by rw [head]; decide), if_pos head]

theorem parseValue_brace (machine : Machine) (fuel : Nat) (item : Item) {value : Text}
    (head : cur value = 123) :
    parseValue machine (fuel + 1) item value = parseObject (parseValue machine fuel) item value := by
  rw [parseValue_of_head machine fuel item (by rw [head]; decide), if_neg (by rw [head]; decide),
    if_neg (by rw [head]; decide), if_neg (by rw [head]; decide), if_pos head]

theorem intText_head (n : Int) (more : Text) :
    cur (intText n ++ more) = 45 ∨ isDigit (cur (intText n ++ more)) = true := by
  rw [intText]
  split
  · exact .inl rfl
  · exact .inr (isDigit_toDigits n.natAbs more)

theorem number_head {c : UInt8} (head : c = 45 ∨ isDigit c = true) :
    32 < c ∧ c ∉ [34, 91, 93, 102, 110, 116, 123] := by
  revert c
  decide +kernel

theorem text_head {item : Item} (whole : item.value.isSome) (depth : Nat) (fmt : Bool) :
    32 < cur (item.text depth fmt) ∧ cur (item.text depth fmt) ≠ 93 := by
  obtain ⟨null, false, true⟩ := ascii_words
  obtain ⟨block, type, isReference, valuestring, valueint, valuedouble, string, child⟩ := item
  cases type with
  | NULL =>
      rw [Item.text, null]
      decide
  | False =>
      rw [Item.text, false]
      decide
  | True =>
      rw [Item.text, true]
      decide
  | Number =>
      rw [Item.value] at whole
      split at whole
      · next int =>
          have head := number_head (intText_head valueint.toInt [])
          rw [List.append_nil] at head
          rw [Item.text, numberText, if_pos int]
          exact ⟨head.1, fun bracket => head.2 (by rw [bracket]; decide)⟩
      · cases whole
  | String =>
      cases valuestring with
      | none => cases whole
      | some str => exact (by decide : (32 : UInt8) < 34 ∧ (34 : UInt8) ≠ 93)
  | Array => exact (by decide : (32 : UInt8) < 91 ∧ (91 : UInt8) ≠ 93)
  | Object =>
      have brace : cur (objectText depth fmt (fieldTexts child (depth + 1) fmt)) = 123 := by
        rw [objectText]
        split <;> rfl
      rw [Item.text, brace]
      decide

theorem blank_tabs (depth : Nat) : Blank (List.replicate depth 9) := by
  intro c inside
  rw [List.eq_of_mem_replicate inside]
  decide

theorem blank_newline (depth : Nat) : Blank (10 :: List.replicate depth 9) := by
  intro c inside
  rcases List.mem_cons.1 inside with rfl | tab
  · decide
  · exact blank_tabs depth c tab

def ReadsItem (parse : Item → Text → Prog Env (Item × Option Text)) (bound depth : Nat) (fmt : Bool)
    (c : Item) : Prop :=
  Reads Fresh parse bound (c.text depth fmt) fun target item =>
    item.value = c.value ∧ item.string = target.string

theorem reads_array {parse : Item → Text → Prog Env (Item × Option Text)} {bound depth : Nat}
    {fmt : Bool} {child : List Item} (whole : ∀ c ∈ child, c.value.isSome)
    (reads : ∀ c ∈ child, ReadsItem parse bound (depth + 1) fmt c) :
    Reads Fresh (parseArray parse) (bound + 1) (arrayText fmt (texts child (depth + 1) fmt))
      fun target item => ∃ chain, item = { target with type := .Array, child := chain } ∧
        values chain = values child := by
  intro target more s fresh stops small
  have space : Blank [32] := by
    intro c inside
    rw [List.mem_singleton.1 inside]
    decide
  have layout : Layout (fmtText fmt [32]) [] 93 :=
    ⟨blank_fmtText fmt space, blank_nil, .inl rfl⟩
  cases child with
  | nil =>
      change wp (parseArray parse target (91 :: ([] ++ 93 :: more))) _ s
      rw [parseArray, if_neg (by simp [cur]), parseChain_empty layout]
      refine .inr ⟨rfl, rfl, [], ?_, rfl⟩
      rw [← fresh.2.2]
  | cons c next =>
      have text : arrayText fmt (texts (c :: next) (depth + 1) fmt) ++ more =
          91 :: ([] ++ (c.text (depth + 1) fmt ++
            tailText (fmtText fmt [32]) [] 93 (·.text (depth + 1) fmt) next more)) := by
        rw [List.nil_append, ← arrayBody_eq, arrayText]
        simp
      have pieces : Pieces parse bound (·.text (depth + 1) fmt) (fun a b => a.value = b.value) 93
          (c :: next) := by
        refine ⟨fun d inside => text_head (whole d inside) (depth + 1) fmt, ?_⟩
        intro d inside item rest t new stops' small'
        apply wp_mono _ _ _ t (reads d inside item rest t new.fresh stops' small')
        intro result u read
        exact read.imp_right fun found => ⟨found.1, found.2.1, found.2.2.1⟩
      rw [text] at small ⊢
      rw [parseArray, if_neg (by simp [cur])]
      apply wp_mono _ _ _ s (wp_parseChain_text layout pieces blank_nil
        { target with type := .Array } 91 more s (by omega))
      intro result t read
      rcases read with none | ⟨same, ends, chain, built, each⟩
      · exact .inl none
      · exact .inr ⟨same, ends, chain, built, values_congr each⟩

theorem reads_object {parse : Item → Text → Prog Env (Item × Option Text)} {bound depth : Nat}
    {fmt : Bool} {child : List Item} (limit : bound ≤ 2 ^ 31)
    (whole : ∀ c ∈ child, c.value.isSome ∧ ∃ name, 0 ∉ name ∧ c.name = some name)
    (reads : ∀ c ∈ child, ReadsItem parse bound (depth + 1) fmt c) :
    Reads Fresh (parseObject parse) (bound + 1) (objectText depth fmt (fieldTexts child (depth + 1) fmt))
      fun target item => ∃ chain, item = { target with type := .Object, child := chain } ∧
        members chain = members child := by
  intro target more s fresh stops small
  cases child with
  | nil =>
      have layout : Layout [] (fmtText fmt (10 :: List.replicate (depth - 1) 9)) 125 :=
        ⟨blank_nil, blank_fmtText fmt (blank_newline _), .inr rfl⟩
      have text : objectText depth fmt (fieldTexts [] (depth + 1) fmt) ++ more =
          123 :: (fmtText fmt (10 :: List.replicate (depth - 1) 9) ++ 125 :: more) := by
        simp [fieldTexts, objectText]
      rw [text, parseObject, if_neg (by simp [cur]), parseChain_empty layout]
      refine .inr ⟨rfl, rfl, [], ?_, rfl⟩
      rw [← fresh.2.2]
  | cons c next =>
      have layout : Layout (fmtText fmt (10 :: List.replicate (depth + 1) 9))
          (fmtText fmt (10 :: List.replicate depth 9)) 125 :=
        ⟨blank_fmtText fmt (blank_newline _), blank_fmtText fmt (blank_newline _), .inr rfl⟩
      have text : objectText depth fmt (fieldTexts (c :: next) (depth + 1) fmt) ++ more =
          123 :: (fmtText fmt (10 :: List.replicate (depth + 1) 9) ++ (memberText (depth + 1) fmt c ++
            tailText (fmtText fmt (10 :: List.replicate (depth + 1) 9))
              (fmtText fmt (10 :: List.replicate depth 9)) 125 (memberText (depth + 1) fmt) next
              more)) := by
        have lead : fmtText fmt (10 :: List.replicate (depth + 1) 9) =
            fmtText fmt [10] ++ fmtText fmt (List.replicate (depth + 1) 9) := by
          cases fmt <;> rfl
        have several : (fieldTexts (c :: next) (depth + 1) fmt).isEmpty = false := by
          rw [fieldTexts]
          rfl
        nth_rewrite 1 [lead]
        rw [List.append_assoc (fmtText fmt [10]), ← objectBody_eq, objectText, several]
        simp
      have pieces : Pieces (parseMember parse) bound (memberText (depth + 1) fmt)
          (fun a b => a.value = b.value ∧ a.name = b.name) 125 (c :: next) := by
        constructor
        · intro d inside
          obtain ⟨_, name, _, named⟩ := whole d inside
          rw [memberText, named]
          exact (by decide : (32 : UInt8) < 34 ∧ (34 : UInt8) ≠ 125)
        · intro d inside
          obtain ⟨some, name, zeroless, named⟩ := whole d inside
          exact reads_member zeroless named (text_head some _ _).1 limit (reads d inside)
      rw [text] at small ⊢
      rw [parseObject, if_neg (by simp [cur])]
      apply wp_mono _ _ _ s (wp_parseChain_text layout pieces (blank_fmtText fmt (blank_newline _))
        { target with type := .Object } 123 more s (by omega))
      intro result t read
      rcases read with none | ⟨same, ends, chain, built, each⟩
      · exact .inl none
      · exact .inr ⟨same, ends, chain, built, members_congr each⟩

/-- Whatever is printed for an item is read as an item of the same value. -/
theorem reads_value (machine : Machine) (item : Item) (whole : item.value.isSome) :
    ∀ (fuel depth : Nat) (fmt : Bool), fuel ≤ 2 ^ 31 →
      ReadsItem (parseValue machine fuel) fuel depth fmt item := by
  induction item using Item.induction with
  | step item below =>
      intro fuel depth fmt limit target more s fresh stops small
      obtain ⟨fuel, rfl⟩ : ∃ k, fuel = k + 1 := ⟨fuel - 1, by omega⟩
      obtain ⟨null, false, true⟩ := ascii_words
      obtain ⟨block, type, isReference, valuestring, valueint, valuedouble, string, child⟩ := item
      change ∀ c ∈ child, _ at below
      cases type with
      | NULL =>
          rw [Item.text, parseValue, if_pos (List.prefix_append _ _), null]
          exact .inr ⟨rfl, rfl, rfl, rfl⟩
      | False =>
          rw [Item.text, parseValue, null, false, if_neg (not_word (by simp [cur])),
            if_pos (List.prefix_append _ _)]
          exact .inr ⟨rfl, rfl, rfl, rfl⟩
      | True =>
          rw [Item.text, parseValue, null, false, true, if_neg (not_word (by simp [cur])),
            if_neg (not_word (by simp [cur])), if_pos (List.prefix_append _ _)]
          exact .inr ⟨rfl, rfl, rfl, rfl⟩
      | Number =>
          rw [Item.value] at whole
          split at whole
          · next int =>
              have head := intText_head valueint.toInt more
              have other := (number_head head).2
              simp only [List.mem_cons, List.not_mem_nil, or_false, not_or] at other
              rw [Item.text, numberText, if_pos int,
                parseValue_of_head machine fuel target ⟨other.2.2.2.2.1, other.2.2.2.1, other.2.2.2.2.2.1⟩,
                if_neg other.1, if_pos (by simpa using head), parseNumber_intText machine target valueint stops]
              refine .inr ⟨rfl, rfl, ?_, rfl⟩
              rw [Item.value, Item.value, if_pos int, if_pos (isIntValued_ofInt rfl)]
          · cases whole
      | String =>
          cases valuestring with
          | none => cases whole
          | some str =>
              have inside : 0 ∉ str.text := by
                intro zero
                rw [Item.value, Option.map_some, cString, dif_neg (not_not.2 zero)] at whole
                cases whole
              change wp (parseValue machine (fuel + 1) target (stringText (some str.text) ++ more)) _ s
              rw [parseValue_quote machine fuel target rfl]
              apply wp_mono _ _ _ s (wp_parseString_text target inside more s (by
                change (stringText (some str.text) ++ more).length < fuel + 1 at small
                omega))
              intro result t read
              rcases read with none | ⟨granted, place, rfl⟩
              · exact .inl none
              · exact .inr ⟨granted, rfl, rfl, rfl⟩
      | Array =>
          have each : ∀ c ∈ child, c.value.isSome := by
            apply values_isSome
            simpa [Item.value] using whole
          have reads := reads_array each fun c inside =>
            below c inside (each c inside) fuel (depth + 1) fmt (by omega)
          change wp (parseValue machine (fuel + 1) target
            (arrayText fmt (texts child (depth + 1) fmt) ++ more)) _ s
          rw [parseValue_bracket machine fuel target rfl]
          apply wp_mono _ _ _ s (reads target more s fresh stops small)
          intro result t read
          rcases read with none | ⟨same, ends, chain, built, equal⟩
          · exact .inl none
          · refine .inr ⟨same, ends, ?_, by rw [built]⟩
            rw [built, Item.value, Item.value, equal]
      | Object =>
          have each : ∀ c ∈ child, c.value.isSome ∧ ∃ name, 0 ∉ name ∧ c.name = some name := by
            apply members_isSome
            simpa [Item.value] using whole
          have reads := reads_object (by omega : fuel ≤ 2 ^ 31) each fun c inside =>
            below c inside (each c inside).1 fuel (depth + 1) fmt (by omega)
          have brace : cur (objectText depth fmt (fieldTexts child (depth + 1) fmt) ++ more) = 123 := by
            rw [objectText]
            split <;> rfl
          change wp (parseValue machine (fuel + 1) target
            (objectText depth fmt (fieldTexts child (depth + 1) fmt) ++ more)) _ s
          rw [parseValue_brace machine fuel target brace]
          apply wp_mono _ _ _ s (reads target more s fresh stops small)
          intro result t read
          rcases read with none | ⟨same, ends, chain, built, equal⟩
          · exact .inl none
          · refine .inr ⟨same, ends, ?_, by rw [built]⟩
            rw [built, Item.value, Item.value, equal]

def Whole (text : Text) : Prop := ∀ more, wellEscaped (text ++ more) = wellEscaped more

theorem whole_nil : Whole [] := fun _ => rfl

theorem whole_cons {c : UInt8} (plain : c ≠ 92) {text : Text} (whole : Whole text) :
    Whole (c :: text) := by
  intro more
  rw [List.cons_append, wellEscaped_cons plain, whole]

theorem Whole.append {front back : Text} (first : Whole front) (second : Whole back) :
    Whole (front ++ back) := by
  intro more
  rw [List.append_assoc, first, second]

theorem whole_plain {text : Text} (plain : ∀ c ∈ text, c ≠ 92) : Whole text := by
  induction text with
  | nil => exact whole_nil
  | cons c text ih =>
      exact whole_cons (plain c List.mem_cons_self)
        (ih fun d inside => plain d (List.mem_cons_of_mem c inside))

theorem whole_fmtText (fmt : Bool) {gap : Text} (blank : Blank gap) : Whole (fmtText fmt gap) := by
  apply whole_plain
  intro c inside
  have small := (blank_fmtText fmt blank c inside).2
  rintro rfl
  exact absurd small (by decide)

theorem whole_escape (c : UInt8) : Whole (escape c) := by
  rw [escape]
  split
  · next plain => exact whole_cons plain.2.2 whole_nil
  · next special =>
      rw [escapeTail]
      intro more
      cases found : escapeLetter c with
      | some letter =>
          have table := unescape_letter c
          rw [found] at table
          simp only [Option.all_some, Bool.and_eq_true, decide_eq_true_eq] at table
          change wellEscaped (92 :: letter :: more) = _
          rw [wellEscaped, if_pos rfl]
          simp [table.1]
      | none =>
          have small := small_of_escaped special found
          have high : (hexValue (hexDigit (c.toNat / 16))).isSome := by
            rw [hexValue_hexDigit (by omega)]
            rfl
          have low : (hexValue (hexDigit (c.toNat % 16))).isSome := by
            rw [hexValue_hexDigit (by omega)]
            rfl
          have zero : (hexValue 48).isSome := by decide
          have digits : hexAhead (48 :: 48 :: hexDigit (c.toNat / 16) :: hexDigit (c.toNat % 16) :: more) =
              true := by
            rw [hexAhead, zero, high, low]
            rfl
          change wellEscaped (92 :: 117 :: 48 :: 48 :: hexDigit (c.toNat / 16) ::
            hexDigit (c.toNat % 16) :: more) = _
          rw [wellEscaped, if_pos rfl, digits, Bool.or_true, Bool.true_and,
            ← (hexAhead_skip digits).2.1]
          rfl

theorem whole_stringText (str : Option Text) : Whole (stringText str) := by
  cases str with
  | none => exact whole_nil
  | some str =>
      have inner : Whole (escaped str) := by
        induction str with
        | nil => exact whole_nil
        | cons c str ih =>
            rw [escaped]
            split
            · exact whole_nil
            · exact (whole_escape c).append ih
      exact whole_cons (by decide) (inner.append (whole_cons (by decide) whole_nil))

theorem numberText_bytes {item : Item} {c : UInt8} (inside : c ∈ numberText item) :
    c ∉ [0, 9, 10, 13, 32, 34, 47, 92] := by
  have letters : ∀ letter : Char, numeral letter = true →
      UInt8.ofNat letter.toNat ∉ [0, 9, 10, 13, 32, 34, 47, 92] := by
    intro letter shown
    rw [numeral, Bool.or_eq_true, decide_eq_true_eq] at shown
    rcases shown with digit | other
    · have isNumber := (isDigit_ascii digit).1
      generalize UInt8.ofNat letter.toNat = c at isNumber
      revert c
      decide +kernel
    · simp only [List.mem_cons, List.not_mem_nil, or_false] at other
      rcases other with rfl | rfl | rfl | rfl | rfl | rfl | rfl | rfl <;> decide
  have shown : ∀ text : List Char, (∀ letter ∈ text, numeral letter = true) → c ∈ ascii text →
      c ∉ [0, 9, 10, 13, 32, 34, 47, 92] := by
    intro text each member
    obtain ⟨letter, found, rfl⟩ := List.mem_map.1 member
    exact letters letter (each letter found)
  rw [numberText] at inside
  split at inside
  · apply shown _ _ inside
    intro letter member
    rcases List.mem_append.1 member with sign | digit
    · split at sign
      · rw [List.mem_singleton.1 sign]
        decide
      · cases sign
    · rw [numeral, Nat.isDigit_of_mem_toDigits (by norm_num) le_rfl digit, Bool.true_or]
  · rw [doubleText] at inside
    split at inside
    · exact shown _ (fun letter => numeral_fixed) inside
    · split at inside
      · exact shown _ (fun letter => numeral_scientific) inside
      · exact shown _ (fun letter => numeral_fixed) inside

theorem whole_array (depth : Nat) (fmt : Bool) {chain : List Item}
    (each : ∀ c ∈ chain, Whole (c.text depth fmt)) : Whole (arrayBody fmt (texts chain depth fmt)) := by
  induction chain with
  | nil => exact whole_nil
  | cons c next ih =>
      have space : Blank [32] := by
        intro d inside
        rw [List.mem_singleton.1 inside]
        decide
      rw [texts, arrayBody]
      apply (each c List.mem_cons_self).append
      refine Whole.append ?_ (ih fun d inside => each d (List.mem_cons_of_mem c inside))
      split
      · exact whole_nil
      · exact whole_cons (by decide) (whole_fmtText fmt space)

theorem whole_object (depth : Nat) (fmt : Bool) {chain : List Item}
    (each : ∀ c ∈ chain, Whole (c.text depth fmt)) :
    Whole (objectBody depth fmt (fieldTexts chain depth fmt)) := by
  induction chain with
  | nil => exact whole_nil
  | cons c next ih =>
      have tab : Blank [9] := blank_tabs 1
      have newline : Blank [10] := blank_newline 0
      have comma : ∀ last : Bool, Whole (if last then [] else [44]) := by
        intro last
        cases last with
        | true => exact whole_nil
        | false => exact whole_cons (by decide) whole_nil
      have rest := ih fun d inside => each d (List.mem_cons_of_mem c inside)
      rw [fieldTexts, objectBody]
      apply (whole_fmtText fmt (blank_tabs depth)).append
      apply (whole_stringText c.name).append
      apply whole_cons (by decide)
      apply (whole_fmtText fmt tab).append
      apply (each c List.mem_cons_self).append
      exact (comma _).append ((whole_fmtText fmt newline).append rest)

theorem whole_text (item : Item) : ∀ depth fmt, Whole (item.text depth fmt) := by
  induction item using Item.induction with
  | step item below =>
      intro depth fmt
      obtain ⟨block, type, isReference, valuestring, valueint, valuedouble, string, child⟩ := item
      change ∀ c ∈ child, _ at below
      cases type with
      | NULL =>
          rw [Item.text]
          exact whole_plain (by decide +kernel)
      | False =>
          rw [Item.text]
          exact whole_plain (by decide +kernel)
      | True =>
          rw [Item.text]
          exact whole_plain (by decide +kernel)
      | Number =>
          apply whole_plain
          rintro c inside rfl
          exact numberText_bytes inside (by decide)
      | String => exact whole_stringText (valuestring.map Str.text)
      | Array =>
          have body := whole_array (depth + 1) fmt fun c inside => below c inside (depth + 1) fmt
          exact whole_cons (by decide) (body.append (whole_cons (by decide) whole_nil))
      | Object =>
          have body := whole_object (depth + 1) fmt fun c inside => below c inside (depth + 1) fmt
          have close : Whole [125] := whole_cons (by decide) whole_nil
          rw [Item.text, objectText]
          split
          · exact whole_cons (by decide) ((whole_fmtText fmt (blank_newline _)).append close)
          · exact whole_cons (by decide) ((whole_fmtText fmt (blank_newline 0)).append
              (body.append ((whole_fmtText fmt (blank_tabs depth)).append close)))

def RoundTrip (item : Item) (s : Env) (result : Option (Item × Text)) (t : Env) : Prop :=
  result = none ∧ s.refused < t.refused ∨
    t.refused = s.refused ∧ ∃ copy, result = some (copy, []) ∧ copy.value = item.value

theorem wp_parseWithOpts_text (machine : Machine) {item : Item} (value : item.value.isSome) (fmt : Bool)
    (s : Env) (small : (item.text 0 fmt).length < 2 ^ 31) :
    wp (parseWithOpts machine (some (item.text 0 fmt)) true) (RoundTrip item s) s := by
  have start : skip (item.text 0 fmt) = item.text 0 fmt := skip_of_lt (text_head value 0 fmt).1
  have well : wellEscaped (item.text 0 fmt) = true := by
    have whole := whole_text item 0 fmt []
    rwa [List.append_nil] at whole
  rw [parseWithOpts, wp_bind]
  apply wp_newItem
  · rw [wp_bind, wp_setEp]
    -- What is read shows that no exponent is too large; the store knows the blocks of what is read.
    have store := parses_value True machine ((item.text 0 fmt).length + 1) (by omega) (blank s.asked)
      (item.text 0 fmt) { granted s with ep := none } ⟨rfl, rfl, rfl⟩ ⟨well, .inl trivial⟩ (by omega)
    have reads := reads_value machine item value ((item.text 0 fmt).length + 1) 0 fmt (by omega)
      (blank s.asked) [] { granted s with ep := none } ⟨rfl, rfl, rfl⟩
      ⟨rfl, by decide, by decide, by decide⟩ (by simp)
    rw [List.append_nil] at reads
    dsimp only
    rw [start]
    apply wp_seq _ _ _ _ _ (wp_and_unless reads store)
    rintro ⟨copy, rest⟩ t ⟨read, _, taken⟩
    have held : t.live = s.live + blocks copy := (trades_new taken).live_eq
    rcases read with ⟨rfl, refused⟩ | ⟨granted, rfl, same, _⟩
    · apply (givesBack_deleteOne copy).wp_then (le_live_of_eq held)
      exact .inl ⟨rfl, refused⟩
    · exact .inr ⟨granted, copy, rfl, same⟩
  · exact .inl ⟨rfl, Nat.lt_succ_self _⟩

theorem wp_parseWithOpts_null (machine : Machine) (requireNullTerminated : Bool) (s : Env) :
    wp (parseWithOpts machine none requireNullTerminated) (fun result t =>
      result = none ∧ s.refused ≤ t.refused) s := by
  rw [parseWithOpts, wp_bind]
  apply wp_newItem
  · rw [wp_bind, wp_setEp]
    have held : ({ granted s with ep := none } : Env).live = s.live + blocks (blank s.asked) := by
      rw [blocks_blank]
      exact granted_live s
    apply (givesBack_deleteOne (blank s.asked)).wp_then (le_live_of_eq held)
    exact ⟨rfl, le_rfl⟩
  · exact ⟨rfl, Nat.le_succ _⟩

/-- The text printed for an item, with white space or without, is parsed to its end as an item of the
same value, unless a request was refused. -/
theorem print_parse_round_trip (machine : Machine) (item : Item) (value : item.value.isSome)
    (fmt : Bool) (s : Env) (small : 2 * (item.text 0 fmt).length + 6 < 2 ^ 31) :
    ∃ result t, ((if fmt then print item else printUnformatted item) >>= fun text =>
        parseWithOpts machine (text.map Str.text) true).run s = .ok (result, t) ∧
      (result = none ∧ s.refused < t.refused ∨
        t.refused = s.refused ∧ ∃ copy, result = some (copy, []) ∧ copy.value = item.value) := by
  have printed : wp (if fmt then print item else printUnformatted item) (Printed (item.text 0 fmt) s) s := by
    have prints := prints_value item 0 fmt small s
    cases fmt with
    | true => exact prints
    | false => exact prints
  apply (wp_iff_run _ (RoundTrip item s) s).1
  apply wp_seq _ _ _ _ _ printed
  rintro text t ⟨_, outcome⟩
  rcases outcome with ⟨block, rfl, _, granted⟩ | ⟨rfl, _, refused⟩
  · apply wp_mono _ _ _ t (wp_parseWithOpts_text machine value fmt t (by omega))
    intro result u read
    rcases read with ⟨none, denied⟩ | ⟨same, found⟩
    · exact .inl ⟨none, granted ▸ denied⟩
    · exact .inr ⟨same.trans granted, found⟩
  · apply wp_mono _ _ _ t (wp_parseWithOpts_null machine true t)
    rintro result u ⟨none, kept⟩
    exact .inl ⟨none, by omega⟩

theorem print_parse_round_trip_sample :
    ∃ result t, ((if true then print sample else printUnformatted sample) >>= fun text =>
        parseWithOpts roundingMachine (text.map Str.text) true).run (holding (fun _ _ => true) 6) =
          .ok (result, t) ∧
      (result = none ∧ 0 < t.refused ∨
        t.refused = 0 ∧ ∃ copy, result = some (copy, []) ∧ copy.value = sample.value) :=
  print_parse_round_trip roundingMachine sample (by decide +kernel) true _ (by decide +kernel)

end DataStructure.CJson
