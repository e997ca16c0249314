import DataStructure.Json.Item
import DataStructure.Json.Print
import DataStructure.Lib.CInt

/-! Parsing of JSON texts into cJSON items.

A pointer into the text is what is left of it. The end of the list is the terminator: a pointer that
passes it is a fault. -/

namespace DataStructure.CJson

open Program Binary64
open CText (ascii)

/-- What the C library and the compiler leave open about `double`: `pow(10.0, ·)`, and the conversion
to `int` of a number that is none. -/
structure Machine where
  pow10 : Binary64 → Binary64
  pow10_zero : pow10 (ofInt 0) = ofInt 1
  toInt : Binary64 → Int32
  -- The fraction is discarded.
  toInt_finite : ∀ q exact (n : Int32), n.toInt = (if q < 0 then ⌈q⌉ else ⌊q⌋) →
    toInt (.finite q exact) = n

def roundedPow10 : Binary64 → Binary64
  | .finite q _ => if q.den = 1 then nearest (10 ^ q.num) else .nan
  | .inf negative => if negative then ofInt 0 else .inf false
  | .nan => .nan

theorem roundedPow10_zero : roundedPow10 (ofInt 0) = ofInt 1 := by
  rw [ofInt_eq (by decide : |(0 : ℤ)| < 2 ^ 53), roundedPow10, if_pos (by rfl), ofInt]
  rfl

def roundingMachine : Machine where
  pow10 := roundedPow10
  pow10_zero := roundedPow10_zero
  toInt
    | .finite q _ => Int32.ofInt (if q < 0 then ⌈q⌉ else ⌊q⌋)
    | _ => Int32.minValue
  toInt_finite := by
    intro q exact n same
    dsimp only
    rw [← same, Int32.ofInt_toInt]

def cur (p : Text) : UInt8 := p.headD 0

def isDigit (c : UInt8) : Bool := decide (48 ≤ c ∧ c ≤ 57)

def skip (p : Text) : Text := p.dropWhile fun c => decide (c ≠ 0 ∧ c ≤ 32)

/-- `do n=(n*10.0)+(*num++ -'0'); while (*num>='0' && *num<='9')` with the number of digits -/
def readDigits (n : Binary64) : Text → Binary64 × Nat × Text
  | [] => (n, 0, [])
  | c :: num =>
      if isDigit c then
        let (value, count, rest) := readDigits (add (mul n (ofInt 10)) (ofInt (c.toNat - 48))) num
        (value, count + 1, rest)
      else (n, 0, c :: num)

/-- `none` where `subscale` does not fit an `int`. -/
def readExponent (subscale : Int) : Text → Option (Int × Text)
  | [] => some (subscale, [])
  | c :: num =>
      if isDigit c then do
        -- `subscale*10` fits where the sum does.
        let subscale ← CInt.checked (subscale * 10 + (c.toNat - 48))
        readExponent subscale num
      else some (subscale, c :: num)

def readWhole (num : Text) : Binary64 × Text :=
  let num := if cur num = 48 then num.tail else num
  if 49 ≤ cur num ∧ cur num ≤ 57 then
    let (n, _, rest) := readDigits (ofInt 0) num
    (n, rest)
  else (ofInt 0, num)

def readFraction (n : Binary64) (num : Text) : Binary64 × Nat × Text :=
  if cur num = 46 && isDigit (cur num.tail) then readDigits n num.tail else (n, 0, num)

/-- `subscale*signsubscale` -/
def readScale (num : Text) : Option (Int × Text) :=
  if cur num = 101 || cur num = 69 then
    let num := num.tail
    if cur num = 45 then (readExponent 0 num.tail).map fun (subscale, rest) => (-subscale, rest)
    else readExponent 0 (if cur num = 43 then num.tail else num)
  else some (0, num)

/-- What is stored for the digits `n`, of which `count` are behind the point. -/
def setNumber (machine : Machine) (item : Item) (sign : Int) (n : Binary64) (count : Nat) (scale : Int) :
    Item :=
  let n := mul (mul (ofInt sign) n) (machine.pow10 (add (ofInt (-count)) (ofInt scale)))
  { item with valuedouble := n, valueint := machine.toInt n, type := .Number }

def parseNumber (machine : Machine) (item : Item) (num : Text) : Option (Item × Text) :=
  let sign := if cur num = 45 then -1 else 1
  let (whole, num) := readWhole (if cur num = 45 then num.tail else num)
  let (n, count, num) := readFraction whole num
  (readScale num).map fun (scale, num) => (setNumber machine item sign n count scale, num)

def returnNumber : Option (Item × Text) → Prog Env (Item × Option Text)
  | none => fault .segv
  | some (item, rest) => pure (item, some rest)

def hexValue (c : UInt8) : Option Nat :=
  if 48 ≤ c ∧ c ≤ 57 then some (c.toNat - 48)
  else if 65 ≤ c ∧ c ≤ 70 then some (c.toNat - 55)
  else if 97 ≤ c ∧ c ≤ 102 then some (c.toNat - 87)
  else none

def hexLoop : Nat → Nat → Text → Nat
  | 0, h, _ => h
  | count + 1, h, str =>
      match hexValue (cur str) with
      | none => 0
      | some digit => hexLoop count (h * 16 + digit) str.tail

def parseHex4 (str : Text) : Nat := hexLoop 4 0 str

def firstByteMark : Nat → Nat
  | 2 => 0xC0
  | 3 => 0xE0
  | 4 => 0xF0
  | _ => 0

/-- The bytes behind the first, and what is left of the character. -/
def utf8Tail : Nat → Nat → Text → Nat × Text
  | 0, uc, bytes => (uc, bytes)
  | count + 1, uc, bytes =>
      utf8Tail count (uc >>> 6) (UInt8.ofNat ((uc ||| 0x80) &&& 0xBF) :: bytes)

def utf8Length (uc : Nat) : Nat :=
  if uc < 0x80 then 1 else if uc < 0x800 then 2 else if uc < 0x10000 then 3 else 4

def utf8 (uc : Nat) : Text :=
  let (first, bytes) := utf8Tail (utf8Length uc - 1) uc []
  UInt8.ofNat (first ||| firstByteMark (utf8Length uc)) :: bytes

/-- The second half of a surrogate pair, `str` being behind the first. -/
def unescapePair (uc : Nat) (str : Text) : Option (Text × Text) :=
  if cur str ≠ 92 ∨ cur str.tail ≠ 117 then some ([], str)
  else if str.length < 6 then none
  else
    let uc2 := parseHex4 (str.drop 2)
    if uc2 < 0xDC00 ∨ 0xDFFF < uc2 then some ([], str.drop 6)
    else some (utf8 (0x10000 + (((uc &&& 0x3FF) <<< 10) ||| (uc2 &&& 0x3FF))), str.drop 6)

def unescapeUnicode (str : Text) : Option (Text × Text) :=
  if str.length < 4 then none
  else
    let uc := parseHex4 str
    if 0xDC00 ≤ uc ∧ uc ≤ 0xDFFF ∨ uc = 0 then some ([], str.drop 4)
    else if 0xD800 ≤ uc ∧ uc ≤ 0xDBFF then unescapePair uc (str.drop 4)
    else some (utf8 uc, str.drop 4)

def unescapeLetter : UInt8 → UInt8
  | 98 => 8
  | 102 => 12
  | 110 => 10
  | 114 => 13
  | 116 => 9
  | c => c

/-- What an escape stands for and what is behind it, `str` being behind the backslash; `none` if the
pointer passes the terminator. -/
def unescape : Text → Option (Text × Text)
  | [] => none
  | c :: str => if c = 117 then unescapeUnicode str else some ([unescapeLetter c], str)

theorem unescapePair_length {uc : Nat} {str bytes rest : Text}
    (found : unescapePair uc str = some (bytes, rest)) : rest.length ≤ str.length := by
  unfold unescapePair at found
  grind

theorem unescapeUnicode_length {str bytes rest : Text}
    (found : unescapeUnicode str = some (bytes, rest)) : rest.length ≤ str.length := by
  unfold unescapeUnicode at found
  have shorter := @unescapePair_length (parseHex4 str) (str.drop 4) bytes rest
  grind

theorem unescape_length {str bytes rest : Text} (found : unescape str = some (bytes, rest)) :
    rest.length < str.length := by
  unfold unescape at found
  have shorter := fun text : Text => @unescapeUnicode_length text bytes rest
  grind

/-- `while (*ptr!='\"' && *ptr && ++len) if (*ptr++ == '\\') ptr++;` -/
def countString : Text → Prog Env Nat
  | [] => pure 0
  | [c] => if c = 34 ∨ c = 0 then pure 0 else if c = 92 then fault .segv else pure 1
  | c :: d :: str =>
      if c = 34 ∨ c = 0 then pure 0
      else if c = 92 then do return (← countString str) + 1
      else do return (← countString (d :: str)) + 1

def decodeString (size : Nat) (ptr out : Text) : Prog Env (Text × Text) :=
  match ptr with
  | [] => pure (out, [])
  | c :: str =>
      if c = 34 ∨ c = 0 then pure (out, c :: str)
      else if c ≠ 92 then do
        let out ← put size out [c]
        decodeString size str out
      else
        match _found : unescape str with
        | none => fault .segv
        | some (bytes, rest) => do
            let out ← put size out bytes
            decodeString size rest out
termination_by ptr.length
decreasing_by
  · simp
  · have shorter := unescape_length _found
    simp
    omega

def parseString (item : Item) (str : Text) : Prog Env (Item × Option Text) :=
  if cur str ≠ 34 then do
    setEp (some str)
    return (item, none)
  else do
    let len ← countString str.tail
    let size ← intLen (len + 1)
    match ← malloc size with
    | none => return (item, none)
    | some block =>
        let (out, ptr) ← decodeString size str.tail []
        terminate size out
        let ptr := if cur ptr = 34 then ptr.tail else ptr
        return ({ item with valuestring := some ⟨block, out⟩, type := .String }, some ptr)

section Chains

-- `parse` is `parse_value`, which these functions call for what is inside.
variable (parse : Item → Text → Prog Env (Item × Option Text))

def parseMember (child : Item) (value : Text) : Prog Env (Item × Option Text) := do
  match ← parseString child (skip value) with
  | (child, none) => return (child, none)
  | (child, some value) =>
      let value := skip value
      let child := { child with string := child.valuestring, valuestring := none }
      if cur value ≠ 58 then
        setEp (some value)
        return (child, none)
      else parse child (skip value.tail)

def parseRest (element : Item → Text → Prog Env (Item × Option Text)) (close : UInt8) :
    Nat → List Item → Text → Prog Env (List Item × Option Text)
  | 0, _, _ => fault .stuck
  | fuel + 1, done, value =>
      if cur value = 44 then do
        match ← newItem with
        | none => return (done, none)
        | some child =>
            match ← element child (skip value.tail) with
            | (child, none) => return (done ++ [child], none)
            | (child, some value) => parseRest element close fuel (done ++ [child]) (skip value)
      else if cur value = close then return (done, some value.tail)
      else do
        setEp (some value)
        return (done, none)

def parseChain (element : Item → Text → Prog Env (Item × Option Text)) (close : UInt8) (item : Item)
    (value : Text) : Prog Env (Item × Option Text) := do
  let value := skip value.tail
  if cur value = close then return (item, some value.tail)
  else
    match ← newItem with
    | none => return (item, none)
    | some child =>
        match ← element child (skip value) with
        | (child, none) => return ({ item with child := [child] }, none)
        | (child, some value) =>
            let (chain, rest) ← parseRest element close (value.length + 1) [child] (skip value)
            return ({ item with child := chain }, rest)

def parseArray (item : Item) (value : Text) : Prog Env (Item × Option Text) :=
  if cur value ≠ 91 then do
    setEp (some value)
    return (item, none)
  else parseChain parse 93 { item with type := .Array } value

def parseObject (item : Item) (value : Text) : Prog Env (Item × Option Text) :=
  if cur value ≠ 123 then do
    setEp (some value)
    return (item, none)
  else parseChain (parseMember parse) 125 { item with type := .Object } value

end Chains

/-- `parse_value`; `fuel` bounds the nesting. -/
def parseValue (machine : Machine) : Nat → Item → Text → Prog Env (Item × Option Text)
  | 0, _, _ => fault .stuck
  | fuel + 1, item, value =>
      if ascii "null".toList <+: value then return ({ item with type := .NULL }, some (value.drop 4))
      else if ascii "false".toList <+: value then
        return ({ item with type := .False }, some (value.drop 5))
      else if ascii "true".toList <+: value then
        return ({ item with type := .True, valueint := 1 }, some (value.drop 4))
      else if cur value = 34 then parseString item value
      else if cur value = 45 || isDigit (cur value) then
        returnNumber (parseNumber machine item value)
      else if cur value = 91 then parseArray (parseValue machine fuel) item value
      else if cur value = 123 then parseObject (parseValue machine fuel) item value
      else do
        setEp (some value)
        return (item, none)

/-- The item and `*return_parse_end`. -/
def parseWithOpts (machine : Machine) (value : Option Text) (requireNullTerminated : Bool) :
    Prog Env (Option (Item × Text)) := do
  let c ← newItem
  setEp none
  match c, value with
  | none, _ => return none
  | some c, none =>
      -- `parse_value` fails on null.
      delete [c]
      return none
  | some c, some value =>
      match ← parseValue machine (value.length + 1) c (skip value) with
      | (c, none) =>
          delete [c]
          return none
      | (c, some rest) =>
          if requireNullTerminated then
            if cur (skip rest) ≠ 0 then
              delete [c]
              setEp (some (skip rest))
              return none
            else return some (c, skip rest)
          else return some (c, rest)

def parse (machine : Machine) (value : Option Text) : Prog Env (Option Item) := do
  match ← parseWithOpts machine value false with
  | none => return none
  | some (c, _) => return some c

end DataStructure.CJson
