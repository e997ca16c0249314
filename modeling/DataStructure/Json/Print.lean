import DataStructure.Json.Item
import DataStructure.Lib.CText

/-! Printing of cJSON items.

A block that is filled from its front is the list of the bytes stored so far; a store behind its end
is a fault. A string that is only read is given by its bytes. -/

namespace DataStructure.CJson

open Program Binary64
open CText (ascii)

def put (size : Nat) (out bytes : Text) : Prog Env Text :=
  if out.length + bytes.length ≤ size then pure (out ++ bytes) else fault .segv

/-- `strcpy` and `sprintf` store a terminator too, which the next store replaces. -/
def putString (size : Nat) (out bytes : Text) : Prog Env Text :=
  if out.length + bytes.length + 1 ≤ size then pure (out ++ bytes) else fault .segv

/-- `out=(char*)cJSON_malloc(size);` and, if it was granted, what is stored there -/
def mallocText (size : Nat) (fill : Text → Prog Env Text) : Prog Env (Option Str) := do
  match ← malloc size with
  | some out => return some ⟨out, ← fill []⟩
  | none => return none

def strdup (str : Text) : Prog Env (Option Str) :=
  mallocText (str.length + 1) (putString (str.length + 1) · str)

def terminate (size : Nat) (out : Text) : Prog Env Unit := do
  let _ ← put size out [0]
  return ()

def dblEpsilon : Binary64 := .nearest (2 ^ (-52 : ℤ))

def intText (n : Int) : Text := ascii ((if n < 0 then ['-'] else []) ++ Nat.toDigits 10 n.natAbs)

/-- `fabs(((double)item->valueint)-d)<=DBL_EPSILON && d<=INT_MAX && d>=INT_MIN` -/
def isIntValued (item : Item) : Bool :=
  le (fabs (sub (ofInt item.valueint.toInt) item.valuedouble)) dblEpsilon &&
    le item.valuedouble (ofInt 2147483647) && le (ofInt (-2147483648)) item.valuedouble

def doubleText (d : Binary64) : Text :=
  if le (fabs (sub (floor d) d)) dblEpsilon && lt (fabs d) (.nearest (10 ^ 60)) then ascii (fixed 0 d)
  else if lt (fabs d) (.nearest (10 ^ (-6 : ℤ))) || lt (.nearest (10 ^ 9)) (fabs d) then
    ascii (scientific d)
  else ascii (fixed 6 d)

def printNumber (item : Item) : Prog Env (Option Str) :=
  if isIntValued item then mallocText 21 (putString 21 · (intText item.valueint.toInt))
  else mallocText 64 (putString 64 · (doubleText item.valuedouble))

def escapedLength (token : UInt8) : Nat :=
  if token ∈ [34, 92, 8, 12, 10, 13, 9] then 2 else if token < 32 then 6 else 1

def stringLength : Text → Nat
  | [] => 0
  | token :: str => if token = 0 then 0 else escapedLength token + stringLength str

def hexDigit (n : Nat) : UInt8 := if n < 10 then UInt8.ofNat (48 + n) else UInt8.ofNat (87 + n)

def unicodeText (token : UInt8) : Text :=
  [117, 48, 48, hexDigit (token.toNat / 16), hexDigit (token.toNat % 16)]

def escapeLetter : UInt8 → Option UInt8
  | 92 => some 92
  | 34 => some 34
  | 8 => some 98
  | 12 => some 102
  | 10 => some 110
  | 13 => some 114
  | 9 => some 116
  | _ => none

def storeEscape (size : Nat) (out : Text) (token : UInt8) : Prog Env Text :=
  match escapeLetter token with
  | some letter => put size out [letter]
  | none => putString size out (unicodeText token)

def storeByte (size : Nat) (out : Text) (c : UInt8) : Prog Env Text :=
  if 31 < c ∧ c ≠ 34 ∧ c ≠ 92 then put size out [c]
  else do
    let out ← put size out [92]
    storeEscape size out c

def storeString (size : Nat) : Text → Text → Prog Env Text
  | [], out => pure out
  | c :: str, out =>
      if c = 0 then pure out
      else do
        let out ← storeByte size out c
        storeString size str out

def fillString (size : Nat) (str out : Text) : Prog Env Text := do
  let out ← put size out [34]
  let out ← storeString size str out
  let out ← put size out [34]
  terminate size out
  return out

def printStringPtr (str : Option Text) : Prog Env (Option Str) :=
  match str with
  | none => strdup []
  | some str => do
      let size ← intLen (stringLength str + 3)
      mallocText size (fillString size str)

/-- The bytes of `item->string`. -/
def Item.name (item : Item) : Option Text := item.string.map Str.text

def printString (item : Item) : Prog Env (Option Str) := printStringPtr (item.valuestring.map Str.text)

def freeAll : List (Option Str) → Prog Env Unit
  | [] => pure ()
  | entry :: rest => do
      freeString entry
      freeAll rest

def putFmt (size : Nat) (fmt : Bool) (out bytes : Text) : Prog Env Text :=
  if fmt then put size out bytes else pure out

/-- `if (i!=numentries-1) {*ptr++=',';if(fmt)*ptr++=' ';*ptr=0;}` -/
def separate (size : Nat) (fmt last : Bool) (out : Text) : Prog Env Text :=
  if last then pure out
  else do
    let out ← put size out [44]
    let out ← putFmt size fmt out [32]
    terminate size out
    return out

def composeArray (size : Nat) (fmt : Bool) : List Str → Text → Prog Env Text
  | [], out => pure out
  | entry :: rest, out => do
      let out ← putString size out entry.text
      let out ← separate size fmt rest.isEmpty out
      free entry.block
      composeArray size fmt rest out

def arrayLength (fmt : Bool) (entries : List Text) : Nat :=
  (entries.map fun entry => entry.length + 2 + fmt.toNat).sum

/-- `if (!fail) out=(char*)cJSON_malloc(len);` -/
def mallocUnless (fail : Bool) (size : Nat) : Prog Env (Option Block) :=
  if fail then pure none else malloc size

/-- Composes an array and gives `entries` and what it points to back. -/
def fillArray (size : Nat) (fmt : Bool) (entries : Block) (strs : List Str) (out : Text) :
    Prog Env Text := do
  let out ← put size out [91]
  terminate size out
  let out ← composeArray size fmt strs out
  free entries
  let out ← put size out [93]
  terminate size out
  return out

/-- `entries` is the block of the pointers, `printed` what they point to. -/
def finishArray (fmt : Bool) (entries : Block) (printed : List (Option Str)) :
    Prog Env (Option Str) := do
  let strs := printed.reduceOption
  let size ← intLen (5 + arrayLength fmt (strs.map Str.text))
  match ← mallocUnless (printed.any (·.isNone)) size with
  | some out => return some ⟨out, ← fillArray size fmt entries strs []⟩
  | none =>
      freeAll printed
      free entries
      return none

def comma (size : Nat) (last : Bool) (out : Text) : Prog Env Text :=
  if last then pure out else put size out [44]

def composeObject (size depth : Nat) (fmt : Bool) : List (Str × Str) → Text → Prog Env Text
  | [], out => pure out
  | (name, entry) :: rest, out => do
      let out ← putFmt size fmt out (List.replicate depth 9)
      let out ← putString size out name.text
      let out ← put size out [58]
      let out ← putFmt size fmt out [9]
      let out ← putString size out entry.text
      let out ← comma size rest.isEmpty out
      let out ← putFmt size fmt out [10]
      terminate size out
      free name.block
      free entry.block
      composeObject size depth fmt rest out

def objectLength (depth : Nat) (fmt : Bool) (fields : List (Text × Text)) : Nat :=
  (fields.map fun field =>
    field.2.length + field.1.length + 2 + if fmt then 2 + depth else 0).sum

def fieldBytes (fields : List (Str × Str)) : List (Text × Text) :=
  fields.map fun field => (field.1.text, field.2.text)

def printedFields (fields : List (Option Str × Option Str)) : Option (List (Str × Str)) :=
  fields.mapM fun field => do
    let name ← field.1
    let entry ← field.2
    return (name, entry)

def freeFields : List (Option Str × Option Str) → Prog Env Unit
  | [] => pure ()
  | (name, entry) :: rest => do
      freeString name
      freeString entry
      freeFields rest

def failObject (names entries : Block) (fields : List (Option Str × Option Str)) :
    Prog Env (Option Str) := do
  freeFields fields
  free names
  free entries
  return none

def fillObject (size depth : Nat) (fmt : Bool) (names entries : Block) (fields : List (Str × Str))
    (out : Text) : Prog Env Text := do
  let out ← put size out [123]
  let out ← putFmt size fmt out [10]
  terminate size out
  let out ← composeObject size depth fmt fields out
  free names
  free entries
  let out ← putFmt size fmt out (List.replicate (depth - 1) 9)
  let out ← put size out [125]
  terminate size out
  return out

/-- `depth` is the one of the fields. -/
def finishObject (depth : Nat) (fmt : Bool) (names entries : Block)
    (printed : List (Option Str × Option Str)) : Prog Env (Option Str) :=
  match printedFields printed with
  | none => failObject names entries printed
  | some fields => do
      let size ← intLen (7 + (if fmt then depth else 0) + objectLength depth fmt (fieldBytes fields))
      match ← malloc size with
      | some out => return some ⟨out, ← fillObject size depth fmt names entries fields []⟩
      | none => failObject names entries printed

def fillEmptyObject (size depth : Nat) (fmt : Bool) (out : Text) : Prog Env Text := do
  let out ← put size out [123]
  let out ← putFmt size fmt out (10 :: List.replicate (depth - 1) 9)
  let out ← put size out [125]
  terminate size out
  return out

def printEmptyObject (depth : Nat) (fmt : Bool) : Prog Env (Option Str) :=
  let size := if fmt then depth + 4 else 3
  mallocText size (fillEmptyObject size depth fmt)

def pointerSize : Nat := 8

mutual

def printValue : Item → Nat → Bool → Prog Env (Option Str)
  | ⟨block, type, isReference, valuestring, valueint, valuedouble, string, child⟩, depth, fmt =>
      match type with
      | .NULL => strdup (ascii "null".toList)
      | .False => strdup (ascii "false".toList)
      | .True => strdup (ascii "true".toList)
      | .Number =>
          printNumber ⟨block, type, isReference, valuestring, valueint, valuedouble, string, child⟩
      | .String =>
          printString ⟨block, type, isReference, valuestring, valueint, valuedouble, string, child⟩
      | .Array =>
          -- print_array
          if child.isEmpty then mallocText 3 (putString 3 · [91, 93])
          else do
            match ← malloc (child.length * pointerSize) with
            | none => return none
            | some entries =>
                let printed ← printEntries child (depth + 1) fmt
                finishArray fmt entries printed
      | .Object =>
          -- print_object
          if child.isEmpty then printEmptyObject depth fmt
          else do
            match ← malloc (child.length * pointerSize) with
            | none => return none
            | some entries =>
                match ← malloc (child.length * pointerSize) with
                | none =>
                    free entries
                    return none
                | some names =>
                    let printed ← printFields child (depth + 1) fmt
                    finishObject (depth + 1) fmt names entries printed
termination_by structural item => item

/-- `while (child && !fail)`: the entries, the last of them `none` if the loop failed. -/
def printEntries : List Item → Nat → Bool → Prog Env (List (Option Str))
  | [], _, _ => pure []
  | child :: next, depth, fmt => do
      match ← printValue child depth fmt with
      | none => return [none]
      | some ret =>
          let rest ← printEntries next depth fmt
          return some ret :: rest
termination_by structural chain => chain

/-- The names and the entries of an object; this loop goes on after a failure. -/
def printFields : List Item → Nat → Bool → Prog Env (List (Option Str × Option Str))
  | [], _, _ => pure []
  | child :: next, depth, fmt => do
      let str ← printStringPtr child.name
      let ret ← printValue child depth fmt
      let rest ← printFields next depth fmt
      return (str, ret) :: rest
termination_by structural chain => chain

end

def print (item : Item) : Prog Env (Option Str) := printValue item 0 true

def printUnformatted (item : Item) : Prog Env (Option Str) := printValue item 0 false

end DataStructure.CJson
