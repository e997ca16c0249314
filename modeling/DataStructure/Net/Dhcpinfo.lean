import DataStructure.Lib.CInt
import DataStructure.Lib.CharArray
import DataStructure.Lib.Partial

/-! The JSON messages of `socket/libevent/server/dhcpinfo.c`.

An `int` has 32 bits. `none` stands for an access outside an array of `dhcp_pair`, for a string
without a terminator in its array, or for a call that json-c does not accept.

The library json-c is a parameter: `JsonC` has the functions of it that are called, and what its
documentation says of them is `JsonC.Documented`. -/

namespace DataStructure.Dhcpinfo

open DataStructure.CInt DataStructure.Partial

inductive JsonType where
  | null
  | boolean
  | double
  | int
  | object
  | array
  | string
  deriving DecidableEq, Repr

/-- The functions of json-c over the values `Jso` of a `json_object *`. An object or array that a
function changes is its result. -/
structure JsonC (Jso : Type) where
  -- `none` is `NULL`.
  tokenerParse : List UInt8 → Option Jso
  toJsonString : Jso → List UInt8
  newString : List UInt8 → Jso
  newObject : Jso
  newArray : Jso
  objectAdd : Jso → String → Jso → Jso
  arrayAdd : Jso → Jso → Jso
  objectGetEx : Jso → String → Option Jso
  getType : Jso → JsonType
  -- The bytes in front of the terminator; `none` is `NULL`.
  getString : Jso → Option (List UInt8)
  getStringLen : Jso → Int
  arrayLength : Jso → Nat
  arrayGetIdx : Jso → Nat → Option Jso

variable {Jso : Type}

/-- What the documentation of json-c says of the strings, objects and arrays that a program makes. -/
structure JsonC.Documented (lib : JsonC Jso) : Prop where
  getString_newString : ∀ text, 0 ∉ text → lib.getString (lib.newString text) = some text
  getStringLen_newString : ∀ text : List UInt8, 0 ∉ text → text.length < 2 ^ 31 →
    lib.getStringLen (lib.newString text) = text.length
  getType_newObject : lib.getType lib.newObject = .object
  objectGetEx_newObject : ∀ key, lib.objectGetEx lib.newObject key = none
  getType_objectAdd : ∀ jso key value, lib.getType jso = .object →
    lib.getType (lib.objectAdd jso key value) = .object
  objectGetEx_objectAdd : ∀ jso key value other, lib.getType jso = .object →
    lib.objectGetEx (lib.objectAdd jso key value) other =
      if other = key then some value else lib.objectGetEx jso other
  getType_newArray : lib.getType lib.newArray = .array
  arrayLength_newArray : lib.arrayLength lib.newArray = 0
  getType_arrayAdd : ∀ jso value, lib.getType jso = .array →
    lib.getType (lib.arrayAdd jso value) = .array
  arrayLength_arrayAdd : ∀ jso value, lib.getType jso = .array →
    lib.arrayLength (lib.arrayAdd jso value) = lib.arrayLength jso + 1
  arrayGetIdx_arrayAdd : ∀ jso value i, lib.getType jso = .array →
    lib.arrayGetIdx (lib.arrayAdd jso value) i =
      if i = lib.arrayLength jso then some value else lib.arrayGetIdx jso i

def JsonC.IsString (lib : JsonC Jso) (jso : Jso) (text : List UInt8) : Prop :=
  lib.getString jso = some text ∧ lib.getStringLen jso = text.length

structure JsonC.IsArray (lib : JsonC Jso) (jso : Jso) (items : List Jso) : Prop where
  type : lib.getType jso = .array
  length : lib.arrayLength jso = items.length
  item : ∀ i, i < items.length → lib.arrayGetIdx jso i = items[i]?

theorem JsonC.Documented.arrayAdd_all {lib : JsonC Jso} (documented : lib.Documented)
    (items : List Jso) : lib.IsArray (items.foldl lib.arrayAdd lib.newArray) items := by
  induction items using List.reverseRecOn with
  | nil =>
      refine ⟨documented.getType_newArray, documented.arrayLength_newArray, ?_⟩
      intro i inside
      cases inside
  | append_singleton items last ih =>
      rw [List.foldl_append]
      constructor
      · exact documented.getType_arrayAdd _ _ ih.type
      · rw [List.length_append]
        exact (documented.arrayLength_arrayAdd _ _ ih.type).trans (congrArg (· + 1) ih.length)
      · intro i inside
        rw [List.length_append, List.length_singleton] at inside
        apply (documented.arrayGetIdx_arrayAdd _ _ i ih.type).trans
        rw [ih.length]
        by_cases here : i = items.length
        · rw [if_pos here, here, List.getElem?_concat_length]
        · rw [if_neg here, ih.item i (by omega), List.getElem?_append_left (by omega)]

theorem JsonC.Documented.getType_two {lib : JsonC Jso} (documented : lib.Documented)
    (first second : String) (a b : Jso) :
    lib.getType (lib.objectAdd (lib.objectAdd lib.newObject first a) second b) = .object := by
  apply documented.getType_objectAdd
  apply documented.getType_objectAdd
  exact documented.getType_newObject

theorem JsonC.Documented.objectGetEx_two {lib : JsonC Jso} (documented : lib.Documented)
    (first second : String) (a b : Jso) (key : String) :
    lib.objectGetEx (lib.objectAdd (lib.objectAdd lib.newObject first a) second b) key =
      if key = second then some b else if key = first then some a else none := by
  have object := documented.getType_objectAdd _ first a documented.getType_newObject
  rw [documented.objectGetEx_objectAdd _ _ _ _ object,
    documented.objectGetEx_objectAdd _ _ _ _ documented.getType_newObject,
    documented.objectGetEx_newObject]

def SUCCESS : Int := 0

def ERROR_EMPTY_BUFFER : Int := -1

def ERROR_PARSER_JSON : Int := -2

def MAC_LENGTH : Nat := 18

def IP_LENGTH : Nat := 16

def CMD_LENGTH : Nat := 32

def MAX_USER : Nat := 64

structure Dhcp where
  mac : CharArray MAC_LENGTH
  ip : CharArray IP_LENGTH

structure DhcpPair where
  apMac : CharArray MAC_LENGTH
  cmd : CharArray CMD_LENGTH
  value : Fin MAX_USER → Dhcp
  length : Int

def DhcpPair.zeroed : DhcpPair :=
  ⟨.zeroed _, .zeroed _, fun _ => ⟨.zeroed _, .zeroed _⟩, 0⟩

/-- `memcpy(field, string, len); field[len] = '\0';` -/
def copyString {n : Nat} (lib : JsonC Jso) (field : CharArray n) (jso : Jso) : Option (CharArray n) := do
  let string ← lib.getString jso
  let len := lib.getStringLen jso
  let field ← field.memcpy (string ++ [0]) len
  field.write len.toNat [0]

def copyMember {n : Nat} (lib : JsonC Jso) (jso : Jso) (key : String) (field : CharArray n) :
    Option (CharArray n) :=
  match lib.objectGetEx jso key with
  | some member => copyString lib field member
  | none => some field

def printMember {n : Nat} (lib : JsonC Jso) (jso : Jso) (key : String) (field : CharArray n) :
    Option (CharArray n) :=
  match lib.objectGetEx jso key with
  | some member => do
      let text ← lib.getString member
      field.snprintf n text
  | none => some field

def userCount (lib : JsonC Jso) (users : Jso) (length : Int) : Int :=
  if lib.getType users = .array then toInt (lib.arrayLength users)
  else if lib.getType users = .object then 1
  else length

def parseUsers (lib : JsonC Jso) (key : String) (parseUser : Jso → Dhcp → Option Dhcp) (jso : Jso)
    (pair : DhcpPair) : Option DhcpPair :=
  match lib.objectGetEx jso key with
  | none => some pair
  | some users => do
      let length := userCount lib users pair.length
      let value ← updateLoop (fun i user => do
        let obj ← lib.arrayGetIdx users i
        parseUser obj user) length.toNat 0 pair.value
      some { pair with length, value }

/-- The two parsers differ in the key of the users and in what they read of a user. -/
def parseJson (lib : JsonC Jso) (key : String) (parseUser : Jso → Dhcp → Option Dhcp)
    (jsonstr : Option (List UInt8)) (pair : DhcpPair) : Option (Int × DhcpPair) :=
  match jsonstr with
  | none => some (ERROR_EMPTY_BUFFER, pair)
  | some text =>
      match lib.tokenerParse text with
      | none => some (ERROR_PARSER_JSON, pair)
      | some jso => do
          let cmd ← copyMember lib jso "cmd" pair.cmd
          let apMac ← copyMember lib jso "ap_mac" pair.apMac
          let pair ← parseUsers lib key parseUser jso { pair with cmd, apMac }
          some (SUCCESS, pair)

def parseRequestUser (lib : JsonC Jso) (obj : Jso) (user : Dhcp) : Option Dhcp := do
  let text ← lib.getString obj
  let mac ← user.mac.snprintf MAC_LENGTH text
  some { user with mac }

def parseResponseUser (lib : JsonC Jso) (obj : Jso) (user : Dhcp) : Option Dhcp := do
  let mac ← printMember lib obj "mac" user.mac
  let ip ← printMember lib obj "ip" user.ip
  some { user with mac, ip }

def parseRequestJson (lib : JsonC Jso) : Option (List UInt8) → DhcpPair → Option (Int × DhcpPair) :=
  parseJson lib "mac" (parseRequestUser lib)

def parseResponseJson (lib : JsonC Jso) : Option (List UInt8) → DhcpPair → Option (Int × DhcpPair) :=
  parseJson lib "pair" (parseResponseUser lib)

def formJson (lib : JsonC Jso) (key : String) (formUser : Dhcp → Option Jso) (pair : DhcpPair) :
    Option Jso := do
  let apMac ← pair.apMac.cString
  let jso := lib.objectAdd lib.newObject "ap_mac" (lib.newString apMac)
  let cmd ← pair.cmd.cString
  let jso := lib.objectAdd jso "cmd" (lib.newString cmd)
  let users ← (List.range pair.length.toNat).mapM fun i =>
    if inside : i < MAX_USER then formUser (pair.value ⟨i, inside⟩) else none
  some (if users.length > 0 then lib.objectAdd jso key (users.foldl lib.arrayAdd lib.newArray) else jso)

def formRequestUser (lib : JsonC Jso) (user : Dhcp) : Option Jso := do
  let mac ← user.mac.cString
  some (lib.newString mac)

def formResponseUser (lib : JsonC Jso) (user : Dhcp) : Option Jso := do
  let mac ← user.mac.cString
  let l := lib.objectAdd lib.newObject "mac" (lib.newString mac)
  let ip ← user.ip.cString
  some (lib.objectAdd l "ip" (lib.newString ip))

def requestObject (lib : JsonC Jso) : DhcpPair → Option Jso := formJson lib "mac" (formRequestUser lib)

def responseObject (lib : JsonC Jso) : DhcpPair → Option Jso := formJson lib "pair" (formResponseUser lib)

def formRequestJson (lib : JsonC Jso) (pair : DhcpPair) : Option (List UInt8) :=
  (requestObject lib pair).map lib.toJsonString

def formResponseJson (lib : JsonC Jso) (pair : DhcpPair) : Option (List UInt8) :=
  (responseObject lib pair).map lib.toJsonString

theorem copyString_eq {n : Nat} (lib : JsonC Jso) (field : CharArray n) (jso : Jso) (text : List UInt8)
    (string : lib.IsString jso text) : copyString lib field jso = field.write 0 (text ++ [0]) := by
  have joined := field.write_append 0 text [0]
  rw [Nat.zero_add] at joined
  rw [← joined, copyString, string.1, string.2]
  simp only [Option.bind_eq_bind, Option.bind_some, Int.toNat_natCast, CharArray.memcpy_text]

theorem copyString_isSome {n : Nat} (lib : JsonC Jso) (field : CharArray n) (jso : Jso)
    (text : List UInt8) (string : lib.IsString jso text) :
    (copyString lib field jso).isSome ↔ text.length < n := by
  rw [copyString_eq lib field jso text string, CharArray.write_isSome, List.length_append,
    List.length_singleton]
  omega

theorem copyString_spec {n : Nat} (lib : JsonC Jso) (field : CharArray n) (jso : Jso)
    (text : List UInt8) (string : lib.IsString jso text) (clean : 0 ∉ text) (short : text.length < n) :
    ∃ copy, copyString lib field jso = some copy ∧ copy.cString = some text := by
  obtain ⟨copy, ran⟩ := Option.isSome_iff_exists.1 ((copyString_isSome lib field jso text string).2 short)
  refine ⟨copy, ran, ?_⟩
  rw [copyString_eq lib field jso text string] at ran
  exact CharArray.cString_write clean ran

theorem copyMember_spec {n : Nat} (lib : JsonC Jso) (field source : CharArray n) (text : List UInt8)
    (jso member : Jso) (key : String) (held : source.cString = some text)
    (found : lib.objectGetEx jso key = some member) (string : lib.IsString member text) :
    ∃ copy, copyMember lib jso key field = some copy ∧ copy.cString = source.cString := by
  obtain ⟨clean, short⟩ := CharArray.cString_spec held
  rw [copyMember, found, held]
  exact copyString_spec lib field member text string clean short

theorem printMember_spec {n : Nat} (lib : JsonC Jso) (field source : CharArray n) (text : List UInt8)
    (jso member : Jso) (key : String) (held : source.cString = some text)
    (found : lib.objectGetEx jso key = some member) (string : lib.getString member = some text) :
    ∃ copy, printMember lib jso key field = some copy ∧ copy.cString = source.cString := by
  obtain ⟨clean, short⟩ := CharArray.cString_spec held
  rw [printMember, found, held]
  simp only [string, Option.bind_eq_bind, Option.bind_some]
  exact field.snprintf_fits text clean short

theorem JsonC.Documented.isString_newString {lib : JsonC Jso} (documented : lib.Documented) {n : Nat}
    {source : CharArray n} {text : List UInt8} (held : source.cString = some text) (small : n ≤ 2 ^ 31) :
    lib.IsString (lib.newString text) text := by
  obtain ⟨clean, short⟩ := CharArray.cString_spec held
  exact ⟨documented.getString_newString text clean,
    documented.getStringLen_newString text clean (by omega)⟩

def Dhcp.Terminated (user : Dhcp) : Prop := user.mac.cString.isSome ∧ user.ip.cString.isSome

/-- What the callers keep to: a number of users that the array holds, and strings that end. -/
structure DhcpPair.Valid (pair : DhcpPair) : Prop where
  nonneg : 0 ≤ pair.length
  room : pair.length ≤ MAX_USER
  apMac : pair.apMac.cString.isSome
  cmd : pair.cmd.cString.isSome
  users : ∀ i : Fin MAX_USER, (i : Int) < pair.length → (pair.value i).Terminated

structure DhcpPair.Same (related : Dhcp → Dhcp → Prop) (pair other : DhcpPair) : Prop where
  apMac : pair.apMac.cString = other.apMac.cString
  cmd : pair.cmd.cString = other.cmd.cString
  length : pair.length = other.length
  users : ∀ i : Fin MAX_USER, (i : Int) < other.length → related (pair.value i) (other.value i)

def SameMac (user other : Dhcp) : Prop := user.mac.cString = other.mac.cString

def SameMacIp (user other : Dhcp) : Prop :=
  user.mac.cString = other.mac.cString ∧ user.ip.cString = other.ip.cString

section RoundTrip

variable (lib : JsonC Jso) (key : String) (formUser : Dhcp → Option Jso)
  (parseUser : Jso → Dhcp → Option Dhcp) (related : Dhcp → Dhcp → Prop)

structure Formed (pair : DhcpPair) (jso : Jso) (objs : Nat → Jso) : Prop where
  apMac : ∃ text member, pair.apMac.cString = some text ∧
    lib.objectGetEx jso "ap_mac" = some member ∧ lib.IsString member text
  cmd : ∃ text member, pair.cmd.cString = some text ∧
    lib.objectGetEx jso "cmd" = some member ∧ lib.IsString member text
  none : pair.length ≤ 0 → lib.objectGetEx jso key = none
  users : 0 < pair.length → ∃ users, lib.objectGetEx jso key = some users ∧
    lib.IsArray users ((List.range pair.length.toNat).map objs)
  user : ∀ i : Fin MAX_USER, (i : Int) < pair.length → formUser (pair.value i) = some (objs i)

variable {lib key formUser parseUser related}

theorem parseUsers_formed (pair blank : DhcpPair) (jso : Jso) (objs : Nat → Jso)
    (formed : Formed lib key formUser pair jso objs)
    (fresh : blank.length = 0) (nonneg : 0 ≤ pair.length) (room : pair.length ≤ MAX_USER)
    (parses : ∀ i : Fin MAX_USER, (i : Int) < pair.length → ∀ entry, ∃ parsed,
      parseUser (objs i) entry = some parsed ∧ related parsed (pair.value i)) :
    ∃ value, parseUsers lib key parseUser jso blank = some { blank with length := pair.length, value } ∧
      ∀ i : Fin MAX_USER, (i : Int) < pair.length → related (value i) (pair.value i) := by
  rw [parseUsers]
  by_cases several : 0 < pair.length
  · obtain ⟨users, found, array⟩ := formed.users several
    have length : lib.arrayLength users = pair.length.toNat := by
      rw [array.length, List.length_map, List.length_range]
    have count : userCount lib users blank.length = pair.length := by
      rw [userCount, if_pos array.type, length, Int.toNat_of_nonneg nonneg]
      rw [MAX_USER] at room
      exact toInt_of_small pair.length (by omega) (by omega)
    rw [MAX_USER] at room
    obtain ⟨value, ran, good, _⟩ := updateLoop_spec (fun i user => do
        let obj ← lib.arrayGetIdx users i
        parseUser obj user)
      (fun i user => ∀ inside : i < MAX_USER, related user (pair.value ⟨i, inside⟩))
      pair.length.toNat 0 blank.value (by rw [MAX_USER]; omega) (by
        intro j entry _ below
        obtain ⟨parsed, ran, good⟩ := parses ⟨j, by rw [MAX_USER]; omega⟩ (by simp only; omega) entry
        refine ⟨parsed, ?_, fun _ => good⟩
        have item : lib.arrayGetIdx users j = some (objs j) := by
          rw [array.item j (by rw [List.length_map, List.length_range]; omega), List.getElem?_map,
            List.getElem?_range (by omega), Option.map_some]
        rw [item]
        exact ran)
    refine ⟨value, ?_, ?_⟩
    · rw [found]
      dsimp only
      rw [count, ran]
      rfl
    · intro i below
      exact good i (Nat.zero_le _) (by omega) i.isLt
  · have zero : pair.length = 0 := by omega
    rw [formed.none (by omega)]
    refine ⟨blank.value, ?_, ?_⟩
    · rw [zero, ← fresh]
    · intro i below
      omega

theorem formUsers_spec (pair : DhcpPair) (valid : pair.Valid)
    (forms : ∀ user : Dhcp, user.Terminated → ∃ obj, formUser user = some obj) (any : Jso) :
    ∃ objs : Nat → Jso,
      (∀ i : Fin MAX_USER, (i : Int) < pair.length → formUser (pair.value i) = some (objs i)) ∧
      ((List.range pair.length.toNat).mapM fun i =>
        if inside : i < MAX_USER then formUser (pair.value ⟨i, inside⟩) else none) =
          some ((List.range pair.length.toNat).map objs) := by
  let objs (i : Nat) : Jso :=
    if inside : i < MAX_USER then (formUser (pair.value ⟨i, inside⟩)).getD any else any
  have user (i : Fin MAX_USER) (below : (i : Int) < pair.length) :
      formUser (pair.value i) = some (objs i) := by
    obtain ⟨obj, formed⟩ := forms _ (valid.users i below)
    simp only [objs, dif_pos i.isLt, formed, Option.getD_some]
  refine ⟨objs, user, ?_⟩
  apply mapM_eq_some
  intro i member
  have below := List.mem_range.1 member
  have room := valid.room
  have inside : i < MAX_USER := by omega
  rw [dif_pos inside]
  exact user ⟨i, inside⟩ (by dsimp only; omega)

theorem formJson_spec (documented : lib.Documented) (pair : DhcpPair) (valid : pair.Valid)
    (apart : key ≠ "ap_mac" ∧ key ≠ "cmd")
    (forms : ∀ user : Dhcp, user.Terminated → ∃ obj, formUser user = some obj) :
    ∃ jso objs, formJson lib key formUser pair = some jso ∧ Formed lib key formUser pair jso objs := by
  obtain ⟨apMac, apMacHeld⟩ := Option.isSome_iff_exists.1 valid.apMac
  obtain ⟨cmd, cmdHeld⟩ := Option.isSome_iff_exists.1 valid.cmd
  obtain ⟨objs, user, users⟩ := formUsers_spec pair valid forms lib.newObject
  have count : ((List.range pair.length.toNat).map objs).length > 0 ↔ 0 < pair.length := by
    rw [List.length_map, List.length_range]
    omega
  have header := documented.objectGetEx_two "ap_mac" "cmd" (lib.newString apMac) (lib.newString cmd)
  have object := documented.getType_two "ap_mac" "cmd" (lib.newString apMac) (lib.newString cmd)
  have apMacString := documented.isString_newString apMacHeld (by decide)
  have cmdString := documented.isString_newString cmdHeld (by decide)
  refine ⟨_, objs, by rw [formJson, apMacHeld, cmdHeld, users]; rfl, ?_⟩
  -- only with users the key is added behind the two strings
  by_cases several : 0 < pair.length
  · have added (value : Jso) (other : String) :=
      documented.objectGetEx_objectAdd _ key value other object
    rw [if_pos (count.2 several)]
    constructor
    · refine ⟨apMac, _, apMacHeld, ?_, apMacString⟩
      rw [added, if_neg apart.1.symm, header, if_neg (by decide), if_pos rfl]
    · refine ⟨cmd, _, cmdHeld, ?_, cmdString⟩
      rw [added, if_neg apart.2.symm, header, if_pos rfl]
    · intro nobody
      omega
    · intro _
      refine ⟨_, ?_, documented.arrayAdd_all _⟩
      rw [added, if_pos rfl]
    · exact user
  · rw [if_neg (count.not.2 several)]
    constructor
    · refine ⟨apMac, _, apMacHeld, ?_, apMacString⟩
      rw [header, if_neg (by decide), if_pos rfl]
    · refine ⟨cmd, _, cmdHeld, ?_, cmdString⟩
      rw [header, if_pos rfl]
    · intro _
      rw [header, if_neg apart.2, if_neg apart.1]
    · intro positive
      exact absurd positive several
    · exact user

/-- What was formed from a valid pair is parsed into a zeroed one. -/
theorem parseJson_formed (pair : DhcpPair) (valid : pair.Valid) (jso : Jso) (objs : Nat → Jso)
    (text : List UInt8) (formed : Formed lib key formUser pair jso objs)
    (parses : ∀ (user : Dhcp) (obj : Jso), user.Terminated → formUser user = some obj → ∀ entry, ∃ parsed,
      parseUser obj entry = some parsed ∧ related parsed user)
    (tokens : lib.tokenerParse text = some jso) :
    ∃ result, parseJson lib key parseUser (some text) .zeroed = some (SUCCESS, result) ∧
      result.Same related pair := by
  obtain ⟨apMacText, apMacMember, apMacHeld, apMacFound, apMacString⟩ := formed.apMac
  obtain ⟨cmdText, cmdMember, cmdHeld, cmdFound, cmdString⟩ := formed.cmd
  obtain ⟨cmd, cmdRan, cmdSame⟩ := copyMember_spec lib DhcpPair.zeroed.cmd pair.cmd cmdText jso
    cmdMember "cmd" cmdHeld cmdFound cmdString
  obtain ⟨apMac, apMacRan, apMacSame⟩ := copyMember_spec lib DhcpPair.zeroed.apMac pair.apMac apMacText
    jso apMacMember "ap_mac" apMacHeld apMacFound apMacString
  obtain ⟨value, usersRan, usersSame⟩ := parseUsers_formed pair
    { DhcpPair.zeroed with cmd, apMac } jso objs formed rfl valid.nonneg valid.room
    (fun i below => parses _ _ (valid.users i below) (formed.user i below))
  refine ⟨{ DhcpPair.zeroed with cmd, apMac, length := pair.length, value }, ?_, ?_⟩
  · simp only [parseJson, tokens, cmdRan, apMacRan, usersRan, Option.bind_eq_bind, Option.bind_some]
  · exact ⟨apMacSame, cmdSame, rfl, usersSame⟩

theorem formRequestUser_spec (lib : JsonC Jso) (user : Dhcp) (terminated : user.Terminated) :
    ∃ obj, formRequestUser lib user = some obj := by
  obtain ⟨mac, macHeld⟩ := Option.isSome_iff_exists.1 terminated.1
  exact ⟨_, by rw [formRequestUser, macHeld]; rfl⟩

theorem formResponseUser_spec (lib : JsonC Jso) (user : Dhcp) (terminated : user.Terminated) :
    ∃ obj, formResponseUser lib user = some obj := by
  obtain ⟨mac, macHeld⟩ := Option.isSome_iff_exists.1 terminated.1
  obtain ⟨ip, ipHeld⟩ := Option.isSome_iff_exists.1 terminated.2
  exact ⟨_, by rw [formResponseUser, macHeld, ipHeld]; rfl⟩

theorem parseRequestUser_formed (documented : lib.Documented) (user : Dhcp) (obj : Jso)
    (terminated : user.Terminated) (formed : formRequestUser lib user = some obj) (entry : Dhcp) :
    ∃ parsed, parseRequestUser lib obj entry = some parsed ∧ SameMac parsed user := by
  obtain ⟨mac, macHeld⟩ := Option.isSome_iff_exists.1 terminated.1
  rw [formRequestUser, macHeld] at formed
  obtain rfl := Option.some.inj formed
  obtain ⟨clean, short⟩ := CharArray.cString_spec macHeld
  obtain ⟨copy, ran, same⟩ := entry.mac.snprintf_fits mac clean short
  refine ⟨{ entry with mac := copy }, ?_, same.trans macHeld.symm⟩
  simp only [parseRequestUser, documented.getString_newString mac clean, ran, Option.bind_eq_bind,
    Option.bind_some]

theorem parseResponseUser_formed (documented : lib.Documented) (user : Dhcp) (obj : Jso)
    (terminated : user.Terminated) (formed : formResponseUser lib user = some obj) (entry : Dhcp) :
    ∃ parsed, parseResponseUser lib obj entry = some parsed ∧ SameMacIp parsed user := by
  obtain ⟨mac, macHeld⟩ := Option.isSome_iff_exists.1 terminated.1
  obtain ⟨ip, ipHeld⟩ := Option.isSome_iff_exists.1 terminated.2
  rw [formResponseUser, macHeld, ipHeld] at formed
  obtain rfl := Option.some.inj formed
  have members := documented.objectGetEx_two "mac" "ip" (lib.newString mac) (lib.newString ip)
  have macFound := members "mac"
  have ipFound := members "ip"
  rw [if_neg (by decide), if_pos rfl] at macFound
  rw [if_pos rfl] at ipFound
  obtain ⟨macCopy, macRan, macSame⟩ := printMember_spec lib entry.mac user.mac mac _ _ "mac" macHeld
    macFound (documented.isString_newString macHeld (by decide)).1
  obtain ⟨ipCopy, ipRan, ipSame⟩ := printMember_spec lib entry.ip user.ip ip _ _ "ip" ipHeld
    ipFound (documented.isString_newString ipHeld (by decide)).1
  refine ⟨⟨macCopy, ipCopy⟩, ?_, macSame, ipSame⟩
  simp only [parseResponseUser, macRan, ipRan, Option.bind_eq_bind, Option.bind_some]

end RoundTrip

def RoundTrips (form : DhcpPair → Option (List UInt8))
    (parse : Option (List UInt8) → DhcpPair → Option (Int × DhcpPair))
    (related : Dhcp → Dhcp → Prop) (pair : DhcpPair) : Prop :=
  ∃ text result, form pair = some text ∧ parse (some text) .zeroed = some (SUCCESS, result) ∧
    result.Same related pair

/-- Responses and requests survive the way through json-c, if its tokener inverts its printer on
the two objects of the pair. -/
theorem messages_round_trip (lib : JsonC Jso) (documented : lib.Documented) (pair : DhcpPair)
    (valid : pair.Valid)
    (inverts : ∀ jso, responseObject lib pair = some jso ∨ requestObject lib pair = some jso →
      lib.tokenerParse (lib.toJsonString jso) = some jso) :
    RoundTrips (formResponseJson lib) (parseResponseJson lib) SameMacIp pair ∧
      RoundTrips (formRequestJson lib) (parseRequestJson lib) SameMac pair := by
  constructor
  · obtain ⟨jso, objs, made, formed⟩ := formJson_spec documented pair valid
      (⟨by decide, by decide⟩ : "pair" ≠ "ap_mac" ∧ "pair" ≠ "cmd") (formResponseUser_spec lib)
    obtain ⟨result, parsed, same⟩ := parseJson_formed pair valid jso objs _ formed
      (parseResponseUser_formed documented) (inverts jso (.inl made))
    exact ⟨lib.toJsonString jso, result, congrArg (Option.map lib.toJsonString) made, parsed, same⟩
  · obtain ⟨jso, objs, made, formed⟩ := formJson_spec documented pair valid
      (⟨by decide, by decide⟩ : "mac" ≠ "ap_mac" ∧ "mac" ≠ "cmd") (formRequestUser_spec lib)
    obtain ⟨result, parsed, same⟩ := parseJson_formed pair valid jso objs _ formed
      (parseRequestUser_formed documented) (inverts jso (.inr made))
    exact ⟨lib.toJsonString jso, result, congrArg (Option.map lib.toJsonString) made, parsed, same⟩

inductive Json where
  | null
  | string (text : List UInt8)
  | array (items : List Json)
  | object (members : List (String × Json))

namespace Json

def ascii (text : String) : List UInt8 := CText.ascii text.toList

mutual

/-- The spaced format of `json_object_to_json_string`, for strings without an escaped character. -/
def print : Json → List UInt8
  | null => ascii "null"
  | string text => ascii "\"" ++ text ++ ascii "\""
  | array items => ascii "[" ++ printItems items ++ ascii " ]"
  | object members => ascii "\x7b" ++ printMembers members ++ ascii " \x7d"

def printItems : List Json → List UInt8
  | [] => []
  | [item] => ascii " " ++ print item
  | item :: items => ascii " " ++ print item ++ ascii "," ++ printItems items

def printMembers : List (String × Json) → List UInt8
  | [] => []
  | [member] => ascii " \"" ++ ascii member.1 ++ ascii "\": " ++ print member.2
  | member :: members =>
      ascii " \"" ++ ascii member.1 ++ ascii "\": " ++ print member.2 ++ ascii "," ++ printMembers members

end

def setMember : List (String × Json) → String → Json → List (String × Json)
  | [], key, value => [(key, value)]
  | (other, old) :: members, key, value =>
      if other = key then (other, value) :: members
      else (other, old) :: setMember members key value

theorem lookup_member (key other : String) (value : Json) (members : List (String × Json)) :
    ((other, value) :: members).lookup key = if key = other then some value else members.lookup key := by
  rw [List.lookup_cons]
  by_cases same : key = other
  · rw [if_pos same, same, beq_self_eq_true]
  · rw [if_neg same, beq_false_of_ne same]

theorem lookup_setMember (members : List (String × Json)) (key other : String) (value : Json) :
    (setMember members key value).lookup other =
      if other = key then some value else members.lookup other := by
  induction members with
  | nil => exact lookup_member other key value []
  | cons member members ih =>
      obtain ⟨first, old⟩ := member
      rw [setMember]
      by_cases here : first = key
      · rw [if_pos here, here, lookup_member, lookup_member]
        split <;> rfl
      · rw [if_neg here, lookup_member, lookup_member, ih]
        by_cases found : other = first
        · rw [if_pos found, if_neg (found ▸ here), if_pos found]
        · rw [if_neg found, if_neg found]

def type : Json → JsonType
  | null => .null
  | string _ => .string
  | array _ => .array
  | object _ => .object

def items : Json → List Json
  | array items => items
  | _ => []

def members : Json → List (String × Json)
  | object members => members
  | _ => []

def text : Json → List UInt8
  | string text => text
  | _ => []

/-- The tokener accepts the texts of the `known` values. -/
def library (known : List Json) : JsonC Json where
  tokenerParse text := known.find? (·.print = text)
  toJsonString := print
  newString := string
  newObject := object []
  newArray := array []
  objectAdd jso key value := object (setMember jso.members key value)
  arrayAdd jso value := array (jso.items ++ [value])
  objectGetEx jso key := jso.members.lookup key
  getType := type
  getString jso := if jso.type = .null then none else if jso.type = .string then some jso.text else some jso.print
  getStringLen jso := jso.text.length
  arrayLength jso := jso.items.length
  arrayGetIdx jso i := some (jso.items.getD i null)

theorem tokenerParse_first (jso : Json) (known : List Json) :
    (library (jso :: known)).tokenerParse jso.print = some jso := by
  change (jso :: known).find? (·.print = jso.print) = some jso
  exact List.find?_cons_of_pos (by simp)

theorem tokenerParse_later (jso other : Json) (known : List Json) (differ : other.print ≠ jso.print) :
    (library (other :: known)).tokenerParse jso.print = (library known).tokenerParse jso.print := by
  change (other :: known).find? (·.print = jso.print) = known.find? (·.print = jso.print)
  exact List.find?_cons_of_neg (by simpa using differ)

theorem library_documented (known : List Json) : (library known).Documented where
  getString_newString _ _ := rfl
  getStringLen_newString _ _ _ := rfl
  getType_newObject := rfl
  objectGetEx_newObject _ := rfl
  getType_objectAdd _ _ _ _ := rfl
  objectGetEx_objectAdd jso key value other _ := lookup_setMember jso.members key other value
  getType_newArray := rfl
  arrayLength_newArray := rfl
  getType_arrayAdd _ _ _ := rfl
  arrayLength_arrayAdd _ _ _ := List.length_append
  arrayGetIdx_arrayAdd jso value i _ := by
    change some ((jso.items ++ [value]).getD i null) =
      if i = jso.items.length then some value else some (jso.items.getD i null)
    simp only [List.getD_eq_getElem?_getD]
    rcases Nat.lt_trichotomy i jso.items.length with before | here | behind
    · rw [List.getElem?_append_left before, if_neg before.ne]
    · rw [here, List.getElem?_concat_length, if_pos rfl, Option.getD_some]
    · rw [List.getElem?_eq_none (by simp; omega), List.getElem?_eq_none behind.le, if_neg behind.ne']

end Json

def samplePair : DhcpPair :=
  { DhcpPair.zeroed with
    cmd := ⟨0x63 :: List.replicate 31 0, rfl⟩
    length := 2
    value := fun i =>
      if i.val = 0 then ⟨⟨0x61 :: List.replicate 17 0, rfl⟩, .zeroed IP_LENGTH⟩
      else ⟨⟨0x62 :: List.replicate 17 0, rfl⟩, ⟨0x31 :: List.replicate 15 0, rfl⟩⟩ }

def sampleResponse : Json :=
  .object [("ap_mac", .string []), ("cmd", .string [0x63]),
    ("pair", .array [.object [("mac", .string [0x61]), ("ip", .string [])],
      .object [("mac", .string [0x62]), ("ip", .string [0x31])]])]

def sampleRequest : Json :=
  .object [("ap_mac", .string []), ("cmd", .string [0x63]),
    ("mac", .array [.string [0x61], .string [0x62]])]

example : sampleRequest.print =
    Json.ascii "\x7b \"ap_mac\": \"\", \"cmd\": \"c\", \"mac\": [ \"a\", \"b\" ] \x7d" := by
  decide +kernel

def sampleC : JsonC Json := Json.library [sampleResponse, sampleRequest]

theorem sampleC_request : sampleC.tokenerParse sampleRequest.print = some sampleRequest := by
  rw [sampleC, Json.tokenerParse_later _ _ _ (by decide +kernel), Json.tokenerParse_first]

theorem messages_round_trip_two_users :
    samplePair.Valid ∧
      RoundTrips (formResponseJson sampleC) (parseResponseJson sampleC) SameMacIp samplePair ∧
      RoundTrips (formRequestJson sampleC) (parseRequestJson sampleC) SameMac samplePair := by
  have valid : samplePair.Valid := by
    refine ⟨by decide, by decide, by decide, by decide, ?_⟩
    intro i _
    by_cases first : i.val = 0
    · simp only [samplePair, first, if_true]
      exact ⟨by decide, by decide⟩
    · simp only [samplePair, first, if_false]
      exact ⟨by decide, by decide⟩
  refine ⟨valid, messages_round_trip sampleC (Json.library_documented _) samplePair valid ?_⟩
  intro jso made
  rcases made with response | request
  · have object : responseObject sampleC samplePair = some sampleResponse := rfl
    obtain rfl := Option.some.inj (object.symm.trans response)
    exact Json.tokenerParse_first _ _
  · have object : requestObject sampleC samplePair = some sampleRequest := rfl
    obtain rfl := Option.some.inj (object.symm.trans request)
    exact sampleC_request

/-- The text is accepted as an object whose members `cmd`, `ap_mac` and `mac`, as far as they are
there, are two strings and an array of strings. -/
structure Request (lib : JsonC Jso) (text : List UInt8) (cmd apMac : Option (List UInt8))
    (mac : Option (List (List UInt8))) (jso : Jso) : Prop where
  accepted : lib.tokenerParse text = some jso
  cmd : Option.Rel lib.IsString (lib.objectGetEx jso "cmd") cmd
  apMac : Option.Rel lib.IsString (lib.objectGetEx jso "ap_mac") apMac
  mac : Option.Rel (fun member texts => ∃ items, lib.IsArray member items ∧
    List.Forall₂ lib.IsString items texts) (lib.objectGetEx jso "mac") mac

def Validated (lib : JsonC Jso) (text : List UInt8) (pair : DhcpPair) : Prop :=
  ∃ result, parseRequestJson lib (some text) pair = some (SUCCESS, result) ∧
    0 ≤ result.length ∧ result.length ≤ MAX_USER

theorem copyMember_isSome {n : Nat} (lib : JsonC Jso) (jso : Jso) (key : String) (field : CharArray n)
    (text : Option (List UInt8)) (member : Option.Rel lib.IsString (lib.objectGetEx jso key) text) :
    (copyMember lib jso key field).isSome ↔ ∀ t ∈ text, t.length < n := by
  rw [copyMember]
  generalize lib.objectGetEx jso key = found at member
  cases member with
  | none => simp
  | some string =>
      rw [copyString_isSome lib field _ _ string]
      simp

theorem parseRequestUsers_defined (lib : JsonC Jso) (users : Jso) (items : List Jso)
    (texts : List (List UInt8)) (array : lib.IsArray users items)
    (strings : List.Forall₂ lib.IsString items texts) (count : Nat) (value : Fin MAX_USER → Dhcp)
    (few : count ≤ texts.length) (room : count ≤ MAX_USER) :
    ∃ result, updateLoop (fun i user => do
      let obj ← lib.arrayGetIdx users i
      parseRequestUser lib obj user) count 0 value = some result := by
  have length := strings.length_eq
  obtain ⟨result, ran, _⟩ := updateLoop_spec (fun i user => do
      let obj ← lib.arrayGetIdx users i
      parseRequestUser lib obj user) (fun _ _ => True) count 0 value (by omega) (by
    intro j entry _ below
    have inItems : j < items.length := by omega
    have inTexts : j < texts.length := by omega
    have item : lib.arrayGetIdx users j = some items[j] := by
      rw [array.item j inItems, List.getElem?_eq_getElem inItems]
    have string : lib.getString items[j] = some texts[j] := (strings.get inItems inTexts).1
    obtain ⟨mac, printed⟩ := Option.isSome_iff_exists.1 (entry.mac.snprintf_isSome texts[j])
    refine ⟨{ entry with mac }, ?_, trivial⟩
    simp only [item, parseRequestUser, string, printed, Option.bind_eq_bind, Option.bind_some])
  exact ⟨result, ran⟩

theorem parseUsers_request (lib : JsonC Jso) (jso : Jso) (pair : DhcpPair)
    (mac : Option (List (List UInt8)))
    (member : Option.Rel (fun member texts => ∃ items, lib.IsArray member items ∧
      List.Forall₂ lib.IsString items texts) (lib.objectGetEx jso "mac") mac) :
    (∃ result, parseUsers lib "mac" (parseRequestUser lib) jso pair = some result ∧
      0 ≤ result.length ∧ result.length ≤ MAX_USER) ↔
      (∀ texts ∈ mac, 0 ≤ toInt texts.length ∧ toInt texts.length ≤ MAX_USER) ∧
      (mac = none → 0 ≤ pair.length ∧ pair.length ≤ MAX_USER) := by
  rw [parseUsers]
  generalize lib.objectGetEx jso "mac" = found at member
  cases member with
  | none => simp
  | @some users texts held =>
      obtain ⟨items, array, strings⟩ := held
      have length : lib.arrayLength users = texts.length := array.length.trans strings.length_eq
      simp only [userCount, if_pos array.type, length, Option.mem_some_iff, forall_eq']
      constructor
      · intro parsed
        obtain ⟨result, ran, nonneg, room⟩ := parsed
        obtain ⟨value, _, made⟩ := Option.bind_eq_some_iff.1 ran
        obtain rfl := Option.some.inj made
        dsimp only at nonneg room
        refine ⟨⟨nonneg, room⟩, ?_⟩
        intro absent
        cases absent
      · intro bounds
        obtain ⟨nonneg, room⟩ := bounds.1
        have fewer := toInt_le texts.length
        obtain ⟨value, ran⟩ := parseRequestUsers_defined lib users items texts array strings
          (toInt texts.length).toNat pair.value (by omega) (by omega)
        refine ⟨{ pair with length := toInt texts.length, value }, ?_, ?_⟩
        · rw [ran]
          rfl
        · dsimp only
          exact ⟨nonneg, room⟩

/-- A request is validated exactly when its two strings fit their arrays, and the number of its
users, or without a list of users the number that was there before, fits the array of users. -/
theorem validated_iff (lib : JsonC Jso) (text : List UInt8) (cmd apMac : Option (List UInt8))
    (mac : Option (List (List UInt8))) (jso : Jso) (request : Request lib text cmd apMac mac jso)
    (pair : DhcpPair) :
    Validated lib text pair ↔
      (∀ t ∈ cmd, t.length < CMD_LENGTH) ∧ (∀ t ∈ apMac, t.length < MAC_LENGTH) ∧
      (∀ texts ∈ mac, 0 ≤ toInt texts.length ∧ toInt texts.length ≤ MAX_USER) ∧
      (mac = none → 0 ≤ pair.length ∧ pair.length ≤ MAX_USER) := by
  have accepted := request.accepted
  rw [← copyMember_isSome lib jso "cmd" pair.cmd cmd request.cmd,
    ← copyMember_isSome lib jso "ap_mac" pair.apMac apMac request.apMac]
  constructor
  · intro validated
    obtain ⟨result, ran, bounds⟩ := validated
    simp only [parseRequestJson, parseJson, accepted, Option.bind_eq_bind] at ran
    obtain ⟨cmdCopy, cmdRan, ran⟩ := Option.bind_eq_some_iff.1 ran
    obtain ⟨apMacCopy, apMacRan, ran⟩ := Option.bind_eq_some_iff.1 ran
    obtain ⟨parsed, usersRan, made⟩ := Option.bind_eq_some_iff.1 ran
    obtain rfl := (Prod.mk.inj (Option.some.inj made)).2
    refine ⟨by rw [cmdRan]; rfl, by rw [apMacRan]; rfl, ?_⟩
    exact (parseUsers_request lib jso { pair with cmd := cmdCopy, apMac := apMacCopy } mac
      request.mac).1 ⟨parsed, usersRan, bounds⟩
  · intro fits
    obtain ⟨cmdFits, apMacFits, users⟩ := fits
    obtain ⟨cmdCopy, cmdRan⟩ := Option.isSome_iff_exists.1 cmdFits
    obtain ⟨apMacCopy, apMacRan⟩ := Option.isSome_iff_exists.1 apMacFits
    obtain ⟨result, usersRan, bounds⟩ := (parseUsers_request lib jso
      { pair with cmd := cmdCopy, apMac := apMacCopy } mac request.mac).2 users
    refine ⟨result, ?_, bounds⟩
    simp only [parseRequestJson, parseJson, accepted, cmdRan, apMacRan, usersRan,
      Option.bind_eq_bind, Option.bind_some]

theorem validated_iff_two_users :
    Request sampleC sampleRequest.print (some [0x63]) (some []) (some [[0x61], [0x62]]) sampleRequest ∧
      (Validated sampleC sampleRequest.print .zeroed ↔
        (∀ t ∈ some [(0x63 : UInt8)], t.length < CMD_LENGTH) ∧
        (∀ t ∈ some ([] : List UInt8), t.length < MAC_LENGTH) ∧
        (∀ texts ∈ some [[(0x61 : UInt8)], [0x62]],
          0 ≤ toInt texts.length ∧ toInt texts.length ≤ MAX_USER) ∧
        (some [[(0x61 : UInt8)], [0x62]] = none →
          0 ≤ DhcpPair.zeroed.length ∧ DhcpPair.zeroed.length ≤ MAX_USER)) := by
  have request : Request sampleC sampleRequest.print (some [0x63]) (some []) (some [[0x61], [0x62]])
      sampleRequest := by
    constructor
    · exact sampleC_request
    · exact .some ⟨rfl, rfl⟩
    · exact .some ⟨rfl, rfl⟩
    · refine .some ⟨[.string [0x61], .string [0x62]], ⟨rfl, rfl, ?_⟩, ?_⟩
      · intro i inside
        change some ([Json.string [0x61], .string [0x62]].getD i .null) = _
        rw [List.getD_eq_getElem?_getD, List.getElem?_eq_getElem inside, Option.getD_some]
      · exact .cons ⟨rfl, rfl⟩ (.cons ⟨rfl, rfl⟩ .nil)
  exact ⟨request, validated_iff sampleC _ _ _ _ _ request .zeroed⟩

def longCmd : Json := .object [("cmd", .string (List.replicate 32 0x61))]

/-- The terminator of a command of 32 bytes is stored behind `cmd`. -/
theorem long_cmd_overflows :
    ¬Validated (Json.library [longCmd]) longCmd.print .zeroed := by
  intro validated
  obtain ⟨result, ran, _⟩ := validated
  simp only [parseRequestJson, parseJson, Json.tokenerParse_first] at ran
  cases ran

end DataStructure.Dhcpinfo
