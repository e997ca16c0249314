import DataStructure.Lib.CharArray
import DataStructure.Lib.CText
import DataStructure.Lib.Scanf

/-! `get_brlan_gateway` of `socket/route.c`.

An `unsigned long` has 64 bits and the machine is little-endian. `none` stands for an access outside
an array, for the use of `interface` before it is set, and for a table that cannot be opened. -/

namespace DataStructure.Gateway

open DataStructure.Scanf DataStructure.CText

/-- `"%s%lx%lx%X%d%d%d%lx"` into `interface[32]`, three `unsigned long` and four `int`. -/
def routeFormat : List Directive :=
  [.word 32, .number 16 (-2 ^ 64) (2 ^ 64), .number 16 (-2 ^ 64) (2 ^ 64), .number 16 (-2 ^ 32) (2 ^ 32),
    .number 10 (-2 ^ 31) (2 ^ 31), .number 10 (-2 ^ 31) (2 ^ 31), .number 10 (-2 ^ 31) (2 ^ 31),
    .number 16 (-2 ^ 64) (2 ^ 64)]

def sAddr (g : Int) : Nat := (g % 2 ^ 32).toNat

def decimal (n : Nat) : List UInt8 := (Nat.toDigits 10 n).map fun c => UInt8.ofNat c.toNat

def inetNtoa (addr : Nat) : List UInt8 :=
  decimal (addr % 256) ++ 46 :: (decimal (addr / 2 ^ 8 % 256) ++
    46 :: (decimal (addr / 2 ^ 16 % 256) ++ 46 :: decimal (addr / 2 ^ 24 % 256)))

def strcpy {n : Nat} (a : CharArray n) (text : List UInt8) : Option (CharArray n) :=
  a.write 0 (text ++ [0])

def gatewayText (devname : Option (List UInt8)) (interface : List UInt8) (g : Int) : List UInt8 :=
  if devname = none ∨ devname = some interface then
    if sAddr g = 0 then [] else inetNtoa (sAddr g)
  else []

def copyGateway {n : Nat} (devname : Option (List UInt8)) (interface : List UInt8) (g flgs : Int)
    (sgw : CharArray n) : Option (CharArray n) :=
  if flgs % 2 = 1 then strcpy sgw (gatewayText devname interface g) else some sgw

def finish {n : Nat} (devname interface : Option (List UInt8)) (sgw : CharArray n) :
    Option (Int × CharArray n) :=
  match devname with
  | none => some (0, sgw)
  | some name => interface.map fun interface => (if interface = name then 0 else -1, sgw)

def routeLoop {n : Nat} (devname : Option (List UInt8)) :
    List (List UInt8) → Nat → Option (List UInt8) → CharArray n → Option (Int × CharArray n)
  | [], _, interface, sgw => finish devname interface sgw
  | buff :: lines, nl, interface, sgw =>
      if nl = 0 then routeLoop devname lines (nl + 1) interface sgw
      else do
        let (stored, _) ← scan routeFormat ⟨buff.takeWhile (· ≠ 0), false⟩
        match stored with
        | [.text interface, .number _, .number g, .number flgs, .number _, .number _, .number _,
            .number _] => do
            let sgw ← copyGateway devname interface g flgs sgw
            routeLoop devname lines (nl + 1) (some interface) sgw
        | _ => do
            let sgw ← strcpy sgw []
            some (-1, sgw)

/-- `get_brlan_gateway` with the content of `/proc/net/route`, and `none` for a NULL `devname`. -/
def getBrlanGateway {n : Nat} (table : Option (List UInt8)) (sgw : CharArray n)
    (devname : Option (List UInt8)) : Option (Int × CharArray n) := do
  let sgw ← sgw.write 0 [0]
  let text ← table
  routeLoop devname (CText.fgetsAll 10 255 text) 0 none sgw

structure Hex (digits : List UInt8) : Prop where
  nonempty : digits ≠ []
  short : digits.length ≤ 8
  all : ∀ c ∈ digits, isDigit 16 c

structure Decimal (digits : List UInt8) : Prop where
  nonempty : digits ≠ []
  all : ∀ c ∈ digits, isDigit 10 c
  small : digitsValue 10 digits < 2 ^ 31

/-- A route: the entries of its line, and the columns behind them in `more`. -/
structure Route where
  interface : List UInt8
  destination : List UInt8
  gateway : List UInt8
  flags : List UInt8
  refCnt : List UInt8
  use : List UInt8
  metric : List UInt8
  mask : List UInt8
  more : List UInt8
  interfaceWord : interface ≠ [] ∧ interface.length < 32 ∧ ∀ c ∈ interface, isspace c.toNat = false ∧ c ≠ 0
  destinationHex : Hex destination
  gatewayHex : Hex gateway
  flagsHex : Hex flags
  refCntDecimal : Decimal refCnt
  useDecimal : Decimal use
  metricDecimal : Decimal metric
  maskHex : Hex mask
  moreText : (∀ c ∈ more.head?, isspace c.toNat) ∧ ∀ c ∈ more, c ≠ 0 ∧ c ≠ 10

namespace Route

def line (r : Route) : List UInt8 :=
  r.interface ++ 9 :: (r.destination ++ 9 :: (r.gateway ++ 9 :: (r.flags ++ 9 :: (r.refCnt ++
    9 :: (r.use ++ 9 :: (r.metric ++ 9 :: (r.mask ++ r.more)))))))

def up (r : Route) : Prop := digitsValue 16 r.flags % 2 = 1

def gatewayValue (r : Route) : Nat := digitsValue 16 r.gateway

/-- An up route of the device that has a gateway. -/
def Wanted (devname : List UInt8) (r : Route) : Prop :=
  r.up ∧ r.interface = devname ∧ r.gatewayValue ≠ 0

instance (r : Route) : Decidable r.up := inferInstanceAs (Decidable (_ = _))

end Route

/-- A header line and route lines that fit `buff`. -/
structure Table where
  header : List UInt8
  routes : List Route
  headerLine : 10 ∉ header ∧ header.length < 255
  routeLines : ∀ r ∈ routes, r.line.length < 255

def Table.text (t : Table) : List UInt8 :=
  ((t.header :: t.routes.map Route.line).map (· ++ [10])).flatten

theorem plain_of_isDigit {base : Nat} {c : UInt8} (small : base ≤ 16) (digit : isDigit base c) :
    c ≠ 0 ∧ c ≠ 10 := by
  rw [isDigit, decide_eq_true_eq] at digit
  constructor
  · intro zero
    subst zero
    have value : digitValue 0 = 16 := by decide
    omega
  · intro newline
    subst newline
    have value : digitValue 10 = 16 := by decide
    omega

theorem Route.line_plain (r : Route) : ∀ c ∈ r.line, c ≠ 0 ∧ c ≠ 10 := by
  have tab : (9 : UInt8) ≠ 0 ∧ (9 : UInt8) ≠ 10 := by decide
  have interface : ∀ c ∈ r.interface, c ≠ 0 ∧ c ≠ 10 := by
    intro c inside
    obtain ⟨black, nonzero⟩ := r.interfaceWord.2.2 c inside
    refine ⟨nonzero, ?_⟩
    intro newline
    subst newline
    exact absurd black (by decide)
  have hex (digits : List UInt8) (number : Hex digits) : ∀ c ∈ digits, c ≠ 0 ∧ c ≠ 10 :=
    fun c inside => plain_of_isDigit le_rfl (number.all c inside)
  have dec (digits : List UInt8) (number : Decimal digits) : ∀ c ∈ digits, c ≠ 0 ∧ c ≠ 10 :=
    fun c inside => plain_of_isDigit (by norm_num) (number.all c inside)
  have glue (front back : List UInt8) (first : ∀ c ∈ front, c ≠ 0 ∧ c ≠ 10)
      (second : ∀ c ∈ back, c ≠ 0 ∧ c ≠ 10) : ∀ c ∈ front ++ 9 :: back, c ≠ 0 ∧ c ≠ 10 := by
    intro c inside
    rcases List.mem_append.mp inside with inside | inside
    · exact first c inside
    · rcases List.mem_cons.mp inside with rfl | inside
      · exact tab
      · exact second c inside
  rw [Route.line]
  apply glue _ _ interface
  apply glue _ _ (hex _ r.destinationHex)
  apply glue _ _ (hex _ r.gatewayHex)
  apply glue _ _ (hex _ r.flagsHex)
  apply glue _ _ (dec _ r.refCntDecimal)
  apply glue _ _ (dec _ r.useDecimal)
  apply glue _ _ (dec _ r.metricDecimal)
  intro c inside
  rcases List.mem_append.mp inside with inside | inside
  · exact hex _ r.maskHex c inside
  · exact r.moreText.2 c inside

theorem Hex.lt {digits : List UInt8} (number : Hex digits) : digitsValue 16 digits < 2 ^ 32 :=
  calc
    _ < 16 ^ digits.length := digitsValue_lt number.all
    _ ≤ 16 ^ 8 := Nat.pow_le_pow_right (by norm_num) number.short
    _ = 2 ^ 32 := by norm_num

theorem Hex.read {digits : List UInt8} (number : Hex digits) {lower upper : Int} (low : lower ≤ 0)
    (wide : 2 ^ 32 ≤ upper) {c : UInt8} (stop : isspace c.toNat) (rest : List UInt8) :
    (Directive.number 16 lower upper).read ⟨[9] ++ (digits ++ c :: rest), false⟩ =
      .read (some (.number (digitsValue 16 digits))) ⟨c :: rest, false⟩ := by
  have tab : ∀ c ∈ [(9 : UInt8)], isspace c.toNat := by simp [isspace]
  have fits : (digitsValue 16 digits : Int) < upper := by
    have value := number.lt
    omega
  exact read_number le_rfl tab number.nonempty number.all stop low fits

theorem Decimal.read {digits : List UInt8} (number : Decimal digits) {lower upper : Int}
    (low : lower ≤ 0) (wide : 2 ^ 31 ≤ upper) (rest : List UInt8) :
    (Directive.number 10 lower upper).read ⟨[9] ++ (digits ++ 9 :: rest), false⟩ =
      .read (some (.number (digitsValue 10 digits))) ⟨9 :: rest, false⟩ := by
  have tab : ∀ c ∈ [(9 : UInt8)], isspace c.toNat := by simp [isspace]
  have stop : isspace (9 : UInt8).toNat := by decide
  have fits : (digitsValue 10 digits : Int) < upper := by
    have value := number.small
    omega
  exact read_number (by norm_num) tab number.nonempty number.all stop low fits

theorem Route.behind_mask (r : Route) : ∃ c rest, r.more ++ [10] = c :: rest ∧ isspace c.toNat := by
  cases more : r.more with
  | nil => exact ⟨10, [], rfl, by decide⟩
  | cons c rest =>
      refine ⟨c, rest ++ [10], rfl, r.moreText.1 c ?_⟩
      rw [more]
      rfl

theorem Route.scan_line (r : Route) : ∃ d ref use metric m left,
    scan routeFormat ⟨(r.line ++ [10]).takeWhile (· ≠ 0), false⟩ =
      some ([.text r.interface, .number d, .number r.gatewayValue, .number (digitsValue 16 r.flags),
        .number ref, .number use, .number metric, .number m], left) := by
  have whole : (r.line ++ [10]).takeWhile (· ≠ 0) = r.line ++ [10] := by
    apply CharArray.takeWhile_clean
    intro zero
    rcases List.mem_append.mp zero with inside | newline
    · exact (r.line_plain 0 inside).1 rfl
    · simp at newline
  obtain ⟨c, rest, ends, blank⟩ := r.behind_mask
  have text : r.line ++ [10] = [] ++ (r.interface ++ 9 :: (r.destination ++ 9 :: (r.gateway ++
      9 :: (r.flags ++ 9 :: (r.refCnt ++ 9 :: (r.use ++ 9 :: (r.metric ++ 9 :: (r.mask ++
        c :: rest)))))))) := by
    simp [Route.line, ends]
  have nothing : ∀ c ∈ ([] : List UInt8), isspace c.toNat := by simp
  have stop : isspace (9 : UInt8).toNat := by decide
  obtain ⟨word, short, black⟩ := r.interfaceWord
  rw [whole, text, routeFormat]
  refine ⟨digitsValue 16 r.destination, digitsValue 10 r.refCnt, digitsValue 10 r.use,
    digitsValue 10 r.metric, digitsValue 16 r.mask, ⟨c :: rest, false⟩, ?_⟩
  apply scan_store (read_word nothing word (fun c inside => (black c inside).1) short stop)
  apply scan_store (r.destinationHex.read (by norm_num) (by norm_num) stop _)
  apply scan_store (r.gatewayHex.read (by norm_num) (by norm_num) stop _)
  apply scan_store (r.flagsHex.read (by norm_num) (by norm_num) stop _)
  apply scan_store (r.refCntDecimal.read (by norm_num) (by norm_num) _)
  apply scan_store (r.useDecimal.read (by norm_num) (by norm_num) _)
  apply scan_store (r.metricDecimal.read (by norm_num) (by norm_num) _)
  exact scan_store (r.maskHex.read (by norm_num) (by norm_num) blank _) rfl

def shown (devname : Option (List UInt8)) (text : List UInt8) (routes : List Route) : List UInt8 :=
  routes.foldl (fun text r => if r.up then gatewayText devname r.interface r.gatewayValue else text) text

def lastInterface (interface : Option (List UInt8)) (routes : List Route) : Option (List UInt8) :=
  routes.foldl (fun _ r => some r.interface) interface

theorem decimal_length {n : Nat} (small : n < 256) : (decimal n).length ≤ 3 := by
  rw [decimal, List.length_map]
  exact (Nat.length_toDigits_le_iff (by norm_num) (by norm_num)).mpr (by omega)

theorem decimal_clean (n : Nat) : 0 ∉ decimal n := by
  intro zero
  obtain ⟨c, member, value⟩ := List.mem_map.mp zero
  have digit := Nat.isDigit_of_mem_toDigits (by norm_num) le_rfl member
  simp only [Char.isDigit, Bool.and_eq_true, decide_eq_true_eq, UInt32.le_iff_toNat_le] at digit
  have low : 48 ≤ c.toNat := digit.1
  have high : c.toNat ≤ 57 := digit.2
  have same : c.toNat % 256 = 0 := by simpa using congrArg UInt8.toNat value
  omega

theorem inetNtoa_spec (addr : Nat) :
    0 ∉ inetNtoa addr ∧ (inetNtoa addr).length ≤ 15 ∧ inetNtoa addr ≠ [] := by
  have one := decimal_length (Nat.mod_lt addr (by norm_num : 256 > 0))
  have two := decimal_length (Nat.mod_lt (addr / 2 ^ 8) (by norm_num : 256 > 0))
  have three := decimal_length (Nat.mod_lt (addr / 2 ^ 16) (by norm_num : 256 > 0))
  have four := decimal_length (Nat.mod_lt (addr / 2 ^ 24) (by norm_num : 256 > 0))
  refine ⟨?_, ?_, ?_⟩
  · simp [inetNtoa, decimal_clean]
  · simp only [inetNtoa, List.length_append, List.length_cons]
    omega
  · simp [inetNtoa]

theorem gatewayText_spec (devname : Option (List UInt8)) (interface : List UInt8) (g : Int) :
    0 ∉ gatewayText devname interface g ∧ (gatewayText devname interface g).length ≤ 15 := by
  obtain ⟨clean, short, -⟩ := inetNtoa_spec (sAddr g)
  rw [gatewayText]
  split
  · split
    · simp
    · exact ⟨clean, short⟩
  · simp

theorem strcpy_spec {n : Nat} (a : CharArray n) {text : List UInt8} (clean : 0 ∉ text)
    (room : text.length < n) : ∃ b, strcpy a text = some b ∧ b.cString = some text := by
  obtain ⟨b, wrote⟩ := a.exists_write (by rw [List.length_append, List.length_singleton]; omega :
    0 + (text ++ [0]).length ≤ n)
  exact ⟨b, wrote, CharArray.cString_write clean wrote⟩

section Loop

variable {n : Nat} (room : 16 ≤ n) (devname : Option (List UInt8))

include room

theorem copyGateway_spec (r : Route) {text : List UInt8} (sgw : CharArray n)
    (held : sgw.cString = some text) :
    ∃ sgw', copyGateway devname r.interface r.gatewayValue (digitsValue 16 r.flags) sgw = some sgw' ∧
      sgw'.cString = some (shown devname text [r]) := by
  have parity : ((digitsValue 16 r.flags : Int) % 2 = 1) ↔ r.up := by
    rw [Route.up]
    omega
  have step : shown devname text [r] =
      if r.up then gatewayText devname r.interface r.gatewayValue else text := rfl
  rw [copyGateway, step]
  by_cases up : r.up
  · rw [if_pos (parity.2 up), if_pos up]
    obtain ⟨clean, short⟩ := gatewayText_spec devname r.interface r.gatewayValue
    exact strcpy_spec sgw clean (by omega)
  · rw [if_neg (mt parity.1 up), if_neg up]
    exact ⟨sgw, rfl, held⟩

theorem routeLoop_spec (routes : List Route) (nl : Nat) (later : nl ≠ 0)
    (interface : Option (List UInt8)) {text : List UInt8} (sgw : CharArray n)
    (held : sgw.cString = some text) :
    ∃ sgw', routeLoop devname (routes.map fun r => r.line ++ [10]) nl interface sgw =
        finish devname (lastInterface interface routes) sgw' ∧
      sgw'.cString = some (shown devname text routes) := by
  induction routes generalizing nl interface text sgw with
  | nil => exact ⟨sgw, rfl, held⟩
  | cons r routes ih =>
      obtain ⟨d, ref, use, metric, m, left, scanned⟩ := r.scan_line
      obtain ⟨sgw₁, copied, held₁⟩ := copyGateway_spec room devname r sgw held
      obtain ⟨sgw₂, ran, held₂⟩ := ih (nl + 1) (by omega) (some r.interface) sgw₁ held₁
      refine ⟨sgw₂, ?_, held₂⟩
      rw [List.map_cons, routeLoop, if_neg later, scanned, Option.bind_eq_bind, Option.bind_some]
      dsimp only
      rw [copied]
      exact ran

/-- `get_brlan_gateway` on a table: `sgw` and `interface` are what the last routes made of them. -/
theorem getBrlanGateway_spec (t : Table) (sgw : CharArray n) :
    ∃ sgw', getBrlanGateway (some t.text) sgw devname =
        finish devname (lastInterface none t.routes) sgw' ∧
      sgw'.cString = some (shown devname [] t.routes) := by
  have lines : CText.fgetsAll 10 255 t.text = (t.header ++ [10]) :: t.routes.map fun r => r.line ++ [10] := by
    rw [Table.text, CText.fgetsAll_lines, List.map_cons, List.map_map]
    · rfl
    · intro line member
      rcases List.mem_cons.mp member with rfl | inside
      · exact t.headerLine
      · obtain ⟨r, listed, rfl⟩ := List.mem_map.mp inside
        exact ⟨fun newline => (r.line_plain 10 newline).2 rfl, t.routeLines r listed⟩
  obtain ⟨cleared, wrote, empty⟩ := strcpy_spec sgw (List.not_mem_nil (a := 0)) (by simp; omega)
  obtain ⟨sgw', ran, held⟩ := routeLoop_spec room devname t.routes 1 one_ne_zero none cleared empty
  refine ⟨sgw', ?_, held⟩
  rw [getBrlanGateway, show sgw.write 0 [0] = some cleared from wrote, Option.bind_eq_bind,
    Option.bind_some, Option.bind_eq_bind, Option.bind_some, lines, routeLoop, if_pos rfl]
  exact ran

end Loop

theorem Route.sAddr_gateway (r : Route) : sAddr r.gatewayValue = r.gatewayValue := by
  have small : r.gatewayValue < 2 ^ 32 := r.gatewayHex.lt
  rw [sAddr]
  omega

theorem gatewayText_wanted {devname : List UInt8} {r : Route} (wanted : r.Wanted devname) :
    gatewayText (some devname) r.interface r.gatewayValue = inetNtoa r.gatewayValue := by
  rw [gatewayText, if_pos (.inr (congrArg some wanted.2.1.symm)), r.sAddr_gateway, if_neg wanted.2.2]

theorem gatewayText_unwanted {devname : List UInt8} {r : Route} (up : r.up)
    (unwanted : ¬r.Wanted devname) :
    gatewayText (some devname) r.interface r.gatewayValue = [] := by
  rw [gatewayText, r.sAddr_gateway]
  split
  · next same =>
      have device : devname = r.interface := by simpa using same
      rw [if_pos]
      by_contra nonzero
      exact unwanted ⟨up, device.symm, nonzero⟩
  · rfl

/-- Every up route that is not wanted clears `sgw`. -/
theorem shown_unwanted {devname : List UInt8} {routes : List Route} (text : List UInt8)
    (others : ∀ r ∈ routes, ¬r.Wanted devname) :
    shown (some devname) text routes = if ∃ r ∈ routes, r.up then [] else text := by
  induction routes generalizing text with
  | nil => simp [shown]
  | cons r routes ih =>
      have rest := ih (if r.up then gatewayText (some devname) r.interface r.gatewayValue else text)
        fun other inside => others other (List.mem_cons_of_mem r inside)
      have step : shown (some devname) text (r :: routes) = shown (some devname)
        (if r.up then gatewayText (some devname) r.interface r.gatewayValue else text) routes := rfl
      rw [step, rest]
      by_cases up : r.up
      · simp [up, gatewayText_unwanted up (others r List.mem_cons_self)]
      · simp [up]

theorem shown_wanted {devname : List UInt8} {before after : List Route} {wanted : Route}
    (isWanted : wanted.Wanted devname) (others : ∀ r ∈ after, ¬r.Wanted devname) :
    shown (some devname) [] (before ++ wanted :: after) =
      if ∃ r ∈ after, r.up then [] else inetNtoa wanted.gatewayValue := by
  have split : shown (some devname) [] (before ++ wanted :: after) = shown (some devname)
      (if wanted.up then gatewayText (some devname) wanted.interface wanted.gatewayValue
        else shown (some devname) [] before) after := by
    rw [shown, List.foldl_append]
    rfl
  rw [split, if_pos isWanted.1, gatewayText_wanted isWanted, shown_unwanted _ others]

theorem lastInterface_last (before after : List Route) (wanted : Route) :
    lastInterface none (before ++ wanted :: after) = some (after.getLast?.getD wanted).interface := by
  rcases List.eq_nil_or_concat after with rfl | ⟨front, last, rfl⟩
  · simp [lastInterface]
  · simp [lastInterface]

theorem gateway_result {n : Nat} (room : 16 ≤ n) (t : Table) {devname : List UInt8}
    {before after : List Route} {wanted : Route} (split : t.routes = before ++ wanted :: after)
    (isWanted : wanted.Wanted devname) (others : ∀ r ∈ after, ¬r.Wanted devname) (sgw : CharArray n) :
    ∃ sgw', getBrlanGateway (some t.text) sgw (some devname) =
        some (if (after.getLast?.getD wanted).interface = devname then 0 else -1, sgw') ∧
      sgw'.cString = some (if ∃ r ∈ after, r.up then [] else inetNtoa wanted.gatewayValue) := by
  obtain ⟨sgw', ran, held⟩ := getBrlanGateway_spec room (some devname) t sgw
  rw [split, shown_wanted isWanted others] at held
  rw [split, lastInterface_last] at ran
  exact ⟨sgw', ran, held⟩

/-- On a table with one up route of the device that has a gateway, `get_brlan_gateway` returns 0 with
that gateway exactly if no route behind it is up and the last route of the table is one of the device. -/
theorem gateway_found_iff {n : Nat} (room : 16 ≤ n) (t : Table) (devname : List UInt8)
    (before after : List Route) (wanted : Route) (split : t.routes = before ++ wanted :: after)
    (isWanted : wanted.Wanted devname) (others : ∀ r ∈ after, ¬r.Wanted devname) (sgw : CharArray n) :
    (∃ sgw', getBrlanGateway (some t.text) sgw (some devname) = some (0, sgw') ∧
      sgw'.cString = some (inetNtoa wanted.gatewayValue)) ↔
      (∀ r ∈ after, ¬r.up) ∧ (after.getLast?.getD wanted).interface = devname := by
  obtain ⟨sgw', ran, held⟩ := gateway_result room t split isWanted others sgw
  constructor
  · intro found
    obtain ⟨copied, ran', dotted⟩ := found
    obtain ⟨code, same⟩ := Prod.mk.inj (Option.some.inj (ran.symm.trans ran'))
    subst same
    constructor
    · intro r inside up
      rw [held, if_pos ⟨r, inside, up⟩] at dotted
      exact (inetNtoa_spec wanted.gatewayValue).2.2 (Option.some.inj dotted).symm
    · by_contra other
      rw [if_neg other] at code
      cases code
  · intro behind
    obtain ⟨down, last⟩ := behind
    have none : ¬∃ r ∈ after, r.up := by
      intro found
      obtain ⟨r, inside, up⟩ := found
      exact down r inside up
    rw [if_neg none] at held
    rw [if_pos last] at ran
    exact ⟨sgw', ran, held⟩

def sampleRoute (interface gateway : UInt8) (word : isspace interface.toNat = false ∧ interface ≠ 0)
    (digit : isDigit 16 gateway) : Route where
  interface := [interface]
  destination := [48]
  gateway := [gateway]
  flags := [49]
  refCnt := [48]
  use := [48]
  metric := [48]
  mask := [48]
  more := []
  interfaceWord := by simpa using word
  destinationHex := ⟨by simp, by simp, by simp [isDigit, digitValue]⟩
  gatewayHex := ⟨by simp, by simp, by simpa using digit⟩
  flagsHex := ⟨by simp, by simp, by simp [isDigit, digitValue]⟩
  refCntDecimal := ⟨by simp, by simp [isDigit, digitValue], by simp [digitsValue, digitValue]⟩
  useDecimal := ⟨by simp, by simp [isDigit, digitValue], by simp [digitsValue, digitValue]⟩
  metricDecimal := ⟨by simp, by simp [isDigit, digitValue], by simp [digitsValue, digitValue]⟩
  maskHex := ⟨by simp, by simp, by simp [isDigit, digitValue]⟩
  moreText := by simp

def routeA : Route := sampleRoute 97 49 (by decide) (by decide)

def routeB : Route := sampleRoute 98 48 (by decide) (by decide)

theorem routeA_wanted : routeA.Wanted [97] := ⟨by decide, rfl, by decide⟩

def tableBA : Table where
  header := [73]
  routes := [routeB, routeA]
  headerLine := by decide
  routeLines := by simp [routeA, routeB, sampleRoute, Route.line]

def tableAB : Table where
  header := [73]
  routes := [routeA, routeB]
  headerLine := by decide
  routeLines := by simp [routeA, routeB, sampleRoute, Route.line]

theorem gateway_found_second : tableBA.routes = [routeB] ++ routeA :: [] ∧ routeA.Wanted [97] ∧
    ((∃ sgw', getBrlanGateway (some tableBA.text) (.zeroed 32) (some [97]) = some (0, sgw') ∧
      sgw'.cString = some (inetNtoa routeA.gatewayValue)) ↔
      (∀ r ∈ ([] : List Route), ¬r.up) ∧ (([] : List Route).getLast?.getD routeA).interface = [97]) :=
  ⟨rfl, routeA_wanted, gateway_found_iff (by norm_num) tableBA [97] [routeB] [] routeA rfl
    routeA_wanted (by simp) (.zeroed 32)⟩

/-- A route of another device behind the wanted one clears `sgw`, and -1 is returned. -/
theorem gateway_lost_behind : ¬∃ sgw',
    getBrlanGateway (some tableAB.text) (.zeroed 32) (some [97]) = some (0, sgw') ∧
      sgw'.cString = some (inetNtoa routeA.gatewayValue) := by
  have others : ∀ r ∈ [routeB], ¬r.Wanted [97] := by
    intro r inside wanted
    rw [List.mem_singleton.mp inside] at wanted
    exact absurd wanted.2.1 (by decide)
  obtain ⟨sgw', ran, -⟩ := @gateway_result 32 (by norm_num) tableAB [97] [] [routeB] routeA rfl
    routeA_wanted others (.zeroed 32)
  intro found
  obtain ⟨copied, ran', -⟩ := found
  have code := (Prod.mk.inj (Option.some.inj (ran.symm.trans ran'))).1
  revert code
  decide

end DataStructure.Gateway
