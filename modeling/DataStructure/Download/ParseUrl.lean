import DataStructure.Lib.CText
import DataStructure.Lib.CharArray

/-! `parse_url` of `socket/libcurl/multithreaddownload.c`, with the buffers of
`replace_domain_with_ip`.

An access outside an array, `NULL` in the place of a position and an unterminated string give
`none`. -/

namespace DataStructure.ParseUrl

open CText CharArray

def colon : UInt8 := 58

def slash : UInt8 := 47

def http : List UInt8 := [104, 116, 116, 112, 58, 47, 47]

structure Parsed where
  ret : Int
  domain : CharArray 256
  port : Int
  url : CharArray 256

/-- The branch with a port; the colon is at offset `stop` of `start`. -/
def withPort (start : List UInt8) (stop : Nat) (domain url : CharArray 256) : Option Parsed := do
  let domain ← domain.write 0 (start.take stop)
  let _ ← domain.cString
  let start := start.drop (stop + 1)
  let stop ← strchr start slash
  let portstr ← (zeroed 10).write 0 (start.take stop)
  let port ← atoi ((← portstr.cString).map Char.ofUInt8)
  -- `memcpy` of `strlen(start)` bytes does not copy the terminator
  let url ← url.write 0 (start.drop stop)
  let _ ← url.cString
  some ⟨0, domain, port, url⟩

def withoutPort (start : List UInt8) (domain url : CharArray 256) : Option Parsed := do
  let stop ← strchr start slash
  let domain ← domain.write 0 (start.take stop)
  let _ ← domain.cString
  let url ← url.write 0 (start.drop stop ++ [0])
  some ⟨0, domain, 80, url⟩

def parseUrl (portalurl : List UInt8) (domain : CharArray 256) (port : Int)
    (url : CharArray 256) : Option Parsed := do
  let urlstr ← (zeroed 256).write 0 (portalurl ++ [0])
  let start ← urlstr.cString
  if (strstr http start).isSome then
    let start := start.drop http.length
    match strchr start colon with
    | some stop => withPort start stop domain url
    | none => withoutPort start domain url
  else some ⟨-1, domain, port, url⟩

def portValue (digits : List UInt8) : Nat := Nat.ofDigitChars 10 (digits.map Char.ofUInt8) 0

def urlText (host : List UInt8) (port : Option (List UInt8)) (path : List UInt8) : List UInt8 :=
  http ++ (host ++ (port.elim [] (colon :: ·) ++ slash :: path))

structure Form (host : List UInt8) (port : Option (List UInt8)) (path : List UInt8) : Prop where
  hostClean : 0 ∉ host ∧ slash ∉ host ∧ colon ∉ host
  portDigits : ∀ digits ∈ port, digits.length ≤ 5 ∧ ∀ c ∈ digits, (Char.ofUInt8 c).isDigit
  pathClean : 0 ∉ path
  short : (urlText host port path).length < 256

def Splits (host : List UInt8) (port : Option (List UInt8)) (path : List UInt8) (before : Int)
    (url : CharArray 256) : Prop :=
  ∃ parsed, parseUrl (urlText host port path) (zeroed 256) before url = some parsed ∧
    parsed.ret = 0 ∧ parsed.domain.cString = some host ∧
    parsed.port = port.elim 80 (fun digits => (portValue digits : Int)) ∧
    parsed.url.cString = some (slash :: path)

section Forms

variable {host path : List UInt8} {port : Option (List UInt8)}

theorem Form.port_clean {digits : List UInt8} (form : Form host (some digits) path) (c : UInt8)
    (other : (Char.ofUInt8 c).isDigit = false) : c ∉ digits := by
  intro member
  have digit := (form.portDigits digits rfl).2 c member
  rw [other] at digit
  cases digit

theorem Form.clean (form : Form host port path) : 0 ∉ urlText host port path := by
  have none_in_http : (0 : UInt8) ∉ http := by decide
  have port_part : 0 ∉ port.elim [] (colon :: ·) := by
    cases port with
    | none => exact List.not_mem_nil
    | some digits =>
        have free := form.port_clean 0 (by decide)
        simpa [colon] using free
  simp only [urlText, List.mem_append, List.mem_cons, not_or]
  exact ⟨none_in_http, form.hostClean.1, port_part, by decide, form.pathClean⟩

theorem slash_path_clean (form : Form host port path) : 0 ∉ slash :: path := by
  rw [List.mem_cons, not_or]
  exact ⟨by decide, form.pathClean⟩

theorem parseUrl_scheme (form : Form host port path) (before : Int) (url : CharArray 256) :
    parseUrl (urlText host port path) (zeroed 256) before url =
      match strchr (host ++ (port.elim [] (colon :: ·) ++ slash :: path)) colon with
      | some stop => withPort (host ++ (port.elim [] (colon :: ·) ++ slash :: path)) stop
          (zeroed 256) url
      | none => withoutPort (host ++ (port.elim [] (colon :: ·) ++ slash :: path))
          (zeroed 256) url := by
  have short := form.short
  obtain ⟨urlstr, wrote⟩ := (zeroed 256).exists_write
    (by rw [List.length_append, List.length_singleton]; omega :
      0 + (urlText host port path ++ [0]).length ≤ 256)
  have held := cString_write form.clean wrote
  have scheme : (strstr http (urlText host port path)).isSome := by
    rw [urlText, http, strstr_front]
    rfl
  simp only [parseUrl, wrote, held, Option.bind_eq_bind, Option.bind_some, scheme, if_true]
  rw [urlText, List.drop_left]

theorem withoutPort_spec (form : Form host none path) (url : CharArray 256) :
    ∃ parsed, withoutPort (host ++ slash :: path) (zeroed 256) url = some parsed ∧
      parsed.ret = 0 ∧ parsed.domain.cString = some host ∧ parsed.port = 80 ∧
      parsed.url.cString = some (slash :: path) := by
  have short := form.short
  simp only [urlText, List.length_append, Option.elim_none, List.length_nil, List.length_cons]
    at short
  obtain ⟨domain, stored⟩ := (zeroed 256).exists_write (by omega : 0 + host.length ≤ 256)
  obtain ⟨target, copied⟩ := url.exists_write
    (by simp only [List.length_append, List.length_cons, List.length_nil]; omega :
      0 + (slash :: path ++ [0]).length ≤ 256)
  have name := zeroed_copied form.hostClean.1 (by omega) stored
  refine ⟨⟨0, domain, 80, target⟩, ?_, rfl, name, rfl,
    cString_write (slash_path_clean form) copied⟩
  simp only [withoutPort, strchr_first form.hostClean.2.1 path, Option.bind_eq_bind,
    Option.bind_some, List.take_left, List.drop_left, stored, name, copied]

theorem withPort_domain {start : List UInt8} {stop : Nat} {domain url : CharArray 256}
    {parsed : Parsed} (ran : withPort start stop domain url = some parsed) :
    domain.write 0 (start.take stop) = some parsed.domain := by
  simp only [withPort, Option.bind_eq_bind, Option.bind_eq_some_iff] at ran
  obtain ⟨stored, wrote, _, _, _, _, _, _, _, _, _, _, _, _, _, _, result⟩ := ran
  rw [← Option.some.inj result]
  exact wrote

theorem withPort_spec {digits : List UInt8} (form : Form host (some digits) path)
    (url : CharArray 256) :
    ∃ domain target, domain.cString = some host ∧ url.write 0 (slash :: path) = some target ∧
      withPort (host ++ (colon :: digits ++ slash :: path)) host.length (zeroed 256) url =
        target.cString.map fun _ => ⟨0, domain, portValue digits, target⟩ := by
  have short := form.short
  simp only [urlText, List.length_append, Option.elim_some, List.length_cons] at short
  obtain ⟨few, each⟩ := form.portDigits digits rfl
  obtain ⟨domain, stored⟩ := (zeroed 256).exists_write (by omega : 0 + host.length ≤ 256)
  obtain ⟨portstr, filled⟩ := (zeroed 10).exists_write (by omega : 0 + digits.length ≤ 10)
  obtain ⟨target, copied⟩ := url.exists_write
    (by rw [List.length_cons]; omega : 0 + (slash :: path).length ≤ 256)
  have name := zeroed_copied form.hostClean.1 (by omega) stored
  have number := zeroed_copied (form.port_clean 0 (by decide)) (by omega) filled
  have plain : ∀ c ∈ digits.map Char.ofUInt8, c.isDigit := by
    intro c member
    obtain ⟨byte, inside, rfl⟩ := List.mem_map.mp member
    exact each byte inside
  have small : portValue digits < 2 ^ 31 := by
    have bound := ofDigitChars_lt plain 0
    rw [List.length_map] at bound
    calc
      portValue digits < (0 + 1) * 10 ^ digits.length := bound
      _ ≤ (0 + 1) * 10 ^ 5 := Nat.mul_le_mul_left _ (Nat.pow_le_pow_right (by norm_num) few)
      _ < 2 ^ 31 := by norm_num
  have value : atoi (digits.map Char.ofUInt8) = some (portValue digits : Int) :=
    atoi_digits plain small
  have behind : (host ++ (colon :: digits ++ slash :: path)).drop (host.length + 1) =
      digits ++ slash :: path := by
    rw [← List.drop_drop, List.drop_left]
    rfl
  have slashAt : strchr (digits ++ slash :: path) slash = some digits.length :=
    strchr_first (form.port_clean slash (by decide)) path
  refine ⟨domain, target, name, copied, ?_⟩
  simp only [withPort, List.take_left, stored, name, behind, slashAt, filled, number, value,
    List.drop_left, copied, Option.bind_eq_bind, Option.bind_some]
  cases target.cString <;> rfl

theorem colon_absent (clean : colon ∉ host) {front : List UInt8} (rest : colon ∉ front) :
    colon ∉ host ++ slash :: front := by
  rw [List.mem_append, List.mem_cons, not_or, not_or]
  exact ⟨clean, by decide, rest⟩

/-- Without a port a colon in the path makes a part of the path belong to the domain. -/
theorem colon_path_domain {front back : List UInt8} (form : Form host none (front ++ colon :: back))
    (clean : colon ∉ front) {before : Int} {url : CharArray 256} {parsed : Parsed}
    (ran : parseUrl (urlText host none (front ++ colon :: back)) (zeroed 256) before url =
      some parsed) : parsed.domain.cString = some (host ++ slash :: front) := by
  have text : host ++ slash :: (front ++ colon :: back) =
      (host ++ slash :: front) ++ colon :: back := by simp
  have short := form.short
  have whole := form.clean
  rw [parseUrl_scheme form] at ran
  simp only [Option.elim_none, List.nil_append] at ran
  rw [text, strchr_first (colon_absent form.hostClean.2.2 clean)] at ran
  have stored := withPort_domain ran
  rw [List.take_left] at stored
  simp only [urlText, Option.elim_none, List.nil_append, List.mem_append, List.mem_cons, not_or]
    at whole
  simp only [urlText, List.length_append, Option.elim_none, List.length_nil, List.length_cons]
    at short
  apply zeroed_copied _ _ stored
  · simp only [List.mem_append, List.mem_cons, not_or]
    exact ⟨whole.2.1, whole.2.2.1, whole.2.2.2.1⟩
  · rw [List.length_append, List.length_cons]
    omega

end Forms

/-- Host, port and path are recovered exactly if there is no port and no colon in the path, or there
is a port and `url` held a zero where its string ends. -/
theorem parseUrl_splits_iff (host : List UInt8) (port : Option (List UInt8)) (path : List UInt8)
    (form : Form host port path) (before : Int) (url : CharArray 256) :
    Splits host port path before url ↔
      (port = none ∧ colon ∉ path) ∨ (port ≠ none ∧ url.bytes[path.length + 1]? = some 0) := by
  rw [Splits]
  cases port with
  | none =>
      simp only [true_and, ne_eq, not_true_eq_false, false_and, or_false]
      by_cases inside : colon ∈ path
      · obtain ⟨front, back, rfl, clean⟩ := List.eq_append_cons_of_mem inside
        apply iff_of_false _ (not_not.mpr inside)
        intro split
        obtain ⟨parsed, ran, -, domain, -, -⟩ := split
        rw [colon_path_domain form clean ran] at domain
        have lengths := congrArg (Option.map List.length) domain
        simp at lengths
      · rw [parseUrl_scheme form]
        simp only [Option.elim_none, List.nil_append]
        rw [strchr_absent (colon_absent form.hostClean.2.2 inside)]
        exact iff_of_true (withoutPort_spec form url) inside
  | some digits =>
      simp only [reduceCtorEq, false_and, ne_eq, not_false_eq_true, true_and, false_or]
      obtain ⟨domain, target, name, copied, ran⟩ := withPort_spec form url
      have found : strchr (host ++ (colon :: digits ++ slash :: path)) colon = some host.length := by
        rw [List.cons_append]
        exact strchr_first form.hostClean.2.2 _
      rw [parseUrl_scheme form]
      simp only [Option.elim_some, found, ran]
      rw [← List.length_cons (a := slash), ← cString_copied_iff (slash_path_clean form) copied]
      constructor
      · intro split
        obtain ⟨parsed, result, -, -, -, held⟩ := split
        obtain ⟨text, -, same⟩ := Option.map_eq_some_iff.mp result
        rw [← same] at held
        exact held
      · intro held
        exact ⟨_, by rw [held, Option.map_some], rfl, name, rfl, held⟩

theorem parseUrl_splits_default_port :
    Splits [104] none [97] 0 (zeroed 256) ↔
      ((none : Option (List UInt8)) = none ∧ colon ∉ [97]) ∨
        ((none : Option (List UInt8)) ≠ none ∧ (zeroed 256).bytes[1 + 1]? = some 0) := by
  apply parseUrl_splits_iff [104] none [97]
  refine ⟨by decide, ?_, by decide, by decide⟩
  intro digits absent
  cases absent

/-- A colon in the path is taken for the one before a port: `http://h/a:b` has no slash behind it. -/
theorem colon_in_path_fails : ¬Splits [104] none [97, 58, 98] 0 (zeroed 256) := by
  intro split
  obtain ⟨parsed, ran, -⟩ := split
  have undefined : parseUrl (urlText [104] none [97, 58, 98]) (zeroed 256) 0 (zeroed 256) = none := by
    rfl
  rw [undefined] at ran
  cases ran

end DataStructure.ParseUrl
