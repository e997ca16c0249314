import DataStructure.Lib.CInt
import DataStructure.Lib.CText

/-! The update of a hosts file in `json/parseidc.c` and, for one pair, in `file/readhosts.c`.

A `char` is signed. `none` stands for an access outside `desired_domain`, `line` or `buff` and for
an overflow of `int`; `malloc` succeeds. -/

namespace DataStructure.Hosts

open DataStructure.CInt DataStructure.CText

abbrev Bytes := List UInt8

def space : UInt8 := 0x20

def newline : UInt8 := 0x0a

structure Service where
  domain : Bytes
  ip : Bytes
  domainEnds : 0 ∉ domain
  ipEnds : 0 ∉ ip
  deriving DecidableEq

def MAXDNAME : Nat := 1024

def entry (pair : Service) : Bytes := pair.ip ++ space :: pair.domain ++ [newline]

/-- A blank, the two line breaks, `#` and, as a `char`, `EOF`. -/
def stops : List UInt8 := [0x20, 0x0a, 0x0d, 0x23, 0xff]

/-- The test on a line: the first occurrence of the domain behind a blank is followed by a stop. -/
def hit (domain line : Bytes) : Bool :=
  match strstr (space :: domain) line with
  | none => false
  | some ptr =>
      match ptr[domain.length + 1]? with
      | none => false
      | some c => c ∈ stops

def lineLoop (desired : Nat) : List (Service × Bool) → Bytes →
    Option (Bytes × List (Service × Bool))
  | [], line => some (line, [])
  | (pair, found) :: pairs, line => do
      let _ ← sprintf desired (space :: pair.domain)
      if hit pair.domain line then
        let line ← sprintf 1024 (entry pair)
        let (line, pairs) ← lineLoop desired pairs line
        some (line, (pair, true) :: pairs)
      else
        let (line, pairs) ← lineLoop desired pairs line
        some (line, (pair, found) :: pairs)

def store (room : Nat) (buff line : Bytes) : Option Bytes :=
  if buff.length + line.length ≤ room then some (buff ++ line) else none

def fileLoop (desired room : Nat) : List Bytes → List (Service × Bool) → Bytes →
    Option (Bytes × List (Service × Bool))
  | [], pairs, buff => some (buff, pairs)
  | chunk :: chunks, pairs, buff => do
      let (line, pairs) ← lineLoop desired pairs (chunk.takeWhile (· ≠ 0))
      let buff ← store room buff line
      fileLoop desired room chunks pairs buff

def appendLoop (room : Nat) : List (Service × Bool) → Bytes → Option Bytes
  | [], buff => some buff
  | (_, true) :: pairs, buff => appendLoop room pairs buff
  | (pair, false) :: pairs, buff => do
      let line ← sprintf 1024 (entry pair)
      let buff ← store room buff line
      appendLoop room pairs buff

/-- The text assembled in `buff`, with `desired` and `room` the sizes of `desired_domain` and
`buff`. -/
def assemble (desired room : Nat) (pairs : List Service) (file : Bytes) : Option Bytes := do
  let (buff, pairs) ← fileLoop desired room (fgetsAll newline 1022 file)
    (pairs.map fun pair => (pair, false)) []
  appendLoop room pairs buff

def buffLen (fileSize : Int) (size : Nat) : Option Int := do
  let sum ← checked (fileSize + 16)
  let product ← checked (MAXDNAME * size)
  checked (sum + product)

/-- The text that `modify_hostsfile` assembles, unless it takes the file for empty. -/
def assembled (pairs : List Service) (file : Bytes) : Option Bytes := do
  let room ← buffLen (toInt file.length) pairs.length
  if toInt file.length ≤ 0 then none else assemble 2014 room.toNat pairs file

def modifyHostsfile (opened : Bool) (pairs : List Service) (file : Bytes) : Option (Int × Bytes) := do
  let _ ← buffLen (toInt file.length) pairs.length
  if toInt file.length ≤ 0 then some (0, file)
  else if opened then
    let buff ← assembled pairs file
    -- opened with "r+", the file keeps what lies behind the bytes written
    some (0, buff ++ file.drop buff.length)
  else some (-1, file)

/-- The version of `readhosts.c`, which goes on without an open file and does not return a value. -/
def modifyHostsfileSingle (opened : Bool) (pair : Service) (file : Bytes) : Option Bytes := do
  let sum ← checked (toInt file.length + 16)
  let room ← checked (sum + 1025)
  let _ ← sprintf 1024 (space :: pair.domain)
  if opened then
    let buff ← assemble 1024 room.toNat [pair] file
    some (buff ++ file.drop buff.length)
  else none

def takes : List Service → Bytes → List Bool
  | [], _ => []
  | pair :: pairs, line =>
      hit pair.domain line :: takes pairs (if hit pair.domain line then entry pair else line)

def takers : List Service → Bytes → List Service
  | [], _ => []
  | pair :: pairs, line =>
      if hit pair.domain line then pair :: takers pairs (entry pair) else takers pairs line

def owner (pairs : List Service) (line : Bytes) : Option Service := (takers pairs line).getLast?

def rewritten (pairs : List Service) (line : Bytes) : Bytes :=
  match owner pairs line with
  | none => line
  | some pair => entry pair

/-- The pairs that take no line. Pairs may be equal, so they are counted by their positions. -/
def missing (pairs : List Service) (lines : List Bytes) : List Service :=
  (pairs.zipIdx.filter fun p => lines.all fun line => (takes pairs line)[p.2]? ≠ some true).map Prod.fst

def newLines (pairs : List Service) (lines : List Bytes) : List Bytes :=
  lines.map (rewritten pairs) ++ (missing pairs lines).map entry

def newText (pairs : List Service) (lines : List Bytes) : Bytes := (newLines pairs lines).flatten

def linesOf (file : Bytes) : List Bytes :=
  (fgetsAll newline 1022 file).map fun chunk => chunk.takeWhile (· ≠ 0)

theorem takes_length (pairs : List Service) (line : Bytes) :
    (takes pairs line).length = pairs.length := by
  induction pairs generalizing line with
  | nil => rfl
  | cons pair pairs ih => rw [takes, List.length_cons, List.length_cons, ih]

theorem mem_takers {pairs : List Service} {line : Bytes} {pair : Service} :
    pair ∈ takers pairs line ↔ ∃ i : Nat, pairs[i]? = some pair ∧ (takes pairs line)[i]? = some true := by
  induction pairs generalizing line with
  | nil => simp [takers]
  | cons first pairs ih =>
      rw [takers, takes]
      constructor
      · intro member
        by_cases taken : hit first.domain line
        · rw [if_pos taken] at member ⊢
          rcases List.mem_cons.1 member with rfl | later
          · exact ⟨0, rfl, congrArg some taken⟩
          · obtain ⟨i, listed, took⟩ := ih.1 later
            exact ⟨i + 1, listed, took⟩
        · rw [if_neg taken] at member ⊢
          obtain ⟨i, listed, took⟩ := ih.1 member
          exact ⟨i + 1, listed, took⟩
      · intro found
        obtain ⟨i, listed, took⟩ := found
        cases i with
        | zero =>
            have taken : hit first.domain line = true := Option.some.inj took
            rw [if_pos taken, Option.some.inj listed]
            exact List.mem_cons_self
        | succ i =>
            by_cases taken : hit first.domain line
            · rw [if_pos taken] at took ⊢
              exact List.mem_cons_of_mem first (ih.2 ⟨i, listed, took⟩)
            · rw [if_neg taken] at took ⊢
              exact ih.2 ⟨i, listed, took⟩

theorem mem_of_takers {pairs : List Service} {line : Bytes} {pair : Service}
    (taken : pair ∈ takers pairs line) : pair ∈ pairs := by
  obtain ⟨i, listed, _⟩ := mem_takers.1 taken
  exact List.mem_of_getElem? listed

theorem mem_missing {pairs : List Service} {lines : List Bytes} {pair : Service} :
    pair ∈ missing pairs lines ↔
      ∃ i : Nat, pairs[i]? = some pair ∧ ∀ line ∈ lines, (takes pairs line)[i]? ≠ some true := by
  simp [missing, List.mem_zipIdx_iff_getElem?]

theorem mem_of_missing {pairs : List Service} {lines : List Bytes} {pair : Service}
    (absent : pair ∈ missing pairs lines) : pair ∈ pairs := by
  obtain ⟨i, listed, _⟩ := mem_missing.1 absent
  exact List.mem_of_getElem? listed

theorem mem_missing_iff {pairs : List Service} (distinct : pairs.Nodup) {lines : List Bytes}
    {pair : Service} :
    pair ∈ missing pairs lines ↔ pair ∈ pairs ∧ ∀ line ∈ lines, pair ∉ takers pairs line := by
  constructor
  · intro absent
    refine ⟨mem_of_missing absent, ?_⟩
    obtain ⟨i, listed, free⟩ := mem_missing.1 absent
    intro line member taken
    obtain ⟨j, again, took⟩ := mem_takers.1 taken
    have inside : i < pairs.length := (List.getElem?_eq_some_iff.1 listed).1
    obtain rfl : i = j := (List.getElem?_inj inside distinct).1 (listed.trans again.symm)
    exact free line member took
  · intro held
    obtain ⟨listed, free⟩ := held
    obtain ⟨i, inside⟩ := List.mem_iff_getElem?.1 listed
    refine mem_missing.2 ⟨i, inside, ?_⟩
    intro line member took
    exact free line member (mem_takers.2 ⟨i, inside, took⟩)

theorem rewritten_cons (pair : Service) (pairs : List Service) (line : Bytes) :
    rewritten (pair :: pairs) line =
      rewritten pairs (if hit pair.domain line then entry pair else line) := by
  rw [rewritten, rewritten, owner, owner, takers]
  by_cases taken : hit pair.domain line
  · rw [if_pos taken, if_pos taken, List.getLast?_cons]
    cases (takers pairs (entry pair)).getLast? <;> rfl
  · rw [if_neg taken, if_neg taken]

theorem store_eq_some {room : Nat} {buff line result : Bytes} :
    store room buff line = some result ↔ (buff ++ line).length ≤ room ∧ buff ++ line = result := by
  rw [store, List.length_append]
  split <;> simp [*]

theorem entry_length (pair : Service) :
    (entry pair).length = pair.ip.length + pair.domain.length + 2 := by
  simp only [entry, List.length_append, List.length_cons, List.length_nil]
  omega

def marked (flagged : List (Service × Bool)) (line : Bytes) : List (Service × Bool) :=
  List.zipWith (fun flag taken => (flag.1, flag.2 || taken)) flagged (takes (flagged.map Prod.fst) line)

theorem marked_cons (pair : Service) (found : Bool) (flagged : List (Service × Bool)) (line : Bytes) :
    marked ((pair, found) :: flagged) line = (pair, found || hit pair.domain line) ::
      marked flagged (if hit pair.domain line then entry pair else line) := rfl

theorem marked_fst (flagged : List (Service × Bool)) (line : Bytes) :
    (marked flagged line).map Prod.fst = flagged.map Prod.fst := by
  induction flagged generalizing line with
  | nil => rfl
  | cons flag flagged ih =>
      obtain ⟨pair, found⟩ := flag
      rw [marked_cons, List.map_cons, List.map_cons, ih]

theorem getElem?_marked (flagged : List (Service × Bool)) (line : Bytes) (i : Nat) :
    (marked flagged line)[i]? = flagged[i]?.map fun flag =>
      (flag.1, flag.2 || decide ((takes (flagged.map Prod.fst) line)[i]? = some true)) := by
  rw [marked, List.getElem?_zipWith]
  cases here : flagged[i]? with
  | none => rfl
  | some flag =>
      have inside : i < (takes (flagged.map Prod.fst) line).length := by
        rw [takes_length, List.length_map]
        exact (List.getElem?_eq_some_iff.1 here).1
      rw [List.getElem?_eq_getElem inside]
      simp

theorem foldl_marked (lines : List Bytes) (flagged : List (Service × Bool)) (i : Nat) :
    (lines.foldl marked flagged)[i]? = flagged[i]?.map fun flag =>
      (flag.1, flag.2 || lines.any fun line => (takes (flagged.map Prod.fst) line)[i]? = some true) := by
  induction lines generalizing flagged with
  | nil => simp
  | cons line lines ih =>
      rw [List.foldl_cons, ih, getElem?_marked, marked_fst, Option.map_map]
      cases flagged[i]? with
      | none => rfl
      | some flag => simp [Bool.or_assoc]

theorem map_fst_unmarked (pairs : List Service) :
    (pairs.map fun pair => (pair, false)).map Prod.fst = pairs := by
  rw [List.map_map]
  exact List.map_id pairs

theorem foldl_marked_new (pairs : List Service) (lines : List Bytes) :
    lines.foldl marked (pairs.map fun pair => (pair, false)) = pairs.zipIdx.map fun p =>
      (p.1, lines.any fun line => (takes pairs line)[p.2]? = some true) := by
  apply List.ext_getElem?
  intro i
  rw [foldl_marked, map_fst_unmarked, List.getElem?_map, List.getElem?_map, List.getElem?_zipIdx]
  cases pairs[i]? <;> simp

theorem mem_of_foldl_marked {pairs : List Service} {lines : List Bytes} {flag : Service × Bool}
    (member : flag ∈ lines.foldl marked (pairs.map fun pair => (pair, false))) : flag.1 ∈ pairs := by
  rw [foldl_marked_new] at member
  obtain ⟨p, inside, rfl⟩ := List.mem_map.1 member
  exact List.fst_mem_of_mem_zipIdx inside

theorem missing_eq (pairs : List Service) (lines : List Bytes) :
    missing pairs lines = ((lines.foldl marked (pairs.map fun pair => (pair, false))).filter
      fun flag => !flag.2).map Prod.fst := by
  rw [foldl_marked_new, List.filter_map, List.map_map, missing]
  congr 2
  funext p
  simp [List.all_eq_not_any_not]

/-- What the loop over the pairs prints fits `desired_domain` and `line`. -/
structure Prints (desired : Nat) (pairs : List Service) (line : Bytes) : Prop where
  domains : ∀ pair ∈ pairs, pair.domain.length + 1 < desired
  entries : ∀ pair ∈ takers pairs line, (entry pair).length < 1024

theorem lineLoop_eq (desired : Nat) (flagged : List (Service × Bool)) (line : Bytes)
    (prints : Prints desired (flagged.map Prod.fst) line) :
    lineLoop desired flagged line =
      some (rewritten (flagged.map Prod.fst) line, marked flagged line) := by
  induction flagged generalizing line with
  | nil => rfl
  | cons flag flagged ih =>
      obtain ⟨pair, found⟩ := flag
      have domain : sprintf desired (space :: pair.domain) = some (space :: pair.domain) :=
        if_pos (prints.domains pair List.mem_cons_self)
      have rest : ∀ other ∈ flagged.map Prod.fst, other.domain.length + 1 < desired :=
        fun other member => prints.domains other (List.mem_cons_of_mem pair member)
      have entries := prints.entries
      rw [List.map_cons, takers] at entries
      rw [List.map_cons, rewritten_cons, marked_cons]
      -- the pairs that follow are tried on what this pair leaves of the line
      by_cases taken : hit pair.domain line
      · rw [if_pos taken] at entries
        have printed : sprintf 1024 (entry pair) = some (entry pair) :=
          if_pos (entries pair List.mem_cons_self)
        have later := ih (entry pair)
          ⟨rest, fun other member => entries other (List.mem_cons_of_mem pair member)⟩
        simp [lineLoop, domain, printed, taken, later]
      · rw [if_neg taken] at entries
        have later := ih line ⟨rest, entries⟩
        simp [lineLoop, domain, taken, later]

theorem prints_of_lineLoop (desired : Nat) (flagged : List (Service × Bool)) (line : Bytes)
    (result : Bytes × List (Service × Bool)) (ran : lineLoop desired flagged line = some result) :
    Prints desired (flagged.map Prod.fst) line := by
  induction flagged generalizing line result with
  | nil => exact ⟨by simp, by simp [takers]⟩
  | cons flag flagged ih =>
      obtain ⟨pair, found⟩ := flag
      rw [lineLoop] at ran
      obtain ⟨_, domain, ran⟩ := Option.bind_eq_some_iff.1 ran
      have short := (sprintf_eq_some.1 domain).1
      rw [List.length_cons] at short
      rw [List.map_cons]
      split at ran
      · next taken =>
          obtain ⟨_, printed, ran⟩ := Option.bind_eq_some_iff.1 ran
          obtain ⟨fits, rfl⟩ := sprintf_eq_some.1 printed
          obtain ⟨next, looped, _⟩ := Option.bind_eq_some_iff.1 ran
          have later := ih _ _ looped
          refine ⟨List.forall_mem_cons.2 ⟨short, later.domains⟩, ?_⟩
          rw [takers, if_pos taken]
          exact List.forall_mem_cons.2 ⟨fits, later.entries⟩
      · next missed =>
          obtain ⟨next, looped, _⟩ := Option.bind_eq_some_iff.1 ran
          have later := ih _ _ looped
          refine ⟨List.forall_mem_cons.2 ⟨short, later.domains⟩, ?_⟩
          rw [takers, if_neg missed]
          exact later.entries

theorem fileLoop_eq (desired room : Nat) (chunks : List Bytes) (flagged : List (Service × Bool))
    (buff : Bytes) (inside : buff.length ≤ room)
    (prints : ∀ chunk ∈ chunks, Prints desired (flagged.map Prod.fst) (chunk.takeWhile (· ≠ 0))) :
    fileLoop desired room chunks flagged buff =
      let lines := chunks.map fun chunk => chunk.takeWhile (· ≠ 0)
      let text := (lines.map (rewritten (flagged.map Prod.fst))).flatten
      if (buff ++ text).length ≤ room then some (buff ++ text, lines.foldl marked flagged)
      else none := by
  induction chunks generalizing flagged buff with
  | nil => simp [fileLoop, inside]
  | cons chunk chunks ih =>
      -- a line changes the flags and not the pairs
      have names := marked_fst flagged (chunk.takeWhile (· ≠ 0))
      have later := fun next room_left => ih (marked flagged (chunk.takeWhile (· ≠ 0))) next room_left
        (by rw [names]; exact fun other member => prints other (List.mem_cons_of_mem chunk member))
      rw [fileLoop, lineLoop_eq desired flagged _ (prints chunk List.mem_cons_self)]
      simp only [Option.bind_eq_bind, Option.bind_some, store, List.map_cons, List.flatten_cons,
        List.foldl_cons, ← List.append_assoc]
      by_cases room_left : buff.length +
          (rewritten (flagged.map Prod.fst) (chunk.takeWhile (· ≠ 0))).length ≤ room
      · rw [if_pos room_left, Option.bind_some,
          later _ (by rw [List.length_append]; exact room_left), names]
      · rw [if_neg room_left, Option.bind_none, if_neg]
        simp only [List.length_append]
        omega

theorem prints_of_fileLoop (desired room : Nat) (chunks : List Bytes) (flagged : List (Service × Bool))
    (buff : Bytes) (result : Bytes × List (Service × Bool))
    (ran : fileLoop desired room chunks flagged buff = some result) :
    ∀ chunk ∈ chunks, Prints desired (flagged.map Prod.fst) (chunk.takeWhile (· ≠ 0)) := by
  induction chunks generalizing flagged buff with
  | nil => simp
  | cons chunk chunks ih =>
      rw [fileLoop] at ran
      obtain ⟨line, looped, ran⟩ := Option.bind_eq_some_iff.1 ran
      have prints := prints_of_lineLoop desired flagged _ _ looped
      rw [lineLoop_eq desired flagged _ prints] at looped
      obtain rfl := Option.some.inj looped
      obtain ⟨next, _, ran⟩ := Option.bind_eq_some_iff.1 ran
      have later := ih _ _ ran
      rw [marked_fst] at later
      exact List.forall_mem_cons.2 ⟨prints, later⟩

theorem appendLoop_eq_some_iff (room : Nat) (flagged : List (Service × Bool)) (buff result : Bytes)
    (inside : buff.length ≤ room) :
    appendLoop room flagged buff = some result ↔
      (∀ flag ∈ flagged, flag.2 = false → (entry flag.1).length < 1024) ∧
      buff ++ ((flagged.filter fun flag => !flag.2).map fun flag => entry flag.1).flatten = result ∧
      result.length ≤ room := by
  induction flagged generalizing buff with
  | nil =>
      simp only [appendLoop, Option.some.injEq, List.not_mem_nil, false_imp_iff, implies_true,
        List.filter_nil, List.map_nil, List.flatten_nil, List.append_nil, true_and]
      constructor
      · intro same
        exact ⟨same, same ▸ inside⟩
      · intro same
        exact same.1
  | cons flag flagged ih =>
      obtain ⟨pair, found⟩ := flag
      cases found with
      | true =>
          rw [appendLoop, ih buff inside, List.forall_mem_cons]
          simp
      | false =>
          rw [appendLoop, Option.bind_eq_bind, Option.bind_eq_some_iff, List.forall_mem_cons]
          constructor
          · intro ran
            obtain ⟨line, printed, ran⟩ := ran
            obtain ⟨fits, rfl⟩ := sprintf_eq_some.1 printed
            obtain ⟨next, stored, ran⟩ := Option.bind_eq_some_iff.1 ran
            obtain ⟨room_left, rfl⟩ := store_eq_some.1 stored
            obtain ⟨sizes, text, bound⟩ := (ih _ room_left).1 ran
            rw [List.append_assoc] at text
            exact ⟨⟨fun _ => fits, sizes⟩, text, bound⟩
          · intro held
            obtain ⟨⟨fits, sizes⟩, text, bound⟩ := held
            have whole : (buff ++ entry pair) ++
                ((flagged.filter fun flag => !flag.2).map fun flag => entry flag.1).flatten = result := by
              rw [List.append_assoc]
              exact text
            have room_left : (buff ++ entry pair).length ≤ room := by
              rw [← whole, List.length_append] at bound
              omega
            refine ⟨_, sprintf_eq_some.2 ⟨fits rfl, rfl⟩, ?_⟩
            exact Option.bind_eq_some_iff.2 ⟨_, store_eq_some.2 ⟨room_left, rfl⟩,
              (ih _ room_left).2 ⟨sizes, whole, bound⟩⟩

theorem takes_or_missing (pairs : List Service) (lines : List Bytes) (pair : Service)
    (listed : pair ∈ pairs) : (∃ line ∈ lines, pair ∈ takers pairs line) ∨ pair ∈ missing pairs lines := by
  obtain ⟨i, inside⟩ := List.mem_iff_getElem?.1 listed
  by_cases taken : ∃ line ∈ lines, (takes pairs line)[i]? = some true
  · obtain ⟨line, member, took⟩ := taken
    exact .inl ⟨line, member, mem_takers.2 ⟨i, inside, took⟩⟩
  · refine .inr (mem_missing.2 ⟨i, inside, ?_⟩)
    intro line member took
    exact taken ⟨line, member, took⟩

theorem fileLoop_unmarked (desired room : Nat) (pairs : List Service) (file : Bytes)
    (prints : ∀ chunk ∈ fgetsAll newline 1022 file, Prints desired pairs (chunk.takeWhile (· ≠ 0))) :
    fileLoop desired room (fgetsAll newline 1022 file) (pairs.map fun pair => (pair, false)) [] =
      if ((linesOf file).map (rewritten pairs)).flatten.length ≤ room then
        some (((linesOf file).map (rewritten pairs)).flatten,
          (linesOf file).foldl marked (pairs.map fun pair => (pair, false)))
      else none := by
  have looped := fileLoop_eq desired room (fgetsAll newline 1022 file)
    (pairs.map fun pair => (pair, false)) [] (Nat.zero_le room) (by rw [map_fst_unmarked]; exact prints)
  rw [map_fst_unmarked] at looped
  exact looped

theorem newText_eq (pairs : List Service) (lines : List Bytes) :
    newText pairs lines = (lines.map (rewritten pairs)).flatten ++
      (((lines.foldl marked (pairs.map fun pair => (pair, false))).filter
        fun flag => !flag.2).map fun flag => entry flag.1).flatten := by
  rw [newText, newLines, missing_eq, List.map_map, List.flatten_append]
  rfl

theorem entries_of_loops {desired : Nat} {pairs : List Service} {file : Bytes}
    (prints : ∀ chunk ∈ fgetsAll newline 1022 file, Prints desired pairs (chunk.takeWhile (· ≠ 0)))
    (sizes : ∀ flag ∈ (linesOf file).foldl marked (pairs.map fun pair => (pair, false)),
      flag.2 = false → (entry flag.1).length < 1024) :
    ∀ pair ∈ pairs, (entry pair).length < 1024 := by
  intro pair listed
  rcases takes_or_missing pairs (linesOf file) pair listed with taken | absent
  · obtain ⟨line, member, taken⟩ := taken
    obtain ⟨chunk, inside, rfl⟩ := List.mem_map.1 member
    exact (prints chunk inside).entries pair taken
  · rw [missing_eq] at absent
    obtain ⟨flag, inside, rfl⟩ := List.mem_map.1 absent
    obtain ⟨member, off⟩ := List.mem_filter.1 inside
    exact sizes flag member (by simpa using off)

theorem prints_of_entries {desired : Nat} (large : 1024 ≤ desired) {pairs : List Service}
    (entries : ∀ pair ∈ pairs, (entry pair).length < 1024) (line : Bytes) :
    Prints desired pairs line := by
  constructor
  · intro pair listed
    have size := entries pair listed
    rw [entry_length] at size
    omega
  · intro pair taken
    exact entries pair (mem_of_takers taken)

/-- The text is assembled exactly when every entry fits `line` and the text fits `buff`. -/
theorem assemble_eq_some_iff (desired room : Nat) (large : 1024 ≤ desired) (pairs : List Service)
    (file text : Bytes) :
    assemble desired room pairs file = some text ↔ text = newText pairs (linesOf file) ∧
      (∀ pair ∈ pairs, (entry pair).length < 1024) ∧ text.length ≤ room := by
  constructor
  · intro ran
    obtain ⟨⟨buff, flagged⟩, filed, appended⟩ := Option.bind_eq_some_iff.1 ran
    have prints := prints_of_fileLoop _ _ _ _ _ _ filed
    rw [map_fst_unmarked] at prints
    rw [fileLoop_unmarked desired room pairs file prints] at filed
    split at filed
    · next front =>
        obtain ⟨rfl, rfl⟩ := Prod.mk.inj (Option.some.inj filed)
        obtain ⟨sizes, whole, bound⟩ := (appendLoop_eq_some_iff room _ _ text front).1 appended
        rw [← newText_eq] at whole
        exact ⟨whole.symm, entries_of_loops prints sizes, bound⟩
    · cases filed
  · intro held
    obtain ⟨rfl, entries, bound⟩ := held
    have front : ((linesOf file).map (rewritten pairs)).flatten.length ≤ room := by
      rw [newText_eq, List.length_append] at bound
      omega
    have sizes : ∀ flag ∈ (linesOf file).foldl marked (pairs.map fun pair => (pair, false)),
        flag.2 = false → (entry flag.1).length < 1024 :=
      fun flag member _ => entries flag.1 (mem_of_foldl_marked member)
    rw [assemble, fileLoop_unmarked desired room pairs file fun chunk _ => prints_of_entries large entries _,
      if_pos front]
    exact (appendLoop_eq_some_iff room _ _ _ front).2 ⟨sizes, (newText_eq pairs _).symm, bound⟩

end DataStructure.Hosts
