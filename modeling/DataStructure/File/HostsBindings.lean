import DataStructure.File.HostsText
import DataStructure.File.HostsSize

/-! What the update of a hosts file does to the addresses that names are bound to. -/

namespace DataStructure.Hosts

open DataStructure.CInt DataStructure.CText

/-- The names of one line, each with the address in front of them. -/
def lineBindings (line : Bytes) : List (Bytes × Bytes) :=
  match List.splitOn space line with
  | [] => []
  | ip :: names => names.map fun name => (name, ip)

def bindings (text : Bytes) : List (Bytes × Bytes) :=
  (List.splitOn newline text).dropLast.flatMap lineBindings

def Binds (text name ip : Bytes) : Prop := (name, ip) ∈ bindings text

instance (text name ip : Bytes) : Decidable (Binds text name ip) :=
  inferInstanceAs (Decidable ((name, ip) ∈ bindings text))

theorem mem_lineBindings (ip : Bytes) (names : List Bytes) (clean : ∀ word ∈ ip :: names, space ∉ word)
    (name address : Bytes) :
    (name, address) ∈ lineBindings (ip ++ names.flatMap fun name => space :: name) ↔
      name ∈ names ∧ ip = address := by
  rw [lineBindings, splitOn_words space ip names clean]
  simp

theorem separators_of_binds (text name ip : Bytes) (bound : Binds text name ip) :
    space ∉ ip ∧ newline ∉ ip := by
  obtain ⟨line, member, bound⟩ := List.mem_flatMap.1 bound
  have single := mem_splitOn newline text line (List.mem_of_mem_dropLast member)
  have pieces := mem_splitOn space line
  rw [lineBindings] at bound
  cases words : List.splitOn space line with
  | nil =>
      rw [words] at bound
      cases bound
  | cons address names =>
      rw [words] at bound pieces
      obtain ⟨_, _, same⟩ := List.mem_map.1 bound
      obtain rfl : address = ip := (Prod.mk.inj same).2
      have inside := pieces address List.mem_cons_self
      exact ⟨fun blank => (inside space blank).2 rfl,
        fun break₁ => (single newline (inside newline break₁).1).2 rfl⟩

/-- Words with single blanks between them, each a C string, in one line that `fgets` reads whole. -/
structure HostLine where
  ip : Bytes
  names : List Bytes
  clean : ∀ word ∈ ip :: names, space ∉ word ∧ newline ∉ word ∧ 0 ∉ word
  short : (lineOf ip names).length ≤ 1022

def HostLine.line (host : HostLine) : Bytes := lineOf host.ip host.names

def textOf (hosts : List HostLine) : Bytes := (hosts.map HostLine.line).flatten

theorem lineOf_eq (ip : Bytes) (names : List Bytes) :
    lineOf ip names = ip ++ (names.flatMap fun name => space :: name) ++ [newline] := by
  rw [lineOf, tailOf, List.append_assoc]

theorem not_mem_words (c : UInt8) (visible : c ≠ space) (ip : Bytes) (names : List Bytes)
    (clean : ∀ word ∈ ip :: names, c ∉ word) : c ∉ ip ++ names.flatMap fun name => space :: name := by
  intro inside
  rcases List.mem_append.1 inside with address | rest
  · exact clean ip List.mem_cons_self address
  · obtain ⟨name, listed, inside⟩ := List.mem_flatMap.1 rest
    rcases List.mem_cons.1 inside with same | inside
    · exact visible same
    · exact clean name (List.mem_cons_of_mem ip listed) inside

theorem HostLine.readable (host : HostLine) : Readable host.line := by
  have short := host.short
  rw [HostLine.line, lineOf_eq] at *
  rw [List.length_append, List.length_singleton] at short
  apply readable_line
  · exact not_mem_words newline (by decide) _ _ fun word inside => (host.clean word inside).2.1
  · exact not_mem_words 0 (by decide) _ _ fun word inside => (host.clean word inside).2.2
  · omega

theorem binds_lines (rows : List (Bytes × List Bytes))
    (clean : ∀ row ∈ rows, ∀ word ∈ row.1 :: row.2, space ∉ word ∧ newline ∉ word) (name ip : Bytes) :
    Binds (rows.map fun row => lineOf row.1 row.2).flatten name ip ↔
      ∃ row ∈ rows, name ∈ row.2 ∧ row.1 = ip := by
  let content (row : Bytes × List Bytes) : Bytes := row.1 ++ row.2.flatMap fun name => space :: name
  have lines : (rows.map fun row => lineOf row.1 row.2) = (rows.map content).map (· ++ [newline]) := by
    rw [List.map_map]
    exact List.map_congr_left fun row _ => lineOf_eq row.1 row.2
  have split := splitOn_lines newline (rows.map content) (by
    intro line inside
    obtain ⟨row, member, rfl⟩ := List.mem_map.1 inside
    exact not_mem_words newline (by decide) row.1 row.2 fun word listed => (clean row member word listed).2)
  rw [Binds, bindings, lines, split, List.dropLast_concat, List.flatMap_map, List.mem_flatMap]
  apply exists_congr
  intro row
  apply and_congr_right
  intro member
  exact mem_lineBindings row.1 row.2 (fun word listed => (clean row member word listed).1) name ip

theorem binds_textOf (hosts : List HostLine) (name ip : Bytes) :
    Binds (textOf hosts) name ip ↔ ∃ host ∈ hosts, name ∈ host.names ∧ host.ip = ip := by
  have rows := binds_lines (hosts.map fun host => (host.ip, host.names)) (by
    intro row inside word listed
    obtain ⟨host, member, rfl⟩ := List.mem_map.1 inside
    exact ⟨(host.clean word listed).1, (host.clean word listed).2.1⟩) name ip
  rw [List.map_map] at rows
  rw [textOf]
  refine Iff.trans rows ?_
  simp

/-- A pair is written when a line became its entry or no line had taken it up. -/
def Written (pairs : List Service) (hosts : List HostLine) (pair : Service) : Prop :=
  (∃ host ∈ hosts, owner pairs host.line = some pair) ∨
    pair ∈ missing pairs (hosts.map HostLine.line)

def newRow (pairs : List Service) (host : HostLine) : Bytes × List Bytes :=
  match owner pairs host.line with
  | none => (host.ip, host.names)
  | some pair => (pair.ip, [pair.domain])

def newRows (pairs : List Service) (hosts : List HostLine) : List (Bytes × List Bytes) :=
  hosts.map (newRow pairs) ++
    (missing pairs (hosts.map HostLine.line)).map fun pair => (pair.ip, [pair.domain])

theorem newLines_eq (pairs : List Service) (hosts : List HostLine) :
    newLines pairs (hosts.map HostLine.line) =
      (newRows pairs hosts).map fun row => lineOf row.1 row.2 := by
  rw [newLines, newRows, List.map_append, List.map_map, List.map_map, List.map_map]
  congr 1
  · apply List.map_congr_left
    intro host _
    simp only [Function.comp_apply, rewritten, newRow]
    cases owner pairs host.line with
    | none => rfl
    | some pair => exact entry_eq pair
  · exact List.map_congr_left fun pair _ => entry_eq pair

theorem mem_of_owner {pairs : List Service} {line : Bytes} {pair : Service}
    (owned : owner pairs line = some pair) : pair ∈ takers pairs line :=
  List.mem_of_getLast? owned

theorem Written.listed {pairs : List Service} {hosts : List HostLine} {pair : Service}
    (written : Written pairs hosts pair) : pair ∈ pairs := by
  rcases written with ⟨host, _, owned⟩ | absent
  · exact mem_of_takers (mem_of_owner owned)
  · exact mem_of_missing absent

theorem mem_newRows (pairs : List Service) (hosts : List HostLine) (row : Bytes × List Bytes) :
    row ∈ newRows pairs hosts ↔
      (∃ host ∈ hosts, owner pairs host.line = none ∧ (host.ip, host.names) = row) ∨
        ∃ pair, Written pairs hosts pair ∧ (pair.ip, [pair.domain]) = row := by
  rw [newRows, List.mem_append, List.mem_map, List.mem_map]
  constructor
  · rintro (⟨host, member, same⟩ | ⟨pair, absent, same⟩)
    · rw [newRow] at same
      cases owned : owner pairs host.line with
      | none =>
          rw [owned] at same
          exact .inl ⟨host, member, owned, same⟩
      | some pair =>
          rw [owned] at same
          exact .inr ⟨pair, .inl ⟨host, member, owned⟩, same⟩
    · exact .inr ⟨pair, .inr absent, same⟩
  · rintro (⟨host, member, free, same⟩ | ⟨pair, ⟨host, member, owned⟩ | absent, same⟩)
    · exact .inl ⟨host, member, by rw [newRow, free]; exact same⟩
    · exact .inl ⟨host, member, by rw [newRow, owned]; exact same⟩
    · exact .inr ⟨pair, absent, same⟩

section Update

variable {pairs : List Service}
  (words : ∀ pair ∈ pairs, space ∉ pair.domain ∧ newline ∉ pair.domain)
include words

/-- A name is bound on a line that no pair owns or by a pair that is written. -/
theorem binds_newText (hosts : List HostLine)
    (address : ∀ pair ∈ pairs, space ∉ pair.ip ∧ newline ∉ pair.ip) (name ip : Bytes) :
    Binds (newText pairs (hosts.map HostLine.line)) name ip ↔
      (∃ host ∈ hosts, owner pairs host.line = none ∧ name ∈ host.names ∧ host.ip = ip) ∨
        ∃ pair, Written pairs hosts pair ∧ name = pair.domain ∧ pair.ip = ip := by
  have clean : ∀ row ∈ newRows pairs hosts, ∀ word ∈ row.1 :: row.2, space ∉ word ∧ newline ∉ word := by
    intro row inside word listed
    rcases (mem_newRows pairs hosts row).1 inside with ⟨host, _, _, rfl⟩ | ⟨pair, written, rfl⟩
    · exact ⟨(host.clean word listed).1, (host.clean word listed).2.1⟩
    · rcases List.mem_cons.1 listed with rfl | name
      · exact address pair written.listed
      · rw [List.mem_singleton.1 name]
        exact words pair written.listed
  rw [newText, newLines_eq, binds_lines _ clean]
  constructor
  · intro bound
    obtain ⟨row, inside, listed, same⟩ := bound
    rcases (mem_newRows pairs hosts row).1 inside with ⟨host, member, free, rfl⟩ | ⟨pair, written, rfl⟩
    · exact .inl ⟨host, member, free, listed, same⟩
    · exact .inr ⟨pair, written, List.mem_singleton.1 listed, same⟩
  · rintro (⟨host, member, free, listed, same⟩ | ⟨pair, written, listed, same⟩)
    · exact ⟨(host.ip, host.names), (mem_newRows pairs hosts _).2 (.inl ⟨host, member, free, rfl⟩),
        listed, same⟩
    · exact ⟨(pair.ip, [pair.domain]), (mem_newRows pairs hosts _).2 (.inr ⟨pair, written, rfl⟩),
        List.mem_singleton.2 listed, same⟩

end Update

/-- Every listed domain is bound to its new address alone, and every other name as before. -/
structure Updated (pairs : List Service) (old new : Bytes) : Prop where
  listed : ∀ pair ∈ pairs, ∀ ip, Binds new pair.domain ip ↔ ip = pair.ip
  others : ∀ name, name ∉ pairs.map Service.domain → ∀ ip, Binds new name ip ↔ Binds old name ip

structure Harmless (pairs : List Service) (hosts : List HostLine) : Prop where
  -- No new address falls apart when it is read.
  address : ∀ pair ∈ pairs, space ∉ pair.ip ∧ newline ∉ pair.ip
  -- A line that is left as it is has the new address of every listed domain on it.
  stale : ∀ host ∈ hosts, owner pairs host.line = none → ∀ pair ∈ pairs, pair.domain ∈ host.names →
    host.ip = pair.ip
  -- A pair that took a line still has one at the end.
  bound : ∀ pair ∈ pairs, (∃ host ∈ hosts, pair ∈ takers pairs host.line) →
    (∃ host ∈ hosts, owner pairs host.line = some pair) ∨
      ∃ host ∈ hosts, owner pairs host.line = none ∧ pair.domain ∈ host.names
  -- The other names on a line that is replaced have their address on a line that is not.
  others : ∀ host ∈ hosts, owner pairs host.line ≠ none → ∀ name ∈ host.names,
    name ∉ pairs.map Service.domain →
      ∃ other ∈ hosts, owner pairs other.line = none ∧ name ∈ other.names ∧ other.ip = host.ip

section Meaning

variable {pairs : List Service} (distinct : (pairs.map Service.domain).Nodup)
  (words : ∀ pair ∈ pairs, space ∉ pair.domain ∧ newline ∉ pair.domain)
include distinct words

theorem updated_of_harmless (hosts : List HostLine) (harmless : Harmless pairs hosts) :
    Updated pairs (textOf hosts) (newText pairs (hosts.map HostLine.line)) := by
  have different : pairs.Nodup := List.Nodup.of_map Service.domain distinct
  have read := binds_newText words hosts harmless.address
  constructor
  · intro pair listed ip
    rw [read]
    constructor
    · rintro (⟨host, member, free, name, rfl⟩ | ⟨other, written, same, rfl⟩)
      · exact harmless.stale host member free pair listed name
      · rw [List.inj_on_of_nodup_map distinct listed written.listed same]
    · intro same
      by_cases taken : ∃ host ∈ hosts, pair ∈ takers pairs host.line
      · rcases harmless.bound pair listed taken with owned | ⟨host, member, free, name⟩
        · exact .inr ⟨pair, .inl owned, rfl, same.symm⟩
        · exact .inl ⟨host, member, free, name,
            (harmless.stale host member free pair listed name).trans same.symm⟩
      · have absent : pair ∈ missing pairs (hosts.map HostLine.line) := by
          refine (mem_missing_iff different).2 ⟨listed, ?_⟩
          intro line inside
          obtain ⟨host, member, rfl⟩ := List.mem_map.1 inside
          exact fun took => taken ⟨host, member, took⟩
        exact .inr ⟨pair, .inr absent, rfl, same.symm⟩
  · intro name unlisted ip
    rw [read, binds_textOf]
    constructor
    · rintro (⟨host, member, _, bound⟩ | ⟨pair, written, rfl, _⟩)
      · exact ⟨host, member, bound⟩
      · exact absurd (List.mem_map_of_mem written.listed) unlisted
    · intro ⟨host, member, name₁, same⟩
      by_cases free : owner pairs host.line = none
      · exact .inl ⟨host, member, free, name₁, same⟩
      · obtain ⟨other, inside, left, bound, address⟩ :=
          harmless.others host member free name name₁ unlisted
        exact .inl ⟨other, inside, left, bound, address.trans same⟩

theorem harmless_of_updated (hosts : List HostLine)
    (updated : Updated pairs (textOf hosts) (newText pairs (hosts.map HostLine.line))) :
    Harmless pairs hosts := by
  have address : ∀ pair ∈ pairs, space ∉ pair.ip ∧ newline ∉ pair.ip := by
    intro pair listed
    exact separators_of_binds _ pair.domain pair.ip ((updated.listed pair listed pair.ip).2 rfl)
  have different : pairs.Nodup := List.Nodup.of_map Service.domain distinct
  have read := binds_newText words hosts address
  refine ⟨address, ?_, ?_, ?_⟩
  · intro host member free pair listed name
    exact (updated.listed pair listed host.ip).1 ((read _ _).2 (.inl ⟨host, member, free, name, rfl⟩))
  · intro pair listed ⟨host, member, took⟩
    rcases (read _ _).1 ((updated.listed pair listed pair.ip).2 rfl) with
      ⟨other, inside, free, name, _⟩ | ⟨other, written, same, _⟩
    · exact .inr ⟨other, inside, free, name⟩
    · obtain rfl := List.inj_on_of_nodup_map distinct listed written.listed same
      rcases written with owned | absent
      · exact .inl owned
      · exact absurd took
          (((mem_missing_iff different).1 absent).2 host.line (List.mem_map_of_mem member))
  · intro host member _ name listed unlisted
    have before : Binds (textOf hosts) name host.ip :=
      (binds_textOf hosts name host.ip).2 ⟨host, member, listed, rfl⟩
    rcases (read _ _).1 ((updated.others name unlisted host.ip).2 before) with
      left | ⟨pair, written, rfl, _⟩
    · exact left
    · exact absurd (List.mem_map_of_mem written.listed) unlisted

end Meaning

/-- The assembled text has the new meaning exactly when it fits and the update is harmless. -/
theorem updated_iff (pairs : List Service) (distinct : (pairs.map Service.domain).Nodup)
    (words : ∀ pair ∈ pairs, space ∉ pair.domain ∧ newline ∉ pair.domain) (hosts : List HostLine) :
    (∃ new, assembled pairs (textOf hosts) = some new ∧ Updated pairs (textOf hosts) new) ↔
      Fits pairs (textOf hosts) ∧ Harmless pairs hosts := by
  have lines : linesOf (textOf hosts) = hosts.map HostLine.line := by
    refine linesOf_flatten _ ?_
    intro line inside
    obtain ⟨host, _, rfl⟩ := List.mem_map.1 inside
    exact host.readable
  constructor
  · intro held
    obtain ⟨new, ran, updated⟩ := held
    obtain ⟨fits, rfl⟩ := (assembled_eq_some_iff pairs _ new).1 ran
    rw [lines] at updated
    exact ⟨fits, harmless_of_updated distinct words hosts updated⟩
  · intro held
    obtain ⟨fits, harmless⟩ := held
    refine ⟨_, (assembled_eq_some_iff pairs _ _).2 ⟨fits, rfl⟩, ?_⟩
    rw [lines]
    exact updated_of_harmless distinct words hosts harmless

def sampleHosts : List HostLine :=
  [⟨[0x31], [[0x61]], by decide, by decide⟩, ⟨[0x35], [[0x62]], by decide, by decide⟩]

def samplePairs : List Service :=
  [⟨[0x61], [0x32], by decide, by decide⟩, ⟨[0x63], [0x33], by decide, by decide⟩]

theorem updated_iff_two_lines :
    ∃ new, assembled samplePairs (textOf sampleHosts) = some new ∧
      Updated samplePairs (textOf sampleHosts) new := by
  refine (updated_iff samplePairs (by decide) (by decide) sampleHosts).2 ⟨?_, ?_⟩
  · exact ⟨by decide, by decide, ⟨by decide, by decide, by decide⟩, by decide +kernel⟩
  · exact ⟨by decide, by decide +kernel, by decide +kernel, by decide +kernel⟩

/-- The line `1 a b`, with `2` as the new address of `a`: it becomes `2 a`, and `b` has no address
any more. -/
theorem other_name_unbound :
    ¬∃ new, assembled [⟨[0x61], [0x32], by decide, by decide⟩]
        (textOf [⟨[0x31], [[0x61], [0x62]], by decide, by decide⟩]) = some new ∧
      Updated [⟨[0x61], [0x32], by decide, by decide⟩]
        (textOf [⟨[0x31], [[0x61], [0x62]], by decide, by decide⟩]) new := by
  intro held
  obtain ⟨new, ran, updated⟩ := held
  have text : assembled [⟨[0x61], [0x32], by decide, by decide⟩]
      (textOf [⟨[0x31], [[0x61], [0x62]], by decide, by decide⟩]) =
        some [0x32, 0x20, 0x61, 0x0a] := by
    decide +kernel
  obtain rfl := Option.some.inj (text.symm.trans ran)
  have before : Binds (textOf [⟨[0x31], [[0x61], [0x62]], by decide, by decide⟩]) [0x62] [0x31] := by
    decide +kernel
  have after : ¬Binds [0x32, 0x20, 0x61, 0x0a] [0x62] [0x31] := by
    decide +kernel
  exact after ((updated.others [0x62] (by decide) [0x31]).2 before)

end DataStructure.Hosts
