import DataStructure.File.Hosts
import DataStructure.Lib.CharArray

/-! The text that the update of a hosts file assembles: what the test on a line finds among the
words of the line, and what a second update does. -/

namespace DataStructure.Hosts

open DataStructure.CText

def tailOf (names : List Bytes) : Bytes := names.flatMap (fun name => space :: name) ++ [newline]

def lineOf (ip : Bytes) (names : List Bytes) : Bytes := ip ++ tailOf names

theorem entry_eq (pair : Service) : entry pair = lineOf pair.ip [pair.domain] := by
  simp [entry, lineOf, tailOf]

theorem tailOf_cons (name : Bytes) (names : List Bytes) :
    tailOf (name :: names) = space :: (name ++ tailOf names) := by
  simp [tailOf]

theorem tailOf_head (names : List Bytes) :
    ∃ c rest, tailOf names = c :: rest ∧ (c = space ∨ c = newline) := by
  cases names with
  | nil => exact ⟨newline, [], rfl, .inr rfl⟩
  | cons name names => exact ⟨space, name ++ tailOf names, tailOf_cons name names, .inl rfl⟩

/-- The test on the first name that begins with the domain. -/
def hitName (domain name : Bytes) : Bool :=
  match name[domain.length]? with
  | none => true
  | some c => c ∈ stops

theorem hitName_eq (domain name rest : Bytes) (c : UInt8) (front : domain <+: name) (stop : c ∈ stops) :
    (match (name ++ c :: rest)[domain.length]? with
      | none => false
      | some c => decide (c ∈ stops)) = hitName domain name := by
  rw [hitName]
  rcases front.length_le.lt_or_eq with inner | whole
  · rw [List.getElem?_append_left inner, List.getElem?_eq_getElem inner]
  · rw [whole, List.getElem?_append_right le_rfl, Nat.sub_self, List.getElem?_cons_zero,
      List.getElem?_eq_none le_rfl]
    exact decide_eq_true stop

theorem hit_tail (domain : Bytes) (names : List Bytes) (blank : space ∉ domain)
    (break₁ : newline ∉ domain) (clean : ∀ name ∈ names, space ∉ name) :
    hit domain (tailOf names) =
      match names.find? (fun name => domain <+: name) with
      | none => false
      | some name => hitName domain name := by
  induction names with
  | nil =>
      have missed : ¬space :: domain <+: [newline] := by
        intro ⟨rest, same⟩
        exact absurd (List.cons.inj same).1 (by decide)
      have none₁ : strstr (space :: domain) (tailOf []) = none := by
        rw [tailOf, List.flatMap_nil, List.nil_append, strstr, if_neg missed, strstr, if_neg (by simp)]
      rw [hit, none₁]
      rfl
  | cons name names ih =>
      obtain ⟨c, rest, shape, kind⟩ := tailOf_head names
      have absent : c ∉ domain := by
        rcases kind with rfl | rfl
        · exact blank
        · exact break₁
      have found : space :: domain <+: space :: (name ++ tailOf names) ↔ domain <+: name := by
        rw [List.cons_prefix_cons, shape, prefix_word domain name rest c absent]
        exact and_iff_right rfl
      rw [hit, tailOf_cons, strstr]
      by_cases here : domain <+: name
      · have stop : c ∈ stops := by
          rcases kind with rfl | rfl <;> decide
        rw [if_pos (found.2 here), List.find?_cons_of_pos (by simpa using here), shape]
        exact hitName_eq domain name rest c here stop
      · rw [if_neg (found.not.2 here), List.find?_cons_of_neg (by simpa using here),
          strstr_skip space domain name _ (clean name List.mem_cons_self)]
        exact ih fun other inside => clean other (List.mem_cons_of_mem name inside)

/-- The test looks only at the first name that begins with the domain. -/
theorem hit_lineOf (domain ip : Bytes) (names : List Bytes) (blank : space ∉ domain)
    (line : newline ∉ domain) (address : space ∉ ip) (clean : ∀ name ∈ names, space ∉ name) :
    hit domain (lineOf ip names) =
      match names.find? (fun name => domain <+: name) with
      | none => false
      | some name => hitName domain name := by
  rw [← hit_tail domain names blank line clean, hit, hit, lineOf, strstr_skip space domain ip _ address]

structure Clean (pair : Service) : Prop where
  nonempty : pair.domain ≠ []
  domain : ∀ c ∈ pair.domain, c ∉ stops
  ip : ∀ c ∈ pair.ip, c ∉ stops
  short : pair.ip.length + pair.domain.length < 1000

theorem Clean.not_mem_domain {pair : Service} (clean : Clean pair) (c : UInt8) (stop : c ∈ stops) :
    c ∉ pair.domain := fun inside => clean.domain c inside stop

theorem Clean.not_mem_ip {pair : Service} (clean : Clean pair) (c : UInt8) (stop : c ∈ stops) :
    c ∉ pair.ip := fun inside => clean.ip c inside stop

/-- Among clean pairs an entry is taken only by its own domain. -/
theorem hit_entry_iff (pair other : Service) (clean : Clean pair) (cleanOther : Clean other) :
    hit other.domain (entry pair) ↔ other.domain = pair.domain := by
  have names : ∀ name ∈ [pair.domain], space ∉ name := by
    intro name inside
    rw [List.mem_singleton.1 inside]
    exact clean.not_mem_domain space (by decide)
  rw [entry_eq, hit_lineOf other.domain pair.ip [pair.domain]
    (cleanOther.not_mem_domain space (by decide)) (cleanOther.not_mem_domain newline (by decide))
    (clean.not_mem_ip space (by decide)) names]
  by_cases front : other.domain <+: pair.domain
  · rw [List.find?_cons_of_pos (by simpa using front)]
    change hitName other.domain pair.domain = true ↔ _
    rw [hitName]
    constructor
    · intro taken
      rcases front.length_le.lt_or_eq with inner | whole
      · rw [List.getElem?_eq_getElem inner] at taken
        exact absurd (of_decide_eq_true taken) (clean.domain _ (List.getElem_mem inner))
      · exact front.eq_of_length whole
    · intro same
      rw [same, List.getElem?_eq_none le_rfl]
  · rw [List.find?_cons_of_neg (by simpa using front)]
    constructor
    · intro taken
      cases taken
    · intro same
      exact absurd (same ▸ List.prefix_refl _) front

section Second

variable {pairs : List Service} (distinct : (pairs.map Service.domain).Nodup)
  (clean : ∀ pair ∈ pairs, Clean pair)
include distinct clean

theorem takers_entry_absent (pair : Service) (cleanPair : Clean pair)
    (absent : pair.domain ∉ pairs.map Service.domain) : takers pairs (entry pair) = [] := by
  induction pairs with
  | nil => rfl
  | cons first pairs ih =>
      rw [List.map_cons, List.mem_cons, not_or] at absent
      rw [List.map_cons, List.nodup_cons] at distinct
      have missed := (hit_entry_iff pair first cleanPair (clean first List.mem_cons_self)).not.2
        (Ne.symm absent.1)
      rw [takers, if_neg missed]
      exact ih distinct.2 (fun other inside => clean other (List.mem_cons_of_mem first inside)) absent.2

theorem takers_entry (pair : Service) (listed : pair ∈ pairs) : takers pairs (entry pair) = [pair] := by
  induction pairs with
  | nil => cases listed
  | cons first pairs ih =>
      rw [List.map_cons, List.nodup_cons] at distinct
      have rest := fun other inside => clean other (List.mem_cons_of_mem first inside)
      rw [takers]
      rcases List.mem_cons.1 listed with rfl | later
      · have cleanPair := clean pair List.mem_cons_self
        rw [if_pos ((hit_entry_iff pair pair cleanPair cleanPair).2 rfl),
          takers_entry_absent distinct.2 rest pair cleanPair distinct.1]
      · have other : first.domain ≠ pair.domain := by
          intro same
          exact distinct.1 (same ▸ List.mem_map_of_mem later)
        rw [if_neg ((hit_entry_iff pair first (rest pair later) (clean first List.mem_cons_self)).not.2 other)]
        exact ih distinct.2 rest later

theorem takers_clean (line : Bytes) :
    takers pairs line = [] ∨ ∃ pair ∈ pairs, takers pairs line = [pair] := by
  induction pairs generalizing line with
  | nil => exact .inl rfl
  | cons first pairs ih =>
      rw [List.map_cons, List.nodup_cons] at distinct
      have rest := fun other inside => clean other (List.mem_cons_of_mem first inside)
      rw [takers]
      split
      · rw [takers_entry_absent distinct.2 rest first (clean first List.mem_cons_self) distinct.1]
        exact .inr ⟨first, List.mem_cons_self, rfl⟩
      · rcases ih distinct.2 rest line with none₁ | ⟨pair, listed, one⟩
        · exact .inl none₁
        · exact .inr ⟨pair, List.mem_cons_of_mem first listed, one⟩

theorem rewritten_entry (pair : Service) (listed : pair ∈ pairs) :
    rewritten pairs (entry pair) = entry pair := by
  rw [rewritten, owner, takers_entry distinct clean pair listed]
  rfl

/-- A line as the first update left it is taken by the same pair again. -/
theorem takers_rewritten (line : Bytes) : takers pairs (rewritten pairs line) = takers pairs line := by
  rcases takers_clean distinct clean line with none₁ | ⟨pair, listed, one⟩
  · rw [rewritten, owner, none₁]
    exact none₁
  · rw [rewritten, owner, one]
    exact takers_entry distinct clean pair listed

theorem rewritten_rewritten (line : Bytes) :
    rewritten pairs (rewritten pairs line) = rewritten pairs line := by
  rw [rewritten, owner, takers_rewritten distinct clean line]
  rcases takers_clean distinct clean line with none₁ | ⟨pair, _, one⟩
  · rw [none₁]
    rfl
  · rw [rewritten, owner, one]
    rfl

theorem missing_newLines (lines : List Bytes) : missing pairs (newLines pairs lines) = [] := by
  have different : pairs.Nodup := List.Nodup.of_map Service.domain distinct
  rw [List.eq_nil_iff_forall_not_mem]
  intro pair again
  obtain ⟨listed, absent⟩ := (mem_missing_iff different).1 again
  by_cases appended : pair ∈ missing pairs lines
  · apply absent (entry pair) (List.mem_append_right _ (List.mem_map_of_mem appended))
    rw [takers_entry distinct clean pair listed]
    exact List.mem_singleton_self pair
  · apply appended
    refine (mem_missing_iff different).2 ⟨listed, ?_⟩
    intro line inside taken
    apply absent (rewritten pairs line) (List.mem_append_left _ (List.mem_map_of_mem inside))
    rwa [takers_rewritten distinct clean line]

theorem newLines_newLines (lines : List Bytes) :
    newLines pairs (newLines pairs lines) = newLines pairs lines := by
  rw [newLines, missing_newLines distinct clean, List.map_nil, List.append_nil, newLines,
    List.map_append, List.map_map, List.map_map]
  congr 1
  · apply List.map_congr_left
    intro line _
    exact rewritten_rewritten distinct clean line
  · apply List.map_congr_left
    intro pair inside
    exact rewritten_entry distinct clean pair (mem_of_missing inside)

end Second

structure Readable (line : Bytes) : Prop where
  ends : line.dropLast ++ [newline] = line
  single : newline ∉ line.dropLast
  clean : 0 ∉ line
  short : line.dropLast.length < 1022

theorem linesOf_flatten (lines : List Bytes) (readable : ∀ line ∈ lines, Readable line) :
    linesOf lines.flatten = lines := by
  have split : lines = (lines.map List.dropLast).map (· ++ [newline]) := by
    rw [List.map_map]
    refine (List.map_id lines).symm.trans (List.map_congr_left ?_)
    intro line inside
    exact (readable line inside).ends.symm
  have read : fgetsAll newline 1022 lines.flatten = lines := by
    have whole := fgetsAll_lines newline 1022 (lines.map List.dropLast) (by
      intro content inside
      obtain ⟨line, member, rfl⟩ := List.mem_map.1 inside
      exact ⟨(readable line member).single, (readable line member).short⟩)
    rwa [← split] at whole
  rw [linesOf, read]
  refine (List.map_congr_left ?_).trans (List.map_id lines)
  intro line inside
  exact CharArray.takeWhile_clean line (readable line inside).clean

theorem readable_line (content : Bytes) (single : newline ∉ content) (clean : 0 ∉ content)
    (short : content.length < 1022) : Readable (content ++ [newline]) := by
  constructor
  · rw [List.dropLast_concat]
  · rwa [List.dropLast_concat]
  · intro inside
    rcases List.mem_append.1 inside with front | last
    · exact clean front
    · exact absurd (List.mem_singleton.1 last) (by decide)
  · rwa [List.dropLast_concat]

theorem readable_entry (pair : Service) (clean : Clean pair) : Readable (entry pair) := by
  apply readable_line
  · intro inside
    rcases List.mem_append.1 inside with address | rest
    · exact clean.not_mem_ip newline (by decide) address
    · rcases List.mem_cons.1 rest with same | name
      · exact absurd same (by decide)
      · exact clean.not_mem_domain newline (by decide) name
  · intro inside
    rcases List.mem_append.1 inside with address | rest
    · exact pair.ipEnds address
    · rcases List.mem_cons.1 rest with same | name
      · exact absurd same (by decide)
      · exact pair.domainEnds name
  · have length := clean.short
    rw [List.length_append, List.length_cons]
    omega

/-- A second update with the same pairs changes nothing. -/
theorem assemble_idempotent (pairs : List Service) (distinct : (pairs.map Service.domain).Nodup)
    (clean : ∀ pair ∈ pairs, Clean pair) (lines : List Bytes)
    (each : ∀ line ∈ lines, newline ∉ line ∧ 0 ∉ line ∧ line.length < 1022) :
    ∃ text : Bytes, ∀ room, text.length ≤ room →
      assemble 2014 room pairs (lines.map (· ++ [newline])).flatten = some text ∧
        assemble 2014 room pairs text = some text := by
  have fits : ∀ pair ∈ pairs, (entry pair).length < 1024 := by
    intro pair listed
    have short := (clean pair listed).short
    rw [entry_length]
    omega
  have first : ∀ line ∈ lines.map (· ++ [newline]), Readable line := by
    intro line inside
    obtain ⟨content, member, rfl⟩ := List.mem_map.1 inside
    obtain ⟨single, ends, short⟩ := each content member
    exact readable_line content single ends short
  have second : ∀ line ∈ newLines pairs (lines.map (· ++ [newline])), Readable line := by
    intro line inside
    rcases List.mem_append.1 inside with old | new
    · obtain ⟨before, member, rfl⟩ := List.mem_map.1 old
      rcases takers_clean distinct clean before with none₁ | ⟨pair, listed, one⟩
      · rw [rewritten, owner, none₁]
        exact first before member
      · rw [rewritten, owner, one]
        exact readable_entry pair (clean pair listed)
    · obtain ⟨pair, absent, rfl⟩ := List.mem_map.1 new
      exact readable_entry pair (clean pair (mem_of_missing absent))
  refine ⟨newText pairs (lines.map (· ++ [newline])), ?_⟩
  intro room inside
  constructor
  · rw [assemble_eq_some_iff 2014 room (by norm_num), linesOf_flatten _ first]
    exact ⟨rfl, fits, inside⟩
  · rw [assemble_eq_some_iff 2014 room (by norm_num), newText, linesOf_flatten _ second,
      newText, newLines_newLines distinct clean]
    exact ⟨rfl, fits, inside⟩

theorem assemble_idempotent_two_pairs :
    ∃ text : Bytes, ∀ room, text.length ≤ room →
      assemble 2014 room
        [⟨[0x61], [0x32], by decide, by decide⟩, ⟨[0x64], [0x33], by decide, by decide⟩]
        ([[0x31, 0x20, 0x61, 0x20, 0x62], [0x35, 0x20, 0x63]].map (· ++ [newline])).flatten =
          some text ∧
      assemble 2014 room
        [⟨[0x61], [0x32], by decide, by decide⟩, ⟨[0x64], [0x33], by decide, by decide⟩] text =
          some text := by
  apply assemble_idempotent
  · decide
  · intro pair listed
    rcases List.mem_cons.1 listed with rfl | last
    · exact ⟨by simp, by simp [stops], by simp [stops], by simp⟩
    · rw [List.mem_singleton.1 last]
      exact ⟨by simp, by simp [stops], by simp [stops], by simp⟩
  · decide

end DataStructure.Hosts
