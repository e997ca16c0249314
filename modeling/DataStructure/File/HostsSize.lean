import DataStructure.File.Hosts

/-! How many bytes `modify_hostsfile` copies into `buff`, and what it leaves in the file. -/

namespace DataStructure.Hosts

open DataStructure.CInt DataStructure.CText

/-- The bytes that a line gains when it becomes the entry of its owner. A line that no pair takes
keeps its length, up to a NUL in it. -/
def gain (pairs : List Service) (chunk : Bytes) : Int :=
  match owner pairs (chunk.takeWhile (· ≠ 0)) with
  | none => ((chunk.takeWhile (· ≠ 0)).length : Int) - chunk.length
  | some pair => (pair.ip.length + pair.domain.length + 2 : Int) - chunk.length

def growth (pairs : List Service) (file : Bytes) : Int :=
  ((fgetsAll newline 1022 file).map (gain pairs)).sum +
    ((missing pairs (linesOf file)).map fun pair =>
      (pair.ip.length + pair.domain.length + 2 : Int)).sum

theorem gain_eq (pairs : List Service) (chunk : Bytes) :
    gain pairs chunk = ((rewritten pairs (chunk.takeWhile (· ≠ 0))).length : Int) - chunk.length := by
  rw [gain, rewritten]
  cases owner pairs (chunk.takeWhile (· ≠ 0)) with
  | none => rfl
  | some pair => rw [entry_length, Nat.cast_add, Nat.cast_add, Nat.cast_two]

theorem sum_gains (pairs : List Service) (chunks : List Bytes) :
    (chunks.map (gain pairs)).sum =
      (chunks.map fun chunk => rewritten pairs (chunk.takeWhile (· ≠ 0))).flatten.length -
        chunks.flatten.length := by
  induction chunks with
  | nil => rfl
  | cons chunk chunks ih =>
      rw [List.map_cons, List.sum_cons, ih, gain_eq, List.map_cons, List.flatten_cons,
        List.flatten_cons, List.length_append, List.length_append]
      push_cast
      ring

theorem newText_length (pairs : List Service) (file : Bytes) :
    ((newText pairs (linesOf file)).length : Int) = file.length + growth pairs file := by
  have whole := fgetsAll_flatten newline (by norm_num : 0 < 1022) file
  have lines : (linesOf file).map (rewritten pairs) =
      (fgetsAll newline 1022 file).map fun chunk => rewritten pairs (chunk.takeWhile (· ≠ 0)) := by
    rw [linesOf, List.map_map]
    rfl
  have added : (((missing pairs (linesOf file)).map entry).flatten.length : Int) =
      ((missing pairs (linesOf file)).map fun pair =>
        (pair.ip.length + pair.domain.length + 2 : Int)).sum := by
    rw [List.length_flatten, Nat.cast_list_sum, List.map_map, List.map_map]
    congr 1
    apply List.map_congr_left
    intro pair _
    simp [entry_length]
  rw [newText, newLines, List.flatten_append, List.length_append, lines, growth, sum_gains, whole,
    Nat.cast_add, added]
  ring

structure Sized (fileSize : Int) (size : Nat) : Prop where
  sum : fileSize + 16 < 2 ^ 31
  product : (MAXDNAME * size : Int) < 2 ^ 31
  total : fileSize + 16 + MAXDNAME * size < 2 ^ 31

theorem product_nonneg (size : Nat) : (0 : Int) ≤ MAXDNAME * size :=
  Int.mul_nonneg (Int.natCast_nonneg _) (Int.natCast_nonneg _)

theorem buffLen_eq_some_iff {file : Bytes} {room : Int} {size : Nat} :
    buffLen (toInt file.length) size = some room ↔
      Sized (toInt file.length) size ∧ room = toInt file.length + 16 + MAXDNAME * size := by
  have lower := (toInt_bounds file.length).1
  generalize toInt file.length = fileSize at *
  have product := product_nonneg size
  simp only [buffLen, Option.bind_eq_bind, Option.bind_eq_some_iff, checked_eq_some]
  constructor
  · intro ran
    obtain ⟨_, ⟨rfl, _, sum⟩, _, ⟨rfl, _, few⟩, rfl, _, total⟩ := ran
    exact ⟨⟨sum, few, total⟩, rfl⟩
  · intro held
    obtain ⟨⟨sum, few, total⟩, rfl⟩ := held
    generalize (MAXDNAME * size : Int) = rest at *
    exact ⟨_, ⟨rfl, by omega, sum⟩, _, ⟨rfl, by omega, few⟩, rfl, by omega, total⟩

/-- No `int` overflows, the entries fit `line` and the text fits `buff`. The size of the file counts
for the size of `buff` as an `int`, which is less than it from 2 GiB on. -/
structure Fits (pairs : List Service) (file : Bytes) : Prop where
  positive : 0 < toInt file.length
  entries : ∀ pair ∈ pairs, pair.ip.length + pair.domain.length + 2 < 1024
  sized : Sized (toInt file.length) pairs.length
  room : (file.length - toInt file.length) + growth pairs file ≤ 16 + MAXDNAME * pairs.length

theorem assembled_eq_some_iff (pairs : List Service) (file text : Bytes) :
    assembled pairs file = some text ↔ Fits pairs file ∧ text = newText pairs (linesOf file) := by
  have length := newText_length pairs file
  have entries : (∀ pair ∈ pairs, (entry pair).length < 1024) ↔
      ∀ pair ∈ pairs, pair.ip.length + pair.domain.length + 2 < 1024 := by
    simp only [entry_length]
  rw [assembled, Option.bind_eq_bind, Option.bind_eq_some_iff]
  constructor
  · intro ran
    obtain ⟨room, sized, ran⟩ := ran
    obtain ⟨sized, size⟩ := buffLen_eq_some_iff.1 sized
    split at ran
    · cases ran
    · next positive =>
        obtain ⟨rfl, fits, inside⟩ :=
          (assemble_eq_some_iff 2014 _ (by norm_num) pairs file text).1 ran
        refine ⟨⟨not_le.1 positive, entries.1 fits, sized, ?_⟩, rfl⟩
        have product := product_nonneg pairs.length
        generalize (MAXDNAME * pairs.length : Int) = rest at *
        omega
  · intro held
    obtain ⟨fits, rfl⟩ := held
    refine ⟨_, buffLen_eq_some_iff.2 ⟨fits.sized, rfl⟩, ?_⟩
    rw [if_neg (not_le.2 fits.positive), assemble_eq_some_iff 2014 _ (by norm_num)]
    refine ⟨rfl, entries.2 fits.entries, ?_⟩
    have room := fits.room
    have positive := fits.positive
    have product := product_nonneg pairs.length
    generalize (MAXDNAME * pairs.length : Int) = rest at *
    omega

/-- Every copy stays inside `buff` exactly if its size is an `int` and, unless the file is taken for
empty, the lines that pairs take and the entries of the pairs that take none add no more than what
`buff` has beyond the file. -/
theorem copies_inside_iff (pairs : List Service)
    (entries : ∀ pair ∈ pairs, (entry pair).length < MAXDNAME) (file : Bytes) :
    (modifyHostsfile true pairs file).isSome ↔
      Sized (toInt file.length) pairs.length ∧ (0 < toInt file.length →
        (file.length - toInt file.length) + growth pairs file ≤ 16 + MAXDNAME * pairs.length) := by
  have lengths : ∀ pair ∈ pairs, pair.ip.length + pair.domain.length + 2 < 1024 := by
    intro pair listed
    rw [← entry_length]
    exact entries pair listed
  rw [modifyHostsfile]
  constructor
  · intro ran
    obtain ⟨result, ran⟩ := Option.isSome_iff_exists.1 ran
    obtain ⟨room, sized, ran⟩ := Option.bind_eq_some_iff.1 ran
    refine ⟨(buffLen_eq_some_iff.1 sized).1, ?_⟩
    intro positive
    rw [if_neg (not_le.2 positive), if_pos rfl] at ran
    obtain ⟨text, made, _⟩ := Option.bind_eq_some_iff.1 ran
    exact ((assembled_eq_some_iff pairs file text).1 made).1.room
  · intro held
    obtain ⟨sized, room⟩ := held
    rw [buffLen_eq_some_iff.2 ⟨sized, rfl⟩, Option.bind_eq_bind, Option.bind_some]
    by_cases empty : toInt file.length ≤ 0
    · rw [if_pos empty]
      rfl
    · have fits : Fits pairs file := ⟨not_le.1 empty, lengths, sized, room (not_le.1 empty)⟩
      rw [if_neg empty, if_pos rfl, (assembled_eq_some_iff pairs file _).2 ⟨fits, rfl⟩]
      rfl

theorem copies_inside_two_lines :
    (modifyHostsfile true [⟨[0x61], [0x33], by decide, by decide⟩, ⟨[0x63], [0x34], by decide, by decide⟩]
        [0x31, 0x20, 0x61, 0x0a, 0x32, 0x20, 0x62, 0x0a]).isSome ↔
      Sized (toInt ([0x31, 0x20, 0x61, 0x0a, 0x32, 0x20, 0x62, 0x0a] : Bytes).length) 2 ∧
        (0 < toInt ([0x31, 0x20, 0x61, 0x0a, 0x32, 0x20, 0x62, 0x0a] : Bytes).length →
          (([0x31, 0x20, 0x61, 0x0a, 0x32, 0x20, 0x62, 0x0a] : Bytes).length -
            toInt ([0x31, 0x20, 0x61, 0x0a, 0x32, 0x20, 0x62, 0x0a] : Bytes).length) +
          growth [⟨[0x61], [0x33], by decide, by decide⟩, ⟨[0x63], [0x34], by decide, by decide⟩]
            [0x31, 0x20, 0x61, 0x0a, 0x32, 0x20, 0x62, 0x0a] ≤ 16 + MAXDNAME * 2) :=
  copies_inside_iff
    [⟨[0x61], [0x33], by decide, by decide⟩, ⟨[0x63], [0x34], by decide, by decide⟩] (by decide)
    [0x31, 0x20, 0x61, 0x0a, 0x32, 0x20, 0x62, 0x0a]

theorem seventy_lines_overflow :
    modifyHostsfile true
      [⟨[0x61], [0x32, 0x35, 0x35, 0x2e, 0x32, 0x35, 0x35, 0x2e, 0x32, 0x35, 0x35, 0x2e, 0x32, 0x35,
        0x35], by decide, by decide⟩]
      (List.replicate 70 [0x20, 0x61, 0x0a]).flatten = none := by
  decide +kernel

/-- For one pair the two versions leave the same file. -/
theorem versions_agree (pair : Service) (file content single : Bytes) (result : Int)
    (positive : 0 < toInt file.length)
    (ran : modifyHostsfile true [pair] file = some (result, content))
    (ranSingle : modifyHostsfileSingle true pair file = some single) : content = single := by
  rw [modifyHostsfile, Option.bind_eq_bind] at ran
  obtain ⟨_, _, ran⟩ := Option.bind_eq_some_iff.1 ran
  rw [if_neg (not_le.2 positive), if_pos rfl, Option.bind_eq_bind] at ran
  obtain ⟨text, made, written⟩ := Option.bind_eq_some_iff.1 ran
  obtain ⟨_, rfl⟩ := (assembled_eq_some_iff [pair] file text).1 made
  obtain ⟨_, same⟩ := Prod.mk.inj (Option.some.inj written)
  rw [modifyHostsfileSingle, Option.bind_eq_bind] at ranSingle
  obtain ⟨_, _, ranSingle⟩ := Option.bind_eq_some_iff.1 ranSingle
  obtain ⟨room, _, ranSingle⟩ := Option.bind_eq_some_iff.1 ranSingle
  obtain ⟨_, _, ranSingle⟩ := Option.bind_eq_some_iff.1 ranSingle
  rw [if_pos rfl, Option.bind_eq_bind] at ranSingle
  obtain ⟨text, made, written⟩ := Option.bind_eq_some_iff.1 ranSingle
  obtain ⟨rfl, _⟩ := (assemble_eq_some_iff 1024 room.toNat le_rfl [pair] file text).1 made
  exact same.symm.trans (Option.some.inj written)

def Replaced (opened : Bool) (pairs : List Service) (file : Bytes) : Prop :=
  ∃ result content, modifyHostsfile opened pairs file = some (result, content) ∧
    (result = 0 → assembled pairs file = some content)

/-- The file is replaced exactly when its size is a positive `int`, no buffer or `int` overflows, and
the lines that are replaced and appended make it no shorter. -/
theorem replaced_iff (opened : Bool) (pairs : List Service) (file : Bytes) :
    Replaced opened pairs file ↔ Sized (toInt file.length) pairs.length ∧ 0 < toInt file.length ∧
      (opened = true → Fits pairs file ∧ 0 ≤ growth pairs file) := by
  have length := newText_length pairs file
  rw [Replaced, modifyHostsfile]
  by_cases sized : Sized (toInt file.length) pairs.length
  · have room := buffLen_eq_some_iff.2 ⟨sized, rfl⟩
    rw [room, Option.bind_eq_bind, Option.bind_some]
    by_cases empty : toInt file.length ≤ 0
    · simp [empty, assembled, room]
    · cases opened with
      | false => simp [empty, not_le.1 empty, sized]
      | true =>
          by_cases fits : Fits pairs file
          · -- the bytes behind the new text are those of the old one
            have text := (assembled_eq_some_iff pairs file _).2 ⟨fits, rfl⟩
            have longer : file.length ≤ (newText pairs (linesOf file)).length ↔
                0 ≤ growth pairs file := by omega
            simp [empty, not_le.1 empty, sized, fits, text, ← longer]
          · have none : assembled pairs file = none := by
              apply Option.eq_none_iff_forall_ne_some.2
              intro text made
              exact fits ((assembled_eq_some_iff pairs file text).1 made).1
            simp [empty, fits, none]
  · have room : buffLen (toInt file.length) pairs.length = none := by
      apply Option.eq_none_iff_forall_ne_some.2
      intro room held
      exact sized (buffLen_eq_some_iff.1 held).1
    simp [room, sized]

/-- The text `1 a b`, with `2` as the new address of `a`: it becomes `2 a`, and the last two bytes
of the old line are left behind it. -/
theorem shorter_line_left_over :
    ¬Replaced true [⟨[0x61], [0x32], by decide, by decide⟩] [0x31, 0x20, 0x61, 0x20, 0x62, 0x0a] := by
  intro held
  obtain ⟨result, content, ran, replaced⟩ := held
  have returned : modifyHostsfile true [⟨[0x61], [0x32], by decide, by decide⟩]
      [0x31, 0x20, 0x61, 0x20, 0x62, 0x0a] = some (0, [0x32, 0x20, 0x61, 0x0a, 0x62, 0x0a]) := by
    decide +kernel
  have text : assembled [⟨[0x61], [0x32], by decide, by decide⟩]
      [0x31, 0x20, 0x61, 0x20, 0x62, 0x0a] = some [0x32, 0x20, 0x61, 0x0a] := by
    decide +kernel
  obtain ⟨rfl, rfl⟩ := Prod.mk.inj (Option.some.inj (returned.symm.trans ran))
  rw [text] at replaced
  cases replaced rfl

end DataStructure.Hosts
