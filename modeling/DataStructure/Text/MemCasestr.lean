import Mathlib

/-! `mem_casestr` of `test/memcasestr.c`, the search for a string up to letter case.

The memory at `s` is the buffer of `n` bytes followed by the bytes that may be read behind it.
A read behind these gives `none`. -/

namespace DataStructure.MemCasestr

def isupper (c : UInt8) : Bool := 65 ≤ c && c ≤ 90

def islower (c : UInt8) : Bool := 97 ≤ c && c ≤ 122

def tolower (c : UInt8) : UInt8 := if isupper c then c + 32 else c

def toupper (c : UInt8) : UInt8 := if islower c then c - 32 else c

/-- `__ul_cha`; the classification of a negative `char` is not defined. -/
def ulCha (c : UInt8) : Option UInt8 :=
  if 128 ≤ c then none
  else if isupper c then some (tolower c)
  else if islower c then some (toupper c)
  else some c

def differs (d c : UInt8) : Option Bool :=
  if d ≠ c then do
    let other ← ulCha c
    some (d ≠ other)
  else some false

/-- The loop, with `tmp`, `ss` and `d` as offsets; the first argument bounds the rounds. -/
def searchLoop (mem str : List UInt8) (n : Nat) : Nat → Nat → Nat → Nat → Option (Option Nat)
  | 0, _, _, _ => none
  | fuel + 1, tmp, ss, d =>
      if ss = n then some none
      else do
        let wanted ← (str ++ [0])[d]?
        if wanted = 0 then some (some (ss - str.length))
        else
          let differ ← differs wanted (← mem[ss]?)
          if differ then searchLoop mem str n fuel (tmp + 1) (tmp + 1) 0
          else
            -- `printf` is given `*ss`, which may be the byte behind the buffer
            let _ ← mem[ss + 1]?
            let next ← (str ++ [0])[d + 1]?
            if next = 0 then some (some (ss + 1 - str.length))
            else searchLoop mem str n fuel tmp (ss + 1) (d + 1)

/-- The offset of the pointer that is returned, `some none` for `NULL`. -/
def memCasestr (mem str : List UInt8) (n : Nat) : Option (Option Nat) :=
  searchLoop mem str n ((n + 1) * (str.length + 1)) 0 0 0

def Ascii (text : List UInt8) : Prop := ∀ c ∈ text, c < 128

def SameLetter (d c : UInt8) : Prop := tolower d = tolower c

instance (d c : UInt8) : Decidable (SameLetter d c) := inferInstanceAs (Decidable (_ = _))

theorem ulCha_ascii {c : UInt8} (ascii : c < 128) :
    ulCha c = some (if isupper c then tolower c else if islower c then toupper c else c) := by
  have defined : ¬128 ≤ c := UInt8.not_le.mpr ascii
  rw [ulCha, if_neg defined]
  split
  · rfl
  · split <;> rfl

theorem same_or_other_iff (d c : UInt8) :
    (d = c ∨ d = if isupper c then tolower c else if islower c then toupper c else c) ↔
      SameLetter d c := by
  simp only [SameLetter, tolower, toupper, isupper, islower, Bool.and_eq_true, decide_eq_true_eq,
    UInt8.le_iff_toNat_le, ← UInt8.toNat_inj]
  have first := d.toNat_lt
  have second := c.toNat_lt
  split_ifs <;> simp_all [UInt8.toNat_add, UInt8.toNat_sub] <;> omega

theorem differs_ascii (d : UInt8) {c : UInt8} (ascii : c < 128) :
    differs d c = some (decide (¬SameLetter d c)) := by
  have letter := same_or_other_iff d c
  rw [differs, ulCha_ascii ascii]
  by_cases same : d = c
  · simp [same, SameLetter]
  · rw [if_pos same]
    simp only [Option.bind_eq_bind, Option.bind_some, Option.some_inj, decide_eq_decide, ne_eq]
    rw [← letter, or_iff_right same]

section Search

variable (s str : List UInt8)

def OccursAt (k : Nat) : Prop :=
  k + str.length ≤ s.length ∧ ∀ i < str.length, SameLetter (str.getD i 0) (s.getD (k + i) 0)

def TouchesAt (k : Nat) : Prop :=
  k < s.length ∧ s.length ≤ k + str.length ∧
    ∀ i, k + i < s.length → SameLetter (str.getD i 0) (s.getD (k + i) 0)

/-- The search reaches an offset from which it agrees up to the end of the buffer. -/
def Touches : Prop := ∃ k, TouchesAt s str k ∧ ∀ j < k, ¬OccursAt s str j

def First : Option Nat → Prop
  | some k => OccursAt s str k ∧ ∀ j < k, ¬OccursAt s str j
  | none => ∀ k, ¬OccursAt s str k

/-- What the loop knows with `tmp` and `d`: the offsets before are ruled out and `d` bytes agree. -/
structure Scanning (tmp d : Nat) : Prop where
  inside : tmp + d ≤ s.length
  short : d < str.length
  agree : ∀ i < d, SameLetter (str.getD i 0) (s.getD (tmp + i) 0)
  passed : ∀ j < tmp, ¬OccursAt s str j
  untouched : ∀ j < tmp, ¬TouchesAt s str j

variable {s str}

theorem Scanning.restart {tmp d : Nat} (scan : Scanning s str tmp d) (more : tmp + d < s.length)
    (differ : ¬SameLetter (str.getD d 0) (s.getD (tmp + d) 0)) :
    Scanning s str (tmp + 1) 0 where
  inside := by omega
  short := by
    have := scan.short
    omega
  agree := by
    intro i below
    omega
  passed := by
    intro j below occurs
    by_cases here : j = tmp
    · subst here
      exact differ (occurs.2 d scan.short)
    · exact scan.passed j (by omega) occurs
  untouched := by
    intro j below touches
    by_cases here : j = tmp
    · subst here
      exact differ (touches.2.2 d more)
    · exact scan.untouched j (by omega) touches

theorem agree_extend {tmp d : Nat} (scan : Scanning s str tmp d)
    (same : SameLetter (str.getD d 0) (s.getD (tmp + d) 0)) :
    ∀ i < d + 1, SameLetter (str.getD i 0) (s.getD (tmp + i) 0) := by
  intro i below
  by_cases last : i = d
  · rw [last]
    exact same
  · exact scan.agree i (by omega)

theorem Scanning.advance {tmp d : Nat} (scan : Scanning s str tmp d) (more : tmp + d < s.length)
    (same : SameLetter (str.getD d 0) (s.getD (tmp + d) 0)) (longer : d + 1 < str.length) :
    Scanning s str tmp (d + 1) where
  inside := by omega
  short := longer
  agree := agree_extend scan same
  passed := scan.passed
  untouched := scan.untouched

theorem Scanning.ended {tmp d : Nat} (scan : Scanning s str tmp d) (ends : tmp + d = s.length) :
    First s str none := by
  intro k occurs
  by_cases before : k < tmp
  · exact scan.passed k before occurs
  · have room := occurs.1
    have short := scan.short
    omega

theorem Scanning.touches {tmp d : Nat} (scan : Scanning s str tmp d)
    (ends : tmp + d + 1 = s.length) (same : SameLetter (str.getD d 0) (s.getD (tmp + d) 0)) :
    Touches s str := by
  have short := scan.short
  refine ⟨tmp, ⟨by omega, by omega, ?_⟩, scan.passed⟩
  intro i below
  exact agree_extend scan same i (by omega)

theorem Scanning.found {tmp d : Nat} (scan : Scanning s str tmp d) (more : tmp + d < s.length)
    (same : SameLetter (str.getD d 0) (s.getD (tmp + d) 0)) (complete : d + 1 = str.length) :
    First s str (some tmp) := by
  refine ⟨⟨by omega, ?_⟩, scan.passed⟩
  intro i below
  exact agree_extend scan same i (by omega)

theorem Scanning.not_touches {tmp d : Nat} (scan : Scanning s str tmp d)
    (occurs : OccursAt s str tmp) (before : tmp + str.length < s.length) : ¬Touches s str := by
  intro touches
  obtain ⟨k, touch, reached⟩ := touches
  by_cases earlier : k < tmp
  · exact scan.untouched k earlier touch
  · by_cases here : k = tmp
    · have ends := touch.2.1
      omega
    · exact reached tmp (by omega) occurs

theorem mem_inside (behind : List UInt8) {i : Nat} (inside : i < s.length) :
    (s ++ behind)[i]? = some (s.getD i 0) := by
  rw [List.getElem?_append_left inside, List.getD_eq_getElem?_getD,
    List.getElem?_eq_getElem inside, Option.getD_some]

theorem getD_ascii {i : Nat} (ascii : Ascii s) (inside : i < s.length) : s.getD i 0 < 128 := by
  rw [List.getD_eq_getElem s 0 inside]
  exact ascii _ (List.getElem_mem inside)

def Outcome (s str behind : List UInt8) (result : Option (Option Nat)) : Prop :=
  (result = none ∧ behind = [] ∧ Touches s str) ∨
    ∃ found, result = some found ∧ First s str found ∧ (behind = [] → ¬Touches s str)

theorem Scanning.outcome_ended {behind : List UInt8} {tmp d : Nat} (scan : Scanning s str tmp d)
    (ends : tmp + d = s.length) (readable : 0 < d → behind ≠ []) :
    Outcome s str behind (some none) := by
  right
  refine ⟨none, rfl, scan.ended ends, ?_⟩
  intro nothing touches
  have start : d = 0 := by
    by_contra started
    exact readable (Nat.pos_of_ne_zero started) nothing
  obtain ⟨k, touch, -⟩ := touches
  have inside := touch.1
  exact scan.untouched k (by omega) touch

theorem Scanning.outcome_found {behind : List UInt8} {tmp d : Nat} (scan : Scanning s str tmp d)
    (more : tmp + d < s.length) (same : SameLetter (str.getD d 0) (s.getD (tmp + d) 0))
    (complete : d + 1 = str.length) (readable : ¬(tmp + d + 1 = s.length ∧ behind = [])) :
    Outcome s str behind (some (some tmp)) := by
  have first := scan.found more same complete
  right
  refine ⟨some tmp, rfl, first, ?_⟩
  intro nothing
  apply scan.not_touches first.1
  have unended : tmp + d + 1 ≠ s.length := fun ended => readable ⟨ended, nothing⟩
  omega

theorem getD_ne_zero {d : Nat} (clean : 0 ∉ str) (inside : d < str.length) : str.getD d 0 ≠ 0 := by
  rw [List.getD_eq_getElem str 0 inside]
  exact fun zero => clean (zero ▸ List.getElem_mem inside)

theorem searchLoop_round {behind : List UInt8} {fuel tmp d : Nat} (ascii : Ascii s)
    (clean : 0 ∉ str) (scan : Scanning s str tmp d) (more : tmp + d < s.length) :
    searchLoop (s ++ behind) str s.length (fuel + 1) tmp (tmp + d) d =
      if SameLetter (str.getD d 0) (s.getD (tmp + d) 0) then
        (s ++ behind)[tmp + d + 1]?.bind fun _ =>
          if d + 1 = str.length then some (some tmp)
          else searchLoop (s ++ behind) str s.length fuel tmp (tmp + d + 1) (d + 1)
      else searchLoop (s ++ behind) str s.length fuel (tmp + 1) (tmp + 1) 0 := by
  have short := scan.short
  have here : (str ++ [0])[d]? = some (str.getD d 0) := mem_inside [0] short
  simp only [searchLoop, if_neg (by omega : ¬tmp + d = s.length), here, mem_inside behind more,
    Option.bind_eq_bind, Option.bind_some, if_neg (getD_ne_zero clean short),
    differs_ascii _ (getD_ascii ascii more), decide_eq_true_eq, ite_not]
  by_cases same : SameLetter (str.getD d 0) (s.getD (tmp + d) 0)
  · rw [if_pos same, if_pos same]
    congr 1
    funext _
    by_cases complete : d + 1 = str.length
    · have terminator : (str ++ [0])[d + 1]? = some 0 := by
        rw [complete, List.getElem?_append_right le_rfl, Nat.sub_self]
        rfl
      simp only [terminator, Option.bind_some, if_true, if_pos complete]
      congr 2
      omega
    · have next : (str ++ [0])[d + 1]? = some (str.getD (d + 1) 0) :=
        mem_inside [0] (by omega)
      simp only [next, Option.bind_some, if_neg (getD_ne_zero clean (by omega : d + 1 < str.length)),
        if_neg complete]
  · rw [if_neg same, if_neg same]

theorem read_next {behind : List UInt8} {i : Nat} (inside : i < s.length)
    (readable : ¬(i + 1 = s.length ∧ behind = [])) :
    ∃ byte, (s ++ behind)[i + 1]? = some byte := by
  have room : i + 1 < (s ++ behind).length := by
    rw [List.length_append]
    by_cases ended : i + 1 = s.length
    · have size := List.length_pos_of_ne_nil fun nothing => readable ⟨ended, nothing⟩
      omega
    · omega
  exact ⟨_, List.getElem?_eq_getElem room⟩

/-- The rounds that are left decrease lexicographically in `tmp` and `d`. -/
theorem searchLoop_outcome (behind : List UInt8) (ascii : Ascii s) (clean : 0 ∉ str)
    (fuel tmp d : Nat) (scan : Scanning s str tmp d)
    (enough : (s.length - tmp) * (str.length + 1) + (str.length - d) < fuel)
    (readable : 0 < d → tmp + d = s.length → behind ≠ []) :
    Outcome s str behind (searchLoop (s ++ behind) str s.length fuel tmp (tmp + d) d) := by
  induction fuel generalizing tmp d with
  | zero => omega
  | succ fuel ih =>
      by_cases ends : tmp + d = s.length
      · rw [searchLoop, if_pos ends]
        exact scan.outcome_ended ends fun started => readable started ends
      have short := scan.short
      have more : tmp + d < s.length := by
        have := scan.inside
        omega
      by_cases same : SameLetter (str.getD d 0) (s.getD (tmp + d) 0)
      · rw [searchLoop_round ascii clean scan more, if_pos same]
        by_cases last : tmp + d + 1 = s.length ∧ behind = []
        · left
          obtain ⟨ended, nothing⟩ := last
          refine ⟨?_, nothing, scan.touches ended same⟩
          rw [nothing, List.append_nil, List.getElem?_eq_none (by omega)]
          rfl
        · obtain ⟨byte, read⟩ := read_next more last
          rw [read, Option.bind_some]
          by_cases complete : d + 1 = str.length
          · rw [if_pos complete]
            exact scan.outcome_found more same complete last
          · rw [if_neg complete]
            apply ih tmp (d + 1) (scan.advance more same (by omega)) (by omega)
            intro _ ended nothing
            exact last ⟨ended, nothing⟩
      · rw [searchLoop_round ascii clean scan more, if_neg same]
        apply ih (tmp + 1) 0 (scan.restart more same)
        · have split : s.length - tmp = s.length - (tmp + 1) + 1 := by omega
          rw [split, Nat.add_mul] at enough
          omega
        · intro started
          omega

theorem memCasestr_outcome (behind : List UInt8) (ascii : Ascii s) (clean : 0 ∉ str)
    (wanted : str ≠ []) : Outcome s str behind (memCasestr (s ++ behind) str s.length) := by
  have size := List.length_pos_of_ne_nil wanted
  apply searchLoop_outcome behind ascii clean _ 0 0
  · exact ⟨by omega, size, by omega, by omega, by omega⟩
  · rw [Nat.add_mul, Nat.sub_zero]
    omega
  · intro started
    omega

end Search

/-- The search returns the first occurrence exactly if a byte behind the buffer may be read or the
search never agrees up to the end of the buffer. -/
theorem memCasestr_first_iff (s str behind : List UInt8) (text : Ascii s) (clean : 0 ∉ str)
    (wanted : str ≠ []) :
    (∃ found, memCasestr (s ++ behind) str s.length = some found ∧ First s str found) ↔
      behind ≠ [] ∨ ¬Touches s str := by
  rcases memCasestr_outcome behind text clean wanted with stopped | ran
  · obtain ⟨failed, nothing, touches⟩ := stopped
    constructor
    · intro returned
      obtain ⟨found, result, -⟩ := returned
      rw [failed] at result
      cases result
    · intro spared
      exact absurd touches (spared.resolve_left (not_not.mpr nothing))
  · obtain ⟨found, result, first, untouched⟩ := ran
    constructor
    · intro _
      by_cases nothing : behind = []
      · exact .inr (untouched nothing)
      · exact .inl nothing
    · intro _
      exact ⟨found, result, first⟩

theorem memCasestr_first_overlapping :
    (∃ found, memCasestr ([97, 65, 98, 0] ++ [0]) [97, 98] 4 = some found ∧
        First [97, 65, 98, 0] [97, 98] found) ↔
      [(0 : UInt8)] ≠ [] ∨ ¬Touches [97, 65, 98, 0] [97, 98] :=
  memCasestr_first_iff [97, 65, 98, 0] [97, 98] [0] (by simp [Ascii]) (by decide)
    (by decide)

/-- With the occurrence at the end of the buffer the byte behind it is read. -/
theorem memCasestr_reads_behind :
    memCasestr [97] [97] 1 = none ∧ OccursAt [97] [97] 0 := by
  unfold OccursAt
  decide

end DataStructure.MemCasestr
