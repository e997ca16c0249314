import DataStructure.Lib.CText
import DataStructure.Lib.Tally

/-! The counting sort of `problem/sort-On.c`.

Plain `char` is signed and has eight bits, so a counter wraps behind 127 and a byte from 128 on is
a negative index. `none` stands for an access outside an array and for an overflow of an index. -/

namespace DataStructure.SortOn

open Tally

def char (n : Int) : Int := n.bmod 256

/-- `++b[key]` -/
def bump (b : Nat → Int) (key : Int) : Option (Nat → Int) :=
  if 0 ≤ key ∧ key < 256 then some (Function.update b key.toNat (char (b key.toNat + 1))) else none

def walk : List UInt8 → Nat → (Nat → Int) → Option (Nat → Int)
  | [], _, b => some b
  | c :: str, i, b => do
      let b ← bump b (char c.toNat)
      let i ← CInt.index (i + 1)
      walk str i b

/-- The inner loop, which stores `i` as often as given; the state is `index` and the memory. -/
def store (i : Nat) : Nat → Nat × List UInt8 → Option (Nat × List UInt8)
  | 0, s => some s
  | n + 1, (index, str) =>
      if index < str.length then do
        let next ← CInt.index (index + 1)
        store i n (next, str.set index (UInt8.ofNat i))
      else none

def storeAll (b : Nat → Int) (str : List UInt8) : Option (Nat × List UInt8) :=
  (List.range 256).foldlM (fun s i => store i (b i).toNat s) (0, str)

/-- The memory of a string up to its NUL, or NULL. -/
def sortbyN : Option (List UInt8) → Option (Option (List UInt8))
  | none => some none
  | some str => do
      let b ← walk (str.takeWhile (· ≠ 0)) 0 fun _ => 0
      let (_, str) ← storeAll b str
      some (some str)

def Sorts (str : List UInt8) : Prop :=
  ∃ str', sortbyN (some (str ++ [0])) = some (some (str' ++ [0])) ∧
    str'.Pairwise (· ≤ ·) ∧ str'.Perm str

/-- How often a byte is written: the value that its counter ends with. -/
def kept (str : List UInt8) (c : UInt8) : Nat := (char (str.count c)).toNat

def bytes : List UInt8 := (List.range 256).map UInt8.ofNat

def written (str : List UInt8) : List UInt8 := spread bytes (kept str)

def lost (str : List UInt8) : List UInt8 := spread bytes fun c => str.count c - kept str c

theorem toNat_byte {i : Nat} (member : i ∈ List.range 256) : (UInt8.ofNat i).toNat = i :=
  UInt8.toNat_ofNat_of_lt' (List.mem_range.1 member)

theorem bytes_ascending : bytes.Pairwise (· < ·) := by
  rw [bytes, List.pairwise_map]
  apply List.pairwise_lt_range.imp_of_mem
  intro i j first second less
  rw [UInt8.lt_iff_toNat_lt, toNat_byte first, toNat_byte second]
  exact less

theorem bytes_nodup : bytes.Nodup := bytes_ascending.imp UInt8.ne_of_lt

theorem mem_bytes (c : UInt8) : c ∈ bytes :=
  List.mem_map.2 ⟨c.toNat, List.mem_range.2 c.toNat_lt, UInt8.ofNat_toNat⟩

theorem spread_sorted (tally : UInt8 → Nat) : (spread bytes tally).Pairwise (· ≤ ·) :=
  pairwise_spread UInt8.le_refl (bytes_ascending.imp UInt8.le_of_lt)

theorem kept_le (str : List UInt8) (c : UInt8) : kept str c ≤ str.count c := by
  rw [kept, char, Int.bmod_def]
  split <;> omega

theorem written_length_le (str : List UInt8) : (written str).length ≤ str.length := by
  apply List.Subperm.length_le
  rw [List.subperm_ext_iff]
  intro c _
  rw [written, count_spread bytes_nodup c (mem_bytes c)]
  exact kept_le str c

theorem bump_ascii (b : Nat → Int) (c : UInt8) (ascii : c < 128) :
    bump b (char c.toNat) = some (Function.update b c.toNat (char (b c.toNat + 1))) := by
  have small : c.toNat < 128 := UInt8.lt_iff_toNat_lt.1 ascii
  have same : char c.toNat = c.toNat := Int.bmod_eq_of_le (by omega) (by omega)
  rw [bump, same, if_pos ⟨by omega, by omega⟩, Int.toNat_natCast]

theorem bump_other (b : Nat → Int) (c : UInt8) (other : ¬c < 128) :
    bump b (char c.toNat) = none := by
  have large : ¬c.toNat < 128 := fun small => other (UInt8.lt_iff_toNat_lt.2 small)
  have bound : c.toNat < 256 := c.toNat_lt
  have negative : char c.toNat < 0 := by
    rw [char, Int.bmod_def]
    split <;> omega
  rw [bump, if_neg (by omega)]

/-- The counters end with the number of times each byte occurs, as a `char`. -/
theorem walk_spec (str : List UInt8) (i : Nat) (b : Nat → Int) (start : ∀ n, char (b n) = b n)
    (ascii : ∀ c ∈ str, c < 128) (short : i + str.length < 2 ^ 31) :
    ∃ b', walk str i b = some b' ∧ ∀ c : UInt8, b' c.toNat = char (b c.toNat + str.count c) := by
  induction str generalizing i b with
  | nil =>
      refine ⟨b, rfl, ?_⟩
      intro c
      rw [List.count_nil, Nat.cast_zero, add_zero, start]
  | cons head str ih =>
      rw [List.length_cons] at short
      have valid : ∀ n, char (Function.update b head.toNat (char (b head.toNat + 1)) n) =
          Function.update b head.toNat (char (b head.toNat + 1)) n := by
        intro n
        rw [Function.update_apply]
        split
        · exact Int.bmod_bmod
        · exact start n
      obtain ⟨b', walked, counts⟩ := ih (i + 1) _ valid
        (fun c member => ascii c (List.mem_cons_of_mem head member)) (by omega)
      refine ⟨b', ?_, ?_⟩
      · rw [walk, bump_ascii b head (ascii head List.mem_cons_self), CInt.index_eq, if_pos (by omega)]
        exact walked
      · intro c
        rw [counts c, List.count_cons]
        by_cases same : head = c
        · subst same
          rw [Function.update_self, beq_self_eq_true, if_pos rfl, char, char, Int.bmod_add_bmod]
          congr 1
          push_cast
          ring
        · have apart : c.toNat ≠ head.toNat := fun equal => same (UInt8.toNat_inj.1 equal).symm
          rw [Function.update_of_ne apart, beq_false_of_ne same, if_neg Bool.false_ne_true, Nat.add_zero]

theorem walk_some {str : List UInt8} {i : Nat} {b b' : Nat → Int} (walked : walk str i b = some b') :
    (∀ c ∈ str, c < 128) ∧ (str = [] ∨ i + str.length < 2 ^ 31) := by
  induction str generalizing i b with
  | nil => exact ⟨List.forall_mem_nil _, .inl rfl⟩
  | cons head str ih =>
      rw [walk] at walked
      by_cases ascii : head < 128
      · rw [bump_ascii b head ascii, Option.bind_eq_bind, Option.bind_some, CInt.index_eq] at walked
        split at walked
        · next small =>
            obtain ⟨others, bound⟩ := ih walked
            refine ⟨List.forall_mem_cons.2 ⟨ascii, others⟩, .inr ?_⟩
            rw [List.length_cons]
            rcases bound with empty | short
            · rw [empty, List.length_nil]
              omega
            · omega
        · cases walked
      · rw [bump_other b head ascii] at walked
        cases walked

theorem store_spec (i n : Nat) (before rest : List UInt8) (room : n ≤ rest.length)
    (short : before.length + n < 2 ^ 31) :
    store i n (before.length, before ++ rest) =
      some ((before ++ List.replicate n (UInt8.ofNat i)).length,
        before ++ List.replicate n (UInt8.ofNat i) ++ rest.drop n) := by
  induction n generalizing before rest with
  | zero => rw [store, List.replicate_zero, List.append_nil, List.drop_zero]
  | succ n ih =>
      cases rest with
      | nil => simp at room
      | cons head rest =>
          rw [List.length_cons] at room
          have put : (before ++ head :: rest).set before.length (UInt8.ofNat i) =
              before ++ [UInt8.ofNat i] ++ rest := by
            rw [List.set_append_right _ _ le_rfl, Nat.sub_self, List.set_cons_zero, List.append_assoc,
              List.singleton_append]
          have longer : (before ++ [UInt8.ofNat i]).length = before.length + 1 := List.length_append
          have stored := ih (before ++ [UInt8.ofNat i]) rest (by omega) (by omega)
          rw [longer] at stored
          rw [store, if_pos (by rw [List.length_append, List.length_cons]; omega), CInt.index_eq,
            if_pos (by omega), Option.bind_eq_bind, Option.bind_some, put, stored, List.drop_succ_cons,
            List.append_assoc before, List.singleton_append, ← List.replicate_succ]

theorem storeAll_spec (b : Nat → Int) (is : List Nat) (before rest out : List UInt8)
    (all : out = is.flatMap fun i => List.replicate (b i).toNat (UInt8.ofNat i))
    (room : out.length ≤ rest.length) (short : before.length + out.length < 2 ^ 31) :
    is.foldlM (fun s i => store i (b i).toNat s) (before.length, before ++ rest) =
      some ((before ++ out).length, before ++ out ++ rest.drop out.length) := by
  induction is generalizing before rest out with
  | nil =>
      subst all
      simp
  | cons i is ih =>
      rw [List.flatMap_cons] at all
      have length := congrArg List.length all
      rw [List.length_append, List.length_replicate] at length
      have first := store_spec i (b i).toNat before rest (by omega) (by omega)
      have more := ih (before ++ List.replicate (b i).toNat (UInt8.ofNat i)) (rest.drop (b i).toNat) _ rfl
        (by rw [List.length_drop]; omega) (by rw [List.length_append, List.length_replicate]; omega)
      rw [List.foldlM_cons, first, Option.bind_eq_bind, Option.bind_some, more, List.drop_drop,
        ← length, List.append_assoc before, ← all]

theorem written_eq {str : List UInt8} {b : Nat → Int}
    (counts : ∀ c : UInt8, b c.toNat = char (str.count c)) :
    written str = (List.range 256).flatMap fun i => List.replicate (b i).toNat (UInt8.ofNat i) := by
  rw [written, spread, bytes, List.flatMap_map]
  apply List.flatMap_congr
  intro i member
  rw [kept, ← counts (UInt8.ofNat i), toNat_byte member]

/-- The bytes that are counted right replace as many at the front of the string. -/
theorem sortbyN_spec (str : List UInt8) (text : ∀ c ∈ str, c ≠ 0) (ascii : ∀ c ∈ str, c < 128)
    (short : str.length < 2 ^ 31) :
    sortbyN (some (str ++ [0])) =
      some (some (written str ++ str.drop (written str).length ++ [0])) := by
  obtain ⟨b, walked, counts⟩ := walk_spec str 0 (fun _ => 0) (fun _ => rfl) ascii (by omega)
  have few : (written str).length ≤ str.length := written_length_le str
  have counted : ∀ c : UInt8, b c.toNat = char (str.count c) := by
    intro c
    rw [counts c, zero_add]
  have stored := storeAll_spec b (List.range 256) [] (str ++ [0]) (written str) (written_eq counted)
    (by rw [List.length_append]; omega) (by rw [List.length_nil]; omega)
  rw [sortbyN, CText.takeWhile_stop (fun zero => text 0 zero rfl), walked, Option.bind_eq_bind, Option.bind_some, storeAll]
  rw [List.length_nil, List.nil_append, List.nil_append, List.drop_append_of_le_length few,
    ← List.append_assoc] at stored
  rw [stored]
  rfl

theorem sortbyN_some {str : List UInt8} {result : Option (List UInt8)} (text : ∀ c ∈ str, c ≠ 0)
    (ran : sortbyN (some (str ++ [0])) = some result) :
    (∀ c ∈ str, c < 128) ∧ str.length < 2 ^ 31 := by
  rw [sortbyN, CText.takeWhile_stop (fun zero => text 0 zero rfl), Option.bind_eq_bind] at ran
  obtain ⟨b, walked, -⟩ := Option.bind_eq_some_iff.1 ran
  obtain ⟨ascii, bound⟩ := walk_some walked
  refine ⟨ascii, ?_⟩
  rcases bound with empty | short
  · rw [empty, List.length_nil]
    omega
  · omega

theorem count_written (str : List UInt8) (c : UInt8) : (written str).count c = kept str c :=
  count_spread bytes_nodup c (mem_bytes c)

/-- What remains behind the written bytes makes the string complete and sorted exactly when it is
the lost bytes in order, and none of them belongs further to the front. -/
theorem complete_iff (str rest : List UInt8) :
    (written str ++ rest).Pairwise (· ≤ ·) ∧ (written str ++ rest).Perm str ↔
      rest = lost str ∧ ∀ x ∈ written str, ∀ y ∈ lost str, x ≤ y := by
  constructor
  · intro correct
    obtain ⟨sorted, perm⟩ := correct
    obtain ⟨-, after, across⟩ := List.pairwise_append.1 sorted
    have counts : ∀ c, rest.count c = str.count c - kept str c := by
      intro c
      have total := List.perm_iff_count.1 perm c
      rw [List.count_append, count_written] at total
      omega
    have same : rest = lost str :=
      eq_spread UInt8.le_refl (fun a b => UInt8.le_antisymm) (bytes_ascending.imp UInt8.le_of_lt)
        bytes_nodup mem_bytes after counts
    rw [same] at across
    exact ⟨same, across⟩
  · intro complete
    obtain ⟨same, across⟩ := complete
    rw [same]
    constructor
    · exact List.pairwise_append.2 ⟨spread_sorted (kept str), spread_sorted _, across⟩
    · rw [List.perm_iff_count]
      intro c
      have most : kept str c ≤ str.count c := kept_le str c
      rw [List.count_append, count_written, lost, count_spread bytes_nodup c (mem_bytes c)]
      omega

theorem written_of_few (str : List UInt8) (few : ∀ c, str.count c ≤ 127) :
    lost str = [] ∧ str.drop (written str).length = [] := by
  have all : kept str = fun c => str.count c := by
    funext c
    have bound := few c
    have same : char (str.count c) = str.count c := Int.bmod_eq_of_le (by omega) (by omega)
    rw [kept, same, Int.toNat_natCast]
  have perm : (written str).Perm str := by
    rw [List.perm_iff_count]
    intro c
    rw [count_written, all]
  constructor
  · rw [lost, spread, all]
    simp
  · exact List.drop_eq_nil_of_le perm.length_eq.ge

/-- A string is sorted exactly when an `int` can index it, all its bytes are below 128, and it ends
in the bytes that its counters lose, in order and after all that are written. -/
theorem sorts_iff (str : List UInt8) (text : ∀ c ∈ str, c ≠ 0) :
    Sorts str ↔ str.length < 2 ^ 31 ∧ (∀ c ∈ str, c < 128) ∧
      str.drop (written str).length = lost str ∧ ∀ x ∈ written str, ∀ y ∈ lost str, x ≤ y := by
  constructor
  · intro sorts
    obtain ⟨str', ran, sorted, perm⟩ := sorts
    obtain ⟨ascii, short⟩ := sortbyN_some text ran
    rw [sortbyN_spec str text ascii short, Option.some.injEq, Option.some.injEq] at ran
    have result := List.append_cancel_right ran
    rw [← result] at sorted perm
    exact ⟨short, ascii, (complete_iff str _).1 ⟨sorted, perm⟩⟩
  · intro conditions
    obtain ⟨short, ascii, complete⟩ := conditions
    exact ⟨_, sortbyN_spec str text ascii short, (complete_iff str _).2 complete⟩

theorem sorts_two_letters : (∀ c ∈ ([98, 97] : List UInt8), c ≠ 0) ∧
    (Sorts [98, 97] ↔ ([98, 97] : List UInt8).length < 2 ^ 31 ∧ (∀ c ∈ ([98, 97] : List UInt8), c < 128) ∧
      [98, 97].drop (written [98, 97]).length = lost [98, 97] ∧
      ∀ x ∈ written [98, 97], ∀ y ∈ lost [98, 97], x ≤ y) := by
  have text : ∀ c ∈ ([98, 97] : List UInt8), c ≠ 0 := by simp
  exact ⟨text, sorts_iff [98, 97] text⟩

theorem not_sorts_high_byte : ¬Sorts [128] := by
  intro sorts
  obtain ⟨str', ran, -, -⟩ := sorts
  have failed : sortbyN (some ([128] ++ [0])) = none := rfl
  rw [failed] at ran
  cases ran

end DataStructure.SortOn
