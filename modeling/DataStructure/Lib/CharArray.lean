import DataStructure.Lib.CText

/-! Arrays of `char` and the C strings in them.

`none` stands for an access outside the array. -/

namespace DataStructure

structure CharArray (n : Nat) where
  bytes : List UInt8
  size : bytes.length = n
  deriving DecidableEq

namespace CharArray

variable {n : Nat}

def zeroed (n : Nat) : CharArray n := ⟨List.replicate n 0, List.length_replicate⟩

/-- The string at the front of the array, which has to be terminated in it. -/
def cString (a : CharArray n) : Option (List UInt8) :=
  if 0 ∈ a.bytes then some (a.bytes.takeWhile (· ≠ 0)) else none

def write (a : CharArray n) (offset : Nat) (bytes : List UInt8) : Option (CharArray n) :=
  if inside : offset + bytes.length ≤ n then
    some ⟨a.bytes.take offset ++ bytes ++ a.bytes.drop (offset + bytes.length), by
      have size := a.size
      simp only [List.length_append, List.length_take, List.length_drop]
      omega⟩
  else none

/-- `memset(a, c, count)`, and whether it stored bytes behind the array too. -/
def memset (a : CharArray n) (c : UInt8) (count : Nat) : CharArray n × Bool :=
  (⟨List.replicate (min count n) c ++ a.bytes.drop count, by
      have size := a.size
      simp only [List.length_append, List.length_replicate, List.length_drop]
      omega⟩, decide (n < count))

/-- `memcpy(a, source, len)`; a negative `len` is longer than any array. -/
def memcpy (a : CharArray n) (source : List UInt8) (len : Int) : Option (CharArray n) :=
  if 0 ≤ len ∧ len ≤ source.length then a.write 0 (source.take len.toNat) else none

def snprintf (a : CharArray n) (size : Nat) (text : List UInt8) : Option (CharArray n) :=
  if size = 0 then some a else a.write 0 ((text.takeWhile (· ≠ 0)).take (size - 1) ++ [0])

/-- `strcmp`, which must not run past the end of an array. -/
def strcmp : List UInt8 → List UInt8 → Option Int
  | x :: xs, y :: ys =>
      if x ≠ y then some (x.toNat - y.toNat) else if x = 0 then some 0 else strcmp xs ys
  | _, _ => none

theorem ext_bytes {a b : CharArray n} (same : a.bytes = b.bytes) : a = b := by
  cases a
  cases b
  cases same
  rfl

theorem write_isSome (a : CharArray n) (offset : Nat) (bytes : List UInt8) :
    (a.write offset bytes).isSome ↔ offset + bytes.length ≤ n := by
  rw [write]
  split <;> simp [*]

theorem exists_write (a : CharArray n) {offset : Nat} {bytes : List UInt8}
    (fits : offset + bytes.length ≤ n) : ∃ b, a.write offset bytes = some b :=
  Option.isSome_iff_exists.1 ((write_isSome a offset bytes).2 fits)

theorem write_bytes {a b : CharArray n} {offset : Nat} {bytes : List UInt8}
    (wrote : a.write offset bytes = some b) :
    b.bytes = a.bytes.take offset ++ bytes ++ a.bytes.drop (offset + bytes.length) := by
  rw [write] at wrote
  split at wrote
  · rw [← Option.some.inj wrote]
  · cases wrote

theorem memcpy_text (a : CharArray n) (text : List UInt8) :
    a.memcpy (text ++ [0]) text.length = a.write 0 text := by
  rw [memcpy, if_pos (by simp), Int.toNat_natCast, List.take_left]

theorem write_over (a : CharArray n) {front old back : List UInt8} (new : List UInt8)
    (bytes : a.bytes = front ++ (old ++ back)) (same : old.length = new.length) :
    ∃ b, a.write front.length new = some b ∧ b.bytes = front ++ (new ++ back) := by
  have size := a.size
  rw [bytes, List.length_append, List.length_append] at size
  obtain ⟨b, wrote⟩ := a.exists_write (by omega : front.length + new.length ≤ n)
  refine ⟨b, wrote, ?_⟩
  rw [write_bytes wrote, bytes, List.take_left, ← same, ← List.drop_drop, List.drop_left,
    List.drop_left, List.append_assoc]

theorem write_append (a : CharArray n) (offset : Nat) (xs ys : List UInt8) :
    (a.write offset xs).bind (fun b => b.write (offset + xs.length) ys) =
      a.write offset (xs ++ ys) := by
  by_cases inside : offset + (xs ++ ys).length ≤ n
  · have inside' : offset + xs.length + ys.length ≤ n := by
      rw [List.length_append] at inside
      omega
    have size := a.size
    obtain ⟨b, first⟩ := a.exists_write (by omega : offset + xs.length ≤ n)
    obtain ⟨c, second⟩ := b.exists_write inside'
    obtain ⟨d, whole⟩ := a.exists_write inside
    have front : (a.bytes.take offset ++ xs).length = offset + xs.length := by
      rw [List.length_append, List.length_take]
      omega
    have back : (a.bytes.take offset ++ xs ++ a.bytes.drop (offset + xs.length)).drop
        (offset + xs.length + ys.length) = a.bytes.drop (offset + (xs ++ ys).length) := by
      rw [List.drop_append, List.drop_of_length_le (by omega), front, List.nil_append,
        List.drop_drop, List.length_append]
      congr 1
      omega
    rw [first, whole, Option.bind_some, second]
    congr 1
    apply ext_bytes
    rw [write_bytes second, write_bytes first, write_bytes whole, List.take_left' front, back,
      List.append_assoc (a.bytes.take offset)]
  · have none₁ : a.write offset (xs ++ ys) = none := dif_neg inside
    rw [none₁]
    rw [List.length_append] at inside
    cases first : a.write offset xs with
    | none => rfl
    | some b => exact dif_neg (by omega)

theorem takeWhile_clean (text : List UInt8) (clean : 0 ∉ text) : text.takeWhile (· ≠ 0) = text := by
  rw [List.takeWhile_eq_self_iff]
  intro b inside
  have nonzero : b ≠ 0 := ne_of_mem_of_not_mem inside clean
  simpa using nonzero

theorem cString_write {a b : CharArray n} {text : List UInt8} (clean : 0 ∉ text)
    (wrote : a.write 0 (text ++ [0]) = some b) : b.cString = some text := by
  have bytes := write_bytes wrote
  rw [List.take_zero, List.nil_append, List.append_assoc] at bytes
  rw [cString, bytes, if_pos (by simp)]
  exact congrArg some (CText.takeWhile_stop clean _)

/-- A string stored without its terminator ends where the array held a zero before. -/
theorem cString_copied_iff {a b : CharArray n} {text : List UInt8} (clean : 0 ∉ text)
    (wrote : a.write 0 text = some b) : b.cString = some text ↔ a.bytes[text.length]? = some 0 := by
  have bytes := write_bytes wrote
  rw [List.take_zero, List.nil_append, Nat.zero_add] at bytes
  rw [← List.head?_drop, cString, bytes]
  cases a.bytes.drop text.length with
  | nil => simp [clean]
  | cons c rest =>
      rw [List.head?_cons, Option.some_inj]
      constructor
      · intro held
        split at held
        · by_contra nonzero
          have longer := Option.some.inj held
          rw [List.takeWhile_append_of_pos, List.takeWhile_cons_of_pos (by simpa using nonzero)]
            at longer
          · simp at longer
          · intro b inside
            simpa using ne_of_mem_of_not_mem inside clean
        · cases held
      · intro zero
        subst zero
        rw [if_pos (by simp), CText.takeWhile_stop clean rest]

theorem zeroed_copied {b : CharArray n} {text : List UInt8} (clean : 0 ∉ text)
    (short : text.length < n) (wrote : (zeroed n).write 0 text = some b) :
    b.cString = some text := by
  rw [cString_copied_iff clean wrote, zeroed]
  simp [short]

theorem cString_spec {a : CharArray n} {text : List UInt8} (held : a.cString = some text) :
    0 ∉ text ∧ text.length < n := by
  rw [cString] at held
  split at held
  · next terminated =>
      obtain rfl := Option.some.inj held
      constructor
      · intro inside
        simpa using List.mem_takeWhile_imp inside
      · have before := (List.takeWhile_prefix (· ≠ 0) (l := a.bytes)).length_le
        apply (lt_of_le_of_ne before _).trans_eq a.size
        intro all
        have whole := (List.takeWhile_prefix _).eq_of_length all
        rw [← whole] at terminated
        simpa using List.mem_takeWhile_imp terminated
  · cases held

theorem cString_eq_some_iff {a : CharArray n} {text : List UInt8} (clean : 0 ∉ text) :
    a.cString = some text ↔ text ++ [0] <+: a.bytes := by
  constructor
  · intro held
    rw [cString] at held
    split at held
    · next terminated =>
        obtain ⟨front, back, split, before⟩ := List.eq_append_cons_of_mem terminated
        rw [split, CText.takeWhile_stop before back] at held
        rw [split, ← Option.some.inj held]
        exact ⟨back, by simp⟩
    · cases held
  · intro front
    obtain ⟨back, split⟩ := front
    rw [List.append_assoc] at split
    rw [cString, ← split, if_pos (by simp)]
    exact congrArg some (CText.takeWhile_stop clean back)

theorem strcmp_text {text bytes : List UInt8} (clean : 0 ∉ text) (long : text.length < bytes.length) :
    ∃ order, strcmp bytes (text ++ [0]) = some order ∧ (order = 0 ↔ text ++ [0] <+: bytes) := by
  induction text generalizing bytes with
  | nil =>
      obtain ⟨x, xs, rfl⟩ := List.exists_cons_of_length_pos long
      by_cases same : x = 0
      · subst same
        exact ⟨0, rfl, by simp⟩
      · have positive : x.toNat ≠ 0 := fun zero => same (UInt8.toNat_inj.mp zero)
        refine ⟨x.toNat, by simp [strcmp, same], ?_⟩
        simp [List.cons_prefix_cons, Ne.symm same, positive]
  | cons y text ih =>
      obtain ⟨x, xs, rfl⟩ := List.exists_cons_of_length_pos (Nat.zero_lt_of_lt long)
      obtain ⟨nonzero, rest⟩ := not_or.1 (mt List.mem_cons.2 clean)
      rw [List.cons_append, List.cons_prefix_cons]
      by_cases same : x = y
      · subst same
        obtain ⟨order, ran, equal⟩ := ih rest (Nat.lt_of_succ_lt_succ long)
        exact ⟨order, by simp [strcmp, Ne.symm nonzero, ran], by rw [equal, and_iff_right rfl]⟩
      · have differ : x.toNat ≠ y.toNat := fun equal => same (UInt8.toNat_inj.mp equal)
        refine ⟨x.toNat - y.toNat, by simp [strcmp, same], ?_⟩
        constructor
        · intro zero
          omega
        · intro front
          exact absurd front.1.symm same

theorem strcmp_terminated (a : CharArray n) {text : List UInt8} (clean : 0 ∉ text)
    (short : text.length < n) :
    ∃ order, strcmp a.bytes (text ++ [0]) = some order ∧ (order = 0 ↔ a.cString = some text) := by
  rw [cString_eq_some_iff clean]
  exact strcmp_text clean (short.trans_eq a.size.symm)

/-- Two strings are compared by the codes of their characters. -/
theorem strcmp_order {xs ys : List UInt8} (clean : 0 ∉ xs) (clean' : 0 ∉ ys) :
    ∃ order, strcmp (xs ++ [0]) (ys ++ [0]) = some order ∧
      (order < 0 ↔ xs.map UInt8.toNat < ys.map UInt8.toNat) ∧
      (0 < order ↔ ys.map UInt8.toNat < xs.map UInt8.toNat) := by
  have positive {c : UInt8} (other : 0 ≠ c) : 0 < c.toNat := by
    rw [Nat.pos_iff_ne_zero]
    exact fun zero => other (UInt8.toNat_inj.mp zero).symm
  induction xs generalizing ys with
  | nil =>
      cases ys with
      | nil => exact ⟨0, rfl, by simp, by simp⟩
      | cons y ys =>
          obtain ⟨nonzero, _⟩ := not_or.1 (mt List.mem_cons.2 clean')
          have more := positive nonzero
          exact ⟨-y.toNat, by simp [strcmp, nonzero], by simp [more], by simp⟩
  | cons x xs ih =>
      obtain ⟨nonzero, rest⟩ := not_or.1 (mt List.mem_cons.2 clean)
      cases ys with
      | nil =>
          have more := positive nonzero
          exact ⟨x.toNat, by simp [strcmp, Ne.symm nonzero], by simp, by simp [more]⟩
      | cons y ys =>
          obtain ⟨_, rest'⟩ := not_or.1 (mt List.mem_cons.2 clean')
          simp only [List.cons_append, List.map_cons, List.cons_lt_cons_iff]
          by_cases same : x = y
          · subst same
            obtain ⟨order, ran, less, greater⟩ := ih rest rest'
            exact ⟨order, by simp [strcmp, Ne.symm nonzero, ran], by simp [less], by simp [greater]⟩
          · have differ : x.toNat ≠ y.toNat := fun equal => same (UInt8.toNat_inj.mp equal)
            refine ⟨x.toNat - y.toNat, by simp [strcmp, same], ?_, ?_⟩ <;> omega

theorem snprintf_fits (a : CharArray n) (text : List UInt8) (clean : 0 ∉ text)
    (short : text.length < n) : ∃ b, a.snprintf n text = some b ∧ b.cString = some text := by
  have same : a.snprintf n text = a.write 0 (text ++ [0]) := by
    rw [snprintf, if_neg (by omega), takeWhile_clean text clean, List.take_of_length_le (by omega)]
  obtain ⟨b, wrote⟩ := a.exists_write
    (by rw [List.length_append, List.length_singleton]; omega : 0 + (text ++ [0]).length ≤ n)
  exact ⟨b, same.trans wrote, cString_write clean wrote⟩

theorem snprintf_isSome (a : CharArray n) (text : List UInt8) : (a.snprintf n text).isSome := by
  rw [snprintf]
  split
  · rfl
  · rw [write_isSome, List.length_append, List.length_take, List.length_singleton]
    omega

end CharArray

end DataStructure
