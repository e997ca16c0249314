import DataStructure.Json.Print

/-! What cJSON prints.

`Item.text` is the text of an item. Whatever requests the allocator refuses, printing stays inside its
blocks, gives all of them back but the text itself, and returns the text exactly if nothing was
refused. -/

namespace DataStructure.CJson

open Program Binary64
open CText (ascii)

def escapeTail (token : UInt8) : Text :=
  match escapeLetter token with
  | some letter => [letter]
  | none => unicodeText token

def escape (c : UInt8) : Text := if 31 < c ∧ c ≠ 34 ∧ c ≠ 92 then [c] else 92 :: escapeTail c

def escaped : Text → Text
  | [] => []
  | c :: str => if c = 0 then [] else escape c ++ escaped str

def stringText : Option Text → Text
  | none => []
  | some str => 34 :: (escaped str ++ [34])

def numberText (item : Item) : Text :=
  if isIntValued item then intText item.valueint.toInt else doubleText item.valuedouble

def fmtText (fmt : Bool) (bytes : Text) : Text := if fmt then bytes else []

def arrayBody (fmt : Bool) : List Text → Text
  | [] => []
  | entry :: rest =>
      entry ++ ((if rest.isEmpty then [] else 44 :: fmtText fmt [32]) ++ arrayBody fmt rest)

def objectBody (depth : Nat) (fmt : Bool) : List (Text × Text) → Text
  | [] => []
  | (name, entry) :: rest =>
      fmtText fmt (List.replicate depth 9) ++ (name ++ (58 :: (fmtText fmt [9] ++ (entry ++
        ((if rest.isEmpty then [] else [44]) ++ (fmtText fmt [10] ++ objectBody depth fmt rest))))))

def arrayText (fmt : Bool) (entries : List Text) : Text := 91 :: (arrayBody fmt entries ++ [93])

def objectText (depth : Nat) (fmt : Bool) (fields : List (Text × Text)) : Text :=
  if fields.isEmpty then 123 :: (fmtText fmt (10 :: List.replicate (depth - 1) 9) ++ [125])
  else
    123 :: (fmtText fmt [10] ++ (objectBody (depth + 1) fmt fields ++
      (fmtText fmt (List.replicate depth 9) ++ [125])))

mutual

def Item.text : Item → Nat → Bool → Text
  | ⟨block, type, isReference, valuestring, valueint, valuedouble, string, child⟩, depth, fmt =>
      match type with
      | .NULL => ascii "null".toList
      | .False => ascii "false".toList
      | .True => ascii "true".toList
      | .Number =>
          numberText ⟨block, type, isReference, valuestring, valueint, valuedouble, string, child⟩
      | .String => stringText (valuestring.map Str.text)
      | .Array => arrayText fmt (texts child (depth + 1) fmt)
      | .Object => objectText depth fmt (fieldTexts child (depth + 1) fmt)
termination_by structural item => item

def texts : List Item → Nat → Bool → List Text
  | [], _, _ => []
  | child :: next, depth, fmt => child.text depth fmt :: texts next depth fmt
termination_by structural chain => chain

def fieldTexts : List Item → Nat → Bool → List (Text × Text)
  | [], _, _ => []
  | child :: next, depth, fmt =>
      (stringText child.name, child.text depth fmt) :: fieldTexts next depth fmt
termination_by structural chain => chain

end

/-- A program that stores `bytes` and gives back `blocks`. -/
def Stores (size : Nat) (program : Text → Prog Env Text) (bytes : Text) (blocks : Multiset Block) :
    Prop :=
  ∀ (out : Text) (post : Text → Env → Prop) (s : Env), out.length + bytes.length < size →
    blocks ≤ s.live → post (out ++ bytes) (given s blocks) → wp (program out) post s

section Stores

variable (size : Nat) {first second : Text → Prog Env Text} {xs ys : Text}
  {m n : Multiset Block}

variable {size} in
theorem Stores.of_eq (one : Stores size first xs m) (bytes : xs = ys) (blocks : m = n) :
    Stores size first ys n := by
  rw [← bytes, ← blocks]
  exact one

variable {size} in
theorem Stores.seq (one : Stores size first xs m) (two : Stores size second ys n) :
    Stores size (fun out => first out >>= second) (xs ++ ys) (m + n) := by
  intro out post s fits enough holds
  rw [List.length_append] at fits
  rw [wp_bind]
  apply one out _ s (by omega) ((Multiset.le_add_right m n).trans enough)
  apply two _ _ _ (by rw [List.length_append]; omega) (le_tsub_of_add_le_left enough)
  rw [given_given, List.append_assoc]
  exact holds

theorem stores_put (bytes : Text) : Stores size (put size · bytes) bytes 0 := by
  intro out post s fits _ holds
  change wp (put size out bytes) post s
  rw [put, if_pos (by omega)]
  rwa [given_zero] at holds

theorem stores_putString (bytes : Text) : Stores size (putString size · bytes) bytes 0 := by
  intro out post s fits _ holds
  change wp (putString size out bytes) post s
  rw [putString, if_pos (by omega)]
  rwa [given_zero] at holds

theorem stores_nothing : Stores size pure [] 0 := by
  intro out post s _ _ holds
  rwa [List.append_nil, given_zero] at holds

theorem stores_putFmt (fmt : Bool) (bytes : Text) :
    Stores size (putFmt size fmt · bytes) (fmtText fmt bytes) 0 := by
  cases fmt with
  | false => exact stores_nothing size
  | true => exact stores_put size bytes

variable {size} in
theorem Stores.terminated (rest : Stores size second ys n) :
    Stores size (fun out => do terminate size out; second out) ys n := by
  intro out post s fits enough holds
  rw [wp_bind, terminate, put, if_pos (by rw [List.length_singleton]; omega)]
  exact rest out post s fits enough holds

variable {size} in
theorem Stores.freed (block : Block) (rest : Stores size second ys n) :
    Stores size (fun out => do free block; second out) ys ({block} + n) := by
  intro out post s fits enough holds
  apply (givesBack_free block).wp_then ((Multiset.le_add_right {block} n).trans enough)
  apply rest out post _ fits (le_tsub_of_add_le_left enough)
  rw [given_given]
  exact holds

theorem stores_comma (last : Bool) :
    Stores size (comma size last) (if last then [] else [44]) 0 := by
  cases last with
  | false => exact stores_put size [44]
  | true => exact stores_nothing size

theorem stores_separate (fmt last : Bool) :
    Stores size (separate size fmt last) (if last then [] else 44 :: fmtText fmt [32]) 0 := by
  cases last with
  | false =>
      exact ((stores_put size [44]).seq
        ((stores_putFmt size fmt [32]).seq (stores_nothing size).terminated)).of_eq (by simp) rfl
  | true => exact stores_nothing size

end Stores

theorem stores_escape (size : Nat) (token : UInt8) :
    Stores size (storeEscape size · token) (escapeTail token) 0 := by
  unfold storeEscape escapeTail
  cases escapeLetter token with
  | none => exact stores_putString size _
  | some letter => exact stores_put size _

theorem stores_byte (size : Nat) (c : UInt8) : Stores size (storeByte size · c) (escape c) 0 := by
  unfold storeByte escape
  split
  · exact stores_put size [c]
  · exact (stores_put size [92]).seq (stores_escape size c)

theorem stores_string (size : Nat) (str : Text) :
    Stores size (storeString size str) (escaped str) 0 := by
  induction str with
  | nil => exact stores_nothing size
  | cons c str ih =>
      by_cases zero : c = 0
      · intro out post s fits enough holds
        rw [storeString, if_pos zero]
        rw [escaped, if_pos zero] at fits holds
        exact stores_nothing size out post s fits enough holds
      · intro out post s fits enough holds
        rw [storeString, if_neg zero]
        rw [escaped, if_neg zero] at fits holds
        exact (stores_byte size c).seq ih out post s fits enough holds

theorem stores_fillString (size : Nat) (str : Text) :
    Stores size (fillString size str) (stringText (some str)) 0 :=
  ((stores_put size [34]).seq ((stores_string size str).seq
    ((stores_put size [34]).seq (stores_nothing size).terminated))).of_eq (by simp [stringText]) rfl

theorem escape_length (c : UInt8) (nonzero : c ≠ 0) : (escape c).length = escapedLength c := by
  revert c
  decide +kernel

/-- The first loop of `print_string_ptr` counts what the second stores. -/
theorem escaped_length (str : Text) : (escaped str).length = stringLength str := by
  induction str with
  | nil => rfl
  | cons c str ih =>
      rw [escaped, stringLength]
      split
      · rfl
      · next nonzero => rw [List.length_append, escape_length c nonzero, ih]

/-- The call returned `text` and left nothing but its block, or a request was refused and all that was
taken was given back. -/
def Printed (text : Text) (s : Env) (result : Option Str) (t : Env) : Prop :=
  Frame s t ∧
    ((∃ block, result = some ⟨block, text⟩ ∧ t.live = s.live + {block} ∧ t.refused = s.refused) ∨
      result = none ∧ t.live = s.live ∧ s.refused < t.refused)

def Prints (program : Prog Env (Option Str)) (text : Text) : Prop :=
  ∀ s, wp program (Printed text s) s

theorem printed_refused (text : Text) (s : Env) : Printed text s none (denied s) :=
  ⟨frame_denied s, .inr ⟨rfl, rfl, Nat.lt_succ_self s.refused⟩⟩

theorem prints_block {size : Nat} {fill : Text → Prog Env Text} {text : Text}
    (stores : Stores size fill text 0) (fits : text.length < size) :
    Prints (mallocText size fill) text := by
  intro s
  rw [mallocText, wp_bind]
  apply wp_malloc
  · rw [wp_bind]
    apply stores [] _ _ (by simpa using fits) (Multiset.zero_le _)
    rw [given_zero]
    exact ⟨frame_granted s, .inl ⟨s.asked, rfl, granted_live s, rfl⟩⟩
  · exact printed_refused text s

theorem prints_putString {size : Nat} {text : Text} (fits : text.length < size) :
    Prints (mallocText size (putString size · text)) text :=
  prints_block (stores_putString size text) fits

theorem prints_strdup (str : Text) : Prints (strdup str) str :=
  prints_putString (Nat.lt_succ_self str.length)

theorem prints_string {str : Option Text} (small : (stringText str).length + 1 < 2 ^ 31) :
    Prints (printStringPtr str) (stringText str) := by
  cases str with
  | none => exact prints_strdup []
  | some str =>
      have length : (stringText (some str)).length + 1 = stringLength str + 3 := by
        simp [stringText, escaped_length]
      intro s
      rw [printStringPtr, wp_bind, wp_intLen (by omega)]
      exact prints_block (stores_fillString _ str) (by omega) s

theorem ascii_length (text : List Char) : (ascii text).length = text.length := List.length_map _

theorem intText_length (n : Int32) : (intText n.toInt).length ≤ 11 := by
  have low := n.le_toInt
  have high := n.toInt_lt
  have digits : (Nat.toDigits 10 n.toInt.natAbs).length ≤ 10 := by
    rw [Nat.length_toDigits_le_iff (by norm_num) (by norm_num)]
    omega
  rw [intText, ascii_length, List.length_append]
  split <;> simp <;> omega

theorem abs_le_of_lt_limit {q : ℚ} {exact : Representable q}
    (less : lt (fabs (.finite q exact)) (.nearest (10 ^ 60)) = true) : |q| ≤ 10 ^ 61 := by
  have bound : |(10 ^ 60 : ℚ)| ≤ 2 ^ 200 := by norm_num
  obtain ⟨limit, finite⟩ := nearest_of_le bound (by norm_num)
  rw [finite, fabs, lt, decide_eq_true_eq] at less
  calc
    |q| ≤ |rounded (10 ^ 60)| := less.le.trans (le_abs_self _)
    _ ≤ 2 ^ 200 := abs_rounded_le bound
    _ ≤ 10 ^ 61 := by norm_num

theorem abs_le_of_not_lt {q : ℚ} {exact : Representable q}
    (most : lt (.nearest (10 ^ 9)) (fabs (.finite q exact)) = false) : |q| ≤ 10 ^ 10 := by
  have bound : |(10 ^ 9 : ℚ)| ≤ 2 ^ 30 := by norm_num
  obtain ⟨limit, finite⟩ := nearest_of_le bound (by norm_num)
  rw [finite, fabs, lt, decide_eq_false_iff_not, not_lt] at most
  calc
    |q| ≤ |rounded (10 ^ 9)| := most.trans (le_abs_self _)
    _ ≤ 2 ^ 30 := abs_rounded_le bound
    _ ≤ 10 ^ 10 := by norm_num

theorem doubleText_length (d : Binary64) : (doubleText d).length < 64 := by
  have short : (ascii (scientific d)).length < 64 := by
    rw [ascii_length]
    exact (scientific_length_le d).trans_lt (by norm_num)
  have long : ∀ precision, (∀ q exact, d = .finite q exact → (fixed precision d).length < 64) →
      (ascii (fixed precision d)).length < 64 := by
    intro precision bounded
    rw [ascii_length]
    cases d with
    | nan => exact (by decide : (word "nan").length < 64)
    | inf negative => exact (special_length_le negative).trans_lt (by norm_num)
    | finite q exact => exact bounded q exact rfl
  rw [doubleText]
  split
  · next whole =>
      apply long
      rintro q exact rfl
      have bound := abs_le_of_lt_limit (Bool.and_eq_true _ _ ▸ whole).2
      exact (fixed_length_le exact bound).trans_lt (by norm_num)
  · split
    · exact short
    · next inside =>
        apply long
        rintro q exact rfl
        rw [Bool.not_eq_true, Bool.or_eq_false_iff] at inside
        have bound := abs_le_of_not_lt inside.2
        exact (fixed_length_le exact bound).trans_lt (by norm_num)

theorem prints_number (item : Item) : Prints (printNumber item) (numberText item) := by
  have short : (intText item.valueint.toInt).length < 21 :=
    (intText_length item.valueint).trans_lt (by norm_num)
  rw [printNumber, numberText]
  by_cases int : isIntValued item = true
  · rw [if_pos int, if_pos int]
    exact prints_putString short
  · rw [if_neg int, if_neg int]
    exact prints_putString (doubleText_length item.valuedouble)

def strBlocks (strs : List Str) : Multiset Block := (strs.map Str.block : List Block)

theorem strBlocks_cons (str : Str) (rest : List Str) :
    strBlocks (str :: rest) = {str.block} + strBlocks rest := by
  rw [strBlocks, List.map_cons, ← Multiset.cons_coe, ← Multiset.singleton_add, strBlocks]

theorem stores_array (size : Nat) (fmt : Bool) (strs : List Str) :
    Stores size (composeArray size fmt strs) (arrayBody fmt (strs.map Str.text)) (strBlocks strs) := by
  induction strs with
  | nil => exact stores_nothing size
  | cons str rest ih =>
      have step := (stores_putString size str.text).seq
        ((stores_separate size fmt rest.isEmpty).seq (ih.freed str.block))
      exact step.of_eq (by simp [arrayBody]) (by rw [strBlocks_cons, zero_add, zero_add])

theorem stores_fillArray (size : Nat) (fmt : Bool) (entries : Block) (strs : List Str) :
    Stores size (fillArray size fmt entries strs) (arrayText fmt (strs.map Str.text))
      (strBlocks strs + {entries}) := by
  have step := (stores_put size [91]).seq
    ((stores_array size fmt strs).seq
      (((stores_put size [93]).seq (stores_nothing size).terminated).freed entries)).terminated
  exact step.of_eq (by simp [arrayText]) (by simp)

/-- What `len` counts covers the array, and is at most twice as long. -/
theorem arrayLength_bounds (fmt : Bool) (entries : List Text) :
    (arrayText fmt entries).length ≤ arrayLength fmt entries + 2 ∧
      arrayLength fmt entries ≤ 2 * (arrayText fmt entries).length := by
  have body : (arrayBody fmt entries).length ≤ arrayLength fmt entries ∧
      arrayLength fmt entries ≤ 2 * (arrayBody fmt entries).length + 4 := by
    induction entries with
    | nil => simp [arrayBody, arrayLength]
    | cons entry rest ih =>
        rw [arrayLength, List.map_cons, List.sum_cons, ← arrayLength, arrayBody]
        cases rest with
        | nil => cases fmt <;> simp [arrayBody, arrayLength] <;> omega
        | cons other rest => cases fmt <;> simp [fmtText] at ih ⊢ <;> omega
  simp only [arrayText, List.length_cons, List.length_append, List.length_nil]
  omega

theorem givesBack_freeAll (printed : List (Option Str)) :
    GivesBack (freeAll printed) (strBlocks printed.reduceOption) := by
  induction printed with
  | nil => exact givesBack_nothing
  | cons str rest ih =>
      have step := (givesBack_freeString str).seq ih
      cases str with
      | none => rwa [stringBlocks, zero_add] at step
      | some str => rwa [List.reduceOption_cons_of_some, strBlocks_cons]

/-- What the loop over the children of an array comes to: the text of each, or a refused request
and the texts in front of it. -/
def EntriesPrinted (texts : List Text) (s : Env) (printed : List (Option Str)) (t : Env) : Prop :=
  Frame s t ∧ t.live = s.live + strBlocks printed.reduceOption ∧
    ((∃ strs : List Str, printed = strs.map some ∧ strs.map Str.text = texts ∧ t.refused = s.refused) ∨
      printed.any (·.isNone) = true ∧ s.refused < t.refused ∧
        printed.reduceOption.map Str.text <+: texts)

theorem wp_printEntries (chain : List Item) (depth : Nat) (fmt : Bool)
    (each : ∀ c ∈ chain, Prints (printValue c depth fmt) (c.text depth fmt)) (s : Env) :
    wp (printEntries chain depth fmt) (EntriesPrinted (texts chain depth fmt) s) s := by
  induction chain generalizing s with
  | nil => exact ⟨Frame.refl s, (add_zero _).symm, .inl ⟨[], rfl, rfl, rfl⟩⟩
  | cons child next ih =>
      rw [printEntries, texts]
      refine wp_seq _ _ _ _ s (each child List.mem_cons_self s) ?_
      rintro result t ⟨frame, ⟨block, rfl, live, refused⟩ | ⟨rfl, live, refused⟩⟩
      · refine wp_seq _ _ _ _ t (ih (fun c inside => each c (List.mem_cons_of_mem child inside)) t) ?_
        rintro printed u ⟨later, held, outcome⟩
        refine ⟨frame.trans later, ?_, ?_⟩
        · rw [List.reduceOption_cons_of_some, strBlocks_cons, held, live, add_assoc]
        · rcases outcome with ⟨strs, rfl, same, still⟩ | ⟨missing, more, front⟩
          · exact .inl ⟨⟨block, child.text depth fmt⟩ :: strs, rfl, by rw [List.map_cons, same],
              still.trans refused⟩
          · refine .inr ⟨by simpa using missing, by omega, ?_⟩
            rw [List.reduceOption_cons_of_some]
            exact (List.prefix_cons_inj _).2 front
      · exact ⟨frame, live.trans (add_zero _).symm, .inr ⟨rfl, refused, List.nil_prefix⟩⟩

theorem arrayLength_mono (fmt : Bool) {front whole : List Text} (part : front <+: whole) :
    arrayLength fmt front ≤ arrayLength fmt whole := by
  obtain ⟨rest, rfl⟩ := part
  simp [arrayLength]

theorem reduceOption_all (strs : List Str) : (strs.map some).reduceOption = strs := by
  simp [List.reduceOption, List.filterMap_map]

theorem wp_failArray (entries : Block) (printed : List (Option Str)) (text : Text) (s u : Env)
    (frame : Frame s u) (refused : s.refused < u.refused)
    (held : u.live = s.live + (strBlocks printed.reduceOption + {entries})) :
    wp (do freeAll printed; free entries; return none) (Printed text s) u := by
  have all := (givesBack_freeAll printed).seq (givesBack_free entries)
  have freed : wp (do (do freeAll printed; free entries); return none) (Printed text s) u :=
    all.wp_then (le_live_of_eq held)
      ⟨frame.trans (frame_given u _), .inr ⟨rfl, given_live_of_eq held, refused⟩⟩
  rwa [bind_assoc] at freed

theorem wp_finishArray (fmt : Bool) (texts : List Text) (printed : List (Option Str)) (s t : Env)
    (small : 2 * (arrayText fmt texts).length + 6 < 2 ^ 31)
    (done : EntriesPrinted texts (granted s) printed t) :
    wp (finishArray fmt s.asked printed) (Printed (arrayText fmt texts) s) t := by
  obtain ⟨later, live, outcome⟩ := done
  have frame : Frame s t := (frame_granted s).trans later
  have held : t.live = s.live + (strBlocks printed.reduceOption + {s.asked}) := by
    rw [live, granted_live, add_assoc, add_comm (strBlocks _)]
  obtain ⟨covers, twice⟩ := arrayLength_bounds fmt texts
  rw [finishArray, wp_bind]
  rcases outcome with ⟨strs, rfl, rfl, same⟩ | ⟨missing, refused, front⟩
  · have every : (strs.map some).any (·.isNone) = false := by simp
    rw [reduceOption_all] at held ⊢
    rw [wp_intLen (by omega), every, wp_bind]
    apply wp_malloc
    -- of what is live since `s` all but the block of the text is given back
    · have both : (granted t).live = s.live + {t.asked} + (strBlocks strs + {s.asked}) := by
        rw [granted_live, held, add_right_comm]
      rw [wp_bind]
      apply stores_fillArray _ fmt s.asked strs [] _ _ (by simp; omega) (le_live_of_eq both)
      exact ⟨frame.trans ((frame_granted t).trans (frame_given _ _)),
        .inl ⟨t.asked, rfl, given_live_of_eq both, same⟩⟩
    · apply wp_failArray _ _ _ _ _ (frame.trans (frame_denied t))
      · exact Nat.lt_succ_of_le frame.refused
      · rw [reduceOption_all]
        exact held
  · have shorter := arrayLength_mono fmt front
    rw [wp_intLen (by omega), missing, wp_bind]
    exact wp_failArray s.asked printed _ s t frame refused held

def pairBlocks (fields : List (Str × Str)) : Multiset Block :=
  (fields.map fun field => ({field.1.block} + {field.2.block} : Multiset Block)).sum

theorem pairBlocks_cons (name entry : Str) (rest : List (Str × Str)) :
    pairBlocks ((name, entry) :: rest) = {name.block} + ({entry.block} + pairBlocks rest) := by
  rw [pairBlocks, List.map_cons, List.sum_cons, add_assoc, pairBlocks]

theorem stores_object (size depth : Nat) (fmt : Bool) (fields : List (Str × Str)) :
    Stores size (composeObject size depth fmt fields) (objectBody depth fmt (fieldBytes fields))
      (pairBlocks fields) := by
  induction fields with
  | nil => exact stores_nothing size
  | cons field rest ih =>
      obtain ⟨name, entry⟩ := field
      have step := (stores_putFmt size fmt (List.replicate depth 9)).seq
        ((stores_putString size name.text).seq ((stores_put size [58]).seq
          ((stores_putFmt size fmt [9]).seq ((stores_putString size entry.text).seq
            ((stores_comma size rest.isEmpty).seq
              ((stores_putFmt size fmt [10]).seq
                ((ih.freed entry.block).freed name.block).terminated))))))
      exact step.of_eq (by simp [objectBody, fieldBytes]) (by rw [pairBlocks_cons]; simp)

theorem stores_fillObject (size depth : Nat) (fmt : Bool) (names entries : Block)
    (fields : List (Str × Str)) (some : fields ≠ []) :
    Stores size (fillObject size (depth + 1) fmt names entries fields)
      (objectText depth fmt (fieldBytes fields)) (pairBlocks fields + ({names} + {entries})) := by
  have close := (stores_putFmt size fmt (List.replicate depth 9)).seq
    ((stores_put size [125]).seq (stores_nothing size).terminated)
  have step := (stores_put size [123]).seq ((stores_putFmt size fmt [10]).seq
    ((stores_object size (depth + 1) fmt fields).seq
      ((close.freed entries).freed names)).terminated)
  exact step.of_eq (by simp [objectText, fieldBytes, some]) (by simp)

theorem stores_fillEmptyObject (size depth : Nat) (fmt : Bool) :
    Stores size (fillEmptyObject size depth fmt) (objectText depth fmt []) 0 := by
  have step := (stores_put size [123]).seq
    ((stores_putFmt size fmt (10 :: List.replicate (depth - 1) 9)).seq
      ((stores_put size [125]).seq (stores_nothing size).terminated))
  exact step.of_eq (by simp [objectText]) rfl

theorem objectLength_eq (depth : Nat) (fmt : Bool) (fields : List (Text × Text))
    (some : fields ≠ []) :
    7 + (if fmt then depth + 1 else 0) + objectLength (depth + 1) fmt fields =
      (objectText depth fmt fields).length + 6 := by
  have body : objectLength (depth + 1) fmt fields =
      (objectBody (depth + 1) fmt fields).length + 1 := by
    induction fields with
    | nil => exact absurd rfl some
    | cons field rest ih =>
        rw [objectLength, List.map_cons, List.sum_cons, ← objectLength, objectBody]
        cases rest with
        | nil => cases fmt <;> simp [objectBody, objectLength, fmtText] <;> omega
        | cons other rest =>
            rw [ih (List.cons_ne_nil other rest)]
            cases fmt <;> simp [fmtText] <;> omega
  cases fmt <;> simp [body, objectText, some, fmtText] <;> omega

def fieldBlocks (fields : List (Option Str × Option Str)) : Multiset Block :=
  (fields.map fun field => stringBlocks field.1 + stringBlocks field.2).sum

theorem fieldBlocks_cons (name entry : Option Str) (rest : List (Option Str × Option Str)) :
    fieldBlocks ((name, entry) :: rest) = stringBlocks name + (stringBlocks entry + fieldBlocks rest) := by
  rw [fieldBlocks, List.map_cons, List.sum_cons, add_assoc, fieldBlocks]

theorem givesBack_freeFields (fields : List (Option Str × Option Str)) :
    GivesBack (freeFields fields) (fieldBlocks fields) := by
  induction fields with
  | nil => exact givesBack_nothing
  | cons field rest ih =>
      obtain ⟨name, entry⟩ := field
      rw [freeFields, fieldBlocks_cons]
      exact (givesBack_freeString name).seq ((givesBack_freeString entry).seq ih)

def printedField (field : Str × Str) : Option Str × Option Str := (some field.1, some field.2)

def FieldsPrinted (texts : List (Text × Text)) (s : Env) (printed : List (Option Str × Option Str))
    (t : Env) : Prop :=
  Frame s t ∧ t.live = s.live + fieldBlocks printed ∧
    ((∃ fields, printed = fields.map printedField ∧ fieldBytes fields = texts ∧
        t.refused = s.refused) ∨
      printedFields printed = none ∧ s.refused < t.refused)

theorem printedFields_all (fields : List (Str × Str)) :
    printedFields (fields.map printedField) = some fields := by
  induction fields with
  | nil => rfl
  | cons field rest ih =>
      rw [printedFields] at ih ⊢
      rw [List.map_cons, List.mapM_cons, ih]
      rfl

theorem fieldBlocks_all (fields : List (Str × Str)) :
    fieldBlocks (fields.map printedField) = pairBlocks fields := by
  rw [fieldBlocks, List.map_map]
  rfl

theorem printedFields_cons_none {name entry : Option Str} {rest : List (Option Str × Option Str)}
    (missing : name = none ∨ entry = none ∨ printedFields rest = none) :
    printedFields ((name, entry) :: rest) = none := by
  rw [printedFields] at missing ⊢
  rw [List.mapM_cons]
  rcases missing with rfl | rfl | later
  · rfl
  · cases name <;> rfl
  · rw [later]
    cases name <;> cases entry <;> rfl

theorem Printed.live {text : Text} {s t : Env} {result : Option Str} (printed : Printed text s result t) :
    t.live = s.live + stringBlocks result := by
  rcases printed with ⟨_, ⟨block, rfl, live, _⟩ | ⟨rfl, live, _⟩⟩
  · exact live
  · exact live.trans (add_zero _).symm

theorem wp_printFields (chain : List Item) (depth : Nat) (fmt : Bool)
    (names : ∀ c ∈ chain, Prints (printStringPtr c.name) (stringText c.name))
    (each : ∀ c ∈ chain, Prints (printValue c depth fmt) (c.text depth fmt)) (s : Env) :
    wp (printFields chain depth fmt) (FieldsPrinted (fieldTexts chain depth fmt) s) s := by
  induction chain generalizing s with
  | nil => exact ⟨Frame.refl s, (add_zero _).symm, .inl ⟨[], rfl, rfl, rfl⟩⟩
  | cons child next ih =>
      rw [printFields, fieldTexts]
      refine wp_seq _ _ _ _ s (names child List.mem_cons_self s) ?_
      intro name t named
      refine wp_seq _ _ _ _ t (each child List.mem_cons_self t) ?_
      intro entry u valued
      refine wp_seq _ _ _ _ u (ih (fun c inside => names c (List.mem_cons_of_mem child inside))
        (fun c inside => each c (List.mem_cons_of_mem child inside)) u) ?_
      rintro printed v ⟨third, held, outcome⟩
      have sum : v.live = s.live + fieldBlocks ((name, entry) :: printed) := by
        rw [fieldBlocks_cons, held, valued.live, named.live, add_assoc, add_assoc]
      obtain ⟨first, named⟩ := named
      obtain ⟨second, valued⟩ := valued
      refine ⟨first.trans (second.trans third), sum, ?_⟩
      have steps := second.refused
      have steps' := third.refused
      rcases named with ⟨block, rfl, _, same⟩ | ⟨rfl, _, more⟩
      · rcases valued with ⟨block', rfl, _, same'⟩ | ⟨rfl, _, more⟩
        · rcases outcome with ⟨fields, rfl, equal, same''⟩ | ⟨missing, more⟩
          · exact .inl ⟨(⟨block, _⟩, ⟨block', _⟩) :: fields, rfl, by rw [← equal]; rfl, by omega⟩
          · exact .inr ⟨printedFields_cons_none (.inr (.inr missing)), by omega⟩
        · exact .inr ⟨printedFields_cons_none (.inr (.inl rfl)), by omega⟩
      · exact .inr ⟨printedFields_cons_none (.inl rfl), by omega⟩

theorem wp_failObject (names entries : Block) (printed : List (Option Str × Option Str)) (text : Text)
    (s u : Env) (frame : Frame s u) (refused : s.refused < u.refused)
    (held : u.live = s.live + (fieldBlocks printed + ({names} + {entries}))) :
    wp (failObject names entries printed) (Printed text s) u := by
  have all := (givesBack_freeFields printed).seq ((givesBack_free names).seq (givesBack_free entries))
  have freed : wp (do (do freeFields printed; free names; free entries); return none)
      (Printed text s) u :=
    all.wp_then (le_live_of_eq held)
      ⟨frame.trans (frame_given u _), .inr ⟨rfl, given_live_of_eq held, refused⟩⟩
  rwa [bind_assoc, bind_assoc] at freed

theorem wp_finishObject (depth : Nat) (fmt : Bool) (texts : List (Text × Text)) (some : texts ≠ [])
    (printed : List (Option Str × Option Str)) (s t : Env)
    (small : (objectText depth fmt texts).length + 6 < 2 ^ 31)
    (done : FieldsPrinted texts (granted (granted s)) printed t) :
    wp (finishObject (depth + 1) fmt (granted s).asked s.asked printed)
      (Printed (objectText depth fmt texts) s) t := by
  obtain ⟨later, live, outcome⟩ := done
  have frame : Frame s t := (frame_granted s).trans ((frame_granted _).trans later)
  have held : t.live = s.live + (fieldBlocks printed + ({(granted s).asked} + {s.asked})) := by
    rw [live, granted_live, granted_live]
    abel
  rw [finishObject]
  rcases outcome with ⟨fields, rfl, rfl, same⟩ | ⟨missing, refused⟩
  · have length := objectLength_eq depth fmt (fieldBytes fields) some
    have filled : fields ≠ [] := by
      rintro rfl
      exact some rfl
    rw [printedFields_all]
    dsimp only
    rw [wp_bind, wp_intLen (by omega), wp_bind]
    apply wp_malloc
    · have both : (granted t).live = s.live + {t.asked} +
          (pairBlocks fields + ({(granted s).asked} + {s.asked})) := by
        rw [granted_live, held, fieldBlocks_all, add_right_comm]
      rw [wp_bind]
      apply stores_fillObject _ depth fmt _ _ fields filled [] _ _ (by simp; omega) (le_live_of_eq both)
      exact ⟨frame.trans ((frame_granted t).trans (frame_given _ _)),
        .inl ⟨t.asked, rfl, given_live_of_eq both, same⟩⟩
    · apply wp_failObject _ _ _ _ _ _ (frame.trans (frame_denied t))
      · exact Nat.lt_succ_of_le frame.refused
      · exact held
  · rw [missing]
    exact wp_failObject _ _ printed _ s t frame refused held

theorem entry_length_le (fmt : Bool) {entries : List Text} {entry : Text} (inside : entry ∈ entries) :
    entry.length ≤ (arrayText fmt entries).length := by
  have body : entry.length ≤ (arrayBody fmt entries).length := by
    induction entries with
    | nil => cases inside
    | cons head rest ih =>
        simp only [arrayBody, List.length_append]
        rcases List.mem_cons.1 inside with rfl | later
        · omega
        · have shorter := ih later
          omega
  simp only [arrayText, List.length_cons, List.length_append]
  omega

theorem field_length_le {depth : Nat} {fmt : Bool} {fields : List (Text × Text)} {field : Text × Text}
    (inside : field ∈ fields) :
    field.1.length + field.2.length ≤ (objectText depth fmt fields).length := by
  have body : field.1.length + field.2.length ≤ (objectBody (depth + 1) fmt fields).length := by
    induction fields with
    | nil => cases inside
    | cons head rest ih =>
        obtain ⟨name, entry⟩ := head
        simp only [objectBody, List.length_append, List.length_cons]
        rcases List.mem_cons.1 inside with rfl | later
        · dsimp only
          omega
        · have shorter := ih later
          omega
  have filled : fields.isEmpty = false := by simpa using List.ne_nil_of_mem inside
  simp only [objectText, filled, Bool.false_eq_true, if_false, List.length_cons, List.length_append]
  omega

theorem mem_texts {chain : List Item} {c : Item} (inside : c ∈ chain) (depth : Nat) (fmt : Bool) :
    c.text depth fmt ∈ texts chain depth fmt := by
  induction chain with
  | nil => cases inside
  | cons head rest ih =>
      rw [texts]
      rcases List.mem_cons.1 inside with rfl | later
      · exact List.mem_cons_self
      · exact List.mem_cons_of_mem _ (ih later)

theorem mem_fieldTexts {chain : List Item} {c : Item} (inside : c ∈ chain) (depth : Nat) (fmt : Bool) :
    (stringText c.name, c.text depth fmt) ∈ fieldTexts chain depth fmt := by
  induction chain with
  | nil => cases inside
  | cons head rest ih =>
      rw [fieldTexts]
      rcases List.mem_cons.1 inside with rfl | later
      · exact List.mem_cons_self
      · exact List.mem_cons_of_mem _ (ih later)

theorem prints_array {block : Block} {isReference : Bool} {valuestring string : Option Str}
    {valueint : Int32} {valuedouble : Binary64} {first : Item} {next : List Item} {depth : Nat} {fmt : Bool}
    (small : 2 * (arrayText fmt (texts (first :: next) (depth + 1) fmt)).length + 6 < 2 ^ 31)
    (each : ∀ c ∈ first :: next, Prints (printValue c (depth + 1) fmt) (c.text (depth + 1) fmt)) :
    Prints (printValue
        ⟨block, .Array, isReference, valuestring, valueint, valuedouble, string, first :: next⟩ depth fmt)
      (arrayText fmt (texts (first :: next) (depth + 1) fmt)) := by
  intro s
  rw [printValue, if_neg (by simp), wp_bind]
  apply wp_malloc
  · refine wp_seq _ _ _ _ _ (wp_printEntries _ (depth + 1) fmt each _) ?_
    intro printed t done
    exact wp_finishArray fmt _ printed s t small done
  · exact printed_refused _ s

theorem prints_object {block : Block} {isReference : Bool} {valuestring string : Option Str}
    {valueint : Int32} {valuedouble : Binary64} {first : Item} {next : List Item} {depth : Nat} {fmt : Bool}
    (small : (objectText depth fmt (fieldTexts (first :: next) (depth + 1) fmt)).length + 6 < 2 ^ 31)
    (names : ∀ c ∈ first :: next, Prints (printStringPtr c.name) (stringText c.name))
    (each : ∀ c ∈ first :: next, Prints (printValue c (depth + 1) fmt) (c.text (depth + 1) fmt)) :
    Prints (printValue
        ⟨block, .Object, isReference, valuestring, valueint, valuedouble, string, first :: next⟩ depth fmt)
      (objectText depth fmt (fieldTexts (first :: next) (depth + 1) fmt)) := by
  intro s
  rw [printValue, if_neg (by simp), wp_bind]
  apply wp_malloc
  · rw [wp_bind]
    apply wp_malloc
    · refine wp_seq _ _ _ _ _ (wp_printFields _ (depth + 1) fmt names each _) ?_
      intro printed t done
      have several : fieldTexts (first :: next) (depth + 1) fmt ≠ [] := by
        rw [fieldTexts]
        exact List.cons_ne_nil _ _
      exact wp_finishObject depth fmt _ several printed s t small done
    · have held : (denied (granted s)).live = s.live + {s.asked} := granted_live s
      apply (givesBack_free s.asked).wp_then (le_live_of_eq held)
      exact ⟨⟨rfl, Nat.le_succ _⟩, .inr ⟨rfl, given_live_of_eq held, Nat.lt_succ_self s.refused⟩⟩
  · exact printed_refused _ s

/-- Printing an item stays inside its blocks, and leaves the text or nothing. -/
theorem prints_value (item : Item) : ∀ (depth : Nat) (fmt : Bool),
    2 * (item.text depth fmt).length + 6 < 2 ^ 31 →
      Prints (printValue item depth fmt) (item.text depth fmt) := by
  induction item using Item.induction with
  | step item below =>
      intro depth fmt small
      obtain ⟨block, type, isReference, valuestring, valueint, valuedouble, string, child⟩ := item
      change ∀ c ∈ child, _ at below
      cases type with
      | NULL => exact prints_strdup _
      | False => exact prints_strdup _
      | True => exact prints_strdup _
      | Number => exact prints_number _
      | String =>
          change 2 * (stringText (valuestring.map Str.text)).length + 6 < 2 ^ 31 at small
          have fits : (stringText (valuestring.map Str.text)).length + 1 < 2 ^ 31 := by omega
          exact prints_string fits
      | Array =>
          change 2 * (arrayText fmt (texts child (depth + 1) fmt)).length + 6 < 2 ^ 31 at small
          have each : ∀ c ∈ child, Prints (printValue c (depth + 1) fmt) (c.text (depth + 1) fmt) := by
            intro c inside
            have shorter := entry_length_le fmt (mem_texts inside (depth + 1) fmt)
            exact below c inside (depth + 1) fmt (by omega)
          cases child with
          | nil => exact prints_putString (by decide : [91, 93].length < 3)
          | cons first next => exact prints_array small each
      | Object =>
          change 2 * (objectText depth fmt (fieldTexts child (depth + 1) fmt)).length + 6 < 2 ^ 31
            at small
          have lengths : ∀ c ∈ child, (stringText c.name).length + (c.text (depth + 1) fmt).length ≤
              (objectText depth fmt (fieldTexts child (depth + 1) fmt)).length :=
            fun c inside => field_length_le (mem_fieldTexts inside (depth + 1) fmt)
          have names : ∀ c ∈ child, Prints (printStringPtr c.name) (stringText c.name) := by
            intro c inside
            have shorter := lengths c inside
            exact prints_string (by omega)
          have each : ∀ c ∈ child, Prints (printValue c (depth + 1) fmt) (c.text (depth + 1) fmt) := by
            intro c inside
            have shorter := lengths c inside
            exact below c inside (depth + 1) fmt (by omega)
          cases child with
          | nil =>
              have stores := stores_fillEmptyObject (if fmt then depth + 4 else 3) depth fmt
              have length : (objectText depth fmt []).length < if fmt then depth + 4 else 3 := by
                cases fmt <;> simp [objectText, fmtText]
              exact prints_block stores length
          | cons first next => exact prints_object (by omega) names each

def sample : Item :=
  { blank 0 with
    type := .Object
    child := [{ blank 1 with
      type := .Array
      string := some ⟨2, [97, 10]⟩
      child := [{ blank 3 with type := .Number, valueint := -5, valuedouble := ofInt (-5) },
        { blank 4 with type := .String, valuestring := some ⟨5, [7]⟩ }] }] }

example : sample.text 0 false = ascii "\x7b\"a\\n\":[-5,\"\\u0007\"]\x7d".toList := by decide +kernel

end DataStructure.CJson
