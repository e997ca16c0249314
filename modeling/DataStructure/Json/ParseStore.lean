import DataStructure.Json.Parse
import DataStructure.Json.PrintText

/-! What parsing does to the store.

On a text whose escapes are complete every pointer of the parser stays in front of the terminator and
every store inside its block. Whatever requests are refused, a failed parse gives back the blocks that
it has taken and a successful one leaves those of the item. -/

namespace DataStructure.CJson

open Program Binary64
open CText (ascii)

def hexAhead : Text → Bool
  | a :: b :: c :: d :: _ =>
      (hexValue a).isSome && (hexValue b).isSome && (hexValue c).isSome && (hexValue d).isSome
  | _ => false

/-- No backslash is the last byte, and every `\u` is followed by four hexadecimal digits. -/
def wellEscaped : Text → Bool
  | [] => true
  | [c] => c ≠ 92
  | c :: d :: str =>
      if c = 92 then (d ≠ 117 || hexAhead str) && wellEscaped str else wellEscaped (d :: str)

def count : Text → Nat
  | [] => 0
  | [c] => if c = 34 ∨ c = 0 then 0 else 1
  | c :: d :: str =>
      if c = 34 ∨ c = 0 then 0 else if c = 92 then count str + 1 else count (d :: str) + 1

theorem wellEscaped_cons {c : UInt8} (plain : c ≠ 92) (str : Text) :
    wellEscaped (c :: str) = wellEscaped str := by
  cases str with
  | nil => simp [wellEscaped, plain]
  | cons d str => rw [wellEscaped, if_neg plain]

theorem count_cons {c : UInt8} (plain : c ≠ 34 ∧ c ≠ 0 ∧ c ≠ 92) (str : Text) :
    count (c :: str) = count str + 1 := by
  obtain ⟨quote, zero, back⟩ := plain
  cases str with
  | nil => simp [count, quote, zero]
  | cons d str => rw [count, if_neg (by simp [quote, zero]), if_neg back]

theorem hexAhead_iff (str : Text) :
    hexAhead str = true ↔ ∃ a b c d rest, str = a :: b :: c :: d :: rest ∧
      (hexValue a).isSome ∧ (hexValue b).isSome ∧ (hexValue c).isSome ∧ (hexValue d).isSome := by
  rcases str with _ | ⟨a, _ | ⟨b, _ | ⟨c, _ | ⟨d, rest⟩⟩⟩⟩ <;> simp [hexAhead, and_assoc]

theorem hex_plain (c : UInt8) (digit : (hexValue c).isSome) : c ≠ 34 ∧ c ≠ 0 ∧ c ≠ 92 := by
  revert c
  decide +kernel

theorem hexAhead_skip {str : Text} (digits : hexAhead str = true) :
    4 ≤ str.length ∧ wellEscaped (str.drop 4) = wellEscaped str ∧
      count str = count (str.drop 4) + 4 := by
  obtain ⟨a, b, c, d, rest, rfl, first, second, third, fourth⟩ := (hexAhead_iff str).1 digits
  have one := hex_plain a first
  have two := hex_plain b second
  have three := hex_plain c third
  have four := hex_plain d fourth
  refine ⟨by simp, ?_, ?_⟩
  · rw [wellEscaped_cons one.2.2, wellEscaped_cons two.2.2, wellEscaped_cons three.2.2,
      wellEscaped_cons four.2.2]
    rfl
  · rw [count_cons one, count_cons two, count_cons three, count_cons four]
    rfl

theorem wellEscaped_backslash {str : Text} (well : wellEscaped (92 :: str) = true) :
    ∃ d more, str = d :: more ∧ wellEscaped more = true ∧ count (92 :: str) = count more + 1 ∧
      (d = 117 → hexAhead more = true) := by
  cases str with
  | nil => simp [wellEscaped] at well
  | cons d more =>
      rw [wellEscaped, if_pos rfl, Bool.and_eq_true] at well
      refine ⟨d, more, rfl, well.2, by simp [count], ?_⟩
      rintro rfl
      simpa using well.1

theorem utf8_length (uc : Nat) : (utf8 uc).length ≤ 4 := by
  have tail : ∀ count uc bytes, (utf8Tail count uc bytes).2.length = bytes.length + count := by
    intro count
    induction count with
    | zero => intros; rfl
    | succ count ih =>
        intro uc bytes
        rw [utf8Tail, ih, List.length_cons]
        omega
  have length : utf8Length uc ≤ 4 := by
    unfold utf8Length
    split_ifs <;> omega
  rw [utf8]
  dsimp only
  rw [List.length_cons, tail]
  simp
  omega

/-- The second half of a pair is counted with more bytes than it is stored in. -/
theorem unescapePair_spec (uc : Nat) {str : Text} (well : wellEscaped str = true) :
    ∃ bytes rest, unescapePair uc str = some (bytes, rest) ∧ wellEscaped rest = true ∧
      rest <:+ str ∧ bytes.length + count rest ≤ count str + 4 := by
  by_cases other : cur str ≠ 92 ∨ cur str.tail ≠ 117
  · exact ⟨[], str, by rw [unescapePair, if_pos other], well, List.suffix_rfl, by simp⟩
  · have pair : ∃ more, str = 92 :: 117 :: more := by
      rcases str with _ | ⟨c, _ | ⟨d, more⟩⟩
      · simp [cur] at other
      · simp [cur] at other
      · simp only [cur, List.headD_cons, List.tail_cons, ne_eq, not_or, not_not] at other
        exact ⟨more, by rw [other.1, other.2]⟩
    obtain ⟨more, rfl⟩ := pair
    obtain ⟨d, _, same, rest, counted, hex⟩ := wellEscaped_backslash well
    cases same
    obtain ⟨long, kept, four⟩ := hexAhead_skip (hex rfl)
    have short : ¬(92 :: 117 :: more).length < 6 := by
      simp
      omega
    have suffix : (92 :: 117 :: more).drop 6 <:+ 92 :: 117 :: more := List.drop_suffix 6 _
    rw [unescapePair, if_neg other, if_neg short]
    have left : (92 :: 117 :: more).drop 6 = more.drop 4 := rfl
    rw [left] at suffix ⊢
    dsimp only
    split
    · exact ⟨[], _, rfl, kept.trans rest, suffix, by simp; omega⟩
    · have size := utf8_length (0x10000 +
        (((uc &&& 0x3FF) <<< 10) ||| (parseHex4 ((92 :: 117 :: more).drop 2) &&& 0x3FF)))
      exact ⟨_, _, rfl, kept.trans rest, suffix, by omega⟩

/-- An escape is counted with as many bytes as it is stored in. -/
theorem unescape_spec {str : Text} (well : wellEscaped (92 :: str) = true) :
    ∃ bytes rest, unescape str = some (bytes, rest) ∧ wellEscaped rest = true ∧ rest <:+ str ∧
      bytes.length + count rest ≤ count (92 :: str) := by
  obtain ⟨d, more, rfl, kept, counted, hex⟩ := wellEscaped_backslash well
  have suffix : more <:+ d :: more := List.suffix_cons d more
  by_cases unicode : d = 117
  · subst unicode
    obtain ⟨long, same, four⟩ := hexAhead_skip (hex rfl)
    have after : more.drop 4 <:+ 117 :: more := (List.drop_suffix 4 more).trans suffix
    rw [unescape, if_pos rfl, unescapeUnicode, if_neg (by omega)]
    dsimp only
    split
    · exact ⟨[], _, rfl, same.trans kept, after, by simp; omega⟩
    · split
      · obtain ⟨bytes, rest, found, wellRest, inside, size⟩ :=
          unescapePair_spec (parseHex4 more) (same.trans kept)
        exact ⟨bytes, rest, found, wellRest, inside.trans after, by omega⟩
      · have size := utf8_length (parseHex4 more)
        exact ⟨_, _, rfl, same.trans kept, after, by omega⟩
  · rw [unescape, if_neg unicode]
    exact ⟨_, more, rfl, kept, suffix, by simp; omega⟩

theorem countString_eq {str : Text} (well : wellEscaped str = true) :
    countString str = pure (count str) := by
  induction str using count.induct with
  | case1 => rfl
  | case2 c stop => rw [countString, count, if_pos stop, if_pos stop]
  | case3 c go =>
      have plain : c ≠ 92 := by simpa [wellEscaped] using well
      rw [countString, count, if_neg go, if_neg go, if_neg plain]
  | case4 c d str stop => rw [countString, count, if_pos stop, if_pos stop]
  | case5 d str go ih =>
      obtain ⟨_, _, same, kept, _⟩ := wellEscaped_backslash well
      cases same
      rw [countString, count, if_neg go, if_neg go, if_pos rfl, if_pos rfl, ih kept]
      rfl
  | case6 c d str go plain ih =>
      rw [wellEscaped_cons plain] at well
      rw [countString, count, if_neg go, if_neg go, if_neg plain, if_neg plain, ih well]
      rfl

/-- The second loop of `parse_string` stays inside the block that the first has measured. -/
theorem wp_decodeString (size : Nat) (ptr out : Text) (well : wellEscaped ptr = true)
    (fits : out.length + count ptr < size) (s : Env) :
    wp (decodeString size ptr out) (fun result t => t = s ∧ result.1.length < size ∧
      result.2 <:+ ptr ∧ wellEscaped result.2 = true) s := by
  induction ptr, out using decodeString.induct with
  | case1 out =>
      rw [decodeString]
      exact ⟨rfl, by simpa [count] using fits, List.suffix_rfl, well⟩
  | case2 out c str stop =>
      rw [decodeString, if_pos stop]
      exact ⟨rfl, by dsimp only; omega, List.suffix_rfl, well⟩
  | case3 out c str go plain ih =>
      rw [not_or] at go
      rw [count_cons ⟨go.1, go.2, plain⟩] at fits
      rw [wellEscaped_cons plain] at well
      rw [decodeString, if_neg (not_or.2 go), if_pos plain, put, if_pos (by simp; omega), wp_bind,
        wp_pure]
      apply wp_mono _ _ _ s (ih (out ++ [c]) well (by simp; omega))
      intro result t ends
      exact ⟨ends.1, ends.2.1, ends.2.2.1.trans (List.suffix_cons c str), ends.2.2.2⟩
  | case4 out c str go back missing =>
      obtain rfl : c = 92 := not_not.1 back
      obtain ⟨bytes, rest, found, _⟩ := unescape_spec well
      rw [missing] at found
      cases found
  | case5 out c str go back bytes rest found ih =>
      obtain rfl : c = 92 := not_not.1 back
      obtain ⟨_, _, same, kept, inside, size⟩ := unescape_spec well
      rw [found] at same
      cases same
      rw [decodeString, if_neg go, if_neg back]
      split
      · next missing =>
          rw [found] at missing
          cases missing
      · next bytes' rest' again =>
          rw [found] at again
          cases again
          rw [put, if_pos (by omega), wp_bind, wp_pure]
          apply wp_mono _ _ _ s (ih (out ++ bytes) kept (by simp; omega))
          intro result t ends
          exact ⟨ends.1, ends.2.1, (ends.2.2.1.trans inside).trans (List.suffix_cons 92 str),
            ends.2.2.2⟩

/-- The pointer `q` was reached from `p` without stopping inside an escape. -/
def Passes (p q : Text) : Prop := q <:+ p ∧ (wellEscaped p = true → wellEscaped q = true)

theorem Passes.refl (p : Text) : Passes p p := ⟨List.suffix_rfl, id⟩

theorem Passes.trans {p q r : Text} (first : Passes p q) (second : Passes q r) : Passes p r :=
  ⟨second.1.trans first.1, second.2 ∘ first.2⟩

theorem Passes.length_le {p q : Text} (passes : Passes p q) : q.length ≤ p.length :=
  passes.1.length_le

theorem passes_cons {c : UInt8} (plain : c ≠ 92) (p : Text) : Passes (c :: p) p :=
  ⟨List.suffix_cons c p, fun well => (wellEscaped_cons plain p).symm.trans well⟩

theorem passes_tail {p : Text} (plain : cur p ≠ 92) : Passes p p.tail := by
  cases p with
  | nil => exact Passes.refl []
  | cons c p => exact passes_cons plain p

theorem passes_append {front : Text} (plain : ∀ c ∈ front, c ≠ 92) (rest : Text) :
    Passes (front ++ rest) rest := by
  induction front with
  | nil => exact Passes.refl rest
  | cons c front ih =>
      exact (passes_cons (plain c List.mem_cons_self) _).trans
        (ih fun d inside => plain d (List.mem_cons_of_mem c inside))

theorem passes_skip (p : Text) : Passes p (skip p) := by
  have blanks : ∀ c ∈ p.takeWhile fun c => decide (c ≠ 0 ∧ c ≤ 32), c ≠ 92 := by
    intro c inside
    have blank := List.mem_takeWhile_imp inside
    rintro rfl
    simp at blank
  have passes := passes_append blanks (skip p)
  rwa [skip, List.takeWhile_append_dropWhile] at passes

theorem passes_readDigits (n : Binary64) (num : Text) : Passes num (readDigits n num).2.2 := by
  induction num generalizing n with
  | nil => exact Passes.refl []
  | cons c num ih =>
      rw [readDigits]
      split
      · next digit =>
          have plain : c ≠ 92 := by
            rintro rfl
            cases digit
          exact (passes_cons plain num).trans (ih _)
      · exact Passes.refl _

theorem passes_readExponent {subscale : Int} {num : Text} {result : Int × Text}
    (read : readExponent subscale num = some result) : Passes num result.2 := by
  induction num generalizing subscale with
  | nil =>
      cases read
      exact Passes.refl []
  | cons c num ih =>
      rw [readExponent] at read
      split at read
      · next digit =>
          have plain : c ≠ 92 := by
            rintro rfl
            cases digit
          obtain ⟨next, _, rest⟩ := Option.bind_eq_some_iff.1 read
          exact (passes_cons plain num).trans (ih rest)
      · cases read
        exact Passes.refl _

theorem passes_optional {c : UInt8} (plain : c ≠ 92) (num : Text) :
    Passes num (if cur num = c then num.tail else num) := by
  split
  · next same => exact passes_tail (same ▸ plain)
  · exact Passes.refl num

theorem passes_readWhole (num : Text) : Passes num (readWhole num).2 := by
  have zero := passes_optional (c := 48) (by decide) num
  rw [readWhole]
  dsimp only
  generalize (if cur num = 48 then num.tail else num) = digits at zero ⊢
  split
  · exact zero.trans (passes_readDigits _ _)
  · exact zero

theorem passes_readFraction (n : Binary64) (num : Text) : Passes num (readFraction n num).2.2 := by
  rw [readFraction]
  split
  · next point =>
      have dot : cur num = 46 := by
        rw [Bool.and_eq_true] at point
        exact of_decide_eq_true point.1
      exact (passes_tail (by rw [dot]; decide)).trans (passes_readDigits _ _)
  · exact Passes.refl num

theorem passes_readScale {num : Text} {result : Int × Text} (read : readScale num = some result) :
    Passes num result.2 := by
  rw [readScale] at read
  split at read
  · next letter =>
      have plain : cur num ≠ 92 := by
        intro back
        simp [back] at letter
      dsimp only at read
      split at read
      · next minus =>
          have sign : Passes num.tail num.tail.tail := passes_tail (by rw [minus]; decide)
          obtain ⟨digits, found, rfl⟩ := Option.map_eq_some_iff.1 read
          have behind : Passes num.tail.tail digits.2 := passes_readExponent found
          exact (passes_tail plain).trans (sign.trans behind)
      · exact (passes_tail plain).trans
          ((passes_optional (by decide) num.tail).trans (passes_readExponent read))
  · cases read
    exact Passes.refl num

/-- Wherever an exponent may be read, it fits an `int`. -/
def exponentsFit (text : Text) : Bool := text.tails.all fun num => (readScale num).isSome

theorem readScale_isSome {text num : Text} (fits : exponentsFit text = true) (inside : num <:+ text) :
    (readScale num).isSome :=
  List.all_eq_true.1 fits num ((List.mem_tails num text).2 inside)

theorem exponentsFit_suffix {text rest : Text} (fits : exponentsFit text = true)
    (inside : rest <:+ text) : exponentsFit rest = true := by
  apply List.all_eq_true.2
  intro num tail
  exact readScale_isSome fits (((List.mem_tails num rest).1 tail).trans inside)

def scalePlace (num : Text) : Text :=
  let digits := if cur num = 45 then num.tail else num
  (readFraction (readWhole digits).1 (readWhole digits).2).2.2

theorem passes_scalePlace (num : Text) : Passes num (scalePlace num) := by
  have sign := passes_optional (c := 45) (by decide) num
  rw [scalePlace]
  generalize (if cur num = 45 then num.tail else num) = digits at sign ⊢
  apply sign.trans
  apply (passes_readWhole digits).trans
  exact passes_readFraction (readWhole digits).1 _

theorem parseNumber_eq (machine : Machine) (item : Item) (num : Text) :
    ∃ set : Int → Item, (∀ scale, ∃ n d, set scale =
        { item with type := .Number, valueint := n, valuedouble := d }) ∧
      parseNumber machine item num =
        (readScale (scalePlace num)).map fun result => (set result.1, result.2) :=
  ⟨setNumber machine item _ _ _, fun _ => ⟨_, _, rfl⟩, rfl⟩

theorem tail_length_lt {value : Text} (here : cur value ≠ 0) : value.tail.length < value.length := by
  cases value with
  | nil => exact absurd rfl here
  | cons c value => exact Nat.lt_succ_self _

theorem skip_tail_length_lt {value : Text} (here : cur value ≠ 0) :
    (skip value.tail).length < value.length :=
  (passes_skip value.tail).length_le.trans_lt (tail_length_lt here)

theorem passes_word {word value : Text} (found : word <+: value) (plain : ∀ c ∈ word, c ≠ 92) :
    Passes value (value.drop word.length) := by
  obtain ⟨rest, rfl⟩ := found
  rw [List.drop_left]
  exact passes_append plain rest

/-- Behind what was read, at an error that `ep` points to, or at a refused request. -/
def Ended (text : Text) (s : Env) (rest : Option Text) (t : Env) : Prop :=
  match rest with
  | some rest => Passes text rest ∧ t.refused = s.refused ∧ t.ep = s.ep
  | none => s.refused < t.refused ∧ t.ep = s.ep ∨
      t.refused = s.refused ∧ ∃ e, t.ep = some e ∧ e <:+ text

theorem Ended.after {text middle : Text} {rest : Option Text} {s t u : Env}
    (ended : Ended middle t rest u) (passes : Passes text middle) (refused : t.refused = s.refused)
    (ep : t.ep = s.ep) : Ended text s rest u := by
  cases rest with
  | some rest =>
      obtain ⟨inside, granted, kept⟩ := ended
      exact ⟨passes.trans inside, granted.trans refused, kept.trans ep⟩
  | none =>
      rcases ended with ⟨denied, kept⟩ | ⟨granted, e, found, inside⟩
      · exact .inl ⟨refused ▸ denied, kept.trans ep⟩
      · exact .inr ⟨granted.trans refused, e, found, inside.trans passes.1⟩

/-- The blocks that a parse has taken are those that the item has gained. -/
def Parsed (text : Text) (item : Item) (s : Env) (result : Item × Option Text) (t : Env) : Prop :=
  Ended text s result.2 t ∧ Trades s t (blocks item) (blocks result.1)

def Readable (excused : Prop) (text : Text) : Prop :=
  wellEscaped text = true ∧ (excused ∨ exponentsFit text = true)

theorem Passes.readable {excused : Prop} {p q : Text} (passes : Passes p q)
    (readable : Readable excused p) : Readable excused q :=
  ⟨passes.2 readable.1, readable.2.imp_right fun fits => exponentsFit_suffix fits passes.1⟩

def Parses (excused : Prop) (ready : Item → Prop)
    (parse : Item → Text → Prog Env (Item × Option Text)) (bound : Nat) : Prop :=
  ∀ item text s, ready item → Readable excused text → text.length < bound →
    wpUnless excused (parse item text) (Parsed text item s) s

def Fresh (item : Item) : Prop :=
  item.isReference = false ∧ item.valuestring = none ∧ item.child = []

def IsNew (item : Item) : Prop := ∃ block, item = blank block

theorem IsNew.fresh {item : Item} (new : IsNew item) : Fresh item := by
  obtain ⟨block, rfl⟩ := new
  exact ⟨rfl, rfl, rfl⟩

theorem wpUnless_newItem {excused : Prop} {α : Type} {next : Option Item → Prog Env α}
    {post : α → Env → Prop} {s : Env}
    (yes : wpUnless excused (next (some (blank s.asked))) post (granted s))
    (no : wpUnless excused (next none) post (denied s)) :
    wpUnless excused (newItem >>= next) post s := by
  have first : wp newItem (fun item t => wpUnless excused (next item) post t) s :=
    wp_newItem _ s yes no
  apply wpUnless_seq (wpUnless_of_wp first)
  intro item t rest
  exact rest

theorem parsed_error {text place : Text} (item : Item) (s : Env) (inside : place <:+ text) :
    Parsed text item s (item, none) { s with ep := some place } :=
  ⟨.inr ⟨rfl, place, rfl, inside⟩, rfl⟩

theorem count_le (str : Text) : count str ≤ str.length := by
  induction str using count.induct with
  | case1 => simp [count]
  | case2 c stop => simp [count, stop]
  | case3 c go => simp [count, go]
  | case4 c d str stop => simp [count, stop]
  | case5 d str go ih =>
      rw [count, if_neg go, if_pos rfl]
      simp only [List.length_cons]
      omega
  | case6 c d str go plain ih =>
      rw [count, if_neg go, if_neg plain]
      simp only [List.length_cons] at ih ⊢
      omega

def StringParsed (item : Item) (result : Item × Option Text) : Prop :=
  result = (item, none) ∨
    ∃ str rest, result = ({ item with valuestring := some str, type := .String }, some rest)

theorem blocks_valuestring {item : Item} (fresh : Fresh item) (str : Str) :
    blocks { item with valuestring := some str, type := .String } = blocks item + {str.block} := by
  have own : ({ item with valuestring := some str, type := .String } : Item).isReference = false :=
    fresh.1
  rw [blocks_own fresh.1, blocks_own own, fresh.2.1, fresh.2.2]
  simp only [stringBlocks, chainBlocks]
  abel

theorem wp_parseString (item : Item) (str : Text) (s : Env) (fresh : Fresh item)
    (well : wellEscaped str = true) (small : str.length < 2 ^ 31) :
    wp (parseString item str) (fun result t =>
      Parsed str item s result t ∧ StringParsed item result) s := by
  rw [parseString]
  split
  · exact ⟨parsed_error item s List.suffix_rfl, .inl rfl⟩
  · next quote =>
      have opened : cur str = 34 := not_not.1 quote
      have passes : Passes str str.tail := passes_tail (by rw [opened]; decide)
      have shorter : str.tail.length < str.length := tail_length_lt (by rw [opened]; decide)
      have counted := count_le str.tail
      rw [countString_eq (passes.2 well), wp_bind, wp_pure, wp_bind, wp_intLen (by omega), wp_bind]
      apply wp_malloc
      · apply wp_seq _ _ _ _ _ (wp_decodeString (count str.tail + 1) str.tail [] (passes.2 well)
          (by simp) (granted s))
        rintro ⟨out, ptr⟩ t ⟨rfl, room, inside, kept⟩
        have reached : Passes str.tail ptr := ⟨inside, fun _ => kept⟩
        have closed : Passes ptr (if cur ptr = 34 then ptr.tail else ptr) :=
          passes_optional (by decide) ptr
        dsimp only at room ⊢
        rw [terminate, put, if_pos (by simpa using room)]
        refine ⟨⟨⟨passes.trans (reached.trans closed), rfl, rfl⟩, ?_⟩, .inr ⟨⟨s.asked, out⟩, _, rfl⟩⟩
        dsimp only
        rw [blocks_valuestring fresh]
        exact (trades_granted s).beside (blocks item)
      · exact ⟨⟨.inl ⟨Nat.lt_succ_self _, rfl⟩, rfl⟩, .inl rfl⟩

theorem blocks_tag (item : Item) (type : Kind) (valueint : Int32) (valuedouble : Binary64) :
    blocks { item with type := type, valueint := valueint, valuedouble := valuedouble } =
      blocks item := by
  obtain ⟨block, _, isReference, valuestring, _, _, string, child⟩ := item
  rw [blocks, blocks]

section Chains

variable {excused : Prop} {parse element : Item → Text → Prog Env (Item × Option Text)} {bound : Nat}

theorem parses_member (parses : Parses excused Fresh parse bound) (limit : bound ≤ 2 ^ 31) :
    Parses excused IsNew (parseMember parse) bound := by
  rintro item text s ⟨block, rfl⟩ readable small
  have start := passes_skip text
  have shorter := start.length_le
  rw [parseMember]
  apply wpUnless_seq (wpUnless_of_wp (wp_parseString (blank block) (skip text) s ⟨rfl, rfl, rfl⟩
    (start.2 readable.1) (by omega)))
  rintro result t ⟨⟨ended, taken⟩, shape⟩
  rcases shape with rfl | ⟨str, rest, rfl⟩
  · exact ⟨ended.after start rfl rfl, taken⟩
  -- the string is moved from `valuestring` to `string`, in the same block
  · obtain ⟨inside, granted, kept⟩ := ended
    have colon : Passes text (skip rest) := start.trans (inside.trans (passes_skip rest))
    have moved : blocks { blank block with type := .String, string := some str } =
        blocks { blank block with type := .String, valuestring := some str } := by
      rw [blocks_own rfl, blocks_own rfl]
      exact congrArg (· + {block}) (add_right_comm (chainBlocks []) 0 {str.block}).symm
    have named : Trades s t (blocks (blank block))
        (blocks { blank block with type := .String, string := some str }) := by
      rw [moved]
      exact taken
    dsimp only
    split
    · exact ⟨.inr ⟨granted, _, rfl, colon.1⟩, named⟩
    · next found =>
        have plain : cur (skip rest) ≠ 92 := by
          rw [not_not.1 found]
          decide
        have value : Passes text (skip (skip rest).tail) :=
          colon.trans ((passes_tail plain).trans (passes_skip _))
        have within := value.length_le
        apply wpUnless_mono (parses { blank block with type := .String, string := some str } _ t
          ⟨rfl, rfl, rfl⟩ (value.readable readable) (by omega))
        rintro result u ⟨ended, taken⟩
        exact ⟨ended.after value granted kept, named.trans taken⟩

theorem wpUnless_parseRest (parses : Parses excused IsNew element bound) {close : UInt8}
    (plain : close ≠ 92) (fuel : Nat) (done : List Item) (value : Text) (s : Env)
    (readable : Readable excused value) (enough : value.length < fuel) (small : value.length ≤ bound) :
    wpUnless excused (parseRest element close fuel done value) (fun result t =>
      Ended value s result.2 t ∧ Trades s t (chainBlocks done) (chainBlocks result.1)) s := by
  induction fuel generalizing done value s with
  | zero => omega
  | succ fuel ih =>
      rw [parseRest]
      split
      · next comma =>
          have behind : Passes value (skip value.tail) :=
            (passes_tail (by rw [comma]; decide)).trans (passes_skip _)
          have shorter : (skip value.tail).length < value.length :=
            skip_tail_length_lt (by rw [comma]; decide)
          apply wpUnless_newItem
          · apply wpUnless_seq (parses (blank s.asked) _ (granted s) ⟨_, rfl⟩ (behind.readable readable)
              (by omega))
            rintro ⟨child, rest⟩ t ⟨ended, taken⟩
            have held : Trades s t (chainBlocks done) (chainBlocks (done ++ [child])) := by
              rw [chainBlocks_concat]
              exact (trades_new taken).beside (chainBlocks done)
            cases rest with
            | none => exact ⟨ended.after behind rfl rfl, held⟩
            | some rest =>
                obtain ⟨inside, granted, kept⟩ := ended
                have next : Passes value (skip rest) := behind.trans (inside.trans (passes_skip rest))
                have within := (inside.trans (passes_skip rest)).length_le
                apply wpUnless_mono (ih (done ++ [child]) (skip rest) t (next.readable readable)
                  (by omega) (by omega))
                rintro result u ⟨ended, taken⟩
                exact ⟨ended.after next granted kept, held.trans taken⟩
          · exact ⟨.inl ⟨Nat.lt_succ_self _, rfl⟩, rfl⟩
      · split
        · next found => exact ⟨⟨passes_tail (found ▸ plain), rfl, rfl⟩, rfl⟩
        · exact ⟨.inr ⟨rfl, value, rfl, List.suffix_rfl⟩, rfl⟩

theorem blocks_child {item : Item} (fresh : Fresh item) (chain : List Item) :
    blocks { item with child := chain } = blocks item + chainBlocks chain := by
  have own : ({ item with child := chain } : Item).isReference = false := fresh.1
  rw [blocks_own own, blocks_own fresh.1, fresh.2.2]
  simp only [chainBlocks]
  abel

theorem wpUnless_parseChain (parses : Parses excused IsNew element bound) {close : UInt8}
    (plain : close ≠ 92) (item : Item) (value : Text) (s : Env) (fresh : Fresh item)
    (opened : cur value ≠ 92) (nonempty : cur value ≠ 0) (readable : Readable excused value)
    (small : value.length ≤ bound) :
    wpUnless excused (parseChain element close item value) (Parsed value item s) s := by
  have filled : ∀ chain t, Trades s t 0 (chainBlocks chain) →
      Trades s t (blocks item) (blocks { item with child := chain }) := by
    intro chain t trades
    rw [blocks_child fresh]
    exact trades.beside (blocks item)
  have start : Passes value (skip value.tail) := (passes_tail opened).trans (passes_skip _)
  have shorter := skip_tail_length_lt nonempty
  rw [parseChain]
  split
  · next found => exact ⟨⟨start.trans (passes_tail (found ▸ plain)), rfl, rfl⟩, rfl⟩
  · have again := start.trans (passes_skip (skip value.tail))
    have within := (passes_skip (skip value.tail)).length_le
    apply wpUnless_newItem
    · apply wpUnless_seq (parses (blank s.asked) _ (granted s) ⟨_, rfl⟩ (again.readable readable)
        (by omega))
      rintro ⟨child, rest⟩ t ⟨ended, taken⟩
      have held : Trades s t 0 (chainBlocks [child]) := by
        rw [chainBlocks, chainBlocks, add_zero]
        exact trades_new taken
      cases rest with
      | none => exact ⟨ended.after again rfl rfl, filled [child] t held⟩
      | some rest =>
          obtain ⟨inside, granted, kept⟩ := ended
          have next : Passes value (skip rest) := again.trans (inside.trans (passes_skip rest))
          have left := (passes_skip rest).length_le
          have bounded := inside.length_le
          apply wpUnless_seq (wpUnless_parseRest parses plain (rest.length + 1) [child] (skip rest) t
            (next.readable readable) (by omega) (by omega))
          rintro ⟨chain, rest⟩ u ⟨ended, taken⟩
          exact ⟨ended.after next granted kept, filled chain u (held.trans taken)⟩
    · exact ⟨.inl ⟨Nat.lt_succ_self _, rfl⟩, rfl⟩

theorem wpUnless_parseChain_tagged (parses : Parses excused IsNew element bound)
    {bracket close : UInt8} (plain : close ≠ 92) (item : Item) (type : Kind) (value : Text) (s : Env)
    (fresh : Fresh item) (opened : cur value = bracket) (known : bracket ≠ 92 ∧ bracket ≠ 0)
    (readable : Readable excused value) (small : value.length ≤ bound) :
    wpUnless excused (parseChain element close { item with type := type } value)
      (Parsed value item s) s := by
  have same : blocks { item with type := type } = blocks item :=
    blocks_tag item type item.valueint item.valuedouble
  subst bracket
  apply wpUnless_mono (wpUnless_parseChain parses plain { item with type := type } value s fresh
    known.1 known.2 readable small)
  intro result t parsed
  exact ⟨parsed.1, same ▸ parsed.2⟩

end Chains

theorem parsed_plain {text rest : Text} (item : Item) (type : Kind) (valueint : Int32)
    (valuedouble : Binary64) (s : Env) (passes : Passes text rest) :
    Parsed text item s
      ({ item with type := type, valueint := valueint, valuedouble := valuedouble }, some rest) s :=
  ⟨⟨passes, rfl, rfl⟩, by rw [blocks_tag]; exact Trades.refl s (blocks item)⟩

theorem wpUnless_returnNumber {excused : Prop} (machine : Machine) (item : Item) (text : Text) (s : Env)
    (readable : Readable excused text) :
    wpUnless excused (returnNumber (parseNumber machine item text)) (Parsed text item s) s := by
  obtain ⟨set, number, read⟩ := parseNumber_eq machine item text
  rw [read]
  cases found : readScale (scalePlace text) with
  | none =>
      rcases readable.2 with allowed | fits
      · exact allowed
      · have some := readScale_isSome fits (passes_scalePlace text).1
        rw [found] at some
        cases some
  | some result =>
      obtain ⟨n, d, same⟩ := number result.1
      have passes := (passes_scalePlace text).trans (passes_readScale found)
      rw [Option.map_some, same]
      exact parsed_plain item .Number n d s passes

/-- With fuel for each byte of the text the nesting never runs out. -/
theorem parses_value (excused : Prop) (machine : Machine) (fuel : Nat) (limit : fuel ≤ 2 ^ 31) :
    Parses excused Fresh (parseValue machine fuel) fuel := by
  induction fuel with
  | zero =>
      intro item text s fresh readable small
      omega
  | succ fuel ih =>
      intro item text s fresh readable small
      -- what is inside a bracket is shorter than the text, so that one unit of fuel less is enough
      have inner := ih (by omega)
      have elements : Parses excused IsNew (parseValue machine fuel) fuel :=
        fun item value t new => inner item value t new.fresh
      rw [parseValue]
      split
      · next word => exact parsed_plain item .NULL _ _ s (passes_word word (by decide +kernel))
      split
      · next word => exact parsed_plain item .False _ _ s (passes_word word (by decide +kernel))
      split
      · next word => exact parsed_plain item .True 1 _ s (passes_word word (by decide +kernel))
      split
      · apply wpUnless_mono (wpUnless_of_wp (wp_parseString item text s fresh readable.1 (by omega)))
        intro result t parsed
        exact parsed.1
      split
      · exact wpUnless_returnNumber machine item text s readable
      split
      · next bracket =>
          rw [parseArray, if_neg (not_not.2 bracket)]
          exact wpUnless_parseChain_tagged elements (by decide) item .Array text s fresh bracket
            (by decide) readable (by omega)
      split
      · next brace =>
          rw [parseObject, if_neg (not_not.2 brace)]
          exact wpUnless_parseChain_tagged (parses_member inner (by omega)) (by decide) item .Object
            text s fresh brace (by decide) readable (by omega)
      · exact parsed_error item s List.suffix_rfl

def TextParsed (text : Text) (s : Env) (result : Option (Item × Text)) (t : Env) : Prop :=
  match result with
  | some (item, rest) =>
      t.live = s.live + blocks item ∧ rest <:+ text ∧ t.refused = s.refused ∧ t.ep = none
  | none =>
      t.live = s.live ∧ (s.refused < t.refused ∧ t.ep = none ∨
        t.refused = s.refused ∧ ∃ e, t.ep = some e ∧ e <:+ text)

theorem wp_setEp (value : Option Text) (post : Unit → Env → Prop) (s : Env) :
    wp (setEp value) post s ↔ post () { s with ep := value } := Iff.rfl

theorem wp_parseWithOpts (machine : Machine) (text : Text) (requireNullTerminated : Bool) (s : Env)
    (well : wellEscaped text = true) (fits : exponentsFit text = true) (small : text.length < 2 ^ 31) :
    wp (parseWithOpts machine (some text) requireNullTerminated) (TextParsed text s) s := by
  have start := passes_skip text
  have shorter := start.length_le
  rw [parseWithOpts, wp_bind]
  apply wp_newItem
  · rw [wp_bind, wp_setEp]
    have value := parses_value False machine (text.length + 1) (by omega) (blank s.asked) (skip text)
      { granted s with ep := none } ⟨rfl, rfl, rfl⟩ (start.readable ⟨well, .inr fits⟩) (by omega)
    apply wp_seq _ _ _ _ _ ((wpUnless_false _).1 value)
    rintro ⟨item, rest⟩ t ⟨ended, taken⟩
    have held : t.live = s.live + blocks item := (trades_new taken).live_eq
    cases rest with
    | none =>
        apply (givesBack_deleteOne item).wp_then (le_live_of_eq held)
        refine ⟨given_live_of_eq held, ?_⟩
        rcases ended with ⟨denied, kept⟩ | ⟨granted, e, found, inside⟩
        · exact .inl ⟨denied, kept⟩
        · exact .inr ⟨granted, e, found, inside.trans start.1⟩
    | some rest =>
        obtain ⟨inside, granted, kept⟩ := ended
        have behind : skip rest <:+ text := (start.trans (inside.trans (passes_skip rest))).1
        dsimp only
        split
        · split
          · apply (givesBack_deleteOne item).wp_then (le_live_of_eq held)
            exact ⟨given_live_of_eq held, .inr ⟨granted, skip rest, rfl, behind⟩⟩
          · exact ⟨held, behind, granted, kept⟩
        · exact ⟨held, (start.trans inside).1, granted, kept⟩
  · exact ⟨rfl, .inl ⟨Nat.lt_succ_self _, rfl⟩⟩

/-- Whatever requests are refused, the parse of a text leaves the blocks of the item it returns and no
others, an error is reported in `ep` and nowhere else, and deleting the item gives them back. -/
theorem parse_leaks_nothing (machine : Machine) (text : Text) (requireNullTerminated : Bool) (s : Env)
    (well : wellEscaped text = true) (fits : exponentsFit text = true) (small : text.length < 2 ^ 31) :
    ∃ result t, (parseWithOpts machine (some text) requireNullTerminated).run s = .ok (result, t) ∧
      TextParsed text s result t ∧
      ∀ item rest, result = some (item, rest) →
        ∃ u, (delete [item]).run t = .ok ((), u) ∧ u.live = s.live := by
  have parsed := wp_parseWithOpts machine text requireNullTerminated s well fits small
  obtain ⟨result, t, ran, holds⟩ := (wp_iff_run _ _ _).mp parsed
  refine ⟨result, t, ran, holds, ?_⟩
  rintro item rest rfl
  have held : t.live = s.live + blocks item := holds.1
  have deleted : wp (delete [item]) (fun _ u => u.live = s.live) t := by
    apply givesBack_deleteOne item _ t (le_live_of_eq held)
    exact given_live_of_eq held
  obtain ⟨_, u, returned, back⟩ := (wp_iff_run _ _ _).mp deleted
  exact ⟨u, returned, back⟩

theorem parse_leaks_nothing_nested :
    ∃ result t, (parseWithOpts roundingMachine (some (ascii "[\"\\u0041\", 1e2]".toList)) true).run
        (holding (fun asked _ => asked != 5) 2) = .ok (result, t) ∧
      TextParsed (ascii "[\"\\u0041\", 1e2]".toList) (holding (fun asked _ => asked != 5) 2) result t ∧
      ∀ item rest, result = some (item, rest) →
        ∃ u, (delete [item]).run t = .ok ((), u) ∧ u.live = Multiset.range 2 :=
  parse_leaks_nothing roundingMachine _ true _ (by decide +kernel) (by decide +kernel)
    (by decide +kernel)

end DataStructure.CJson
