import DataStructure.Json.RoundTrip

/-! `cJSON_Minify`, which compacts a text in its own block.

`json` reads ahead of `into`. What is between the two pointers was read and is not needed again. -/

namespace DataStructure.CJson

open Program Binary64
open CText (ascii)

/-- `*p`, the state being the block. -/
def load (p : Nat) : Prog Text UInt8 := fun block =>
  match block[p]? with
  | some c => .ok (c, block)
  | none => .error .segv

def store (p : Nat) (c : UInt8) : Prog Text Unit := fun block =>
  if p < block.length then .ok ((), block.set p c) else .error .segv

def skipLine : Nat → Nat → Prog Text Nat
  | 0, _ => fault .stuck
  | fuel + 1, json => do
      let c ← load json
      if c = 0 ∨ c = 10 then return json else skipLine fuel (json + 1)

/-- `while (*json && !(*json=='*' && json[1]=='/')) json++;` -/
def skipComment : Nat → Nat → Prog Text Nat
  | 0, _ => fault .stuck
  | fuel + 1, json => do
      let c ← load json
      if c = 0 then return json
      else if c = 42 then
        let d ← load (json + 1)
        if d = 47 then return json else skipComment fuel (json + 1)
      else skipComment fuel (json + 1)

/-- The loop over a string literal; `json` and `into` behind it. -/
def copyString : Nat → Nat → Nat → Prog Text (Nat × Nat)
  | 0, _, _ => fault .stuck
  | fuel + 1, json, into => do
      let c ← load json
      if c = 0 ∨ c = 34 then return (json, into)
      else if c = 92 then
        store into c
        let d ← load (json + 1)
        store (into + 1) d
        copyString fuel (json + 2) (into + 2)
      else
        store into c
        copyString fuel (json + 1) (into + 1)

def minifyLoop : Nat → Nat → Nat → Prog Text Unit
  | 0, _, _ => fault .stuck
  | fuel + 1, json, into => do
      let c ← load json
      if c = 0 then store into 0
      else if c = 32 ∨ c = 9 ∨ c = 13 ∨ c = 10 then minifyLoop fuel (json + 1) into
      else if c = 47 then
        let d ← load (json + 1)
        if d = 47 then
          let json ← skipLine fuel json
          minifyLoop fuel json into
        else if d = 42 then
          let json ← skipComment fuel json
          minifyLoop fuel (json + 2) into
        else
          store into c
          minifyLoop fuel (json + 1) (into + 1)
      else if c = 34 then
        store into c
        let (json, into) ← copyString fuel (json + 1) (into + 1)
        let d ← load json
        store into d
        minifyLoop fuel (json + 1) (into + 1)
      else
        store into c
        minifyLoop fuel (json + 1) (into + 1)

/-- `cJSON_Minify`; no round of a loop leaves `json` where it is. -/
def minify : Prog Text Unit := fun block => minifyLoop (block.length + 1) 0 0 block

/-- The parts of a text that the loop tells apart. -/
inductive Lexeme where
  | byte (c : UInt8)
  | space (c : UInt8)
  | line (body : Text)
  | comment (body : Text)
  | string (body : Text)

def Lexeme.text : Lexeme → Text
  | .byte c => [c]
  | .space c => [c]
  | .line body => 47 :: 47 :: (body ++ [10])
  | .comment body => 47 :: (body ++ [42, 47])
  | .string body => 34 :: (body ++ [34])

def Lexeme.kept : Lexeme → Text
  | .byte c => [c]
  | .string body => 34 :: (body ++ [34])
  | _ => []

def quoted : Text → Bool
  | [] => true
  | [c] => c ≠ 34 && c ≠ 0 && c ≠ 92
  | c :: d :: body => if c = 92 then d ≠ 0 && quoted body else c ≠ 34 && c ≠ 0 && quoted (d :: body)

/-- The comment ends at its first `*/`, which may share its star with the `/*`. -/
def commented : Text → Bool
  | [] => true
  | [c] => c ≠ 0
  | c :: d :: body => c ≠ 0 && !(c = 42 && d = 47) && commented (d :: body)

def Lexeme.valid : Lexeme → Bool
  | .byte c => c ∉ [0, 9, 10, 13, 32, 34, 47]
  | .space c => c ∈ [9, 10, 13, 32]
  | .line body => 0 ∉ body && 10 ∉ body
  | .comment body => commented body && decide ((body ++ [42]).headD 0 = (42 : UInt8))
  | .string body => quoted body

-- The block holds what was written, what lies between the pointers, and what is to be read.

section Steps

variable {α : Type} {post : α → Text → Prop} {written gap rest : Text} {json into : Nat}

theorem wp_load {c : UInt8} {next : UInt8 → Prog Text α} (place : json = written.length + gap.length)
    (reads : wp (next c) post (written ++ (gap ++ c :: rest))) :
    wp (load json >>= next) post (written ++ (gap ++ c :: rest)) := by
  have found : (written ++ (gap ++ c :: rest))[json]? = some c := by
    rw [← List.append_assoc, place, ← List.length_append]
    simp
  rw [wp_bind]
  simp only [wp, load, StateT.run, found]
  exact reads

theorem regroup (c : UInt8) : written ++ (gap ++ c :: rest) = written ++ ((gap ++ [c]) ++ rest) := by
  simp

/-- `*into++=*json++` does not touch what is still to be read. -/
theorem wp_store {c : UInt8} {next : Prog Text α} (place : into = written.length)
    (copies : ∀ gap', gap'.length = gap.length → wp next post ((written ++ [c]) ++ (gap' ++ rest))) :
    wp (store into c >>= fun _ => next) post (written ++ (gap ++ c :: rest)) := by
  have inside : into < (written ++ (gap ++ c :: rest)).length := by simp [place]
  have stored : ∃ gap', gap'.length = gap.length ∧
      (written ++ (gap ++ c :: rest)).set into c = (written ++ [c]) ++ (gap' ++ rest) := by
    cases gap with
    | nil => exact ⟨[], rfl, by simp [place]⟩
    | cons g gap => exact ⟨gap ++ [c], by simp, by simp [place]⟩
  obtain ⟨gap', length, block⟩ := stored
  rw [wp_bind]
  simp only [wp, store, StateT.run, if_pos inside, block]
  exact copies gap' length

end Steps

theorem wp_skipLine {post : Nat → Text → Prop} {body : Text} (inside : 0 ∉ body ∧ 10 ∉ body)
    {written gap rest : Text} {fuel json : Nat} (enough : body.length < fuel)
    (place : json = written.length + gap.length)
    (ends : post (json + body.length) (written ++ (gap ++ (body ++ 10 :: rest)))) :
    wp (skipLine fuel json) post (written ++ (gap ++ (body ++ 10 :: rest))) := by
  induction body generalizing fuel json gap with
  | nil =>
      obtain ⟨fuel, rfl⟩ : ∃ k, fuel = k + 1 := ⟨fuel - 1, by simp at enough; omega⟩
      rw [skipLine]
      apply wp_load place
      rw [if_pos (.inr rfl)]
      exact ends
  | cons c body ih =>
      simp only [List.mem_cons, not_or] at inside
      simp only [List.length_cons, List.cons_append] at enough ends ⊢
      obtain ⟨fuel, rfl⟩ : ∃ k, fuel = k + 1 := ⟨fuel - 1, by omega⟩
      rw [skipLine]
      apply wp_load place
      rw [if_neg (by simp [Ne.symm inside.1.1, Ne.symm inside.2.1])]
      rw [regroup] at ends ⊢
      apply ih ⟨inside.1.2, inside.2.2⟩ (by omega) (by simp [place]; omega)
      rwa [Nat.add_assoc, Nat.add_comm 1]

theorem commented_cons {c : UInt8} {body : Text} (inside : commented (c :: body) = true) :
    c ≠ 0 ∧ commented body = true ∧ (c = 42 → (body ++ [42]).headD 0 ≠ (47 : UInt8)) := by
  cases body with
  | nil => exact ⟨by simpa [commented] using inside, rfl, by simp⟩
  | cons d body =>
      simp only [commented, Bool.and_eq_true, Bool.not_eq_true', decide_eq_true_eq] at inside
      refine ⟨inside.1.1, inside.2, ?_⟩
      rintro rfl
      simpa using inside.1.2

theorem wp_skipComment {post : Nat → Text → Prop} {body : Text} (inside : commented body = true)
    {written gap rest : Text} {fuel json : Nat} (enough : body.length < fuel)
    (place : json = written.length + gap.length)
    (ends : post (json + body.length) (written ++ (gap ++ (body ++ 42 :: 47 :: rest)))) :
    wp (skipComment fuel json) post (written ++ (gap ++ (body ++ 42 :: 47 :: rest))) := by
  induction body generalizing fuel json gap with
  | nil =>
      obtain ⟨fuel, rfl⟩ : ∃ k, fuel = k + 1 := ⟨fuel - 1, by simp at enough; omega⟩
      rw [List.nil_append] at ends ⊢
      rw [skipComment]
      apply wp_load place
      rw [if_neg (by decide), if_pos rfl]
      rw [regroup] at ends ⊢
      apply wp_load (by simp [place]; omega)
      rw [if_pos rfl]
      exact ends
  | cons c body ih =>
      obtain ⟨nonzero, later, starred⟩ := commented_cons inside
      simp only [List.length_cons, List.cons_append] at enough ends ⊢
      obtain ⟨fuel, rfl⟩ : ∃ k, fuel = k + 1 := ⟨fuel - 1, by omega⟩
      have further : wp (skipComment fuel (json + 1)) post
          (written ++ (gap ++ c :: (body ++ 42 :: 47 :: rest))) := by
        rw [regroup] at ends ⊢
        apply ih later (by omega) (by simp [place]; omega)
        rwa [Nat.add_assoc, Nat.add_comm 1]
      rw [skipComment]
      apply wp_load place
      rw [if_neg nonzero]
      split
      · next star =>
          obtain ⟨d, tail, found, other⟩ : ∃ d tail, body ++ 42 :: 47 :: rest = d :: tail ∧ d ≠ 47 := by
            have head := starred star
            cases body with
            | nil => exact ⟨42, 47 :: rest, rfl, by decide⟩
            | cons d body => exact ⟨d, body ++ 42 :: 47 :: rest, rfl, by simpa using head⟩
          rw [found] at further ⊢
          rw [regroup] at further ⊢
          apply wp_load (by simp [place]; omega)
          rw [if_neg other]
          exact further
      · exact further

theorem quoted_plain {c : UInt8} (plain : c ≠ 92) {body : Text} (inside : quoted (c :: body) = true) :
    c ≠ 34 ∧ c ≠ 0 ∧ quoted body = true := by
  cases body with
  | nil =>
      simp only [quoted, Bool.and_eq_true, decide_eq_true_eq] at inside
      exact ⟨inside.1.1, inside.1.2, rfl⟩
  | cons d body =>
      simpa only [quoted, if_neg plain, Bool.and_eq_true, decide_eq_true_eq, and_assoc] using inside

theorem quoted_backslash {body : Text} (inside : quoted (92 :: body) = true) :
    ∃ d more, body = d :: more ∧ quoted more = true := by
  cases body with
  | nil => simp [quoted] at inside
  | cons d more =>
      rw [quoted, if_pos rfl, Bool.and_eq_true] at inside
      exact ⟨d, more, rfl, inside.2⟩

theorem wp_copyString {post : Nat × Nat → Text → Prop} {body : Text} (inside : quoted body = true)
    {written gap rest : Text} {fuel json into : Nat} (enough : body.length < fuel)
    (reads : json = written.length + gap.length) (writes : into = written.length)
    (ends : ∀ gap', gap'.length = gap.length →
      post (json + body.length, into + body.length) ((written ++ body) ++ (gap' ++ 34 :: rest))) :
    wp (copyString fuel json into) post (written ++ (gap ++ (body ++ 34 :: rest))) := by
  induction fuel generalizing body json into written gap with
  | zero => omega
  | succ fuel ih =>
      rw [copyString]
      cases body with
      | nil =>
          have here := ends gap rfl
          rw [List.append_nil] at here
          apply wp_load reads
          rw [if_pos (.inr rfl)]
          exact here
      | cons c body =>
          simp only [List.length_cons, List.cons_append] at enough ends ⊢
          apply wp_load reads
          by_cases back : c = 92
          · subst back
            obtain ⟨d, more, rfl, later⟩ := quoted_backslash inside
            rw [if_neg (by decide), if_pos rfl]
            simp only [List.length_cons, List.cons_append] at enough ends ⊢
            apply wp_store writes
            intro gap₁ first
            apply wp_load (by simp [reads, first]; omega)
            apply wp_store (by simp [writes])
            intro gap₂ second
            apply ih later (by omega) (by simp [reads, first, second]; omega) (by simp [writes])
            intro gap₃ third
            have here := ends gap₃ (by omega)
            rw [Nat.add_assoc json, Nat.add_assoc into, Nat.add_comm 2]
            simpa using here
          · obtain ⟨quote, zero, later⟩ := quoted_plain back inside
            rw [if_neg (by simp [quote, zero]), if_neg back]
            apply wp_store writes
            intro gap₁ first
            apply ih later (by omega) (by simp [reads, first]; omega) (by simp [writes])
            intro gap₂ second
            have here := ends gap₂ (by omega)
            rw [Nat.add_assoc json, Nat.add_assoc into, Nat.add_comm 1]
            simpa using here

theorem wp_minifyLoop_space {post : Unit → Text → Prop} {c : UInt8} (white : c ∈ [9, 10, 13, 32])
    {written gap rest : Text} {fuel json into : Nat} (reads : json = written.length + gap.length)
    (next : wp (minifyLoop fuel (json + 1) into) post (written ++ ((gap ++ [c]) ++ rest))) :
    wp (minifyLoop (fuel + 1) json into) post (written ++ (gap ++ c :: rest)) := by
  have listed : c = 32 ∨ c = 9 ∨ c = 13 ∨ c = 10 := by
    simp only [List.mem_cons, List.not_mem_nil, or_false] at white
    tauto
  have nonzero : c ≠ 0 := by
    rintro rfl
    revert white
    decide
  rw [minifyLoop]
  apply wp_load reads
  rw [if_neg nonzero, if_pos listed, regroup]
  exact next

/-- One round of the loop reads a lexeme and writes what is kept of it. -/
theorem wp_minifyLoop_lexeme {post : Unit → Text → Prop} {lexeme : Lexeme} (valid : lexeme.valid = true)
    {written gap rest : Text} {fuel json into : Nat} (enough : (lexeme.text ++ rest).length < fuel)
    (reads : json = written.length + gap.length) (writes : into = written.length)
    (next : ∀ gap' fuel' json' into', rest.length < fuel' →
      gap'.length + lexeme.kept.length = gap.length + lexeme.text.length →
      json' = (written ++ lexeme.kept).length + gap'.length →
      into' = (written ++ lexeme.kept).length →
      wp (minifyLoop fuel' json' into') post ((written ++ lexeme.kept) ++ (gap' ++ rest))) :
    wp (minifyLoop fuel json into) post (written ++ (gap ++ (lexeme.text ++ rest))) := by
  obtain ⟨fuel, rfl⟩ : ∃ k, fuel = k + 1 := ⟨fuel - 1, by omega⟩
  rw [List.length_append] at enough
  cases lexeme with
  | byte c =>
      simp only [Lexeme.valid, List.mem_cons, List.not_mem_nil, or_false, not_or,
        decide_eq_true_eq] at valid
      obtain ⟨zero, tab, newline, feed, blank, quote, slash⟩ := valid
      simp only [Lexeme.text, Lexeme.kept, List.singleton_append, List.length_singleton] at enough next ⊢
      rw [minifyLoop]
      apply wp_load reads
      rw [if_neg zero, if_neg (by simp [tab, newline, feed, blank]), if_neg slash, if_neg quote]
      apply wp_store writes
      intro gap' same
      exact next gap' fuel _ _ (by omega) (by simp [same]) (by simp [reads, same]; omega)
        (by simp [writes])
  | space c =>
      simp only [Lexeme.valid, decide_eq_true_eq] at valid
      simp only [Lexeme.text, Lexeme.kept, List.singleton_append, List.append_nil,
        List.length_singleton] at enough next ⊢
      apply wp_minifyLoop_space valid reads
      exact next (gap ++ [c]) fuel _ _ (by omega) (by simp) (by simp [reads]; omega) writes
  | line body =>
      simp only [Lexeme.valid, Bool.and_eq_true, decide_eq_true_eq] at valid
      simp only [Lexeme.text, Lexeme.kept, List.cons_append, List.append_assoc, List.append_nil,
        List.nil_append, List.length_cons, List.length_append, List.length_nil] at enough next ⊢
      have inside : 0 ∉ 47 :: 47 :: body ∧ 10 ∉ 47 :: 47 :: body := by simp [valid.1, valid.2]
      rw [minifyLoop]
      apply wp_load reads
      rw [if_neg (by decide), if_neg (by decide), if_pos rfl, regroup]
      apply wp_load (by simp [reads]; omega)
      rw [if_pos rfl, ← regroup, wp_bind]
      apply wp_skipLine inside (by simp; omega) reads
      obtain ⟨fuel, rfl⟩ : ∃ k, fuel = k + 1 := ⟨fuel - 1, by omega⟩
      rw [← List.append_assoc gap]
      apply wp_minifyLoop_space (by decide) (by simp [reads]; omega)
      exact next _ fuel _ _ (by omega) (by simp) (by simp [reads]; omega) writes
  | comment body =>
      simp only [Lexeme.valid, Bool.and_eq_true, decide_eq_true_eq] at valid
      simp only [Lexeme.text, Lexeme.kept, List.cons_append, List.append_assoc, List.append_nil,
        List.nil_append, List.length_cons, List.length_append, List.length_nil] at enough next ⊢
      have opened : ∃ tail, body ++ 42 :: 47 :: rest = 42 :: tail := by
        have head := valid.2
        cases body with
        | nil => exact ⟨47 :: rest, rfl⟩
        | cons d body => exact ⟨body ++ 42 :: 47 :: rest, by simpa using head⟩
      have inside : commented (47 :: body) = true := by
        cases body with
        | nil => rfl
        | cons d body => simpa [commented] using valid.1
      obtain ⟨tail, star⟩ := opened
      rw [minifyLoop]
      apply wp_load reads
      rw [if_neg (by decide), if_neg (by decide), if_pos rfl, star, regroup]
      apply wp_load (by simp [reads]; omega)
      rw [if_neg (by decide), if_pos rfl, ← regroup, ← star, wp_bind]
      apply wp_skipComment inside (by simp; omega) reads
      have here := next (gap ++ (47 :: (body ++ [42, 47]))) fuel (json + (47 :: body).length + 2) into
        (by omega) (by simp) (by simp [reads]; omega) writes
      simpa using here
  | string body =>
      simp only [Lexeme.valid] at valid
      simp only [Lexeme.text, Lexeme.kept, List.cons_append, List.append_assoc, List.nil_append,
        List.length_cons, List.length_append, List.length_nil] at enough next ⊢
      rw [minifyLoop]
      apply wp_load reads
      rw [if_neg (by decide), if_neg (by decide), if_neg (by decide), if_pos rfl]
      apply wp_store writes
      intro gap₁ first
      rw [wp_bind]
      apply wp_copyString valid (by omega) (by simp [reads, first]; omega) (by simp [writes])
      intro gap₂ second
      apply wp_load (by simp [reads, first, second]; omega)
      apply wp_store (by simp [writes]; omega)
      intro gap₃ third
      have here := next gap₃ fuel (json + 1 + body.length + 1) (into + 1 + body.length + 1) (by omega)
        (by simp; omega) (by simp [reads, first, second, third]; omega) (by simp [writes]; omega)
      simpa using here

theorem wp_minifyLoop {post : Unit → Text → Prop} {lexemes : List Lexeme}
    (valid : ∀ lexeme ∈ lexemes, lexeme.valid = true) {written gap beyond : Text}
    {fuel json into : Nat} (enough : (lexemes.flatMap Lexeme.text ++ 0 :: beyond).length < fuel)
    (reads : json = written.length + gap.length) (writes : into = written.length)
    (ends : ∀ left, left.length + (lexemes.flatMap Lexeme.kept).length =
        gap.length + (lexemes.flatMap Lexeme.text).length →
      post () ((written ++ lexemes.flatMap Lexeme.kept) ++ 0 :: (left ++ beyond))) :
    wp (minifyLoop fuel json into) post
      (written ++ (gap ++ (lexemes.flatMap Lexeme.text ++ 0 :: beyond))) := by
  induction lexemes generalizing written gap fuel json into with
  | nil =>
      obtain ⟨fuel, rfl⟩ : ∃ k, fuel = k + 1 := ⟨fuel - 1, by simp at enough; omega⟩
      have unit : store into 0 = store into 0 >>= fun _ => pure () := (bind_pure_unit).symm
      rw [List.flatMap_nil, List.nil_append, minifyLoop]
      apply wp_load reads
      rw [if_pos rfl, unit]
      apply wp_store writes
      intro gap' same
      have here := ends gap' (by simp [same])
      simpa using here
  | cons lexeme lexemes ih =>
      rw [List.flatMap_cons, List.append_assoc] at enough ⊢
      apply wp_minifyLoop_lexeme (valid lexeme List.mem_cons_self) enough reads writes
      intro gap' fuel' json' into' left sizes reads' writes'
      apply ih (fun other inside => valid other (List.mem_cons_of_mem lexeme inside)) left reads' writes'
      intro left' total
      have here := ends left' (by simp only [List.flatMap_cons, List.length_append]; omega)
      simpa using here

/-- In the block of a text that is made of lexemes `cJSON_Minify` leaves those that are no white space
and no comments, and nothing behind the text is touched. -/
theorem run_minify (lexemes : List Lexeme) (valid : ∀ lexeme ∈ lexemes, lexeme.valid = true)
    (beyond : Text) :
    ∃ left, minify.run (lexemes.flatMap Lexeme.text ++ 0 :: beyond) =
        .ok ((), lexemes.flatMap Lexeme.kept ++ 0 :: (left ++ beyond)) ∧
      left.length + (lexemes.flatMap Lexeme.kept).length = (lexemes.flatMap Lexeme.text).length := by
  have returned : wp minify (fun _ block => ∃ left,
      block = lexemes.flatMap Lexeme.kept ++ 0 :: (left ++ beyond) ∧
        left.length + (lexemes.flatMap Lexeme.kept).length = (lexemes.flatMap Lexeme.text).length)
      (lexemes.flatMap Lexeme.text ++ 0 :: beyond) := by
    have loop := @wp_minifyLoop (fun _ block => ∃ left,
      block = lexemes.flatMap Lexeme.kept ++ 0 :: (left ++ beyond) ∧
        left.length + (lexemes.flatMap Lexeme.kept).length = (lexemes.flatMap Lexeme.text).length)
      lexemes valid [] [] beyond _ 0 0 (Nat.lt_succ_self _) rfl rfl
    apply loop
    intro left total
    exact ⟨left, rfl, by simpa using total⟩
  obtain ⟨_, _, ran, left, rfl, total⟩ := (wp_iff_run _ _ _).mp returned
  exact ⟨left, ran, total⟩

def Lexed (text short : Text) : Prop :=
  ∃ lexemes : List Lexeme, (∀ lexeme ∈ lexemes, lexeme.valid = true) ∧
    lexemes.flatMap Lexeme.text = text ∧ lexemes.flatMap Lexeme.kept = short

theorem lexed_nil : Lexed [] [] := ⟨[], fun _ inside => absurd inside List.not_mem_nil, rfl, rfl⟩

theorem Lexed.append {front back short rest : Text} (first : Lexed front short)
    (second : Lexed back rest) : Lexed (front ++ back) (short ++ rest) := by
  obtain ⟨xs, valid, rfl, rfl⟩ := first
  obtain ⟨ys, valid', rfl, rfl⟩ := second
  refine ⟨xs ++ ys, ?_, List.flatMap_append, List.flatMap_append⟩
  intro lexeme inside
  rcases List.mem_append.1 inside with before | after
  · exact valid lexeme before
  · exact valid' lexeme after

theorem lexed_one (lexeme : Lexeme) (valid : lexeme.valid = true) : Lexed lexeme.text lexeme.kept := by
  refine ⟨[lexeme], ?_, by simp, by simp⟩
  intro other inside
  rw [List.mem_singleton.1 inside]
  exact valid

theorem lexed_bytes {text : Text} (plain : ∀ c ∈ text, c ∉ [0, 9, 10, 13, 32, 34, 47]) :
    Lexed text text := by
  induction text with
  | nil => exact lexed_nil
  | cons c text ih =>
      have first : (Lexeme.byte c).valid = true := decide_eq_true (plain c List.mem_cons_self)
      exact (lexed_one _ first).append (ih fun d inside => plain d (List.mem_cons_of_mem c inside))

theorem lexed_byte {c : UInt8} (plain : c ∉ [0, 9, 10, 13, 32, 34, 47]) {text short : Text}
    (rest : Lexed text short) : Lexed (c :: text) (c :: short) :=
  (lexed_one (.byte c) (decide_eq_true plain)).append rest

theorem lexed_space {gap : Text} (white : ∀ c ∈ gap, c ∈ [9, 10, 13, 32]) : Lexed gap [] := by
  induction gap with
  | nil => exact lexed_nil
  | cons c gap ih =>
      have first : (Lexeme.space c).valid = true := decide_eq_true (white c List.mem_cons_self)
      exact (lexed_one _ first).append (ih fun d inside => white d (List.mem_cons_of_mem c inside))

theorem lexed_tabs (depth : Nat) : Lexed (List.replicate depth 9) [] := by
  apply lexed_space
  intro c inside
  rw [List.eq_of_mem_replicate inside]
  decide

theorem quoted_cons {c : UInt8} (plain : c ≠ 34 ∧ c ≠ 0 ∧ c ≠ 92) (body : Text) :
    quoted (c :: body) = quoted body := by
  obtain ⟨quote, zero, back⟩ := plain
  cases body with
  | nil => simp [quoted, quote, zero, back]
  | cons d body => simp [quoted, quote, zero, back]

theorem quoted_escape {c : UInt8} (nonzero : c ≠ 0) (body : Text) :
    quoted (escape c ++ body) = quoted body := by
  rw [escape]
  split
  · next plain => exact quoted_cons ⟨plain.2.1, nonzero, plain.2.2⟩ body
  · next special =>
      rw [escapeTail]
      cases found : escapeLetter c with
      | some letter =>
          have other : letter ≠ 0 := by
            have table := unescape_letter c
            rw [found] at table
            simp only [Option.all_some, Bool.and_eq_true, decide_eq_true_eq] at table
            rintro rfl
            exact nonzero table.2.symm
          change quoted (92 :: letter :: body) = _
          simp [quoted, other]
      | none =>
          have small := small_of_escaped special found
          have digit : ∀ k < 16, hexDigit k ≠ 34 ∧ hexDigit k ≠ 0 ∧ hexDigit k ≠ 92 :=
            fun k less => hex_plain _ (by rw [hexValue_hexDigit less]; rfl)
          have zero : (48 : UInt8) ≠ 34 ∧ (48 : UInt8) ≠ 0 ∧ (48 : UInt8) ≠ 92 := by decide
          change quoted (92 :: 117 :: 48 :: 48 :: hexDigit (c.toNat / 16) ::
            hexDigit (c.toNat % 16) :: body) = _
          rw [quoted, if_pos rfl, quoted_cons zero, quoted_cons zero, quoted_cons (digit _ (by omega)),
            quoted_cons (digit _ (by omega))]
          rfl

theorem lexed_string (str : Option Text) : Lexed (stringText str) (stringText str) := by
  cases str with
  | none => exact lexed_nil
  | some str =>
      have body : quoted (escaped str) = true := by
        induction str with
        | nil => rfl
        | cons c str ih =>
            rw [escaped]
            split
            · rfl
            · next nonzero => rw [quoted_escape nonzero, ih]
      exact lexed_one (.string (escaped str)) body

theorem lexed_array (depth : Nat) {chain : List Item}
    (each : ∀ c ∈ chain, Lexed (c.text depth true) (c.text depth false)) :
    Lexed (arrayBody true (texts chain depth true)) (arrayBody false (texts chain depth false)) := by
  induction chain with
  | nil => exact lexed_nil
  | cons c next ih =>
      have rest := ih fun d inside => each d (List.mem_cons_of_mem c inside)
      have blank : Lexed [32] [] := lexed_space (by decide +kernel)
      have comma : Lexed [44, 32] [44] := lexed_byte (by decide) blank
      rw [texts, texts, arrayBody, arrayBody]
      apply (each c List.mem_cons_self).append
      cases next with
      | nil => exact lexed_nil
      | cons d next => exact comma.append rest

theorem lexed_object (depth : Nat) {chain : List Item}
    (each : ∀ c ∈ chain, Lexed (c.text depth true) (c.text depth false)) :
    Lexed (objectBody depth true (fieldTexts chain depth true))
      (objectBody depth false (fieldTexts chain depth false)) := by
  induction chain with
  | nil => exact lexed_nil
  | cons c next ih =>
      have rest := ih fun d inside => each d (List.mem_cons_of_mem c inside)
      have newline : Lexed [10] [] := lexed_space (by decide +kernel)
      have comma : Lexed (if (fieldTexts next depth true).isEmpty then [] else [44])
          (if (fieldTexts next depth false).isEmpty then [] else [44]) := by
        cases next with
        | nil => exact lexed_nil
        | cons d next => exact lexed_byte (by decide) lexed_nil
      rw [fieldTexts, fieldTexts, objectBody, objectBody]
      apply (lexed_tabs depth).append
      apply (lexed_string c.name).append
      apply lexed_byte (by decide)
      apply (lexed_tabs 1).append
      apply (each c List.mem_cons_self).append
      apply comma.append
      exact newline.append rest

theorem lexed_text (item : Item) : ∀ depth, Lexed (item.text depth true) (item.text depth false) := by
  induction item using Item.induction with
  | step item below =>
      intro depth
      obtain ⟨block, type, isReference, valuestring, valueint, valuedouble, string, child⟩ := item
      change ∀ c ∈ child, _ at below
      cases type with
      | NULL =>
          rw [Item.text, Item.text]
          exact lexed_bytes (by decide +kernel)
      | False =>
          rw [Item.text, Item.text]
          exact lexed_bytes (by decide +kernel)
      | True =>
          rw [Item.text, Item.text]
          exact lexed_bytes (by decide +kernel)
      | Number =>
          apply lexed_bytes
          intro c inside special
          apply numberText_bytes inside
          revert special
          simp only [List.mem_cons, List.not_mem_nil, or_false]
          tauto
      | String => exact lexed_string (valuestring.map Str.text)
      | Array =>
          have body := lexed_array (depth + 1) fun c inside => below c inside (depth + 1)
          exact lexed_byte (by decide) (body.append (lexed_byte (by decide) lexed_nil))
      | Object =>
          have body := lexed_object (depth + 1) fun c inside => below c inside (depth + 1)
          have close : Lexed [125] [125] := lexed_byte (by decide) lexed_nil
          have newline : Lexed [10] [] := lexed_space (by decide +kernel)
          cases child with
          | nil => exact lexed_byte (by decide) ((newline.append (lexed_tabs (depth - 1))).append close)
          | cons c next =>
              exact lexed_byte (by decide) (newline.append (body.append ((lexed_tabs depth).append close)))

theorem run_print {item : Item} {fmt : Bool} {s t : Env} {str : Str}
    (small : 2 * (item.text 0 fmt).length + 6 < 2 ^ 31)
    (printed : (printValue item 0 fmt).run s = .ok (some str, t)) : str.text = item.text 0 fmt := by
  have prints := prints_value item 0 fmt small s
  rw [wp_of_run printed] at prints
  rcases prints.2 with ⟨block, same, _⟩ | ⟨none, _⟩
  · cases same
    rfl
  · cases none

/-- `cJSON_Minify` makes what `cJSON_PrintUnformatted` returns out of what `cJSON_Print` returns, in
its block and without a look behind it. -/
theorem minify_print (item : Item) (s t s' t' : Env) (long short : Str) (beyond : Text)
    (small : 2 * (item.text 0 true).length + 6 < 2 ^ 31)
    (printed : (print item).run s = .ok (some long, t))
    (unformatted : (printUnformatted item).run s' = .ok (some short, t')) :
    ∃ left, minify.run (long.text ++ 0 :: beyond) = .ok ((), short.text ++ 0 :: (left ++ beyond)) ∧
      left.length + short.text.length = long.text.length := by
  obtain ⟨lexemes, valid, whole, kept⟩ := lexed_text item 0
  obtain ⟨left, ran, sizes⟩ := run_minify lexemes valid beyond
  rw [whole, kept] at ran sizes
  rw [run_print small printed, run_print (by omega) unformatted]
  exact ⟨left, ran, sizes⟩

theorem minify_print_pair :
    ∃ left, minify.run (ascii "[null, false]".toList ++ 0 :: []) =
        .ok ((), ascii "[null,false]".toList ++ 0 :: (left ++ [])) ∧
      left.length + (ascii "[null,false]".toList).length = (ascii "[null, false]".toList).length :=
  minify_print { blank 0 with type := .Array, child := [{ blank 1 with type := .NULL }, blank 2] }
    (holding (fun _ _ => true) 3) ⟨fun _ _ => true, 7, 0, {6, 0, 1, 2}, by decide, by decide, none⟩
    (holding (fun _ _ => true) 3) ⟨fun _ _ => true, 7, 0, {6, 0, 1, 2}, by decide, by decide, none⟩
    ⟨6, ascii "[null, false]".toList⟩ ⟨6, ascii "[null,false]".toList⟩ []
    (by decide +kernel) (by rfl) (by rfl)

end DataStructure.CJson
