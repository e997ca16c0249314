import DataStructure.Lib.Regex

/-! `WebUrl::Request` of `test/param.c`, which looks up a parameter of an address. -/

namespace DataStructure.Param

open Regex

structure WebUrl where
  url : List Char

/-- `none` for a `request` that makes a pattern outside the modelled ones. -/
def WebUrl.request (web : WebUrl) (request : List Char) : Option (List Char) := do
  let several ← compile (request ++ ['=', '(', '.', '*', '?', ')', '&'])
  match several.search web.url with
  | some result => some (result.sub 1)
  | none => do
      let single ← compile (request ++ ['=', '(', '.', '*', ')'])
      match single.search web.url with
      | some result => some (result.sub 1)
      | none => some []

def Alnum (text : List Char) : Prop := ∀ c ∈ text, c.isAlphanum = true

structure Parameter where
  key : List Char
  value : List Char
  key_alnum : Alnum key
  value_alnum : Alnum value
  key_ne_nil : key ≠ []
  value_ne_nil : value ≠ []

def Parameter.text (p : Parameter) : List Char := p.key ++ '=' :: p.value

/-- `base?k1=v1&...&kn=vn` -/
structure Address where
  base : List Char
  params : List Parameter
  no_equals : '=' ∉ base
  no_and : '&' ∉ base
  params_ne_nil : params ≠ []
  distinct : (params.map Parameter.key).Nodup

def Address.text (a : Address) : List Char :=
  a.base ++ '?' :: List.intercalate ['&'] (a.params.map Parameter.text)

/-- The value for each key, and the empty string for a text that is no key. -/
def Answers (a : Address) (k : List Char) : Prop :=
  (∀ p ∈ a.params, p.key = k → WebUrl.request ⟨a.text⟩ k = some p.value) ∧
    ((∀ p ∈ a.params, p.key ≠ k) → WebUrl.request ⟨a.text⟩ k = some [])

def more : List Parameter → List Char
  | [] => []
  | p :: params => '&' :: (p.key ++ '=' :: (p.value ++ more params))

theorem intercalate_text (p : Parameter) (params : List Parameter) :
    List.intercalate ['&'] ((p :: params).map Parameter.text) =
      p.key ++ '=' :: (p.value ++ more params) := by
  induction params generalizing p with
  | nil => simp [List.intercalate, Parameter.text, more]
  | cons q params ih =>
      have rest := ih q
      rw [List.map_cons] at rest
      rw [List.map_cons, List.map_cons, List.intercalate_cons_cons, rest]
      simp [Parameter.text, more]

theorem Alnum.not_mem {text : List Char} {c : Char} (alnum : Alnum text) (other : c.isAlphanum = false) :
    c ∉ text := by
  intro inside
  rw [alnum c inside] at other
  cases other

theorem Alnum.avoids {text others : List Char} (alnum : Alnum text)
    (outside : others.all (fun c => !c.isAlphanum) = true) : ∀ c ∈ text, c ∉ others := by
  intro c inside mark
  have apart : (!c.isAlphanum) = true := List.all_eq_true.mp outside c mark
  rw [alnum c inside] at apart
  cases apart

def severalTail : Pattern := .seq (.group 1 (.seq (.star false .any) .empty)) (.seq (.char '&') .empty)

def singleTail : Pattern := .seq (.group 1 (.seq (.star true .any) .empty)) .empty

def keyPattern (k : List Char) (tail : Pattern) : Pattern := literal (k ++ ['=']) tail

section Tails

variable {k text rest : List Char}

theorem Alnum.literal (alnum : Alnum k) : ∀ c ∈ k ++ ['='], c ∉ operators := by
  intro c inside
  rcases List.mem_append.mp inside with word | mark
  · exact alnum.avoids (by decide) c word
  · rw [List.mem_singleton.mp mark]
    decide

theorem compile_several (alnum : Alnum k) :
    compile (k ++ ['=', '(', '.', '*', '?', ')', '&']) = some (keyPattern k severalTail) := by
  have read : compile (k ++ ['='] ++ ['(', '.', '*', '?', ')', '&']) =
      some (literal (k ++ ['='])
        (sequence [.char '&', .group 1 (.seq (.star false .any) .empty)])) :=
    compile_literal 1 alnum.literal (fun _ => rfl)
  rw [List.append_assoc] at read
  exact read

theorem compile_single (alnum : Alnum k) :
    compile (k ++ ['=', '(', '.', '*', ')']) = some (keyPattern k singleTail) := by
  have read : compile (k ++ ['='] ++ ['(', '.', '*', ')']) =
      some (literal (k ++ ['=']) (sequence [.group 1 (.seq (.star true .any) .empty)])) :=
    compile_literal 1 alnum.literal (fun _ => rfl)
  rw [List.append_assoc] at read
  exact read

def captured (text : List Char) (u : Thread) : Thread :=
  { u with captures := (1, text.take (text.length - u.rest.length)) :: u.captures }

theorem runs_group (greedy : Bool) :
    (Pattern.group 1 (.seq (.star greedy .any) .empty)).runs ⟨text, []⟩ =
      (iterate dotRound greedy text.length ⟨text, []⟩).map (captured text) := by
  rw [Pattern.runs, Pattern.runs, runs_dots]
  simp only [Pattern.runs, List.flatMap_singleton']
  rfl

theorem head_severalTail :
    (severalTail.runs ⟨text, []⟩).head? =
      (iterate dotRound false text.length ⟨text, []⟩).findSome? fun u =>
        ((captured text u).consume (· = '&')).head? := by
  rw [severalTail, Pattern.runs, runs_group, List.head?_flatMap, List.findSome?_map]
  simp only [Pattern.runs, List.flatMap_singleton']
  rfl

theorem severalTail_value (alnum : Alnum text) :
    (severalTail.runs ⟨text ++ '&' :: rest, []⟩).head? = some ⟨rest, [(1, text)]⟩ := by
  have ends : ((captured (text ++ '&' :: rest) ⟨'&' :: rest, []⟩).consume (· = '&')).head? =
      some ⟨rest, [(1, text)]⟩ := by
    simp [captured, Thread.consume]
  rw [head_severalTail, iterate_lazy, ends]
  · exact alnum.avoids (by decide)
  · simp
  · intro s inside nonempty
    cases s with
    | nil => exact absurd rfl nonempty
    | cons c s =>
        have other : c ≠ '&' := by
          intro same
          have word := alnum c (inside.subset List.mem_cons_self)
          rw [same] at word
          exact absurd word (by decide)
        simp [captured, Thread.consume, other]
  · rw [ends]
    rfl

theorem severalTail_none (absent : '&' ∉ text) : (severalTail.runs ⟨text, []⟩).head? = none := by
  rw [head_severalTail, List.findSome?_eq_none_iff]
  intro u inside
  have ends := iterate_suffix inside
  unfold captured Thread.consume
  cases shape : u.rest with
  | nil => rfl
  | cons c rest =>
      have other : c ≠ '&' := by
        intro same
        rw [shape] at ends
        exact absent (ends.subset (same ▸ List.mem_cons_self))
      simp [other]

theorem singleTail_value (alnum : Alnum text) :
    (singleTail.runs ⟨text, []⟩).head? = some ⟨[], [(1, text)]⟩ := by
  have dots : ∀ c ∈ text, c ∉ lineTerminators := alnum.avoids (by decide)
  rw [singleTail, Pattern.runs, runs_group]
  simp only [Pattern.runs, List.flatMap_singleton']
  rw [List.head?_map, iterate_greedy dots]
  simp [captured]

end Tails

section Searches

variable {k : List Char}

/-- The first parameter whose key ends with `k` and whose value the rest of the pattern accepts. -/
def firstRun (k : List Char) (tail : Pattern) : List Parameter → Option Thread
  | [] => none
  | p :: params =>
      (if k <:+ p.key then (tail.runs ⟨p.value ++ more params, []⟩).head? else none).or
        (firstRun k tail params)

theorem search_param (alnum : Alnum k) (tail : Pattern) (p : Parameter) (rest : List Char)
    {front : List Char} {mark : Char} (free : '=' ∉ front) (outside : mark.isAlphanum = false)
    (other : '=' ≠ mark) :
    (keyPattern k tail).search (front ++ mark :: (p.key ++ '=' :: rest)) =
      (if k <:+ p.key then (tail.runs ⟨rest, []⟩).head? else none).or
        ((keyPattern k tail).search rest) := by
  have apart : '=' ∉ front ++ mark :: p.key := by
    rw [List.mem_append, List.mem_cons]
    intro inside
    rcases inside with inFront | isMark | inKey
    · exact free inFront
    · exact other isMark
    · exact p.key_alnum.not_mem (by decide) inKey
  have step := search_stop tail rest (alnum.not_mem (by decide)) apart
  simp only [suffix_behind (alnum.not_mem outside)] at step
  rw [List.append_assoc, List.cons_append] at step
  exact step

theorem search_params (alnum : Alnum k) (tail : Pattern) (p : Parameter) (params : List Parameter)
    {front : List Char} {mark : Char} (free : '=' ∉ front) (outside : mark.isAlphanum = false)
    (other : '=' ≠ mark) :
    (keyPattern k tail).search (front ++ mark :: (p.key ++ '=' :: (p.value ++ more params))) =
      firstRun k tail (p :: params) := by
  have clean (q : Parameter) : '=' ∉ q.value := q.value_alnum.not_mem (by decide)
  induction params generalizing p front mark with
  | nil =>
      have nothing : (keyPattern k tail).search (p.value ++ more []) = none := by
        rw [more, List.append_nil]
        exact search_stop_none tail (clean p)
      rw [search_param alnum tail p _ free outside other, nothing, firstRun, firstRun]
  | cons q params ih =>
      have later := ih q (clean p) (by decide : '&'.isAlphanum = false) (by decide)
      rw [search_param alnum tail p _ free outside other, firstRun, ← later]
      rfl

/-- The first search misses the last parameter, which has no `&` behind it. -/
theorem firstRun_several (k : List Char) (params : List Parameter) :
    (firstRun k severalTail params).map (Thread.sub · 1) =
      (params.dropLast.find? fun p => k <:+ p.key).map Parameter.value := by
  induction params with
  | nil => rfl
  | cons p params ih =>
      cases params with
      | nil =>
          have absent : '&' ∉ p.value ++ more [] := by
            rw [more, List.append_nil]
            exact p.value_alnum.not_mem (by decide)
          rw [firstRun, severalTail_none absent, ite_self]
          rfl
      | cons q params =>
          have here : (severalTail.runs ⟨p.value ++ more (q :: params), []⟩).head? =
              some ⟨q.key ++ '=' :: (q.value ++ more params), [(1, p.value)]⟩ := by
            rw [more]
            exact severalTail_value p.value_alnum
          rw [firstRun, here, List.dropLast_cons_cons, List.find?_cons]
          by_cases ends : k <:+ p.key
          · simp [ends, Thread.sub]
          · simp [ends, ih]

theorem firstRun_single (k : List Char) (params : List Parameter)
    (missed : (params.dropLast.find? fun p => k <:+ p.key) = none) :
    (firstRun k singleTail params).map (Thread.sub · 1) =
      (params.find? fun p => k <:+ p.key).map Parameter.value := by
  induction params with
  | nil => rfl
  | cons p params ih =>
      cases params with
      | nil =>
          have here : (singleTail.runs ⟨p.value ++ more [], []⟩).head? = some ⟨[], [(1, p.value)]⟩ := by
            rw [more, List.append_nil]
            exact singleTail_value p.value_alnum
          rw [firstRun, here, firstRun]
          by_cases ends : k <:+ p.key <;> simp [ends, Thread.sub]
      | cons q params =>
          rw [List.dropLast_cons_cons, List.find?_cons] at missed
          by_cases ends : k <:+ p.key
          · simp [ends] at missed
          · simp only [ends, decide_false] at missed
            have later := ih missed
            rw [firstRun]
            simp [ends, later]

end Searches

section Result

variable (a : Address) {k : List Char}

theorem search_address (alnum : Alnum k) (tail : Pattern) :
    (keyPattern k tail).search a.text = firstRun k tail a.params := by
  obtain ⟨p, params, shape⟩ := List.exists_cons_of_ne_nil a.params_ne_nil
  rw [Address.text, shape, intercalate_text]
  exact search_params alnum tail p params a.no_equals (by decide) (by decide)

theorem find_of_dropLast {params : List Parameter} {p : Parameter} {ends : Parameter → Bool}
    (found : params.dropLast.find? ends = some p) : params.find? ends = some p := by
  have nonempty : params ≠ [] := by
    intro empty
    rw [empty] at found
    cases found
  rw [← List.dropLast_append_getLast nonempty, List.find?_append, found]
  rfl

/-- The value of the first parameter whose key ends with `k`. -/
theorem request_eq (alnum : Alnum k) :
    WebUrl.request ⟨a.text⟩ k =
      some (((a.params.find? fun p => k <:+ p.key).map Parameter.value).getD []) := by
  have several := firstRun_several k a.params
  rw [← search_address a alnum] at several
  rw [WebUrl.request, compile_several alnum, Option.bind_eq_bind, Option.bind_some]
  cases first : (keyPattern k severalTail).search a.text with
  | some result =>
      rw [first, Option.map_some] at several
      obtain ⟨p, found, same⟩ := Option.map_eq_some_iff.mp several.symm
      rw [find_of_dropLast found]
      simp [same]
  | none =>
      rw [first, Option.map_none] at several
      have single := firstRun_single k a.params (Option.map_eq_none_iff.mp several.symm)
      rw [← search_address a alnum] at single
      dsimp only
      rw [compile_single alnum, Option.bind_some, ← single]
      cases (keyPattern k singleTail).search a.text <;> rfl

/-- `Request` is right for `k` exactly if the first parameter whose key ends with `k` has the value
of the parameter `k`; such a parameter ahead of it, or without it, is answered instead. -/
theorem request_answers_iff (alnum : Alnum k) :
    Answers a k ↔ ∀ p, (a.params.find? fun p => k <:+ p.key) = some p →
      ∃ own ∈ a.params, own.key = k ∧ own.value = p.value := by
  have result := request_eq a alnum
  constructor
  · intro answers p first
    rw [first, Option.map_some, Option.getD_some] at result
    by_contra missing
    have absent : ∀ own ∈ a.params, own.key ≠ k := by
      intro own inside same
      have value := answers.1 own inside same
      rw [result, Option.some.injEq] at value
      exact missing ⟨own, inside, same, value.symm⟩
    have empty := answers.2 absent
    rw [result, Option.some.injEq] at empty
    exact p.value_ne_nil empty
  · intro agrees
    constructor
    · intro own inside same
      cases first : a.params.find? fun p => k <:+ p.key with
      | none =>
          have ends := List.find?_eq_none.mp first own inside
          simp [same] at ends
      | some p =>
          obtain ⟨other, present, key, value⟩ := agrees p first
          have unique : other = own :=
            List.inj_on_of_nodup_map a.distinct present inside (key.trans same.symm)
          rw [result, first, Option.map_some, Option.getD_some, ← value, unique]
    · intro absent
      cases first : a.params.find? fun p => k <:+ p.key with
      | none => rw [result, first, Option.map_none, Option.getD_none]
      | some p =>
          obtain ⟨own, inside, key, _⟩ := agrees p first
          exact absurd key (absent own inside)

end Result

def endingKeys : Address where
  base := ['b']
  params :=
    [⟨['a', 'b'], ['1'], by simp [Alnum], by simp [Alnum], by simp, by simp⟩,
     ⟨['b'], ['2'], by simp [Alnum], by simp [Alnum], by simp, by simp⟩]
  no_equals := by simp
  no_and := by simp
  params_ne_nil := by simp
  distinct := by simp

theorem request_answers_first : Answers endingKeys ['a', 'b'] := by
  apply (request_answers_iff endingKeys (by simp [Alnum])).mpr
  intro p first
  have same : endingKeys.params[0] = p := Option.some.inj first
  exact ⟨endingKeys.params[0], List.getElem_mem _, rfl, congrArg Parameter.value same⟩

theorem not_answers_ending_key : ¬Answers endingKeys ['b'] := by
  intro answers
  have value := answers.1 endingKeys.params[1] (List.getElem_mem _) rfl
  rw [request_eq endingKeys (by simp [Alnum])] at value
  revert value
  decide

end DataStructure.Param
