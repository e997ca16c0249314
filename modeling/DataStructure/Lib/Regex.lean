import DataStructure.Lib.CText

/-! Regular expressions with priorities, as ECMAScript matches them.

The ways to match are a list with the preferred one first. A repetition is greedy or lazy by where
it puts the way that stops. -/

namespace DataStructure.Regex

inductive Pattern where
  | empty
  | char (c : Char)
  | any
  | seq (first second : Pattern)
  | star (greedy : Bool) (body : Pattern)
  | group (index : Nat) (body : Pattern)
  deriving DecidableEq, Repr

/-- A partial match: the text behind it and the groups, with the latest capture of each first. -/
structure Thread where
  rest : List Char
  captures : List (Nat × List Char)
  deriving DecidableEq, Repr

/-- `result[n]`, which is empty for a group that did not take part. -/
def Thread.sub (t : Thread) (n : Nat) : List Char := (t.captures.lookup n).getD []

def Thread.consume (t : Thread) (accepts : Char → Bool) : List Thread :=
  match t.rest with
  | [] => []
  | c :: rest => if accepts c then [{ t with rest }] else []

def lineTerminators : List Char := ['\n', '\r', '\u2028', '\u2029']

def Pattern.groups : Pattern → List Nat
  | .empty | .char _ | .any => []
  | .seq first second => first.groups ++ second.groups
  | .star _ body => body.groups
  | .group index body => index :: body.groups

def iterate (round : Thread → List Thread) (greedy : Bool) : Nat → Thread → List Thread
  | 0, t => [t]
  | fuel + 1, t =>
      let more := ((round t).filter fun u => u.rest.length < t.rest.length).flatMap
        (iterate round greedy fuel)
      if greedy then more ++ [t] else t :: more

def Pattern.runs : Pattern → Thread → List Thread
  | .empty, t => [t]
  | .char c, t => t.consume (· = c)
  | .any, t => t.consume (· ∉ lineTerminators)
  | .seq first second, t => (first.runs t).flatMap second.runs
  | .star greedy body, t =>
      -- A round forgets what the groups of the body took in the round before.
      let round (t : Thread) := body.runs { t with captures := t.captures.filter (·.1 ∉ body.groups) }
      iterate round greedy t.rest.length t
  | .group index body, t =>
      (body.runs t).map fun u =>
        { u with captures := (index, t.rest.take (t.rest.length - u.rest.length)) :: u.captures }

/-- `regex_search`: the preferred match at the leftmost place that has one. -/
def Pattern.search (r : Pattern) : List Char → Option Thread
  | [] => (r.runs ⟨[], []⟩).head?
  | c :: text => (r.runs ⟨c :: text, []⟩).head?.or (r.search text)

def operators : List Char :=
  ['^', '$', '\\', '.', '*', '+', '?', '(', ')', '[', ']', '\x7b', '\x7d', '|']

/-- A pattern read in part: the items of the innermost open group, latest first, and for every open
group its number and the items in front of it. -/
structure Compiler where
  items : List Pattern
  outer : List (Nat × List Pattern)
  groups : Nat

def sequence (items : List Pattern) : Pattern := items.foldl (fun behind item => .seq item behind) .empty

/-- The operators other than `.`, `*`, `*?` and the group are left out. -/
def Compiler.operator (s : Compiler) (c : Char) : Option Compiler :=
  match c, s.items, s.outer with
  | '.', items, _ => some { s with items := .any :: items }
  | '(', items, outer => some ⟨[], (s.groups + 1, items) :: outer, s.groups + 1⟩
  | ')', items, (index, front) :: outer =>
      some { s with items := .group index (sequence items) :: front, outer }
  | '*', .star _ _ :: _, _ => none
  | '*', item :: items, _ => some { s with items := .star true item :: items }
  | '?', .star true item :: items, _ => some { s with items := .star false item :: items }
  | _, _, _ => none

def Compiler.step (s : Compiler) (c : Char) : Option Compiler :=
  if c ∈ operators then s.operator c else some { s with items := .char c :: s.items }

def compile (pattern : List Char) : Option Pattern := do
  let s ← pattern.foldlM Compiler.step ⟨[], [], 0⟩
  if s.outer = [] then some (sequence s.items) else none

def literal (text : List Char) (behind : Pattern) : Pattern :=
  text.foldr (fun c behind => .seq (.char c) behind) behind

theorem foldlM_literal {text : List Char} (plain : ∀ c ∈ text, c ∉ operators) (s : Compiler) :
    text.foldlM Compiler.step s = some { s with items := (text.map Pattern.char).reverse ++ s.items } := by
  induction text generalizing s with
  | nil => rfl
  | cons c text ih =>
      have first : s.step c = some { s with items := .char c :: s.items } := by
        rw [Compiler.step, if_neg (plain c List.mem_cons_self)]
      have rest := ih (fun d inside => plain d (List.mem_cons_of_mem c inside))
        { s with items := .char c :: s.items }
      rw [List.foldlM_cons, first, Option.bind_eq_bind, Option.bind_some, rest]
      simp

theorem compile_literal {text pattern : List Char} {items : List Pattern} (groups : Nat)
    (plain : ∀ c ∈ text, c ∉ operators)
    (behind : ∀ front, pattern.foldlM Compiler.step ⟨front, [], 0⟩ = some ⟨items ++ front, [], groups⟩) :
    compile (text ++ pattern) = some (literal text (sequence items)) := by
  have shape : sequence (items ++ (text.map Pattern.char).reverse) = literal text (sequence items) := by
    rw [sequence, List.foldl_append, List.foldl_reverse, List.foldr_map]
    rfl
  rw [compile, List.foldlM_append, foldlM_literal plain]
  simp only [List.append_nil, Option.bind_eq_bind, Option.bind_some, behind, if_true, shape]

theorem runs_literal (text rest : List Char) (behind : Pattern) (captures : List (Nat × List Char)) :
    (literal text behind).runs ⟨text ++ rest, captures⟩ = behind.runs ⟨rest, captures⟩ := by
  induction text with
  | nil => rfl
  | cons c text ih =>
      have taken : (Pattern.char c).runs ⟨c :: text ++ rest, captures⟩ = [⟨text ++ rest, captures⟩] := by
        simp [Pattern.runs, Thread.consume]
      change ((Pattern.char c).runs ⟨c :: text ++ rest, captures⟩).flatMap (literal text behind).runs = _
      rw [taken, List.flatMap_singleton, ih]

theorem runs_literal_nil {text whole : List Char} (behind : Pattern) (captures : List (Nat × List Char))
    (other : ¬text <+: whole) : (literal text behind).runs ⟨whole, captures⟩ = [] := by
  induction text generalizing whole with
  | nil => exact absurd List.nil_prefix other
  | cons c text ih =>
      change ((Pattern.char c).runs ⟨whole, captures⟩).flatMap (literal text behind).runs = _
      cases whole with
      | nil => rfl
      | cons d whole =>
          by_cases same : d = c
          · have later : ¬text <+: whole := by
              intro inside
              exact other (List.cons_prefix_cons.mpr ⟨same.symm, inside⟩)
            simp [Pattern.runs, Thread.consume, same, ih later]
          · simp [Pattern.runs, Thread.consume, same]

section Dot

variable {text : List Char} {captures : List (Nat × List Char)}

def dotRound (t : Thread) : List Thread := t.consume (· ∉ lineTerminators)

theorem runs_dots (greedy : Bool) (t : Thread) :
    (Pattern.star greedy .any).runs t = iterate dotRound greedy t.rest.length t := by
  have round : (fun t : Thread => Pattern.any.runs
      { t with captures := t.captures.filter (·.1 ∉ Pattern.any.groups) }) = dotRound := by
    funext t
    simp [Pattern.runs, Pattern.groups, dotRound]
  rw [Pattern.runs, round]

theorem iterate_dot (greedy : Bool) (fuel : Nat) {c : Char} (dot : c ∉ lineTerminators) :
    iterate dotRound greedy (fuel + 1) ⟨c :: text, captures⟩ =
      if greedy then iterate dotRound greedy fuel ⟨text, captures⟩ ++ [⟨c :: text, captures⟩]
      else ⟨c :: text, captures⟩ :: iterate dotRound greedy fuel ⟨text, captures⟩ := by
  simp [iterate, dotRound, Thread.consume, dot]

/-- A greedy repetition prefers to take the whole text. -/
theorem iterate_greedy (dots : ∀ c ∈ text, c ∉ lineTerminators) :
    (iterate dotRound true text.length ⟨text, captures⟩).head? = some ⟨[], captures⟩ := by
  induction text with
  | nil => rfl
  | cons c text ih =>
      have first := ih (fun d inside => dots d (List.mem_cons_of_mem c inside))
      rw [List.length_cons, iterate_dot true _ (dots c List.mem_cons_self), if_pos rfl,
        List.head?_append, first]
      rfl

/-- A lazy repetition ends at the first place where what follows succeeds. -/
theorem iterate_lazy {β : Type} {follow : Thread → Option β} {front : List Char} {fuel : Nat}
    (dots : ∀ c ∈ front, c ∉ lineTerminators) (enough : front.length ≤ fuel)
    (fails : ∀ s, s <:+ front → s ≠ [] → follow ⟨s ++ text, captures⟩ = none)
    (succeeds : (follow ⟨text, captures⟩).isSome) :
    (iterate dotRound false fuel ⟨front ++ text, captures⟩).findSome? follow =
      follow ⟨text, captures⟩ := by
  obtain ⟨found, here⟩ := Option.isSome_iff_exists.mp succeeds
  induction front generalizing fuel with
  | nil => cases fuel <;> simp [iterate, here]
  | cons c front ih =>
      cases fuel with
      | zero => cases enough
      | succ fuel =>
          have bound : front.length ≤ fuel := Nat.le_of_succ_le_succ enough
          have later := ih (fun d inside => dots d (List.mem_cons_of_mem c inside)) bound
            (fun s ends => fails s (ends.trans (List.suffix_cons c front)))
          have now := fails (c :: front) List.suffix_rfl (List.cons_ne_nil c front)
          rw [List.cons_append] at now ⊢
          rw [iterate_dot false fuel (dots c List.mem_cons_self), if_neg Bool.false_ne_true,
            List.findSome?_cons, now]
          exact later

theorem iterate_suffix {greedy : Bool} {fuel : Nat} {t u : Thread}
    (inside : u ∈ iterate dotRound greedy fuel t) : u.rest <:+ t.rest := by
  induction fuel generalizing t with
  | zero =>
      rw [iterate, List.mem_singleton] at inside
      rw [inside]
  | succ fuel ih =>
      have cases_on : u = t ∨ ∃ v ∈ dotRound t, u ∈ iterate dotRound greedy fuel v := by
        cases greedy <;> simp [iterate] at inside <;> grind
      rcases cases_on with same | later
      · rw [same]
      · obtain ⟨v, taken, reached⟩ := later
        have shorter : v.rest <:+ t.rest := by
          unfold dotRound Thread.consume at taken
          cases shape : t.rest with
          | nil => simp [shape] at taken
          | cons c rest =>
              simp only [shape] at taken
              split at taken
              · rw [List.mem_singleton.mp taken]
                exact List.suffix_cons c rest
              · cases taken
        exact (ih reached).trans shorter

end Dot

section Search

variable {text segment : List Char} {stop : Char} (behind : Pattern) (rest : List Char)

theorem eq_of_append_stop {more rest : List Char} (plain : stop ∉ text) (free : stop ∉ segment)
    (same : text ++ stop :: more = segment ++ stop :: rest) : text = segment := by
  rw [← CText.takeWhile_stop plain more, same, CText.takeWhile_stop free rest]

theorem suffix_behind {front back : List Char} (plain : stop ∉ text) :
    text <:+ front ++ stop :: back ↔ text <:+ back := by
  have tail : stop :: back <:+ front ++ stop :: back := List.suffix_append front (stop :: back)
  constructor
  · intro ends
    rcases List.suffix_or_suffix_of_suffix ends tail with short | long
    · rcases List.suffix_cons_iff.mp short with same | shorter
      · exact absurd (same ▸ List.mem_cons_self) plain
      · exact shorter
    · exact absurd (long.subset List.mem_cons_self) plain
  · intro ends
    exact (ends.trans (List.suffix_cons stop back)).trans tail

theorem runs_stop (plain : stop ∉ text) (free : stop ∉ segment) :
    (literal (text ++ [stop]) behind).runs ⟨segment ++ stop :: rest, []⟩ =
      if text = segment then behind.runs ⟨rest, []⟩ else [] := by
  split
  · rename_i same
    rw [← same, List.append_cons text stop rest, runs_literal]
  · rename_i other
    apply runs_literal_nil
    intro starts
    obtain ⟨more, same⟩ := starts
    rw [List.append_assoc] at same
    exact other (eq_of_append_stop plain free same)

/-- The text stands in front of the first mark, or the search goes on behind it. -/
theorem search_stop (plain : stop ∉ text) (free : stop ∉ segment) :
    (literal (text ++ [stop]) behind).search (segment ++ stop :: rest) =
      (if text <:+ segment then (behind.runs ⟨rest, []⟩).head? else none).or
        ((literal (text ++ [stop]) behind).search rest) := by
  induction segment with
  | nil =>
      have here := runs_stop behind rest plain free
      rw [List.nil_append] at here ⊢
      rw [Pattern.search, here]
      by_cases same : text = [] <;> simp [same]
  | cons c segment ih =>
      have here := runs_stop behind rest plain free
      have later := ih (fun inside => free (List.mem_cons_of_mem c inside))
      rw [List.cons_append] at here ⊢
      rw [Pattern.search, here, later]
      by_cases same : text = c :: segment
      · have long : ¬c :: segment <:+ segment := by
          intro ends
          have bound := ends.length_le
          rw [List.length_cons] at bound
          omega
        simp [same, long]
      · simp [same, List.suffix_cons_iff]

theorem search_stop_none (free : stop ∉ segment) :
    (literal (text ++ [stop]) behind).search segment = none := by
  have absent {whole : List Char} (free : stop ∉ whole) : ¬text ++ [stop] <+: whole := by
    intro starts
    exact free (starts.subset (List.mem_append_right text List.mem_cons_self))
  induction segment with
  | nil => rw [Pattern.search, runs_literal_nil behind [] (absent free), List.head?_nil]
  | cons c segment ih =>
      rw [Pattern.search, runs_literal_nil behind [] (absent free), List.head?_nil, Option.none_or]
      exact ih (fun inside => free (List.mem_cons_of_mem c inside))

end Search

end DataStructure.Regex
