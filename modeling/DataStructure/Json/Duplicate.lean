import DataStructure.Json.ParseStore

/-! `cJSON_Duplicate`: the copy of a tree of items. -/

namespace DataStructure.CJson

open Program Binary64

def copyField (newitem : Item) (field : Option Str) (store : Str → Item) : Prog Env (Option Item) :=
  match field with
  | none => return some newitem
  | some str => do
      match ← strdup str.text with
      | some copy => return some (store copy)
      | none =>
          delete [newitem]
          return none

def duplicateItem (item : Item) : Prog Env (Option Item) := do
  match ← newItem with
  | none => return none
  | some newitem =>
      let newitem := { newitem with
        type := item.type, valueint := item.valueint, valuedouble := item.valuedouble }
      match ← copyField newitem item.valuestring fun copy => { newitem with valuestring := some copy } with
      | none => return none
      | some newitem => copyField newitem item.string fun copy => { newitem with string := some copy }

mutual

def duplicate : Item → Prog Env (Option Item)
  | ⟨block, type, isReference, valuestring, valueint, valuedouble, string, child⟩ => do
      match ← duplicateItem
          ⟨block, type, isReference, valuestring, valueint, valuedouble, string, child⟩ with
      | none => return none
      | some newitem => duplicateChain newitem child
termination_by structural item => item

def duplicateChain : Item → List Item → Prog Env (Option Item)
  | newitem, [] => return some newitem
  | newitem, cptr :: next => do
      match ← duplicate cptr with
      | none =>
          delete [newitem]
          return none
      | some newchild => duplicateChain { newitem with child := newitem.child ++ [newchild] } next
termination_by structural _ chain => chain

end

def duplicateWith (item : Item) (recurse : Bool) : Prog Env (Option Item) :=
  if recurse then duplicate item else duplicateItem item

/-- A string apart from the block it is in. -/
def Str.unplaced (str : Str) : Str := ⟨0, str.text⟩

mutual

/-- The item apart from the blocks it is in and from what makes it a reference. -/
def Item.content : Item → Item
  | ⟨_, type, _, valuestring, valueint, valuedouble, string, child⟩ =>
      ⟨0, type, false, valuestring.map Str.unplaced, valueint, valuedouble, string.map Str.unplaced,
        contents child⟩
termination_by structural item => item

def contents : List Item → List Item
  | [] => []
  | c :: next => c.content :: contents next
termination_by structural chain => chain

end

/-- The call took the blocks of a copy of `content` and no others, or a request was refused and all that
was taken was given back. -/
def Duplicated (content : Item) (before : Multiset Block) (s : Env) (result : Option Item) (t : Env) :
    Prop :=
  t.ep = s.ep ∧
    ((∃ copy, result = some copy ∧ copy.isReference = false ∧ copy.content = content ∧
        t.live = before + blocks copy ∧ t.refused = s.refused) ∨
      result = none ∧ t.live = before ∧ s.refused < t.refused)

theorem contents_eq (chain : List Item) : contents chain = chain.map Item.content := by
  induction chain with
  | nil => rfl
  | cons c next ih => rw [contents, ih, List.map_cons]

theorem wp_strdup (str : Text) (post : Option Str → Env → Prop) (s : Env)
    (yes : post (some ⟨s.asked, str⟩) (granted s)) (no : post none (denied s)) :
    wp (strdup str) post s := by
  rw [strdup, mallocText, wp_bind]
  apply wp_malloc
  · rw [putString, if_pos (by simp)]
    exact yes
  · exact no

/-- `write` puts the copy of the field into the new item. -/
theorem wp_copyField (write : Option Str → Item) {field : Option Str} {post : Option Item → Env → Prop}
    {before : Multiset Block} {s : Env} (held : s.live = before + blocks (write none))
    (copied : ∀ copy t, copy.map Str.text = field.map Str.text → t.live = s.live + stringBlocks copy →
      t.ep = s.ep → t.refused = s.refused → post (some (write copy)) t)
    (failed : ∀ t, t.live = before → t.ep = s.ep → s.refused < t.refused → post none t) :
    wp (copyField (write none) field fun copy => write (some copy)) post s := by
  cases field with
  | none => exact copied none s rfl (add_zero _).symm rfl rfl
  | some str =>
      rw [copyField, wp_bind]
      apply wp_strdup
      · exact copied (some ⟨s.asked, str.text⟩) (granted s) rfl (granted_live s) rfl rfl
      · have still : (denied s).live = before + blocks (write none) := held
        apply (givesBack_deleteOne (write none)).wp_then (le_live_of_eq still)
        exact failed _ (given_live_of_eq still) rfl (Nat.lt_succ_self s.refused)

def Item.bare (item : Item) : Item := { item with child := [] }

theorem map_unplaced {copy field : Option Str} (same : copy.map Str.text = field.map Str.text) :
    copy.map Str.unplaced = field.map Str.unplaced := by
  have texts := congrArg (Option.map (Str.mk 0)) same
  rwa [Option.map_map, Option.map_map] at texts

theorem wp_duplicateItem (item : Item) (s : Env) :
    wp (duplicateItem item) (Duplicated item.bare.content s.live s) s := by
  obtain ⟨block, type, isReference, valuestring, valueint, valuedouble, string, child⟩ := item
  rw [duplicateItem, wp_bind]
  apply wp_newItem
  · rw [wp_bind]
    apply wp_copyField fun copy => ⟨s.asked, type, false, copy, valueint, valuedouble, none, []⟩
    · rw [granted_live, blocks_own rfl]
      rfl
    · intro value t equal live ep refused
      have held : t.live =
          s.live + blocks ⟨s.asked, type, false, value, valueint, valuedouble, none, []⟩ := by
        rw [live, granted_live, blocks_own rfl]
        simp only [chainBlocks, stringBlocks]
        abel
      apply wp_copyField (fun copy => ⟨s.asked, type, false, value, valueint, valuedouble, copy, []⟩) held
      · intro name u equal' live' ep' refused'
        refine ⟨ep'.trans ep, .inl ⟨_, rfl, rfl, ?_, ?_, refused'.trans refused⟩⟩
        · rw [Item.bare, Item.content, Item.content, map_unplaced equal, map_unplaced equal']
        · rw [live', held, blocks_own rfl, blocks_own rfl]
          simp only [chainBlocks, stringBlocks]
          abel
      · intro u live' ep' refused'
        exact ⟨ep'.trans ep, .inr ⟨rfl, live', refused ▸ refused'⟩⟩
    · intro t live ep refused
      exact ⟨ep, .inr ⟨rfl, live, refused⟩⟩
  · exact ⟨rfl, .inr ⟨rfl, rfl, Nat.lt_succ_self _⟩⟩

theorem content_append (item : Item) (chain : List Item) :
    Item.content { item with child := item.child ++ chain } =
      { item.content with child := item.content.child ++ contents chain } := by
  obtain ⟨block, type, isReference, valuestring, valueint, valuedouble, string, child⟩ := item
  rw [Item.content, Item.content, contents_eq, contents_eq, contents_eq, List.map_append]

theorem blocks_append {item : Item} (own : item.isReference = false) (c : Item) :
    blocks { item with child := item.child ++ [c] } = blocks item + blocks c := by
  have still : ({ item with child := item.child ++ [c] } : Item).isReference = false := own
  rw [blocks_own own, blocks_own still, chainBlocks_concat]
  abel

theorem wp_duplicateChain (chain : List Item)
    (each : ∀ c ∈ chain, ∀ s, wp (duplicate c) (Duplicated c.content s.live s) s) (newitem : Item)
    (own : newitem.isReference = false) (before : Multiset Block) (s t : Env)
    (same : t.refused = s.refused) (ep : t.ep = s.ep) (held : t.live = before + blocks newitem) :
    wp (duplicateChain newitem chain)
      (Duplicated { newitem.content with child := newitem.content.child ++ contents chain } before s)
      t := by
  induction chain generalizing newitem t with
  | nil =>
      obtain ⟨block, type, isReference, valuestring, valueint, valuedouble, string, child⟩ := newitem
      rw [duplicateChain, contents, List.append_nil]
      exact ⟨ep, .inl ⟨_, rfl, own, rfl, held, same⟩⟩
  | cons c next ih =>
      rw [duplicateChain]
      apply wp_seq _ _ _ _ _ (each c List.mem_cons_self t)
      rintro result u ⟨kept, ⟨copy, rfl, _, equal, taken, granted⟩ | ⟨rfl, taken, refused⟩⟩
      · have grown : u.live = before + blocks { newitem with child := newitem.child ++ [copy] } := by
          rw [blocks_append own, taken, held, add_assoc]
        have rest := ih (fun d inside => each d (List.mem_cons_of_mem c inside))
          { newitem with child := newitem.child ++ [copy] } own u (granted.trans same) (kept.trans ep)
          grown
        rw [content_append] at rest
        dsimp only at rest
        rwa [List.append_assoc, contents, contents, equal, List.singleton_append, ← contents] at rest
      · have still : u.live = before + blocks newitem := taken.trans held
        apply (givesBack_deleteOne newitem).wp_then (le_live_of_eq still)
        exact ⟨kept.trans ep, .inr ⟨rfl, given_live_of_eq still, same ▸ refused⟩⟩

theorem wp_duplicate (item : Item) :
    ∀ s, wp (duplicate item) (Duplicated item.content s.live s) s := by
  induction item using Item.induction with
  | step item below =>
      intro s
      have bare := wp_duplicateItem item s
      obtain ⟨block, type, isReference, valuestring, valueint, valuedouble, string, child⟩ := item
      rw [duplicate]
      apply wp_seq _ _ _ _ _ bare
      rintro result t ⟨ep, ⟨copy, rfl, own, equal, held, same⟩ | ⟨rfl, held, refused⟩⟩
      · have chained := wp_duplicateChain child below copy own s.live s t same ep held
        rwa [equal] at chained
      · exact ⟨ep, .inr ⟨rfl, held, refused⟩⟩

theorem name_content (item : Item) : item.content.name = item.name := by
  obtain ⟨block, type, isReference, valuestring, valueint, valuedouble, string, child⟩ := item
  rw [Item.content, Item.name, Item.name, Option.map_map]
  rfl

theorem texts_congr {xs ys : List Item} (depth : Nat) (fmt : Bool)
    (same : List.Forall₂ (fun a b => a.text depth fmt = b.text depth fmt ∧ a.name = b.name) xs ys) :
    texts xs depth fmt = texts ys depth fmt ∧ fieldTexts xs depth fmt = fieldTexts ys depth fmt := by
  induction same with
  | nil => exact ⟨rfl, rfl⟩
  | cons first _ ih =>
      rw [texts, texts, fieldTexts, fieldTexts, first.1, first.2, ih.1, ih.2]
      exact ⟨rfl, rfl⟩

theorem text_content (item : Item) :
    ∀ depth fmt, item.content.text depth fmt = item.text depth fmt := by
  induction item using Item.induction with
  | step item below =>
      intro depth fmt
      obtain ⟨block, type, isReference, valuestring, valueint, valuedouble, string, child⟩ := item
      have children : List.Forall₂
          (fun a b => a.text (depth + 1) fmt = b.text (depth + 1) fmt ∧ a.name = b.name)
          (contents child) child := by
        rw [contents_eq, List.forall₂_map_left_iff]
        apply List.forall₂_same.2
        intro c inside
        exact ⟨below c inside (depth + 1) fmt, name_content c⟩
      obtain ⟨entries, fields⟩ := texts_congr (depth + 1) fmt children
      cases type with
      | String =>
          change stringText ((valuestring.map Str.unplaced).map Str.text) = _
          rw [Option.map_map]
          rfl
      | Array =>
          change arrayText fmt (texts (contents child) (depth + 1) fmt) = _
          rw [entries]
          rfl
      | Object =>
          change objectText depth fmt (fieldTexts (contents child) (depth + 1) fmt) = _
          rw [fields]
          rfl
      | _ => rfl

/-- Whatever requests are refused, `cJSON_Duplicate` leaves what was live and nothing else, or new blocks
beside it with a copy that prints as the item does, also if the item is a reference. -/
theorem duplicate_copies_or_nothing (item : Item) (recurse : Bool) (s : Env) :
    ∃ result t, (duplicateWith item recurse).run s = .ok (result, t) ∧ t.ep = s.ep ∧
      (result = none ∧ t.live = s.live ∧ s.refused < t.refused ∨
        t.refused = s.refused ∧ ∃ copy, result = some copy ∧
          (∀ depth fmt, copy.text depth fmt =
            (if recurse then item else { item with child := [] }).text depth fmt) ∧
          t.live = s.live + blocks copy ∧ (∀ block ∈ blocks copy, block ∉ s.live) ∧
          ∃ u, (delete [copy]).run t = .ok ((), u) ∧ u.live = s.live) := by
  have returned : wp (duplicateWith item recurse)
      (Duplicated (if recurse then item else item.bare).content s.live s) s := by
    cases recurse with
    | true => exact wp_duplicate item s
    | false => exact wp_duplicateItem item s
  obtain ⟨result, t, ran, ep, outcome⟩ := (wp_iff_run _ _ _).mp returned
  refine ⟨result, t, ran, ep, ?_⟩
  rcases outcome with ⟨copy, rfl, _, equal, held, same⟩ | nothing
  · have prints : ∀ depth fmt, copy.text depth fmt =
        (if recurse then item else item.bare).text depth fmt := by
      intro depth fmt
      rw [← text_content copy, equal, text_content]
    have deleted : wp (delete [copy]) (fun _ u => u.live = s.live) t :=
      givesBack_deleteOne copy _ t (le_live_of_eq held) (given_live_of_eq held)
    obtain ⟨_, u, gone, back⟩ := (wp_iff_run _ _ _).mp deleted
    exact .inr ⟨same, copy, rfl, prints, held, not_mem_of_live_eq held, u, gone, back⟩
  · exact .inl nothing

end DataStructure.CJson
