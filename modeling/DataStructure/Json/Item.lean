import DataStructure.Lib.Binary64
import DataStructure.Lib.Program

/-! The items of cJSON and the blocks they own.

A chain of items is a list, in the order of the `next` pointers, and a C string is the list of its
bytes without the terminator. The allocator may refuse any request. A block is known by the number of
the request that it was handed out for. To free a block that is not live is a fault, be it that it was
never handed out or that it was freed before. What is read is not looked up among the live blocks. -/

namespace DataStructure.CJson

open Program

abbrev Text := List UInt8

abbrev Block := Nat

inductive Kind where
  | False
  | True
  | NULL
  | Number
  | String
  | Array
  | Object
  deriving DecidableEq, Repr

/-- A C string in a block of its own. -/
structure Str where
  block : Block
  text : Text
  deriving DecidableEq, Repr

structure Item where
  block : Block
  type : Kind
  isReference : Bool
  valuestring : Option Str
  valueint : Int32
  valuedouble : Binary64
  string : Option Str
  child : List Item

/-- The state of the allocator, and the static `ep`. -/
@[ext] structure Env where
  -- Whether a request is granted, by its number and its size.
  answers : Nat → Nat → Bool
  asked : Nat
  refused : Nat
  -- What was handed out and not given back.
  live : Multiset Block
  nodup : live.Nodup
  earlier : ∀ block ∈ live, block < asked
  ep : Option Text

/-- The first `count` requests were granted and nothing was given back. -/
def holding (answers : Nat → Nat → Bool) (count : Nat) : Env :=
  ⟨answers, count, 0, Multiset.range count, Multiset.nodup_range count,
    fun _ inside => Multiset.mem_range.1 inside, none⟩

def granted (s : Env) : Env :=
  { s with
    asked := s.asked + 1
    live := s.asked ::ₘ s.live
    nodup := Multiset.nodup_cons.2 ⟨fun inside => (s.earlier s.asked inside).false, s.nodup⟩
    earlier := by
      intro block inside
      rcases Multiset.mem_cons.1 inside with rfl | before
      · exact Nat.lt_succ_self _
      · exact Nat.lt_succ_of_lt (s.earlier block before) }

def denied (s : Env) : Env :=
  { s with
    asked := s.asked + 1
    refused := s.refused + 1
    earlier := fun block inside => Nat.lt_succ_of_lt (s.earlier block inside) }

def given (s : Env) (blocks : Multiset Block) : Env :=
  { s with
    live := s.live - blocks
    nodup := Multiset.nodup_of_le (Multiset.sub_le_self s.live blocks) s.nodup
    earlier := fun block inside =>
      s.earlier block (Multiset.mem_of_le (Multiset.sub_le_self s.live blocks) inside) }

def malloc (size : Nat) : Prog Env (Option Block) := fun s =>
  if s.answers s.asked size then .ok (some s.asked, granted s) else .ok (none, denied s)

/-- A length that is counted in an `int`; what follows an overflow is undefined. -/
def intLen (len : Nat) : Prog Env Nat := if len < 2 ^ 31 then pure len else fault .segv

def free (block : Block) : Prog Env Unit := fun s =>
  if block ∈ s.live then .ok ((), given s {block}) else .error .segv

/-- `if (str) cJSON_free(str);` -/
def freeString : Option Str → Prog Env Unit
  | none => pure ()
  | some str => free str.block

def setEp (value : Option Text) : Prog Env Unit := fun s => .ok ((), { s with ep := value })

def blank (block : Block) : Item := ⟨block, .False, false, none, 0, .ofInt 0, none, []⟩

def newItem : Prog Env (Option Item) := do
  -- `sizeof(cJSON)`
  match ← malloc 64 with
  | some node => return some (blank node)
  | none => return none

mutual

/-- One round of the loop of `cJSON_Delete`. -/
def deleteItem : Item → Prog Env Unit
  | ⟨c, _, isReference, valuestring, _, _, string, child⟩ => do
      onlyIf (!isReference && !child.isEmpty) (delete child)
      onlyIf (!isReference) (freeString valuestring)
      freeString string
      free c
termination_by structural item => item

/-- `cJSON_Delete`, given the chain from `c` on. -/
def delete : List Item → Prog Env Unit
  | [] => pure ()
  | c :: next => do
      deleteItem c
      delete next
termination_by structural chain => chain

end

def stringBlocks : Option Str → Multiset Block
  | none => 0
  | some str => {str.block}

mutual

/-- What `cJSON_Delete` gives back of an item. -/
def blocks : Item → Multiset Block
  | ⟨block, _, isReference, valuestring, _, _, string, child⟩ =>
      (if isReference then 0 else chainBlocks child + stringBlocks valuestring) +
        stringBlocks string + {block}
termination_by structural item => item

def chainBlocks : List Item → Multiset Block
  | [] => 0
  | c :: next => blocks c + chainBlocks next
termination_by structural chain => chain

end

theorem blocks_own {item : Item} (own : item.isReference = false) :
    blocks item = chainBlocks item.child + stringBlocks item.valuestring +
      stringBlocks item.string + {item.block} := by
  obtain ⟨block, type, isReference, valuestring, valueint, valuedouble, string, child⟩ := item
  cases own
  rw [blocks]
  rfl

theorem blocks_blank (block : Block) : blocks (blank block) = {block} := by
  rw [blocks_own rfl]
  rfl

theorem chainBlocks_concat (chain : List Item) (item : Item) :
    chainBlocks (chain ++ [item]) = chainBlocks chain + blocks item := by
  induction chain with
  | nil => simp [chainBlocks]
  | cons c chain ih => rw [List.cons_append, chainBlocks, chainBlocks, ih, add_assoc]

@[simp] theorem granted_live (s : Env) : (granted s).live = s.live + {s.asked} := by
  rw [add_comm, Multiset.singleton_add]
  rfl

@[simp] theorem denied_live (s : Env) : (denied s).live = s.live := rfl

@[simp] theorem given_live (s : Env) (blocks : Multiset Block) :
    (given s blocks).live = s.live - blocks := rfl

theorem given_zero (s : Env) : given s 0 = s := by
  ext1
  case live => exact Multiset.sub_zero s.live
  all_goals rfl

theorem given_given (s : Env) (first second : Multiset Block) :
    given (given s first) second = given s (first + second) := by
  ext1
  case live => exact (Multiset.sub_add_eq_sub_sub).symm
  all_goals rfl

theorem given_live_of_eq {s : Env} {kept blocks : Multiset Block} (held : s.live = kept + blocks) :
    (given s blocks).live = kept := by
  rw [given_live, held, Multiset.add_sub_cancel_right]

theorem le_live_of_eq {s : Env} {kept blocks : Multiset Block} (held : s.live = kept + blocks) :
    blocks ≤ s.live := by
  rw [held]
  exact Multiset.le_add_left blocks kept

/-- What is live beside the blocks of `s` was handed out since. -/
theorem not_mem_of_live_eq {s t : Env} {blocks : Multiset Block} (held : t.live = s.live + blocks) :
    ∀ block ∈ blocks, block ∉ s.live := by
  have distinct := t.nodup
  rw [held] at distinct
  intro block inside before
  exact Multiset.disjoint_left.1 (Multiset.nodup_add.1 distinct).2.2 before inside

/-- Between `s` and `t` the blocks `before` were traded for `after`. -/
def Trades (s t : Env) (before after : Multiset Block) : Prop := t.live + before = s.live + after

theorem Trades.refl (s : Env) (held : Multiset Block) : Trades s s held held := rfl

theorem Trades.trans {s t u : Env} {a b c : Multiset Block} (first : Trades s t a b)
    (second : Trades t u b c) : Trades s u a c := by
  apply add_right_cancel (b := b)
  calc
    u.live + a + b = u.live + b + a := add_right_comm _ _ _
    _ = t.live + a + c := by rw [second, add_right_comm]
    _ = s.live + c + b := by rw [first, add_right_comm]

theorem Trades.live_eq {s t : Env} {taken : Multiset Block} (trades : Trades s t 0 taken) :
    t.live = s.live + taken := by
  rwa [Trades, add_zero] at trades

/-- What is held meanwhile is left alone. -/
theorem Trades.beside {s t : Env} {taken : Multiset Block} (trades : Trades s t 0 taken)
    (held : Multiset Block) : Trades s t held (held + taken) := by
  rw [Trades, trades.live_eq, add_assoc, add_comm taken]

theorem trades_granted (s : Env) : Trades s (granted s) 0 {s.asked} := by
  rw [Trades, granted_live, add_zero]

/-- A new item was traded for `after`. -/
theorem trades_new {s t : Env} {after : Multiset Block}
    (taken : Trades (granted s) t (blocks (blank s.asked)) after) : Trades s t 0 after := by
  rw [blocks_blank] at taken
  exact (trades_granted s).trans taken

/-- Between `s` and `t` requests were made and blocks given back; `ep` was left alone. -/
structure Frame (s t : Env) : Prop where
  ep : t.ep = s.ep
  refused : s.refused ≤ t.refused

theorem Frame.refl (s : Env) : Frame s s := ⟨rfl, le_rfl⟩

theorem Frame.trans {s t u : Env} (first : Frame s t) (second : Frame t u) : Frame s u :=
  ⟨second.ep.trans first.ep, first.refused.trans second.refused⟩

theorem frame_granted (s : Env) : Frame s (granted s) := ⟨rfl, le_rfl⟩

theorem frame_denied (s : Env) : Frame s (denied s) := ⟨rfl, Nat.le_succ _⟩

theorem frame_given (s : Env) (blocks : Multiset Block) : Frame s (given s blocks) := ⟨rfl, le_rfl⟩

theorem wp_malloc (size : Nat) (post : Option Block → Env → Prop) (s : Env)
    (yes : post (some s.asked) (granted s)) (no : post none (denied s)) :
    wp (malloc size) post s := by
  simp only [wp, malloc, StateT.run]
  cases s.answers s.asked size with
  | true => exact yes
  | false => exact no

theorem wp_newItem (post : Option Item → Env → Prop) (s : Env)
    (yes : post (some (blank s.asked)) (granted s)) (no : post none (denied s)) :
    wp newItem post s := by
  rw [newItem, wp_bind]
  apply wp_malloc
  · exact yes
  · exact no

theorem wp_intLen {len : Nat} (small : len < 2 ^ 31) (post : Nat → Env → Prop) (s : Env) :
    wp (intLen len) post s ↔ post len s := by
  rw [intLen, if_pos small, wp_pure]

theorem wp_free (block : Block) (post : Unit → Env → Prop) (s : Env) :
    wp (free block) post s ↔ block ∈ s.live ∧ post () (given s {block}) := by
  simp only [wp, free, StateT.run]
  by_cases inside : block ∈ s.live
  · rw [if_pos inside]
    simp [inside]
  · rw [if_neg inside]
    simp [inside]

theorem not_wp_free_twice (block : Block) (post : Unit → Env → Prop) (s : Env) :
    ¬wp (do free block; free block) post s := by
  rw [wp_bind, wp_free, wp_free]
  rintro ⟨_, again, _⟩
  rw [given_live, Multiset.sub_singleton] at again
  exact s.nodup.notMem_erase again

theorem Item.induction {P : Item → Prop} (step : ∀ item : Item, (∀ c ∈ item.child, P c) → P item)
    (item : Item) : P item := by
  refine @Item.rec P (fun chain => ∀ c ∈ chain, P c) ?_ ?_ ?_ item
  · intro block type isReference valuestring valueint valuedouble string child below
    exact step _ below
  · intro c inside
    cases inside
  · intro head tail first rest c inside
    rcases List.mem_cons.1 inside with rfl | later
    · exact first
    · exact rest c later

def GivesBack (program : Prog Env Unit) (blocks : Multiset Block) : Prop :=
  ∀ (post : Unit → Env → Prop) (s : Env), blocks ≤ s.live → post () (given s blocks) →
    wp program post s

theorem GivesBack.wp_then {α : Type} {program : Prog Env Unit} {rest : Prog Env α}
    {m : Multiset Block} {post : α → Env → Prop} {s : Env} (one : GivesBack program m)
    (enough : m ≤ s.live) (next : wp rest post (given s m)) : wp (do program; rest) post s := by
  rw [wp_bind]
  exact one _ s enough next

theorem GivesBack.seq {first second : Prog Env Unit} {m n : Multiset Block}
    (one : GivesBack first m) (two : GivesBack second n) :
    GivesBack (do first; second) (m + n) := by
  intro post s enough holds
  apply one.wp_then ((Multiset.le_add_right m n).trans enough)
  apply two _ _ (le_tsub_of_add_le_left enough)
  rw [given_given]
  exact holds

theorem givesBack_nothing : GivesBack (pure ()) 0 := by
  intro post s _ holds
  rwa [given_zero] at holds

theorem givesBack_free (block : Block) : GivesBack (free block) {block} := by
  intro post s enough holds
  rw [wp_free]
  exact ⟨Multiset.singleton_le.1 enough, holds⟩

theorem givesBack_freeString (str : Option Str) : GivesBack (freeString str) (stringBlocks str) := by
  cases str with
  | none => exact givesBack_nothing
  | some str => exact givesBack_free str.block

theorem GivesBack.onlyIf {program : Prog Env Unit} {m : Multiset Block} (one : GivesBack program m)
    (c : Bool) : GivesBack (onlyIf c program) (if c then m else 0) := by
  cases c with
  | false => exact givesBack_nothing
  | true => exact one

theorem givesBack_chain (chain : List Item)
    (each : ∀ c ∈ chain, GivesBack (deleteItem c) (blocks c)) :
    GivesBack (delete chain) (chainBlocks chain) := by
  induction chain with
  | nil => exact givesBack_nothing
  | cons c next ih =>
      rw [delete, chainBlocks]
      exact (each c List.mem_cons_self).seq (ih fun d inside => each d (List.mem_cons_of_mem c inside))

theorem givesBack_deleteItem (item : Item) : GivesBack (deleteItem item) (blocks item) := by
  induction item using Item.induction with
  | step item below =>
      obtain ⟨block, type, isReference, valuestring, valueint, valuedouble, string, child⟩ := item
      have inner := (givesBack_chain child below).onlyIf (!isReference && !child.isEmpty)
      have value := (givesBack_freeString valuestring).onlyIf (!isReference)
      have name := givesBack_freeString string
      have all := inner.seq (value.seq (name.seq (givesBack_free block)))
      have sum : (if (!isReference && !child.isEmpty) = true then chainBlocks child else 0) +
          ((if (!isReference) = true then stringBlocks valuestring else 0) +
            (stringBlocks string + {block})) =
          blocks ⟨block, type, isReference, valuestring, valueint, valuedouble, string, child⟩ := by
        rw [blocks]
        cases isReference <;> cases child <;> simp [chainBlocks, add_assoc]
      rw [← sum, deleteItem]
      exact all

theorem givesBack_deleteOne (item : Item) : GivesBack (delete [item]) (blocks item) := by
  have chain := givesBack_chain [item] fun c _ => givesBack_deleteItem c
  rwa [chainBlocks, chainBlocks, add_zero] at chain

end DataStructure.CJson
