import Mathlib

/-! Writes at a position of a file.

A write beyond the end leaves a hole of `zero`s; a write of nothing changes nothing. -/

namespace DataStructure.FileBytes

variable {β : Type} (zero : β)

def writeAt (file : List β) (pos : Nat) (bytes : List β) : List β :=
  if bytes = [] then file
  else
    file.take pos ++ List.replicate (pos - file.length) zero ++ bytes ++
      file.drop (pos + bytes.length)

theorem writeAt_end (file bytes : List β) : writeAt zero file file.length bytes = file ++ bytes := by
  rw [writeAt]
  split
  · next empty => rw [empty, List.append_nil]
  · rw [List.take_length, Nat.sub_self, List.replicate_zero, List.append_nil,
      List.drop_of_length_le (Nat.le_add_right _ _), List.append_nil]

theorem writeAt_length (file bytes : List β) (pos : Nat) (some : bytes ≠ []) :
    (writeAt zero file pos bytes).length = max file.length (pos + bytes.length) := by
  rw [writeAt, if_neg some]
  simp only [List.length_append, List.length_take, List.length_replicate, List.length_drop]
  omega

theorem writeAt_get (file bytes : List β) (pos x : Nat) (some : bytes ≠ []) :
    (writeAt zero file pos bytes)[x]? =
      if x < pos then if x < file.length then file[x]? else .some zero
      else if x < pos + bytes.length then bytes[x - pos]? else file[x]? := by
  have front : (file.take pos ++ List.replicate (pos - file.length) zero).length = pos := by
    rw [List.length_append, List.length_take, List.length_replicate]
    omega
  rw [writeAt, if_neg some, List.append_assoc]
  by_cases before : x < pos
  · rw [if_pos before, List.getElem?_append_left (by omega)]
    by_cases held : x < file.length
    · rw [if_pos held, List.getElem?_append_left (by rw [List.length_take]; omega),
        List.getElem?_take_of_lt before]
    · rw [if_neg held, List.getElem?_append_right (by rw [List.length_take]; omega),
        List.getElem?_replicate_of_lt (by rw [List.length_take]; omega)]
  · rw [if_neg before, List.getElem?_append_right (by omega), front]
    by_cases written : x < pos + bytes.length
    · rw [if_pos written, List.getElem?_append_left (by omega)]
    · rw [if_neg written, List.getElem?_append_right (by omega), List.getElem?_drop]
      congr 1
      omega

structure Write (β : Type) where
  pos : Nat
  bytes : List β

def Write.Covers (w : Write β) (x : Nat) : Prop :=
  w.pos ≤ x ∧ x < w.pos + w.bytes.length

instance (w : Write β) (x : Nat) : Decidable (w.Covers x) :=
  inferInstanceAs (Decidable (_ ∧ _))

def Write.Of (data : List β) (w : Write β) : Prop :=
  w.pos + w.bytes.length ≤ data.length ∧
    ∀ k < w.bytes.length, w.bytes[k]? = data[w.pos + k]?

def writeAll (file : List β) (ws : List (Write β)) : List β :=
  ws.foldl (fun content w => writeAt zero content w.pos w.bytes) file

def times (ws : List (Write β)) (x : Nat) : Nat :=
  ws.countP fun w => w.Covers x

theorem writeAll_snoc (file : List β) (ws : List (Write β)) (w : Write β) :
    writeAll zero file (ws ++ [w]) = writeAt zero (writeAll zero file ws) w.pos w.bytes := by
  rw [writeAll, List.foldl_append]
  rfl

theorem times_snoc (ws : List (Write β)) (w : Write β) (x : Nat) :
    times (ws ++ [w]) x = times ws x + if w.Covers x then 1 else 0 := by
  simp [times, List.countP_append, List.countP_singleton]

theorem writeAt_of (data file : List β) (w : Write β) (piece : w.Of data) (x : Nat)
    (covered : w.Covers x) : (writeAt zero file w.pos w.bytes)[x]? = data[x]? := by
  obtain ⟨lower, upper⟩ := covered
  have something : w.bytes ≠ [] := by
    intro empty
    rw [empty, List.length_nil] at upper
    omega
  rw [writeAt_get zero file w.bytes w.pos x something, if_neg (by omega), if_pos upper,
    piece.2 (x - w.pos) (by omega)]
  congr 1
  omega

theorem writeAt_keeps (file bytes : List β) (pos x : Nat) (held : x < file.length)
    (outside : x < pos ∨ pos + bytes.length ≤ x) : (writeAt zero file pos bytes)[x]? = file[x]? := by
  by_cases empty : bytes = []
  · rw [writeAt, if_pos empty]
  · rw [writeAt_get zero file bytes pos x empty]
    by_cases before : x < pos
    · rw [if_pos before, if_pos held]
    · rw [if_neg before, if_neg (by omega)]

/-- Pieces of `data` written in any order agree with it wherever one of them was written. -/
theorem writeAll_covered (data : List β) (ws : List (Write β)) (pieces : ∀ w ∈ ws, w.Of data) :
    (writeAll zero [] ws).length ≤ data.length ∧
      ∀ x, 0 < times ws x → (writeAll zero [] ws)[x]? = data[x]? := by
  induction ws using List.reverseRecOn with
  | nil => simp [writeAll, times]
  | append_singleton ws w ih =>
      have piece : w.Of data := pieces w (by simp)
      obtain ⟨short, agrees⟩ := ih fun v inside => pieces v (by simp [inside])
      rw [writeAll_snoc]
      refine ⟨?_, ?_⟩
      · by_cases empty : w.bytes = []
        · rw [writeAt, if_pos empty]
          exact short
        · rw [writeAt_length zero _ w.bytes w.pos empty]
          exact max_le short piece.1
      · intro x written
        rw [times_snoc] at written
        by_cases covered : w.Covers x
        · exact writeAt_of zero data _ w piece x covered
        · rw [if_neg covered, Nat.add_zero] at written
          have earlier := agrees x written
          obtain ⟨v, inside, covers⟩ := List.countP_pos_iff.1 written
          have bounded := (pieces v (by simp [inside])).1
          have inData : x < data.length := (of_decide_eq_true covers).2.trans_le bounded
          have held : x < (writeAll zero [] ws).length := by
            rw [List.getElem?_eq_getElem inData] at earlier
            exact (List.getElem?_eq_some_iff.1 earlier).1
          rw [writeAt_keeps zero _ w.bytes w.pos x held, earlier]
          rw [Write.Covers] at covered
          omega

theorem writeAll_length_le (bound : Nat) (ws : List (Write β))
    (below : ∀ w ∈ ws, w.pos + w.bytes.length ≤ bound) : (writeAll zero [] ws).length ≤ bound := by
  induction ws using List.reverseRecOn with
  | nil => exact Nat.zero_le bound
  | append_singleton ws w ih =>
      have short := ih fun v inside => below v (by simp [inside])
      rw [writeAll_snoc]
      by_cases empty : w.bytes = []
      · rw [writeAt, if_pos empty]
        exact short
      · rw [writeAt_length zero _ w.bytes w.pos empty]
        exact max_le short (below w (by simp))

theorem writeAll_eq (data : List β) (ws : List (Write β)) (pieces : ∀ w ∈ ws, w.Of data)
    (whole : ∀ x < data.length, 0 < times ws x) : writeAll zero [] ws = data := by
  obtain ⟨short, agrees⟩ := writeAll_covered zero data ws pieces
  apply List.ext_getElem?
  intro x
  by_cases inside : x < data.length
  · exact agrees x (whole x inside)
  · rw [List.getElem?_eq_none (by omega), List.getElem?_eq_none (by omega)]

-- Writer `i` fills its own stretch of the file from `start i` on, piece after piece.

section Writers

variable {ι : Type} (start : ι → Nat)

def Reached (taken : ι → Nat) (x : Nat) : Prop :=
  ∃ i, start i ≤ x ∧ x < start i + taken i

def Once (ws : List (Write β)) (taken : ι → Nat) : Prop :=
  ∀ x, (Reached start taken x → times ws x = 1) ∧ (¬ Reached start taken x → times ws x = 0)

theorem reached_update [DecidableEq ι] (taken : ι → Nat) (i : ι) (n x : Nat) :
    Reached start (Function.update taken i (taken i + n)) x ↔
      Reached start taken x ∨ (start i + taken i ≤ x ∧ x < start i + taken i + n) := by
  constructor
  · rintro ⟨j, lower, upper⟩
    by_cases self : j = i
    · subst self
      rw [Function.update_self] at upper
      by_cases before : x < start j + taken j
      · exact .inl ⟨j, lower, before⟩
      · exact .inr ⟨by omega, by omega⟩
    · rw [Function.update_of_ne self] at upper
      exact .inl ⟨j, lower, upper⟩
  · rintro (⟨j, lower, upper⟩ | ⟨lower, upper⟩)
    · refine ⟨j, lower, ?_⟩
      by_cases self : j = i
      · subst self
        rw [Function.update_self]
        omega
      · rw [Function.update_of_ne self]
        exact upper
    · refine ⟨i, by omega, ?_⟩
      rw [Function.update_self]
      omega

theorem once_snoc [DecidableEq ι] (ws : List (Write β)) (taken : ι → Nat) (i : ι) (bytes : List β)
    (once : Once start ws taken)
    (fresh : ∀ x, start i + taken i ≤ x → x < start i + taken i + bytes.length →
      ¬ Reached start taken x) :
    Once start (ws ++ [⟨start i + taken i, bytes⟩])
      (Function.update taken i (taken i + bytes.length)) := by
  intro x
  rw [reached_update, times_snoc]
  by_cases covered : start i + taken i ≤ x ∧ x < start i + taken i + bytes.length
  · rw [if_pos (show Write.Covers ⟨start i + taken i, bytes⟩ x from covered),
      (once x).2 (fresh x covered.1 covered.2)]
    exact ⟨fun _ => rfl, fun absent => absurd (.inr covered) absent⟩
  · rw [if_neg (show ¬ Write.Covers ⟨start i + taken i, bytes⟩ x from covered), Nat.add_zero,
      or_iff_left covered]
    exact once x

end Writers

end DataStructure.FileBytes
