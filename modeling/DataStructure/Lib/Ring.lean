import Mathlib

/-! Doubly linked rings.

A ring runs from a sentinel `l` through the elements `xs` and back to `l`; `next` and `prev` give
the neighbours of a node. -/

namespace DataStructure.DoublyLinked

variable {α : Type}

def Edge (next prev : α → Option α) (u w : α) : Prop :=
  next u = some w ∧ prev w = some u

structure Ring (next prev : α → Option α) (l : α) (xs : List α) : Prop where
  distinct : (l :: xs).Nodup
  chain : (l :: (xs ++ [l])).IsChain (Edge next prev)

theorem isChain_frame {R S : α → α → Prop} (c : List α) (chain : c.IsChain R)
    (kept : ∀ u ∈ c.dropLast, ∀ w ∈ c.tail, R u w → S u w) : c.IsChain S := by
  induction c with
  | nil => exact .nil
  | cons a rest ih =>
      cases rest with
      | nil => exact .singleton a
      | cons b rest =>
          rw [List.isChain_cons_cons] at chain ⊢
          refine ⟨kept a (by simp) b (by simp) chain.1, ih chain.2 ?_⟩
          intro u inside w target
          exact kept u (by simp [inside]) w (List.mem_of_mem_tail target)

variable {next prev : α → Option α} {l : α}

theorem ring_empty (self : next l = some l) (back : prev l = some l) : Ring next prev l [] where
  distinct := List.nodup_singleton l
  chain := List.isChain_pair.2 ⟨self, back⟩

theorem ring_frame {next' prev' : α → Option α} {xs : List α} (ring : Ring next prev l xs)
    (onward : ∀ u ∈ l :: xs, next' u = next u) (back : ∀ u ∈ l :: xs, prev' u = prev u) :
    Ring next' prev' l xs where
  distinct := ring.distinct
  chain := by
    refine ring.chain.imp_of_mem_imp ?_
    intro u w first second edge
    have inside : ∀ v ∈ l :: (xs ++ [l]), v ∈ l :: xs := by
      intro v member
      simp only [List.mem_cons, List.mem_append, List.not_mem_nil, or_false] at member ⊢
      tauto
    exact ⟨(onward u (inside u first)).trans edge.1, (back w (inside w second)).trans edge.2⟩

theorem ring_adjacent {p q : List α} (ring : Ring next prev l (p ++ q)) :
    ∃ before u w after, l :: p = before ++ [u] ∧ q ++ [l] = w :: after ∧ Edge next prev u w := by
  obtain ⟨before, u, front⟩ : ∃ before u, l :: p = before ++ [u] :=
    ⟨_, _, (List.dropLast_append_getLast (List.cons_ne_nil l p)).symm⟩
  obtain ⟨w, after, rear⟩ : ∃ w after, q ++ [l] = w :: after :=
    List.exists_cons_of_ne_nil (by simp)
  refine ⟨before, u, w, after, front, rear, ?_⟩
  have chain := ring.chain
  rw [List.append_assoc, rear, ← List.cons_append, front, List.append_assoc] at chain
  exact (List.isChain_append_cons_cons.1 chain).2.1

theorem ring_neighbours {p q : List α} {e : α} (ring : Ring next prev l (p ++ e :: q)) :
    ∃ before u w after, l :: p = before ++ [u] ∧ q ++ [l] = w :: after ∧
      Edge next prev u e ∧ Edge next prev e w := by
  obtain ⟨before, u, e', _, front, here, first⟩ := ring_adjacent ring
  have shifted : Ring next prev l ((p ++ [e]) ++ q) := by simpa using ring
  obtain ⟨_, e'', w, after, here', rear, second⟩ := ring_adjacent shifted
  obtain rfl : e = e' := (List.cons.inj here).1
  obtain rfl : e = e'' := by
    rw [← List.cons_append] at here'
    exact (List.cons.inj (List.append_inj' here' rfl).2).1
  exact ⟨before, u, w, after, front, rear, first, second⟩

theorem ring_reverse {xs : List α} (ring : Ring next prev l xs) : Ring prev next l xs.reverse where
  distinct := by
    rw [List.nodup_cons, List.mem_reverse, List.nodup_reverse]
    exact List.nodup_cons.1 ring.distinct
  chain := by
    have turned : l :: (xs.reverse ++ [l]) = (l :: (xs ++ [l])).reverse := by simp
    rw [turned, List.isChain_reverse]
    exact ring.chain.imp fun _ _ edge => ⟨edge.2, edge.1⟩

/-- Every node of a ring may be its sentinel. -/
theorem ring_rotate {p q : List α} {e : α} (ring : Ring next prev l (p ++ e :: q)) :
    Ring next prev e (q ++ l :: p) where
  distinct := by
    have moved : (e :: (q ++ l :: p)).Perm (l :: (p ++ e :: q)) :=
      @List.perm_append_comm α (e :: q) (l :: p)
    exact moved.nodup_iff.2 ring.distinct
  chain := by
    have whole : (l :: p ++ e :: (q ++ [l])).IsChain (Edge next prev) := by
      simpa using ring.chain
    have parts := List.isChain_split.1 whole
    have turned : (e :: q ++ l :: (p ++ [e])).IsChain (Edge next prev) :=
      List.isChain_split.2 ⟨parts.2, parts.1⟩
    simpa using turned

theorem ring_last {xs : List α} {e : α} (ring : Ring next prev l xs) (inside : e ∈ xs) :
    next e = some l ↔ xs.getLast? = some e := by
  obtain ⟨p, q, rfl⟩ := List.append_of_mem inside
  obtain ⟨_, _, w, after, _, rear, _, onward⟩ := ring_neighbours ring
  have distinct := List.nodup_cons.1 ring.distinct
  rw [onward.1]
  cases q with
  | nil =>
      obtain rfl : l = w := (List.cons.inj rear).1
      simp
  | cons z q =>
      obtain rfl : z = w := (List.cons.inj rear).1
      have other : z ≠ l := by
        rintro rfl
        exact distinct.1 (by simp)
      have later : (z :: q).getLast? ≠ some e := by
        intro last
        have again := List.mem_of_getLast? last
        exact (List.nodup_cons.1 (List.nodup_append.1 distinct.2).2.1).1 again
      simp only [Option.some.injEq, other, false_iff]
      intro last
      rw [List.getLast?_append_of_ne_nil _ (List.cons_ne_nil e _), List.getLast?_cons_cons] at last
      exact later last

theorem ring_isEmpty {xs : List α} (ring : Ring next prev l xs) : next l = some l ↔ xs = [] := by
  cases xs with
  | nil =>
      have self := (List.isChain_pair.1 ring.chain).1
      simp [self]
  | cons x xs =>
      have first : next l = some x := (List.isChain_cons_cons.1 ring.chain).1.1
      have other : x ≠ l := by
        rintro rfl
        exact (List.nodup_cons.1 ring.distinct).1 List.mem_cons_self
      simp [first, other]

/-- What lies between two neighbours of the ring is exchanged. -/
theorem ring_splice {next' prev' : α → Option α} {p q before after : List α} {u w : α}
    (m m' : List α) (ring : Ring next prev l (p ++ (m ++ q))) (front : l :: p = before ++ [u])
    (rear : q ++ [l] = w :: after) (middle : (u :: (m' ++ [w])).IsChain (Edge next' prev'))
    (distinct : (l :: (p ++ (m' ++ q))).Nodup)
    (onward : ∀ v ∈ l :: (p ++ q), v ≠ u → next' v = next v)
    (back : ∀ v ∈ l :: (p ++ q), v ≠ w → prev' v = prev v) :
    Ring next' prev' l (p ++ (m' ++ q)) := by
  have whole : ∀ mid : List α, l :: (p ++ (mid ++ q) ++ [l]) = before ++ u :: (mid ++ w :: after) := by
    intro mid
    calc
      l :: (p ++ (mid ++ q) ++ [l]) = (l :: p) ++ (mid ++ (q ++ [l])) := by simp
      _ = before ++ u :: (mid ++ w :: after) := by rw [front, rear]; simp
  have kept : (l :: (p ++ q)).Nodup := by
    refine ring.distinct.sublist ?_
    simp
  have sources : (before ++ u :: q).Nodup := by
    rw [← List.cons_append, front] at kept
    simpa using kept
  have targets : (p ++ w :: after).Nodup := by
    rw [← rear, ← List.append_assoc]
    exact (List.perm_append_singleton l (p ++ q)).nodup_iff.2 kept
  have chain := ring.chain
  rw [whole, List.isChain_split, List.isChain_cons_split] at chain
  refine ⟨distinct, ?_⟩
  rw [whole, List.isChain_split, List.isChain_cons_split]
  refine ⟨isChain_frame _ chain.1 ?_, middle, isChain_frame _ chain.2.2 ?_⟩
  · intro v source x target edge
    rw [List.dropLast_concat] at source
    rw [← front, List.tail_cons] at target
    refine ⟨(onward v ?_ ?_).trans edge.1, (back x ?_ ?_).trans edge.2⟩
    · have inside : v ∈ l :: p := by
        rw [front]
        simp [source]
      simp only [List.mem_cons, List.mem_append] at inside ⊢
      tauto
    · rintro rfl
      exact (List.nodup_append.1 sources).2.2 v source v (by simp) rfl
    · simp [target]
    · rintro rfl
      exact (List.nodup_append.1 targets).2.2 x target x (by simp) rfl
  · intro v source x target edge
    rw [← rear, List.dropLast_concat] at source
    rw [List.tail_cons] at target
    refine ⟨(onward v ?_ ?_).trans edge.1, (back x ?_ ?_).trans edge.2⟩
    · simp [source]
    · rintro rfl
      exact (List.nodup_cons.1 (List.nodup_append.1 sources).2.1).1 source
    · have inside : x ∈ q ++ [l] := by
        rw [rear]
        exact List.mem_cons_of_mem w target
      simp only [List.mem_append, List.mem_cons, List.not_mem_nil, or_false] at inside ⊢
      tauto
    · rintro rfl
      exact (List.nodup_cons.1 (List.nodup_append.1 targets).2.1).1 target

theorem ends_inside {p q before after : List α} {u w : α} (front : l :: p = before ++ [u])
    (rear : q ++ [l] = w :: after) : u ∈ l :: (p ++ q) ∧ w ∈ l :: (p ++ q) := by
  have first : u ∈ l :: p := by simp [front]
  have last : w ∈ q ++ [l] := by simp [rear]
  simp only [List.mem_cons, List.mem_append, List.not_mem_nil, or_false] at first last ⊢
  tauto

variable [DecidableEq α]

theorem ring_insert {p q before after : List α} {u w e : α} (ring : Ring next prev l (p ++ q))
    (front : l :: p = before ++ [u]) (rear : q ++ [l] = w :: after) (fresh : e ∉ l :: (p ++ q)) :
    Ring (Function.update (Function.update next u (some e)) e (some w))
      (Function.update (Function.update prev e (some u)) w (some e)) l (p ++ e :: q) := by
  have apart : ∀ v ∈ l :: (p ++ q), v ≠ e := by
    rintro v inside rfl
    exact fresh inside
  have apartU := apart u (ends_inside front rear).1
  have apartW := apart w (ends_inside front rear).2
  refine ring_splice [] [e] ring front rear ?_ ?_ ?_ ?_
  · simp [Edge, apartU, apartW.symm]
  · have moved : (l :: (p ++ ([e] ++ q))).Perm (e :: l :: (p ++ q)) :=
      (List.perm_middle.cons l).trans (.swap e l _)
    exact moved.nodup_iff.2 (List.nodup_cons.2 ⟨fresh, ring.distinct⟩)
  · intro v inside other
    rw [Function.update_of_ne (apart v inside), Function.update_of_ne other]
  · intro v inside other
    rw [Function.update_of_ne other, Function.update_of_ne (apart v inside)]

theorem ring_remove {p q before after : List α} {u w e : α} (ring : Ring next prev l (p ++ e :: q))
    (front : l :: p = before ++ [u]) (rear : q ++ [l] = w :: after) :
    Ring (Function.update (Function.update next u (some w)) e none)
      (Function.update (Function.update prev w (some u)) e none) l (p ++ q) := by
  have moved : (l :: (p ++ e :: q)).Perm (e :: l :: (p ++ q)) :=
    (List.perm_middle.cons l).trans (.swap e l _)
  obtain ⟨outside, distinct⟩ := List.nodup_cons.1 (moved.nodup_iff.1 ring.distinct)
  have apart : ∀ v ∈ l :: (p ++ q), v ≠ e := by
    rintro v inside rfl
    exact outside inside
  have apartU := apart u (ends_inside front rear).1
  have apartW := apart w (ends_inside front rear).2
  refine ring_splice [e] [] ring front rear ?_ distinct ?_ ?_
  · simp [Edge, apartU, apartW]
  · intro v inside other
    rw [Function.update_of_ne (apart v inside), Function.update_of_ne other]
  · intro v inside other
    rw [Function.update_of_ne (apart v inside), Function.update_of_ne other]

theorem ring_exchange {p q before after : List α} {u w e n : α} (ring : Ring next prev l (p ++ e :: q))
    (front : l :: p = before ++ [u]) (rear : q ++ [l] = w :: after) (fresh : n ∉ l :: (p ++ e :: q)) :
    Ring (Function.update (Function.update next n (some w)) u (some n))
      (Function.update (Function.update prev w (some n)) n (some u)) l (p ++ n :: q) := by
  have wider : ∀ v ∈ l :: (p ++ q), v ∈ l :: (p ++ e :: q) := by
    intro v inside
    simp only [List.mem_cons, List.mem_append] at inside ⊢
    tauto
  have apart : ∀ v ∈ l :: (p ++ q), v ≠ n := by
    rintro v inside rfl
    exact fresh (wider v inside)
  have apartU := apart u (ends_inside front rear).1
  have apartW := apart w (ends_inside front rear).2
  refine ring_splice [e] [n] ring front rear ?_ ?_ ?_ ?_
  · simp [Edge, apartU.symm, apartW]
  · have moved : (l :: (p ++ ([n] ++ q))).Perm (n :: l :: (p ++ q)) :=
      (List.perm_middle.cons l).trans (.swap n l _)
    have kept : (l :: (p ++ q)).Nodup := by
      refine ring.distinct.sublist ?_
      simp
    exact moved.nodup_iff.2 (List.nodup_cons.2 ⟨fun inside => fresh (wider n inside), kept⟩)
  · intro v inside other
    rw [Function.update_of_ne other, Function.update_of_ne (apart v inside)]
  · intro v inside other
    rw [Function.update_of_ne (apart v inside), Function.update_of_ne other]

end DataStructure.DoublyLinked
