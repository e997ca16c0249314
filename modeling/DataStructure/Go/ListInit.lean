import DataStructure.Go.ListRun

/-! Runs of `go/study0507/list/list.go` in which `Init` empties a list that is in use.

`Init` leaves the owner pointer of the elements it drops, and `Remove` asks only for that pointer. -/

namespace DataStructure.GoList

open Program Heap DoublyLinked

variable {V : Type}

/-- A call on one list; `remove k` is given what the k-th push returned. -/
inductive Op (V : Type) where
  | init
  | pushBack (v : V)
  | pushPrev (v : V)
  | remove (k : Nat)

def Op.exec (l : Ptr) (returned : List Ptr) : Op V → Prog (Memory V) (List Ptr)
  | init => do
      let _ ← listInit l
      return returned
  | pushBack v => return returned ++ [← GoList.pushBack l v]
  | pushPrev v => return returned ++ [← GoList.pushPrev l v]
  | remove k => do
      let _ ← removeElement l (returned.getD k none)
      return returned

def runOps [Inhabited V] (ops : List (Op V)) : Prog (Memory V) (Ptr × List Ptr) := do
  let l ← GoList.new
  let returned ← ops.foldlM (Op.exec l) []
  return (l, returned)

/-- What became of the pushed elements, which are counted from 0. -/
structure Account where
  pushes : Nat
  elements : List Nat
  dropped : List Nat

def Op.account (a : Account) : Op V → Account
  | init => { a with elements := [], dropped := a.dropped ++ a.elements }
  | pushBack _ => { a with pushes := a.pushes + 1, elements := a.elements ++ [a.pushes] }
  | pushPrev _ => { a with pushes := a.pushes + 1, elements := a.pushes :: a.elements }
  | remove k => { a with elements := a.elements.erase k }

def account (ops : List (Op V)) : Account :=
  ops.foldl Op.account ⟨0, [], []⟩

def Removes (allowed : Account → Nat → Prop) (ops : List (Op V)) : Prop :=
  ∀ earlier k, earlier ++ [.remove k] <+: ops → allowed (account earlier) k

def RemovesReturned (ops : List (Op V)) : Prop :=
  Removes (fun a k => k < a.pushes) ops

def RemovesUndropped (ops : List (Op V)) : Prop :=
  Removes (fun a k => k ∉ a.dropped) ops

def Counted (l : Ptr) (s : Memory V) : Prop :=
  ∃ vs n, (forward l).run s = .ok (vs, s) ∧ (len l).run s = .ok (n, s) ∧ 0 ≤ n ∧ n = vs.length

/-- After each call of the run `Len` counts the elements, and a `Remove` of a dropped element
changes nothing. -/
structure Consistent [Inhabited V] (ops : List (Op V)) : Prop where
  counted : ∀ earlier, earlier <+: ops → ∃ l returned s,
    (runOps earlier).run GoList.init = .ok ((l, returned), s) ∧ Counted l s
  unchanged : ∀ earlier k, earlier ++ [.remove k] <+: ops → k ∈ (account earlier).dropped →
    (runOps (earlier ++ [.remove k])).run GoList.init = (runOps earlier).run GoList.init

theorem removes_concat (allowed : Account → Nat → Prop) (ops : List (Op V)) (op : Op V) :
    Removes allowed (ops ++ [op]) ↔
      Removes allowed ops ∧ ∀ k, op = .remove k → allowed (account ops) k := by
  constructor
  · intro all
    refine ⟨?_, ?_⟩
    · intro earlier k before
      exact all earlier k (before.trans (List.prefix_append ops [op]))
    · intro k last
      exact all ops k (by rw [last])
  · intro both earlier k before
    obtain whole | inside := List.prefix_concat_iff.1 before
    · obtain ⟨same, last⟩ := List.append_inj' whole rfl
      rw [same]
      exact both.2 k (List.cons.inj last).1.symm
    · exact both.1 earlier k inside

theorem removes_nil (allowed : Account → Nat → Prop) : Removes (V := V) allowed [] := by
  intro earlier k before
  simp at before

theorem Removes.of_prefix {allowed : Account → Nat → Prop} {ops earlier : List (Op V)}
    (all : Removes allowed ops) (before : earlier <+: ops) : Removes allowed earlier :=
  fun first k inside => all first k (inside.trans before)

theorem Consistent.of_prefix [Inhabited V] {ops earlier : List (Op V)} (all : Consistent ops)
    (before : earlier <+: ops) : Consistent earlier where
  counted first inside := all.counted first (inside.trans before)
  unchanged first k inside := all.unchanged first k (inside.trans before)

theorem account_concat (ops : List (Op V)) (op : Op V) :
    account (ops ++ [op]) = op.account (account ops) := by
  simp [account]

def handles (n : Nat) : List Ptr :=
  (List.range n).map fun k => some (k + 1)

theorem handles_succ (n : Nat) : handles (n + 1) = handles n ++ [some (n + 1)] := by
  simp [handles, List.range_succ]

theorem handles_getD {n k : Nat} (returned : k < n) : (handles n).getD k none = some (k + 1) := by
  simp [handles, returned]

/-- The memory holds the account's list, and the dropped elements still name it as theirs. -/
structure Tracks (a : Account) (i : Ideal V) (s : Memory V) : Prop where
  holds : Holds i s
  count : i.count = a.pushes + 1
  listed : i.lists 0 = some (a.elements.map (· + 1))
  pushed : ∀ k < a.pushes, k ∉ a.dropped → ∃ v, i.pushed (k + 1) = some v
  stale : ∀ k ∈ a.dropped, k < a.pushes ∧ (fields s).list (k + 1) = some 0

def Ideal.dropAll (i : Ideal V) (l : Nat) (xs : List Nat) : Ideal V :=
  ⟨i.count, Function.update i.lists l (some []), fun e => if e ∈ xs then none else i.pushed e⟩

theorem dropAll_pushed {i : Ideal V} {l e : Nat} {xs : List Nat} {v : V} :
    (i.dropAll l xs).pushed e = some v ↔ e ∉ xs ∧ i.pushed e = some v := by
  simp [Ideal.dropAll]

theorem listInit_holds {i : Ideal V} {s : Memory V} (holds : Holds i s) {l : Nat} {xs : List Nat}
    (listed : i.lists l = some xs) :
    wp (listInit (some l)) (fun _ s' => (fields s').list = (fields s).list ∧
      Holds (i.dropAll l xs) s') s := by
  obtain ⟨v, held⟩ := holds.root l xs listed
  apply listInit_spec held (holds.len l xs listed)
  intro s' brk' fields'
  have relinked := relinked_emptied i (fields s) (List.mem_cons_self (a := l) (l := xs))
  refine ⟨by rw [fields']; rfl, holds_update holds l _ [] fields' relinked
    (nodes_away holds listed) rfl (brk'.trans holds.brk) ?_ ?_ ⟨v, held⟩ ?_ (by simp) ?_ ?_⟩
  · intro a va value
    rw [brk']
    exact holds.below a va value
  · exact Function.update_self ..
  · exact ring_empty (Function.update_self ..) (Function.update_self ..)
  · intro l' ys e ve other listed' member pushed
    refine dropAll_pushed.2 ⟨?_, pushed⟩
    intro here
    exact lists_apart holds listed listed' other.symm (List.mem_cons_of_mem l here)
      (List.mem_cons_of_mem l' member)
  · intro e ve pushed
    obtain ⟨outside, before⟩ := dropAll_pushed.1 pushed
    exact ⟨element_kept holds relinked before (list_ne_element holds listed before).symm,
      owner_kept holds listed before (by simp [outside])⟩

section State

variable {a : Account} {i : Ideal V} {s : Memory V} (tracks : Tracks a i s)
include tracks

theorem init_tracks :
    wp (listInit (some 0)) (fun _ s' => ∃ i', Tracks (Op.init.account (V := V) a) i' s') s := by
  have holds := tracks.holds
  refine wp_mono _ _ _ s (listInit_holds holds tracks.listed) ?_
  intro _ s' done
  obtain ⟨owners, after⟩ := done
  refine ⟨_, after, tracks.count, by simp [Ideal.dropAll, Op.account], ?_, ?_⟩
  · intro k returned kept
    simp only [Op.account, List.mem_append, not_or] at kept
    obtain ⟨v, pushed⟩ := tracks.pushed k returned kept.1
    exact ⟨v, dropAll_pushed.2 ⟨by simpa using kept.2, pushed⟩⟩
  · intro k gone
    rw [owners]
    rcases List.mem_append.1 gone with before | now
    · exact tracks.stale k before
    · have member : k + 1 ∈ a.elements.map (· + 1) := List.mem_map_of_mem now
      obtain ⟨v, pushed⟩ := holds.member 0 _ (k + 1) tracks.listed member
      have below := pushed_lt holds pushed
      have count := tracks.count
      exact ⟨by dsimp only [Op.account]; omega,
        (holds.owner (k + 1) v 0 pushed).2 ⟨_, tracks.listed, member⟩⟩

theorem push_tracks (push : Prog (Memory V) Ptr) (v : V) (elements : List Nat)
    (pushes : wp push (fun reply s' => reply = some i.count ∧
      (∀ b, b ≠ i.count → (fields s').list b = (fields s).list b) ∧
      Holds ⟨i.count + 1, Function.update i.lists 0 (some (elements.map (· + 1))),
        Function.update i.pushed i.count (some v)⟩ s') s) :
    wp (do return handles a.pushes ++ [← push]) (fun reply s' => reply = handles (a.pushes + 1) ∧
      ∃ i', Tracks ⟨a.pushes + 1, elements, a.dropped⟩ i' s') s := by
  have count := tracks.count
  rw [wp_bind]
  refine wp_mono _ _ _ s pushes ?_
  intro reply s' done
  obtain ⟨handle, owners, after⟩ := done
  rw [handle, count]
  refine ⟨(handles_succ a.pushes).symm, _, after, by rw [count], by simp, ?_, ?_⟩
  · intro k returned kept
    by_cases last : k = a.pushes
    · exact ⟨v, by rw [last, count]; exact Function.update_self ..⟩
    · obtain ⟨w, pushed⟩ := tracks.pushed k (by dsimp only at returned; omega) kept
      exact ⟨w, (Function.update_of_ne (by omega) _ _).trans pushed⟩
  · intro k gone
    obtain ⟨returned, owner⟩ := tracks.stale k gone
    exact ⟨Nat.lt_succ_of_lt returned, (owners (k + 1) (by omega)).trans owner⟩

theorem remove_tracks {k : Nat} (returned : k < a.pushes) (kept : k ∉ a.dropped) :
    wp (removeElement (some 0) (some (k + 1))) (fun _ s' =>
      ∃ i', Tracks ((Op.remove (V := V) k).account a) i' s') s := by
  obtain ⟨v, pushed⟩ := tracks.pushed k returned kept
  refine wp_mono _ _ _ s (removeElement_holds tracks.holds tracks.listed pushed) ?_
  intro _ s' done
  obtain ⟨-, owners, after, -⟩ := done
  refine ⟨_, after, tracks.count, ?_, tracks.pushed, ?_⟩
  · rw [Call.ideal]
    dsimp only [Op.account]
    rw [Function.update_self, tracks.listed, Option.map_some,
      List.map_erase (add_left_injective 1)]
  · intro d gone
    obtain ⟨before, owner⟩ := tracks.stale d gone
    have other : d ≠ k := by
      intro same
      rw [same] at gone
      exact kept gone
    exact ⟨before, (owners (d + 1) (by omega)).trans owner⟩

theorem exec_tracks (op : Op V) (returned : ∀ k, op = .remove k → k < a.pushes)
    (kept : ∀ k, op = .remove k → k ∉ a.dropped) :
    wp (op.exec (some 0) (handles a.pushes)) (fun reply s' =>
      reply = handles (op.account a).pushes ∧ ∃ i', Tracks (op.account a) i' s') s := by
  cases op with
  | init =>
      rw [Op.exec, wp_bind]
      refine wp_mono _ _ _ s (init_tracks tracks) ?_
      intro _ s' after
      exact ⟨rfl, after⟩
  | pushBack v =>
      apply push_tracks tracks _ v (a.elements ++ [a.pushes])
      have spec := pushBack_holds tracks.holds v tracks.listed
      rw [Call.ideal, tracks.listed] at spec
      simpa [tracks.count] using spec
  | pushPrev v =>
      apply push_tracks tracks _ v (a.pushes :: a.elements)
      have spec := pushPrev_holds tracks.holds v tracks.listed
      rw [Call.ideal, tracks.listed] at spec
      simpa [tracks.count] using spec
  | remove k =>
      rw [Op.exec, handles_getD (returned k rfl), wp_bind]
      refine wp_mono _ _ _ s (remove_tracks tracks (returned k rfl) (kept k rfl)) ?_
      intro _ s' after
      exact ⟨rfl, after⟩

theorem tracks_counted : Counted (some 0) s := by
  have values : i.values 0 = some ((a.elements.map (· + 1)).filterMap i.pushed) := by
    rw [Ideal.values, tracks.listed, Option.map_some]
  obtain ⟨visited, -, length⟩ := holds_shows tracks.holds 0 _ values
  exact ⟨_, _, visited, length, by omega, rfl⟩

end State

theorem tracks_new [Inhabited V] :
    wp (GoList.new : Prog (Memory V) Ptr) (fun l s =>
      l = some 0 ∧ ∃ i, Tracks ⟨0, [], []⟩ i s) GoList.init := by
  refine wp_mono _ _ _ _ (new_holds holds_init) ?_
  intro l s done
  obtain ⟨handle, after⟩ := done
  exact ⟨handle, _, after, rfl, rfl, by simp, by simp⟩

theorem runOps_concat [Inhabited V] (ops : List (Op V)) (op : Op V) :
    runOps (ops ++ [op]) = do
      let r ← runOps ops
      let returned ← op.exec r.1 r.2
      return (r.1, returned) := by
  simp [runOps]

/-- A run that removes no dropped element keeps the list as the account has it. -/
theorem runOps_tracks [Inhabited V] (ops : List (Op V)) (returned : RemovesReturned ops)
    (undropped : RemovesUndropped ops) :
    wp (runOps ops) (fun r s => r = (some 0, handles (account ops).pushes) ∧
      ∃ i, Tracks (account ops) i s) GoList.init := by
  induction ops using List.reverseRecOn with
  | nil =>
      rw [runOps, wp_bind]
      refine wp_mono _ _ _ _ tracks_new ?_
      intro l s done
      obtain ⟨handle, tracks⟩ := done
      subst handle
      exact ⟨rfl, tracks⟩
  | append_singleton ops op ih =>
      rw [RemovesReturned, removes_concat] at returned
      rw [RemovesUndropped, removes_concat] at undropped
      rw [runOps_concat, account_concat, wp_bind]
      refine wp_mono _ _ _ _ (ih returned.1 undropped.1) ?_
      intro r s done
      obtain ⟨handle, i, tracks⟩ := done
      subst handle
      rw [wp_bind]
      refine wp_mono _ _ _ _ (exec_tracks tracks op returned.2 undropped.2) ?_
      intro reply s' after
      exact ⟨by rw [after.1], after.2⟩

theorem elem_ran {s s' : Memory V} {e : Nat} {this : Element V}
    (ran : (elem (some e)).run s = .ok (this, s')) :
    s' = s ∧ this.list = (fields s).list e := by
  have returned : wp (elem (some e)) (fun that s₁ => that = this ∧ s₁ = s') s :=
    (wp_of_run ran).2 ⟨rfl, rfl⟩
  simp only [elem, wp_bind, wp_load, wp_pure] at returned
  obtain ⟨n, cell, same, kept⟩ := returned
  exact ⟨kept.symm, by simp [fields, cell, ← same]⟩

theorem getLen_ran {s s' : Memory V} {l : Nat} {k : Int}
    (ran : (getLen (some l)).run s = .ok (k, s')) : s' = s := by
  have returned : wp (getLen (some l)) (fun _ s₁ => s₁ = s') s := (wp_of_run ran).2 rfl
  simp only [getLen, wp_bind, wp_load] at returned
  obtain ⟨n, -, kept⟩ := returned
  cases n with
  | element e => cases kept
  | list len root => exact kept.symm

theorem setList_ran {s s' : Memory V} {e : Nat} {l : Ptr}
    (ran : (setList (some e) l).run s = .ok ((), s')) : (fields s').list e = l := by
  have returned : wp (setList (some e) l) (fun _ s₁ => s₁ = s') s := (wp_of_run ran).2 rfl
  simp only [setList, wp_assign] at returned
  obtain ⟨n, -, stored⟩ := returned
  rw [← stored, fields_put]
  simp

theorem setLen_ran {s s' : Memory V} {l : Nat} {k : Int}
    (ran : (setLen (some l) k).run s = .ok ((), s')) : (fields s').list = (fields s).list := by
  have returned : wp (setLen (some l) k) (fun _ s₁ => s₁ = s') s := (wp_of_run ran).2 rfl
  simp only [setLen, wp_bind, wp_load] at returned
  obtain ⟨n, cell, stored⟩ := returned
  cases n with
  | element e => cases stored
  | list len root =>
      simp only [wp_assign] at stored
      obtain ⟨_, -, stored⟩ := stored
      rw [← stored, fields_put]
      simp [fields, cell, Node.elem]

theorem remove_ran {s s' : Memory V} {l e : Nat} {p : Ptr}
    (ran : (remove (some l) (some e)).run s = .ok (p, s')) : (fields s').list e = none := by
  -- up to e.list = nil
  obtain ⟨_, _, _, rest⟩ := run_bind_ok ran
  obtain ⟨_, _, _, rest⟩ := run_bind_ok rest
  obtain ⟨_, _, _, rest⟩ := run_bind_ok rest
  obtain ⟨_, _, _, rest⟩ := run_bind_ok rest
  obtain ⟨_, _, _, rest⟩ := run_bind_ok rest
  obtain ⟨_, _, _, rest⟩ := run_bind_ok rest
  obtain ⟨_, _, _, rest⟩ := run_bind_ok rest
  obtain ⟨_, _, _, rest⟩ := run_bind_ok rest
  obtain ⟨_, s₁, disowned, rest⟩ := run_bind_ok rest
  obtain ⟨_, s₂, counted, rest⟩ := run_bind_ok rest
  obtain ⟨_, s₃, stored, rest⟩ := run_bind_ok rest
  cases rest
  rw [setLen_ran stored, getLen_ran counted]
  exact setList_ran disowned

/-- `Remove` takes an element out of the list that it names as its own, also if it is not there. -/
theorem removeElement_ran {s s' : Memory V} {l e : Nat} {v : V}
    (ran : (removeElement (some l) (some e)).run s = .ok (v, s'))
    (owned : (fields s).list e = some l) : (fields s').list e = none := by
  obtain ⟨this, s₀, looked, rest⟩ := run_bind_ok ran
  obtain ⟨kept, owner⟩ := elem_ran looked
  subst kept
  dsimp only at rest
  rw [if_pos (owner.trans owned)] at rest
  obtain ⟨_, s₁, removed, rest⟩ := run_bind_ok rest
  obtain ⟨_, s₂, looked, rest⟩ := run_bind_ok rest
  cases rest
  rw [(elem_ran looked).1]
  exact remove_ran removed

/-- The first `Remove` of a dropped element is seen in the memory. -/
theorem stale_remove_changes [Inhabited V] {ops : List (Op V)} {k : Nat}
    (returned : RemovesReturned ops) (undropped : RemovesUndropped ops)
    (gone : k ∈ (account ops).dropped) :
    (runOps (ops ++ [.remove k])).run GoList.init ≠ (runOps ops).run GoList.init := by
  intro unchanged
  obtain ⟨r, s, ran, handle, i, tracks⟩ :=
    (wp_iff_run _ _ _).1 (runOps_tracks ops returned undropped)
  subst handle
  obtain ⟨before, owner⟩ := tracks.stale k gone
  rw [ran, runOps_concat] at unchanged
  obtain ⟨r, s₁, again, rest⟩ := run_bind_ok unchanged
  rw [ran] at again
  cases again
  obtain ⟨_, s₂, executed, rest⟩ := run_bind_ok rest
  cases rest
  obtain ⟨_, s₃, removed, rest⟩ := run_bind_ok executed
  cases rest
  rw [handles_getD before] at removed
  have lost := removeElement_ran removed owner
  rw [owner] at lost
  cases lost

/-- `Len` counts the elements after each call, and removing a dropped element changes nothing,
exactly in the runs that remove no dropped element. -/
theorem consistent_iff [Inhabited V] (ops : List (Op V)) (returned : RemovesReturned ops) :
    Consistent ops ↔ RemovesUndropped ops := by
  constructor
  · intro consistent
    induction ops using List.reverseRecOn with
    | nil => exact removes_nil _
    | append_singleton ops op ih =>
        obtain ⟨returned₁, _⟩ := (removes_concat _ _ _).1 returned
        have undropped := ih returned₁ (consistent.of_prefix (List.prefix_append ops [op]))
        refine (removes_concat _ _ _).2 ⟨undropped, ?_⟩
        intro k last gone
        subst last
        exact stale_remove_changes returned₁ undropped gone
          (consistent.unchanged ops k (List.prefix_refl _) gone)
  · intro undropped
    refine ⟨?_, ?_⟩
    · intro earlier before
      obtain ⟨r, s, ran, handle, i, tracks⟩ := (wp_iff_run _ _ _).1
        (runOps_tracks earlier (returned.of_prefix before) (undropped.of_prefix before))
      subst handle
      exact ⟨_, _, s, ran, tracks_counted tracks⟩
    · intro earlier k before gone
      exact absurd gone (undropped earlier k before)

theorem consistent_after_init :
    Consistent [Op.pushBack 5, .init, .pushPrev 6, .remove 1, .remove 1] := by
  have run : ∀ allowed : Account → Nat → Prop, allowed ⟨2, [1], [0]⟩ 1 → allowed ⟨2, [], [0]⟩ 1 →
      Removes allowed [Op.pushBack 5, .init, .pushPrev 6, .remove 1, .remove 1] := by
    intro allowed first second
    have pushes : Removes allowed [Op.pushBack 5, .init, .pushPrev 6] := by
      refine (removes_concat _ [_, _] _).2 ⟨?_, by simp⟩
      refine (removes_concat _ [_] _).2 ⟨?_, by simp⟩
      exact (removes_concat _ [] _).2 ⟨removes_nil _, by simp⟩
    refine (removes_concat _ [_, _, _, _] _).2 ⟨?_, by simpa [account, Op.account] using second⟩
    exact (removes_concat _ [_, _, _] _).2 ⟨pushes, by simpa [account, Op.account] using first⟩
  exact (consistent_iff _ (run _ (by decide) (by decide))).2 (run _ (by decide) (by decide))

theorem stale_remove_len :
    RemovesReturned [Op.pushBack 5, .init, .remove 0] ∧
      ¬Consistent [Op.pushBack 5, .init, .remove 0] ∧
      ∃ l returned s,
        (runOps [.pushBack 5, .init, .remove 0]).run GoList.init = .ok ((l, returned), s) ∧
        (forward l).run s = .ok ([0], s) ∧ (len l).run s = .ok (-1, s) := by
  obtain ⟨l, returned, s, ran, visited, length⟩ : ∃ l returned s,
      (runOps [.pushBack 5, .init, .remove 0]).run GoList.init = .ok ((l, returned), s) ∧
      (forward l).run s = .ok ([0], s) ∧ (len l).run s = .ok (-1, s) := ⟨_, _, _, rfl, rfl, rfl⟩
  refine ⟨?_, ?_, l, returned, s, ran, visited, length⟩
  · refine (removes_concat _ [_, _] _).2 ⟨?_, by simp [account, Op.account]⟩
    refine (removes_concat _ [_] _).2 ⟨?_, by simp⟩
    exact (removes_concat _ [] _).2 ⟨removes_nil _, by simp⟩
  · intro consistent
    obtain ⟨l', returned', s', ran', vs, n, -, length', positive, -⟩ :=
      consistent.counted _ (List.prefix_refl _)
    rw [ran] at ran'
    cases ran'
    rw [length] at length'
    cases length'
    omega

end DataStructure.GoList
