import DataStructure.Crypt.Base64

/-! The size of the block of `base64_decode` against the number of bytes stored in it.

The text is arbitrary: of any length from three on, with any characters in it and with `=`
in any of its last three places. -/

namespace DataStructure.Crypt

open DataStructure.Program DataStructure.Buffer

/-- The number of bytes stored for `n` characters: three for each four of them, and one for
each character of an incomplete group. -/
def storedLength (n : Nat) : Nat := n / 4 * 3 + n % 4

theorem decodedBytes_length (temp : Nat) (prepare : BitVec 32) :
    (decodedBytes temp prepare).length = min temp 3 := by
  rw [decodedBytes, List.length_map]
  obtain _ | _ | _ | temp := temp
  · rfl
  · rfl
  · rfl
  · rw [List.takeWhile_eq_self_iff.mpr (by simp)]
    simp only [List.length_cons, List.length_nil]
    omega

/-- The loop stores `storedLength` bytes for the characters that it has before it. -/
theorem decodeLoop_fills (nowhere : BitVec 8) (data : List UInt8) (limit fuel tmp : Nat) (need : Need)
    (s : Out) (written : List UInt8) (size : Nat) (inside : limit ≤ data.length) (filled : Filled s written size)
    (room : written.length + storedLength (limit - tmp) ≤ size) (enough : limit - tmp < fuel) :
    wp (decodeLoop nowhere data limit fuel tmp need) (fun _ s' => ∃ whole, Filled s' whole size ∧
      whole.length = written.length + storedLength (limit - tmp)) s := by
  induction fuel generalizing tmp need s written with
  | zero => omega
  | succ fuel ih =>
      generalize here : ((data.take limit).drop tmp).take 4 = chunk
      have size4 : chunk.length = min 4 (limit - tmp) := by
        rw [← here, List.length_take, List.length_drop, List.length_take]
        omega
      by_cases finished : chunk = []
      · rw [finished, List.length_nil] at size4
        have done : limit - tmp = 0 := by omega
        apply decodeLoop_stop nowhere data limit fuel tmp need s _ inside
        · exact List.drop_eq_nil_of_le ((List.length_take_le _ _).trans (by omega))
        · exact ⟨written, filled, by rw [done]; rfl⟩
      · have positive := List.length_pos_iff.mpr finished
        have stored : (storedGroup nowhere chunk).length = min chunk.length 3 :=
          decodedBytes_length _ _
        -- a group of four leaves the rest of the text, a shorter one is the last
        have split : storedLength (limit - tmp) =
            min chunk.length 3 + storedLength (limit - (tmp + chunk.length)) := by
          unfold storedLength
          omega
        apply decodeLoop_group nowhere data limit fuel tmp need s written size _ chunk inside here
          finished filled (by omega)
        intro s₁ filled₁
        have length : (written ++ storedGroup nowhere chunk).length =
            written.length + min chunk.length 3 := by rw [List.length_append, stored]
        refine wp_mono _ _ _ s₁ (ih _ _ s₁ _ filled₁ (by omega) (by omega)) ?_
        intro _ s₂ held
        obtain ⟨whole, filled₂, total⟩ := held
        exact ⟨whole, filled₂, by omega⟩

def finalEquals (data : List UInt8) : Nat := (data.drop (data.length - 3)).countP (· = 61)

theorem equalCount_eq (data : List UInt8) (s : Out) (long : 3 ≤ data.length) :
    wp (equalCount data data.length) (fun n s' => s' = s ∧ n = finalEquals data) s := by
  obtain ⟨front, ends, split, three⟩ : ∃ front ends, data = front ++ ends ∧ ends.length = 3 :=
    ⟨data.take (data.length - 3), data.drop (data.length - 3), (List.take_append_drop _ _).symm,
      by rw [List.length_drop]; omega⟩
  obtain ⟨third, second, last, rfl⟩ := List.length_eq_three.mp three
  subst split
  have length : (front ++ [third, second, last]).length = front.length + 3 := List.length_append
  have here (i : Nat) (c : UInt8) (found : [third, second, last][i]? = some c) :
      (front ++ [third, second, last])[front.length + i]? = some c := by
    rw [List.getElem?_append_right (by omega), Nat.add_sub_cancel_left, found]
  rw [equalCount, length, wp_bind, wp_peek _ _ _ _ s _ (by omega) (here 2 last rfl), wp_bind,
    wp_peek _ _ _ _ s _ (by omega) (here 1 second rfl), wp_bind,
    wp_peek _ _ _ _ s _ (by omega) (here 0 third rfl)]
  refine ⟨rfl, ?_⟩
  rw [finalEquals, length, Nat.add_sub_cancel, List.drop_left]
  exact (List.reverse_perm [last, second, third]).countP_eq _ |>.symm

theorem finalEquals_le (data : List UInt8) : finalEquals data ≤ 3 := by
  apply List.countP_le_length.trans
  rw [List.length_drop]
  omega

theorem storedLength_lt (n equals : Nat) (long : 3 ≤ n) (few : equals ≤ 3) :
    storedLength (n - equals) < n / 4 * 3 + spare equals := by
  unfold storedLength
  interval_cases equals <;> simp only [spare] <;> omega

theorem base64Decode_fills (nowhere : BitVec 8) (need : CharArray 3) (data : List UInt8) (s : Out)
    (long : 3 ≤ data.length) (short : data.length < 2 ^ 30) :
    wp (base64Decode nowhere need data data.length) (fun r s' =>
      r.1.length = data.length / 4 * 3 + spare (finalEquals data) ∧
      s'.f = storedLength (data.length - finalEquals data)) s := by
  have few := finalEquals_le data
  have room := storedLength_lt data.length (finalEquals data) long few
  have least : spare (finalEquals data) ≤ 4 := by
    interval_cases finalEquals data <;> decide
  have size : (data.length : Int).tdiv 4 * 3 + spare (finalEquals data) =
      (data.length / 4 * 3 + spare (finalEquals data) : Nat) := rfl
  have limit : (data.length : Int) - finalEquals data = (data.length - finalEquals data : Nat) := by
    omega
  rw [base64Decode]
  refine wp_seq _ _ _ _ s (equalCount_eq data s long) ?_
  intro n s₀ found
  rw [found.2, size, CInt.toInt_of_small _ (by omega) (by omega), limit, Int.toNat_natCast]
  refine wp_seq _ _ _ _ s₀ (wp_calloc _ s₀) ?_
  intro _ s₁ filled₁
  refine wp_seq _ _ _ _ s₁ (decodeLoop_fills nowhere data _ _ 0 ⟨need, false⟩ s₁ [] _ (by omega)
    filled₁ (by simp only [List.length_nil, Nat.sub_zero]; omega) (by omega)) ?_
  intro need' s₂ held
  obtain ⟨whole, filled₂, total⟩ := held
  rw [List.length_nil, Nat.zero_add, Nat.sub_zero] at total
  refine wp_mono _ _ _ s₂ (wp_finish (·, need'.stray) s₂ whole _ filled₂ (by omega)) ?_
  intro r s₃ finished
  obtain ⟨same, filled₃⟩ := finished
  refine ⟨?_, filled₃.pointer.trans total⟩
  rw [same, filled₃.content, List.length_append, List.length_replicate]
  omega

/-- `base64_decode` of any text of at least three characters allocates `ret_len` bytes and stores
no more than that: `f` has advanced once for each byte before the final 0. -/
theorem base64_decode_stays_in_block (nowhere : BitVec 8) (need : CharArray 3) (data : List UInt8)
    (s : Out) (long : 3 ≤ data.length) (short : data.length < 2 ^ 30) :
    ∃ ret stray s', (base64Decode nowhere need data data.length).run s = .ok ((ret, stray), s') ∧
      ret.length = data.length / 4 * 3 + spare (finalEquals data) ∧ s'.f + 1 ≤ ret.length := by
  obtain ⟨r, s', ran, size, stored⟩ :=
    (wp_iff_run _ _ _).mp (base64Decode_fills nowhere need data s long short)
  refine ⟨r.1, r.2, s', ran, size, ?_⟩
  rw [size, stored]
  exact storedLength_lt data.length (finalEquals data) long (finalEquals_le data)

theorem base64_decode_stays_in_block_seven :
    3 ≤ ([65, 61, 66, 67, 61, 68, 61] : List UInt8).length ∧
      ∃ ret stray s', (base64Decode 0 (CharArray.zeroed 3) [65, 61, 66, 67, 61, 68, 61] 7).run ⟨[], 0⟩ =
        .ok ((ret, stray), s') ∧ ret.length = 6 ∧ s'.f + 1 ≤ ret.length := by
  have long : 3 ≤ ([65, 61, 66, 67, 61, 68, 61] : List UInt8).length := by decide
  exact ⟨long, base64_decode_stays_in_block 0 _ [65, 61, 66, 67, 61, 68, 61] ⟨[], 0⟩ long (by simp)⟩

end DataStructure.Crypt
