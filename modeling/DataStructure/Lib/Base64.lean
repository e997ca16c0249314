import Mathlib

/-! The base64 encoding of RFC 4648: the bits of the octets, regrouped by six. -/

namespace DataStructure.Base64

/-- The 6-bit digits of a sequence of octets, the last one filled up with zero bits. -/
def sextets : List UInt8 → List Nat
  | [] => []
  | [a] => [a.toNat / 4, a.toNat % 4 * 16]
  | [a, b] => [a.toNat / 4, a.toNat % 4 * 16 + b.toNat / 16, b.toNat % 16 * 4]
  | a :: b :: c :: rest =>
      [a.toNat / 4, a.toNat % 4 * 16 + b.toNat / 16, b.toNat % 16 * 4 + c.toNat / 64,
        c.toNat % 64] ++ sextets rest

def alphabet : List UInt8 :=
  "ABCDEFGHIJKLMNOPQRSTUVWXYZabcdefghijklmnopqrstuvwxyz0123456789+/".toList.map
    fun c => UInt8.ofNat c.toNat

def symbol (n : Nat) : UInt8 := alphabet.getD n 0

def padding : UInt8 := 61

def pads (octets : List UInt8) : Nat := (3 - octets.length % 3) % 3

def encode (octets : List UInt8) : List UInt8 :=
  (sextets octets).map symbol ++ List.replicate (pads octets) padding

theorem sextets_lt (octets : List UInt8) : ∀ d ∈ sextets octets, d < 64 := by
  induction octets using sextets.induct with
  | case1 => simp [sextets]
  | case2 a =>
      have h₀ := a.toNat_lt
      simp only [sextets, List.forall_mem_cons, List.not_mem_nil, false_imp_iff, implies_true, and_true]
      omega
  | case3 a b =>
      have h₀ := a.toNat_lt
      have h₁ := b.toNat_lt
      simp only [sextets, List.forall_mem_cons, List.not_mem_nil, false_imp_iff, implies_true, and_true]
      omega
  | case4 a b c rest ih =>
      have h₀ := a.toNat_lt
      have h₁ := b.toNat_lt
      have h₂ := c.toNat_lt
      simp only [sextets, List.cons_append, List.nil_append, List.forall_mem_cons]
      exact ⟨by omega, by omega, by omega, by omega, ih⟩

theorem sextets_length (octets : List UInt8) :
    (sextets octets).length + pads octets = 4 * ((octets.length + 2) / 3) := by
  induction octets using sextets.induct with
  | case1 => rfl
  | case2 a => simp [sextets, pads]
  | case3 a b => simp [sextets, pads]
  | case4 a b c rest ih =>
      simp only [sextets, pads, List.length_cons, List.length_append, List.length_nil] at ih ⊢
      omega

theorem encode_length (octets : List UInt8) :
    (encode octets).length = 4 * ((octets.length + 2) / 3) := by
  rw [encode, List.length_append, List.length_map, List.length_replicate, sextets_length]

theorem encode_group (octets : List UInt8) :
    encode octets = encode (octets.take 3) ++ encode (octets.drop 3) := by
  match octets with
  | [] => rfl
  | [_] => simp [encode, sextets, pads]
  | [_, _] => simp [encode, sextets, pads]
  | a :: b :: c :: rest =>
      have same : pads (a :: b :: c :: rest) = pads rest := by
        simp only [pads, List.length_cons]
        omega
      have full : pads [a, b, c] = 0 := by simp [pads]
      simp [encode, sextets, same, full]

theorem symbol_ne (n : Nat) (small : n < 64) : symbol n ≠ padding ∧ symbol n ≠ 0 := by
  have all : ∀ n : Fin 64, symbol n ≠ padding ∧ symbol n ≠ 0 := by decide +kernel
  exact all ⟨n, small⟩

theorem pads_lt (octets : List UInt8) : pads octets < 3 := Nat.mod_lt _ (by norm_num)

theorem encode_ne_zero (octets : List UInt8) : ∀ c ∈ encode octets, c ≠ 0 := by
  intro c member
  rcases List.mem_append.mp member with digit | pad
  · obtain ⟨d, inside, rfl⟩ := List.mem_map.mp digit
    exact (symbol_ne d (sextets_lt octets d inside)).2
  · rw [List.eq_of_mem_replicate pad]
    decide

/-- Counted from the end, the characters up to the number of pads are padding and those
before them are not. -/
theorem encode_from_end (octets : List UInt8) (j : Nat) (one : 1 ≤ j) (bound : j ≤ (encode octets).length) :
    ∃ c, (encode octets)[(encode octets).length - j]? = some c ∧ (c = padding ↔ j ≤ pads octets) := by
  have length : (encode octets).length = (sextets octets).length + pads octets := by
    rw [encode, List.length_append, List.length_map, List.length_replicate]
  by_cases pad : j ≤ pads octets
  · refine ⟨padding, ?_, by simp [pad]⟩
    rw [length, encode, List.getElem?_append_right (by rw [List.length_map]; omega),
      List.getElem?_replicate, if_pos (by rw [List.length_map]; omega)]
  · have inside : (sextets octets).length + pads octets - j < (sextets octets).length := by omega
    refine ⟨symbol (sextets octets)[(sextets octets).length + pads octets - j], ?_, ?_⟩
    · rw [length, encode, List.getElem?_append_left (by rw [List.length_map]; exact inside),
        List.getElem?_map, List.getElem?_eq_getElem inside, Option.map_some]
    · have small := sextets_lt octets _ (List.getElem_mem inside)
      simp [pad, (symbol_ne _ small).1]

def bits (octet : Nat) : List Bool := (List.range 8).reverse.map octet.testBit

def ofBits (bs : List Bool) : Nat := bs.foldl (fun n b => 2 * n + b.toNat) 0

def groups : List Bool → List Nat
  | [] => []
  | b :: bs => ofBits ((b :: bs ++ List.replicate 5 false).take 6) :: groups (bs.drop 5)
termination_by bs => bs.length
decreasing_by simp

/-- The encoding as RFC 4648 describes it: the groups of six bits as characters, and as many
pads as fill the last four characters. -/
def encodeBits (octets : List UInt8) : List UInt8 :=
  let digits := groups (octets.flatMap fun a => bits a.toNat)
  digits.map symbol ++ List.replicate ((4 - digits.length % 4) % 4) padding

theorem ofBits_foldl (bs : List Bool) (n : Nat) :
    bs.foldl (fun n b => 2 * n + b.toNat) n = n * 2 ^ bs.length + ofBits bs := by
  induction bs generalizing n with
  | nil => simp [ofBits]
  | cons b bs ih =>
      rw [ofBits, List.foldl_cons, List.foldl_cons, ih, ih (2 * 0 + b.toNat), List.length_cons, pow_succ]
      ring

theorem ofBits_append (xs ys : List Bool) :
    ofBits (xs ++ ys) = ofBits xs * 2 ^ ys.length + ofBits ys := by
  rw [ofBits, List.foldl_append, ofBits_foldl ys]
  rfl

theorem bits_length (octet : Nat) : (bits octet).length = 8 := rfl

theorem ofBits_split (a : UInt8) :
    (ofBits ((bits a.toNat).take 6) = a.toNat / 4 ∧ ofBits ((bits a.toNat).drop 6) = a.toNat % 4) ∧
    (ofBits ((bits a.toNat).take 4) = a.toNat / 16 ∧ ofBits ((bits a.toNat).drop 4) = a.toNat % 16) ∧
    (ofBits ((bits a.toNat).take 2) = a.toNat / 64 ∧ ofBits ((bits a.toNat).drop 2) = a.toNat % 64) := by
  have all : ∀ n : Fin 256,
      (ofBits ((bits n).take 6) = n / 4 ∧ ofBits ((bits n).drop 6) = n % 4) ∧
      (ofBits ((bits n).take 4) = n / 16 ∧ ofBits ((bits n).drop 4) = n % 16) ∧
      (ofBits ((bits n).take 2) = n / 64 ∧ ofBits ((bits n).drop 2) = n % 64) := by
    decide +kernel
  exact all ⟨a.toNat, a.toNat_lt⟩

theorem groups_append (six rest : List Bool) (full : six.length = 6) :
    groups (six ++ rest) = ofBits six :: groups rest := by
  match six, full with
  | b :: bs, full =>
      have five : bs.length = 5 := by simpa using full
      rw [List.cons_append, groups, List.drop_left' five, ← List.cons_append, List.append_assoc,
        List.take_left' full]

theorem groups_last (few : List Bool) (some : few ≠ []) (short : few.length < 6) :
    groups few = [ofBits few * 2 ^ (6 - few.length)] := by
  match few, some with
  | b :: bs, _ =>
      have nothing : bs.drop 5 = [] := List.drop_eq_nil_of_le (by simp at short; omega)
      have filled : (b :: bs ++ List.replicate 5 false).take 6 =
          b :: bs ++ List.replicate (6 - (b :: bs).length) false := by
        rw [List.take_append, List.take_of_length_le (by omega), List.take_replicate,
          Nat.min_eq_left (by simp at short ⊢)]
      have zeros : ∀ n, ofBits (List.replicate n false) = 0 := by
        intro n
        induction n with
        | zero => rfl
        | succ n ih => rw [List.replicate_succ', ofBits_append, ih]; rfl
      rw [groups, nothing, filled, ofBits_append, zeros, List.length_replicate, groups, Nat.add_zero]

/-- The digits of the octets are their bits in groups of six. -/
theorem groups_bits (octets : List UInt8) :
    groups (octets.flatMap fun a => bits a.toNat) = sextets octets := by
  induction octets using sextets.induct with
  | case1 => rw [List.flatMap_nil, groups, sextets]
  | case2 a =>
      obtain ⟨⟨high, low⟩, -, -⟩ := ofBits_split a
      have stream : [a].flatMap (fun a => bits a.toNat) =
          (bits a.toNat).take 6 ++ (bits a.toNat).drop 6 := rfl
      rw [stream, groups_append _ _ rfl, groups_last ((bits a.toNat).drop 6) (by simp [bits])
        (by simp [bits_length]), high, low]
      rfl
  | case3 a b =>
      obtain ⟨⟨high, low⟩, -, -⟩ := ofBits_split a
      obtain ⟨-, ⟨upper, lower⟩, -⟩ := ofBits_split b
      have stream : [a, b].flatMap (fun a => bits a.toNat) = (bits a.toNat).take 6 ++
          (((bits a.toNat).drop 6 ++ (bits b.toNat).take 4) ++ (bits b.toNat).drop 4) := rfl
      rw [stream, groups_append _ _ rfl, groups_append _ _ rfl,
        groups_last ((bits b.toNat).drop 4) (by simp [bits]) (by simp [bits_length]), ofBits_append,
        high, low, upper, lower]
      rfl
  | case4 a b c rest ih =>
      obtain ⟨⟨high, low⟩, -, -⟩ := ofBits_split a
      obtain ⟨-, ⟨upper, lower⟩, -⟩ := ofBits_split b
      obtain ⟨-, -, first, second⟩ := ofBits_split c
      have stream : (a :: b :: c :: rest).flatMap (fun a => bits a.toNat) = (bits a.toNat).take 6 ++
          (((bits a.toNat).drop 6 ++ (bits b.toNat).take 4) ++
          (((bits b.toNat).drop 4 ++ (bits c.toNat).take 2) ++
          ((bits c.toNat).drop 2 ++ rest.flatMap (fun a => bits a.toNat)))) := rfl
      rw [stream, groups_append _ _ rfl, groups_append _ _ rfl, groups_append _ _ rfl,
        groups_append _ _ rfl, ofBits_append, ofBits_append, high, low, upper, lower, first, second, ih]
      rfl

theorem encodeBits_eq_encode (octets : List UInt8) : encodeBits octets = encode octets := by
  have length := sextets_length octets
  have few := pads_lt octets
  have same : (4 - (sextets octets).length % 4) % 4 = pads octets := by omega
  rw [encodeBits, encode]
  simp only [groups_bits, same]

example : encodeBits [102, 111] = [90, 109, 56, 61] := by decide +kernel

end DataStructure.Base64
