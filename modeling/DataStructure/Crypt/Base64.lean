import DataStructure.Lib.CharArray
import DataStructure.Lib.Base64
import DataStructure.Lib.Buffer

/-! `base64_encode` and `base64_decode` of `crypt/base64.c`.

`base64_decode` clears four bytes of its array `need`, which has three. C does not say what the
fourth byte holds, so a run that has stored it is marked as `stray`; it is followed as if that
byte held no variable of the function. -/

namespace DataStructure.Crypt

open DataStructure.Program DataStructure.Buffer DataStructure.Base64

def base : List UInt8 :=
  "ABCDEFGHIJKLMNOPQRSTUVWXYZabcdefghijklmnopqrstuvwxyz0123456789+/=".toList.map
    fun c => UInt8.ofNat c.toNat

/-- `nowhere` is what the subtraction of `base` from NULL leaves in a `char`. -/
def findPos (nowhere : BitVec 8) (ch : UInt8) : BitVec 8 :=
  ((CText.strrchr (base ++ [0]) ch).map (BitVec.ofNat 8)).getD nowhere

def shiftIn (shift : Nat) (digit : UInt8 → BitVec 32) (prepare : BitVec 32) (c : UInt8) : BitVec 32 :=
  prepare <<< shift ||| digit c

/-- The inner loops: up to `n` characters before `limit` are shifted into `prepare`. The
results are `tmp`, `temp` and `prepare`. -/
def gather (data : List UInt8) (limit : Int) (shift : Nat) (digit : UInt8 → BitVec 32) :
    Nat → Nat → Nat → BitVec 32 → Prog Out (Nat × Nat × BitVec 32)
  | 0, tmp, temp, prepare => pure (tmp, temp, prepare)
  | n + 1, tmp, temp, prepare =>
      if limit ≤ tmp then pure (tmp, temp, prepare)
      else do
        let c ← peek data tmp
        gather data limit shift digit n (tmp + 1) (temp + 1) (shiftIn shift digit prepare c)

def octet (c : UInt8) : BitVec 32 := c.toBitVec.setWidth 32

def changed (temp : Nat) (prepare : BitVec 32) (i : Nat) : Nat :=
  if temp < i then 0x40 else (prepare.sshiftRight ((3 - i) * 6) &&& 0x3F).toNat

def encodeLoop (data : List UInt8) (dataLen : Int) : Nat → Nat → Prog Out Unit
  | 0, _ => fault .stuck
  | fuel + 1, tmp =>
      if (tmp : Int) < dataLen then do
        let (tmp, temp, prepare) ← gather data dataLen 8 octet 3 tmp 0 0
        let prepare := prepare <<< ((3 - temp) * 8)
        emitAll ([0, 1, 2, 3].map fun i => base.getD (changed temp prepare i) 0)
        encodeLoop data dataLen fuel tmp
      else pure ()

def base64Encode (data : List UInt8) (dataLen : Int) : Prog Out (List UInt8) := do
  let retLen := dataLen.tdiv 3 + if 0 < dataLen.tmod 3 then 1 else 0
  calloc (CInt.toInt (retLen * 4 + 1))
  encodeLoop data dataLen (dataLen.toNat + 1) 0
  store 0
  pure (← get).ret

/-- `find_pos(data[tmp])`, a signed `char`, as an operand of `|`. -/
def sextet (nowhere : BitVec 8) (c : UInt8) : BitVec 32 := (findPos nowhere c).signExtend 32

def decodedBytes (temp : Nat) (prepare : BitVec 32) : List UInt8 :=
  ([0, 1, 2].takeWhile (· ≠ temp)).map fun i =>
    ⟨(prepare.sshiftRight ((2 - i) * 8) &&& 0xFF).setWidth 8⟩

/-- The array `need`, and whether a byte behind it was stored. -/
structure Need where
  bytes : CharArray 3
  stray : Bool

def Need.clear (need : Need) : Need :=
  let (bytes, beyond) := need.bytes.memset 0 4
  ⟨bytes, need.stray || beyond⟩

def decodeLoop (nowhere : BitVec 8) (data : List UInt8) (limit : Int) :
    Nat → Nat → Need → Prog Out Need
  | 0, _, _ => fault .stuck
  | fuel + 1, tmp, need =>
      if (tmp : Int) < limit then do
        let need := need.clear
        let (tmp, temp, prepare) ← gather data limit 6 (sextet nowhere) 4 tmp 0 0
        let prepare := prepare <<< ((4 - temp) * 6)
        emitAll (decodedBytes temp prepare)
        decodeLoop nowhere data limit fuel tmp need
      else pure need

def equalCount (data : List UInt8) (dataLen : Int) : Prog Out Nat := do
  let last ← peek data (dataLen - 1)
  let second ← peek data (dataLen - 2)
  let third ← peek data (dataLen - 3)
  pure ([last, second, third].countP (· = 61))

def spare : Nat → Nat
  | 0 => 4
  | 1 => 4
  | 2 => 3
  | _ => 2

/-- The block that is returned, and whether the run has stored a byte behind `need`, which holds
anything at first. -/
def base64Decode (nowhere : BitVec 8) (need : CharArray 3) (data : List UInt8) (dataLen : Int) :
    Prog Out (List UInt8 × Bool) := do
  let equals ← equalCount data dataLen
  calloc (CInt.toInt (dataLen.tdiv 4 * 3 + spare equals))
  let need ← decodeLoop nowhere data (dataLen - equals) (dataLen.toNat + 1) 0 ⟨need, false⟩
  store 0
  pure ((← get).ret, need.stray)

theorem toNat_shift_or (p q : BitVec 32) (k : Nat) (digit : q.toNat < 2 ^ k)
    (room : p.toNat * 2 ^ k < 2 ^ 32) : (p <<< k ||| q).toNat = p.toNat * 2 ^ k + q.toNat := by
  rw [BitVec.toNat_or, BitVec.toNat_shiftLeft, Nat.shiftLeft_eq, Nat.mod_eq_of_lt room,
    ← Nat.shiftLeft_eq, Nat.shiftLeft_add_eq_or_of_lt digit]

theorem toNat_shift (p : BitVec 32) (k : Nat) (room : p.toNat * 2 ^ k < 2 ^ 32) :
    (p <<< k).toNat = p.toNat * 2 ^ k := by
  rw [BitVec.toNat_shiftLeft, Nat.shiftLeft_eq, Nat.mod_eq_of_lt room]

/-- Shifting digits in computes the value of the sequence of digits. -/
theorem toNat_foldl (k : Nat) (digit : UInt8 → BitVec 32) (cs : List UInt8) (p : BitVec 32) (width : Nat)
    (each : ∀ c ∈ cs, (digit c).toNat < 2 ^ k) (start : p.toNat < 2 ^ width)
    (room : width + k * cs.length ≤ 32) :
    (cs.foldl (shiftIn k digit) p).toNat = cs.foldl (fun n c => n * 2 ^ k + (digit c).toNat) p.toNat ∧
      (cs.foldl (shiftIn k digit) p).toNat < 2 ^ (width + k * cs.length) := by
  induction cs generalizing p width with
  | nil => simpa using start
  | cons c cs ih =>
      have first := each c List.mem_cons_self
      rw [List.length_cons, Nat.mul_succ] at room ⊢
      have grown : p.toNat * 2 ^ k + (digit c).toNat < 2 ^ (width + k) := by
        rw [pow_add]
        calc
          p.toNat * 2 ^ k + (digit c).toNat < p.toNat * 2 ^ k + 2 ^ k := by omega
          _ = (p.toNat + 1) * 2 ^ k := by ring
          _ ≤ 2 ^ width * 2 ^ k := Nat.mul_le_mul_right _ start
      have fits : p.toNat * 2 ^ k < 2 ^ 32 := by
        calc
          p.toNat * 2 ^ k < 2 ^ (width + k) := by omega
          _ ≤ 2 ^ 32 := Nat.pow_le_pow_right (by norm_num) (by omega)
      have shifted := toNat_shift_or p (digit c) k first fits
      have rest := ih (shiftIn k digit p c) (width + k)
        (fun d member => each d (List.mem_cons_of_mem _ member)) (by rwa [shiftIn, shifted]) (by omega)
      rw [shiftIn, shifted, ← shiftIn, Nat.add_assoc, Nat.add_comm k] at rest
      exact rest

theorem gather_spec (data : List UInt8) (limit shift : Nat) (digit : UInt8 → BitVec 32)
    (n tmp temp : Nat) (prepare : BitVec 32) (s : Out) (inside : limit ≤ data.length) :
    wp (gather data limit shift digit n tmp temp prepare) (fun r s' => s' = s ∧
      r = (tmp + (((data.take limit).drop tmp).take n).length,
        temp + (((data.take limit).drop tmp).take n).length,
        (((data.take limit).drop tmp).take n).foldl (shiftIn shift digit) prepare)) s := by
  induction n generalizing tmp temp prepare with
  | zero => simp [gather]
  | succ n ih =>
      by_cases finished : limit ≤ tmp
      · have nothing : (data.take limit).drop tmp = [] :=
          List.drop_eq_nil_of_le ((List.length_take_le _ _).trans finished)
        have stop : (limit : Int) ≤ tmp := by omega
        simp [gather, stop, nothing]
      · have here : tmp < (data.take limit).length := by
          rw [List.length_take]
          omega
        have next : ¬(limit : Int) ≤ tmp := by omega
        have index : data[tmp]? = some (data.take limit)[tmp] := by
          rw [List.getElem_take]
          exact List.getElem?_eq_getElem _
        rw [gather, if_neg next, wp_bind, wp_peek data tmp tmp _ s _ rfl index]
        refine wp_mono _ _ _ s (ih _ _ _) ?_
        rintro r s' ⟨kept, rfl⟩
        refine ⟨kept, ?_⟩
        rw [List.drop_eq_getElem_cons here, List.take_succ_cons, List.length_cons, List.foldl_cons]
        simp only [Prod.mk.injEq, and_true]
        omega

theorem shift_fits (n k length total : Nat) (few : length ≤ total) (bits : k * total = 24)
    (bound : n < 2 ^ (0 + k * length)) : n * 2 ^ ((total - length) * k) < 2 ^ 24 := by
  obtain ⟨missing, rfl⟩ := Nat.exists_eq_add_of_le few
  rw [Nat.add_sub_cancel_left, ← bits]
  calc
    n * 2 ^ (missing * k) < 2 ^ (0 + k * length) * 2 ^ (missing * k) :=
      Nat.mul_lt_mul_of_pos_right bound (by positivity)
    _ = 2 ^ (k * (length + missing)) := by
      rw [← pow_add]
      congr 1
      ring

theorem toNat_octet (c : UInt8) : (octet c).toNat = c.toNat := by
  rw [octet, BitVec.toNat_setWidth]
  exact Nat.mod_eq_of_lt (c.toNat_lt.trans (by norm_num))

theorem base_eq : base = alphabet ++ [padding] := by
  decide +kernel

theorem base_getD (n : Nat) (small : n < 64) : base.getD n 0 = symbol n := by
  rw [base_eq, List.getD_append _ _ _ _ small, symbol]

theorem changed_eq (temp : Nat) (prepare : BitVec 32) (i : Nat) (small : prepare.toNat < 2 ^ 24) :
    changed temp prepare i = if temp < i then 64 else prepare.toNat / 2 ^ ((3 - i) * 6) % 64 := by
  have mask : (0x3F : BitVec 32).toNat = 2 ^ 6 - 1 := rfl
  rw [changed, BitVec.toNat_and, mask, Nat.and_two_pow_sub_one_eq_mod,
    CInt.toNat_sshiftRight_of_small _ _ (small.trans (by norm_num))]

def encodeGroup (temp n : Nat) : List UInt8 :=
  [0, 1, 2, 3].map fun i => base.getD (if temp < i then 64 else n / 2 ^ ((3 - i) * 6) % 64) 0

theorem encodeGroup_eq (temp n : Nat) : encodeGroup temp n =
    [symbol (n / 2 ^ 18 % 64),
      if temp < 1 then padding else symbol (n / 2 ^ 12 % 64),
      if temp < 2 then padding else symbol (n / 2 ^ 6 % 64),
      if temp < 3 then padding else symbol (n % 64)] := by
  have pad : base.getD 64 0 = padding := by decide +kernel
  have digit (m : Nat) : base.getD (m % 64) 0 = symbol (m % 64) := base_getD _ (Nat.mod_lt _ (by norm_num))
  have choose (i m : Nat) : base.getD (if temp < i then 64 else m % 64) 0 =
      if temp < i then padding else symbol (m % 64) := by
    split
    · exact pad
    · exact digit m
  simp only [encodeGroup, List.map_cons, List.map_nil, choose]
  simp

theorem encode_one (a : UInt8) : encode [a] = encodeGroup 1 (a.toNat * 2 ^ 16) := by
  have h₀ := a.toNat_lt
  have tail : pads [a] = 2 := by simp [pads]
  have first : a.toNat * 2 ^ 16 / 2 ^ 18 % 64 = a.toNat / 4 := by omega
  have second : a.toNat * 2 ^ 16 / 2 ^ 12 % 64 = a.toNat % 4 * 16 := by omega
  rw [encodeGroup_eq, first, second, encode, sextets, tail]
  rfl

theorem encode_two (a b : UInt8) :
    encode [a, b] = encodeGroup 2 ((a.toNat * 2 ^ 8 + b.toNat) * 2 ^ 8) := by
  have h₀ := a.toNat_lt
  have h₁ := b.toNat_lt
  have tail : pads [a, b] = 1 := by simp [pads]
  have first : (a.toNat * 2 ^ 8 + b.toNat) * 2 ^ 8 / 2 ^ 18 % 64 = a.toNat / 4 := by omega
  have second : (a.toNat * 2 ^ 8 + b.toNat) * 2 ^ 8 / 2 ^ 12 % 64 = a.toNat % 4 * 16 + b.toNat / 16 := by
    omega
  have third : (a.toNat * 2 ^ 8 + b.toNat) * 2 ^ 8 / 2 ^ 6 % 64 = b.toNat % 16 * 4 := by omega
  rw [encodeGroup_eq, first, second, third, encode, sextets, tail]
  rfl

theorem encode_three (a b c : UInt8) :
    encode [a, b, c] = encodeGroup 3 ((a.toNat * 2 ^ 8 + b.toNat) * 2 ^ 8 + c.toNat) := by
  have h₀ := a.toNat_lt
  have h₁ := b.toNat_lt
  have h₂ := c.toNat_lt
  have tail : pads [a, b, c] = 0 := by simp [pads]
  have first : ((a.toNat * 2 ^ 8 + b.toNat) * 2 ^ 8 + c.toNat) / 2 ^ 18 % 64 = a.toNat / 4 := by omega
  have second : ((a.toNat * 2 ^ 8 + b.toNat) * 2 ^ 8 + c.toNat) / 2 ^ 12 % 64 =
      a.toNat % 4 * 16 + b.toNat / 16 := by omega
  have third : ((a.toNat * 2 ^ 8 + b.toNat) * 2 ^ 8 + c.toNat) / 2 ^ 6 % 64 =
      b.toNat % 16 * 4 + c.toNat / 64 := by omega
  have fourth : ((a.toNat * 2 ^ 8 + b.toNat) * 2 ^ 8 + c.toNat) % 64 = c.toNat % 64 := by omega
  rw [encodeGroup_eq, first, second, third, fourth, encode, sextets, tail]
  rfl

theorem encode_eq_group (cs : List UInt8) (some : cs ≠ []) (few : cs.length ≤ 3) :
    encode cs = encodeGroup cs.length
      (cs.foldl (fun n c => n * 2 ^ 8 + c.toNat) 0 * 2 ^ ((3 - cs.length) * 8)) := by
  match cs, some, few with
  | [a], _, _ => simpa using encode_one a
  | [a, b], _, _ => simpa using encode_two a b
  | [a, b, c], _, _ => simpa using encode_three a b c

theorem encodeGroup_stored (cs : List UInt8) (some : cs ≠ []) (few : cs.length ≤ 3) :
    [0, 1, 2, 3].map (fun i => base.getD
      (changed cs.length (cs.foldl (shiftIn 8 octet) 0 <<< ((3 - cs.length) * 8)) i) 0) = encode cs := by
  obtain ⟨value, bound⟩ := toNat_foldl 8 octet cs 0 0
    (fun c _ => by rw [toNat_octet]; exact c.toNat_lt) (by simp) (by omega)
  have small := shift_fits _ 8 cs.length 3 few (by norm_num) bound
  have shifted := toNat_shift _ ((3 - cs.length) * 8) (small.trans (by norm_num))
  rw [← shifted] at small
  rw [encode_eq_group cs some few, encodeGroup]
  apply List.map_congr_left
  intro i _
  rw [changed_eq _ _ _ small, shifted, value]
  simp only [toNat_octet]
  rfl

theorem encodeLoop_spec (data : List UInt8) (fuel tmp : Nat) (s : Out) (written : List UInt8)
    (size : Nat) (filled : Filled s written size)
    (room : written.length + (encode (data.drop tmp)).length ≤ size)
    (enough : data.length - tmp < fuel) :
    wp (encodeLoop data data.length fuel tmp) (fun _ s' =>
      Filled s' (written ++ encode (data.drop tmp)) size) s := by
  induction fuel generalizing tmp s written with
  | zero => omega
  | succ fuel ih =>
      by_cases finished : data.length ≤ tmp
      · have stop : ¬(tmp : Int) < data.length := by omega
        have nothing : data.drop tmp = [] := List.drop_eq_nil_of_le finished
        rw [encodeLoop, if_neg stop, nothing]
        simpa [encode, sextets, pads] using filled
      · have go : (tmp : Int) < data.length := by omega
        rw [encodeLoop, if_pos go]
        refine wp_seq _ _ _ _ s (gather_spec data data.length 8 octet 3 tmp 0 0 s (le_refl _)) ?_
        rintro ⟨_, _, _⟩ s₀ ⟨kept, values⟩
        subst s₀
        cases values
        rw [List.take_length, Nat.zero_add]
        have some : (data.drop tmp).take 3 ≠ [] := by
          intro nothing
          have length := congrArg List.length nothing
          rw [List.length_take, List.length_drop, List.length_nil] at length
          omega
        rw [encode_group, List.length_append] at room
        simp only [encodeGroup_stored _ some (List.length_take_le _ _)]
        refine wp_seq _ _ _ _ s (wp_emitAll _ s written size filled (by omega)) ?_
        intro _ s₁ filled₁
        rw [encode_group (data.drop tmp), ← List.append_assoc]
        have next : (data.drop tmp).drop 3 = data.drop (tmp + ((data.drop tmp).take 3).length) := by
          rw [List.drop_drop, List.length_take, List.length_drop]
          by_cases long : 3 ≤ data.length - tmp
          · rw [Nat.min_eq_left long]
          · rw [List.drop_eq_nil_of_le (by omega), List.drop_eq_nil_of_le (by omega)]
        rw [next] at room ⊢
        apply ih _ s₁ _ filled₁
        · rw [List.length_append]
          omega
        · have length : 0 < ((data.drop tmp).take 3).length := List.length_pos_iff.mpr some
          omega

theorem wp_finish {α : Type} (result : List UInt8 → α) (s : Out) (written : List UInt8) (size : Nat)
    (filled : Filled s written size) (room : written.length < size) :
    wp (do
      store 0
      pure (result (← get).ret)) (fun r s' => r = result s'.ret ∧ Filled s' written size) s := by
  refine wp_seq _ _ _ _ s (wp_store_zero s written size filled room) ?_
  intro _ s' filled'
  exact ⟨rfl, filled'⟩

theorem base64Encode_spec (data : List UInt8) (s : Out) (short : data.length < 2 ^ 30) :
    wp (base64Encode data data.length) (fun ret _ => ret = encode data ++ [0]) s := by
  have length := encode_length data
  have size : ((data.length : Int).tdiv 3 + if 0 < (data.length : Int).tmod 3 then 1 else 0) * 4 + 1 =
      ((encode data).length + 1 : Nat) := by
    have quotient : (data.length : Int).tdiv 3 = (data.length / 3 : Nat) := rfl
    have remainder : (data.length : Int).tmod 3 = (data.length % 3 : Nat) := rfl
    rw [quotient, remainder, length]
    split <;> omega
  rw [base64Encode, size, CInt.toInt_of_small _ (by omega) (by omega), Int.toNat_natCast]
  refine wp_seq _ _ _ _ s (wp_calloc _ s) ?_
  intro _ s₀ filled₀
  refine wp_seq _ _ _ _ s₀ (encodeLoop_spec data _ 0 s₀ [] _ filled₀ (by simp) (by simp)) ?_
  intro _ s₁ filled₁
  rw [List.drop_zero, List.nil_append] at filled₁
  refine wp_mono _ _ _ s₁ (wp_finish id s₁ _ _ filled₁ (by omega)) ?_
  rintro ret s₂ ⟨same, filled₂⟩
  rw [same, filled₂.content, Nat.add_sub_cancel_left]
  rfl

/-- `base64_encode` gives the octets' bits regrouped by six, in the alphabet of RFC 4648 and
padded to whole groups of four characters. -/
theorem base64Encode_conforms (x : List UInt8) (s : Out) (short : x.length < 2 ^ 30) :
    ∃ s', (base64Encode x x.length).run s = .ok (encodeBits x ++ [0], s') := by
  obtain ⟨ret, s', ran, content⟩ := (wp_iff_run _ _ _).1 (base64Encode_spec x s short)
  refine ⟨s', ?_⟩
  rw [ran, content, encodeBits_eq_encode]

theorem base64Encode_conforms_two_bytes : ([102, 111] : List UInt8).length < 2 ^ 30 ∧
    ∃ s', (base64Encode [102, 111] 2).run ⟨[], 0⟩ = .ok (encodeBits [102, 111] ++ [0], s') :=
  ⟨by decide, base64Encode_conforms [102, 111] ⟨[], 0⟩ (by decide)⟩

theorem strrchr_symbol : ∀ n : Fin 64, CText.strrchr (base ++ [0]) (symbol n) = some n.val := by
  decide +kernel

theorem sextet_symbol (nowhere : BitVec 8) (n : Nat) (small : n < 64) :
    (sextet nowhere (symbol n)).toNat = n := by
  have found : CText.strrchr (base ++ [0]) (symbol n) = some n := strrchr_symbol ⟨n, small⟩
  have byte : (BitVec.ofNat 8 n).toNat = n := by
    rw [BitVec.toNat_ofNat]
    omega
  have positive : (BitVec.ofNat 8 n).msb = false := by
    rw [BitVec.msb_eq_decide, byte]
    simpa using by omega
  rw [sextet, findPos, found, Option.map_some, Option.getD_some, BitVec.signExtend_eq_setWidth_of_msb_false positive, BitVec.toNat_setWidth, byte]
  omega

theorem decodedBytes_eq (temp : Nat) (prepare : BitVec 32) (small : prepare.toNat < 2 ^ 24) :
    decodedBytes temp prepare = ([0, 1, 2].takeWhile (· ≠ temp)).map fun i =>
      UInt8.ofNat (prepare.toNat / 2 ^ ((2 - i) * 8)) := by
  have mask : (0xFF : BitVec 32).toNat = 2 ^ 8 - 1 := rfl
  apply List.map_congr_left
  intro i _
  apply UInt8.toNat_inj.mp
  change ((prepare.sshiftRight ((2 - i) * 8) &&& 0xFF).setWidth 8).toNat = _
  rw [BitVec.toNat_setWidth, BitVec.toNat_and, mask, Nat.and_two_pow_sub_one_eq_mod,
    CInt.toNat_sshiftRight_of_small _ _ (small.trans (by norm_num)), UInt8.toNat_ofNat', Nat.mod_mod]

def decodeGroup (ds : List Nat) : List UInt8 :=
  ([0, 1, 2].takeWhile (· ≠ ds.length)).map fun i =>
    UInt8.ofNat (ds.foldl (fun n d => n * 2 ^ 6 + d) 0 * 2 ^ ((4 - ds.length) * 6) / 2 ^ ((2 - i) * 8))

theorem decodeGroup_stored (nowhere : BitVec 8) (ds : List Nat) (small : ∀ d ∈ ds, d < 64)
    (few : ds.length ≤ 4) :
    decodedBytes ds.length ((ds.map symbol).foldl
      (shiftIn 6 (sextet nowhere)) 0 <<< ((4 - ds.length) * 6)) =
      decodeGroup ds := by
  obtain ⟨value, bound⟩ := toNat_foldl 6 (sextet nowhere) (ds.map symbol) 0 0
    (by
      intro c member
      obtain ⟨d, inside, rfl⟩ := List.mem_map.mp member
      rw [sextet_symbol nowhere d (small d inside)]
      exact small d inside)
    (by simp) (by rw [List.length_map]; omega)
  have digits : ds.foldl (fun n d => n * 2 ^ 6 + (sextet nowhere (symbol d)).toNat) 0 =
      ds.foldl (fun n d => n * 2 ^ 6 + d) 0 := by
    apply List.foldl_ext
    intro n d member
    rw [sextet_symbol nowhere d (small d member)]
  rw [List.length_map] at bound
  have fits := shift_fits _ 6 ds.length 4 few (by norm_num) bound
  have shifted := toNat_shift _ ((4 - ds.length) * 6) (fits.trans (by norm_num))
  rw [← shifted] at fits
  have zero : (0 : BitVec 32).toNat = 0 := rfl
  rw [decodedBytes_eq _ _ fits, shifted, value, List.foldl_map, zero, digits, decodeGroup]

def storedGroup (nowhere : BitVec 8) (chunk : List UInt8) : List UInt8 :=
  decodedBytes chunk.length (chunk.foldl (shiftIn 6 (sextet nowhere)) 0 <<< ((4 - chunk.length) * 6))

theorem Need.clear_stray (need : Need) : need.clear.stray = true := by
  simp [Need.clear, CharArray.memset]

theorem decodeLoop_group (nowhere : BitVec 8) (data : List UInt8) (limit fuel tmp : Nat) (need : Need)
    (s : Out) (written : List UInt8) (size : Nat) (post : Need → Out → Prop) (chunk : List UInt8)
    (inside : limit ≤ data.length) (here : ((data.take limit).drop tmp).take 4 = chunk)
    (some : chunk ≠ []) (filled : Filled s written size)
    (room : written.length + (storedGroup nowhere chunk).length ≤ size)
    (rest : ∀ s', Filled s' (written ++ storedGroup nowhere chunk) size →
      wp (decodeLoop nowhere data limit fuel (tmp + chunk.length) need.clear) post s') :
    wp (decodeLoop nowhere data limit (fuel + 1) tmp need) post s := by
  have go : (tmp : Int) < limit := by
    have length := congrArg List.length here
    have positive := List.length_pos_iff.mpr some
    rw [List.length_take, List.length_drop, List.length_take] at length
    omega
  rw [decodeLoop, if_pos go]
  refine wp_seq _ _ _ _ s (gather_spec data limit 6 _ 4 tmp 0 0 s inside) ?_
  rintro ⟨_, _, _⟩ s₀ ⟨kept, values⟩
  subst s₀
  cases values
  rw [here, Nat.zero_add]
  refine wp_seq _ _ _ _ s (wp_emitAll _ s written size filled room) ?_
  intro _ s₁ filled₁
  exact rest s₁ filled₁

theorem decodeLoop_step (nowhere : BitVec 8) (data : List UInt8) (limit fuel tmp : Nat) (need : Need)
    (s : Out) (written : List UInt8) (size : Nat) (post : Need → Out → Prop) (ds : List Nat)
    (more : List UInt8)
    (inside : limit ≤ data.length) (content : (data.take limit).drop tmp = ds.map symbol ++ more)
    (small : ∀ d ∈ ds, d < 64) (some : ds ≠ []) (few : ds.length ≤ 4)
    (full : ds.length = 4 ∨ more = []) (filled : Filled s written size)
    (room : written.length + (decodeGroup ds).length ≤ size)
    (rest : ∀ s', Filled s' (written ++ decodeGroup ds) size →
      wp (decodeLoop nowhere data limit fuel (tmp + ds.length) need.clear) post s') :
    wp (decodeLoop nowhere data limit (fuel + 1) tmp need) post s := by
  have chunk : ((data.take limit).drop tmp).take 4 = ds.map symbol := by
    rw [content]
    rcases full with four | rfl
    · exact List.take_left' (by rw [List.length_map, four])
    · rw [List.append_nil]
      exact List.take_of_length_le (by rw [List.length_map]; exact few)
  have group : storedGroup nowhere (ds.map symbol) = decodeGroup ds := by
    rw [storedGroup, List.length_map]
    exact decodeGroup_stored nowhere ds small few
  apply decodeLoop_group nowhere data limit fuel tmp need s written size post (ds.map symbol) inside chunk
  · simpa using some
  · exact filled
  · rwa [group]
  · rwa [group, List.length_map]

theorem decodeLoop_stop (nowhere : BitVec 8) (data : List UInt8) (limit fuel tmp : Nat) (need : Need)
    (s : Out) (post : Need → Out → Prop) (inside : limit ≤ data.length)
    (finished : (data.take limit).drop tmp = []) (done : post need s) :
    wp (decodeLoop nowhere data limit (fuel + 1) tmp need) post s := by
  have length := congrArg List.length finished
  rw [List.length_drop, List.length_take, List.length_nil] at length
  have stop : ¬(tmp : Int) < limit := by omega
  rw [decodeLoop, if_neg stop]
  exact done

def surplus (octets : List UInt8) : List UInt8 := if octets.length % 3 = 0 then [] else [0]

theorem surplus_group (a b c : UInt8) (rest : List UInt8) :
    a :: b :: c :: rest ++ surplus (a :: b :: c :: rest) = [a, b, c] ++ (rest ++ surplus rest) := by
  have same : (a :: b :: c :: rest).length % 3 = rest.length % 3 := by
    simp only [List.length_cons]
    omega
  rw [surplus, same, ← surplus]
  rfl

theorem ofNat_eq (n : Nat) (a : UInt8) (same : n % 256 = a.toNat) : UInt8.ofNat n = a := by
  apply UInt8.toNat_inj.mp
  rw [UInt8.toNat_ofNat']
  exact same

theorem decodeGroup_one (a : UInt8) : decodeGroup (sextets [a]) = [a, 0] := by
  have h₀ := a.toNat_lt
  have pair (p q : Nat) : decodeGroup [p, q] = [UInt8.ofNat ((p * 2 ^ 6 + q) * 2 ^ 12 / 2 ^ 16),
      UInt8.ofNat ((p * 2 ^ 6 + q) * 2 ^ 12 / 2 ^ 8)] := by
    simp [decodeGroup]
  rw [sextets, pair, ofNat_eq _ a (by omega), ofNat_eq _ 0 (by simp; omega)]

theorem decodeGroup_two (a b : UInt8) : decodeGroup (sextets [a, b]) = [a, b, 0] := by
  have h₀ := a.toNat_lt
  have h₁ := b.toNat_lt
  have triple (p q r : Nat) : decodeGroup [p, q, r] =
      [UInt8.ofNat (((p * 2 ^ 6 + q) * 2 ^ 6 + r) * 2 ^ 6 / 2 ^ 16),
        UInt8.ofNat (((p * 2 ^ 6 + q) * 2 ^ 6 + r) * 2 ^ 6 / 2 ^ 8),
        UInt8.ofNat (((p * 2 ^ 6 + q) * 2 ^ 6 + r) * 2 ^ 6)] := by
    simp [decodeGroup]
  rw [sextets, triple, ofNat_eq _ a (by omega), ofNat_eq _ b (by omega), ofNat_eq _ 0 (by simp; omega)]

theorem decodeGroup_three (a b c : UInt8) : decodeGroup (sextets [a, b, c]) = [a, b, c] := by
  have h₀ := a.toNat_lt
  have h₁ := b.toNat_lt
  have h₂ := c.toNat_lt
  have whole (p q r t : Nat) : decodeGroup [p, q, r, t] =
      [UInt8.ofNat ((((p * 2 ^ 6 + q) * 2 ^ 6 + r) * 2 ^ 6 + t) / 2 ^ 16),
        UInt8.ofNat ((((p * 2 ^ 6 + q) * 2 ^ 6 + r) * 2 ^ 6 + t) / 2 ^ 8),
        UInt8.ofNat (((p * 2 ^ 6 + q) * 2 ^ 6 + r) * 2 ^ 6 + t)] := by
    simp [decodeGroup]
  rw [sextets, sextets, List.append_nil, whole, ofNat_eq _ a (by omega), ofNat_eq _ b (by omega),
    ofNat_eq _ c (by omega)]

theorem decodeLoop_last (nowhere : BitVec 8) (data : List UInt8) (limit fuel tmp : Nat) (need : Need)
    (s : Out) (written : List UInt8) (size : Nat) (octets : List UInt8) (inside : limit ≤ data.length)
    (content : (data.take limit).drop tmp = (sextets octets).map symbol)
    (some : sextets octets ≠ []) (few : (sextets octets).length ≤ 4)
    (tail : decodeGroup (sextets octets) = octets ++ surplus octets) (filled : Filled s written size)
    (room : written.length + (octets ++ surplus octets).length ≤ size) (enough : 1 < fuel) :
    wp (decodeLoop nowhere data limit fuel tmp need) (fun need' s' =>
      need'.stray = true ∧ Filled s' (written ++ (octets ++ surplus octets)) size) s := by
  obtain _ | _ | fuel := fuel
  · omega
  · omega
  rw [← tail] at room ⊢
  apply decodeLoop_step nowhere data limit (fuel + 1) tmp need s written size _ (sextets octets) []
    inside (by rw [content, List.append_nil]) (sextets_lt octets) some few (Or.inr rfl) filled room
  intro s' filled'
  apply decodeLoop_stop nowhere data limit fuel _ _ s' _ inside _ ⟨need.clear_stray, filled'⟩
  rw [← List.drop_drop, content]
  exact List.drop_eq_nil_of_le (by rw [List.length_map])

theorem decodeLoop_spec (nowhere : BitVec 8) (data : List UInt8) (limit : Nat) (octets : List UInt8)
    (fuel tmp : Nat) (need : Need) (s : Out) (written : List UInt8) (size : Nat)
    (inside : limit ≤ data.length)
    (content : (data.take limit).drop tmp = (sextets octets).map symbol)
    (filled : Filled s written size)
    (room : written.length + (octets ++ surplus octets).length ≤ size)
    (enough : octets.length < fuel) :
    wp (decodeLoop nowhere data limit fuel tmp need) (fun need' s' =>
      need'.stray = (need.stray || !octets.isEmpty) ∧
        Filled s' (written ++ (octets ++ surplus octets)) size) s := by
  induction octets using sextets.induct generalizing fuel tmp need s written with
  | case1 =>
      obtain _ | fuel := fuel
      · omega
      apply decodeLoop_stop nowhere data limit fuel tmp need s _ inside content
      simpa [surplus] using filled
  | case2 a =>
      rw [List.length_singleton] at enough
      rw [List.isEmpty_cons, Bool.not_false, Bool.or_true]
      exact decodeLoop_last nowhere data limit fuel tmp need s written size [a] inside content
        (by simp [sextets]) (by simp [sextets]) (decodeGroup_one a) filled room enough
  | case3 a b =>
      rw [List.length_cons, List.length_singleton] at enough
      rw [List.isEmpty_cons, Bool.not_false, Bool.or_true]
      exact decodeLoop_last nowhere data limit fuel tmp need s written size [a, b] inside content
        (by simp [sextets]) (by simp [sextets]) (decodeGroup_two a b) filled room (by omega)
  | case4 a b c rest ih =>
      obtain _ | fuel := fuel
      · omega
      have front : sextets (a :: b :: c :: rest) = sextets [a, b, c] ++ sextets rest := by
        simp [sextets]
      rw [surplus_group] at room ⊢
      rw [List.length_append, List.length_cons, List.length_cons, List.length_singleton] at room
      rw [front, List.map_append] at content
      apply decodeLoop_step nowhere data limit _ tmp need s written size _ (sextets [a, b, c])
        ((sextets rest).map symbol) inside content (sextets_lt [a, b, c]) (by simp [sextets])
        (by simp [sextets]) (Or.inl (by simp [sextets])) filled
      · rw [decodeGroup_three]
        simp only [List.length_cons, List.length_nil]
        omega
      intro s' filled'
      rw [decodeGroup_three] at filled'
      have step := ih fuel (tmp + (sextets [a, b, c]).length) need.clear s' (written ++ [a, b, c])
        (by
          rw [← List.drop_drop, content]
          exact List.drop_left' (by rw [List.length_map]))
        filled'
        (by
          rw [List.length_append]
          simp only [List.length_cons, List.length_nil]
          omega)
        (by
          simp only [List.length_cons] at enough
          omega)
      -- the first round has stored the byte behind `need`, whatever the others do
      rw [need.clear_stray, Bool.true_or, List.append_assoc] at step
      rw [List.isEmpty_cons, Bool.not_false, Bool.or_true]
      exact step

theorem equalCount_spec (octets : List UInt8) (s : Out) (nonempty : octets ≠ []) :
    wp (equalCount (encode octets ++ [0]) (encode octets).length) (fun n s' =>
      s' = s ∧ n = pads octets) s := by
  have length := encode_length octets
  have positive := List.length_pos_iff.mpr nonempty
  have few := pads_lt octets
  obtain ⟨last, atLast, isLast⟩ := encode_from_end octets 1 (by omega) (by omega)
  obtain ⟨second, atSecond, isSecond⟩ := encode_from_end octets 2 (by omega) (by omega)
  obtain ⟨third, atThird, isThird⟩ := encode_from_end octets 3 (by omega) (by omega)
  have before (j : Nat) (c : UInt8) (one : 1 ≤ j) (bound : j ≤ (encode octets).length)
      (here : (encode octets)[(encode octets).length - j]? = some c) :
      (encode octets ++ [0])[(encode octets).length - j]? = some c := by
    rw [List.getElem?_append_left (by omega), here]
  rw [equalCount, wp_bind, wp_peek _ _ _ _ s _ (by omega) (before 1 last (by omega) (by omega) atLast),
    wp_bind, wp_peek _ _ _ _ s _ (by omega) (before 2 second (by omega) (by omega) atSecond),
    wp_bind, wp_peek _ _ _ _ s _ (by omega) (before 3 third (by omega) (by omega) atThird)]
  refine ⟨rfl, ?_⟩
  have pad : padding = 61 := rfl
  rw [pad] at isLast isSecond isThird
  simp only [List.countP_cons, List.countP_nil, decide_eq_true_eq, isLast, isSecond, isThird]
  split_ifs <;> omega

theorem surplus_length (octets : List UInt8) :
    (octets ++ surplus octets).length ≤ 3 * ((octets.length + 2) / 3) := by
  rw [List.length_append, surplus]
  split_ifs <;> simp only [List.length_nil, List.length_cons] <;> omega

theorem surplus_zeros (octets : List UInt8) (n : Nat) :
    ∃ m, surplus octets ++ List.replicate (n + 1) 0 = List.replicate (m + 1) 0 := by
  rw [surplus]
  split
  · exact ⟨n, rfl⟩
  · exact ⟨n + 1, rfl⟩

theorem spare_bounds (octets : List UInt8) : 3 ≤ spare (pads octets) ∧ spare (pads octets) ≤ 4 := by
  have few := pads_lt octets
  interval_cases pads octets <;> decide

/-- `base64_decode` of an encoding stores the octets, and zero bytes behind them; on the way it has
stored a byte behind `need`. -/
theorem base64Decode_spec (nowhere : BitVec 8) (need : CharArray 3) (octets : List UInt8) (s : Out)
    (nonempty : octets ≠ []) (short : octets.length < 2 ^ 30) :
    wp (base64Decode nowhere need (encode octets ++ [0]) (encode octets).length) (fun r _ =>
      ∃ zeros, r = (octets ++ List.replicate (zeros + 1) 0, true)) s := by
  have length := encode_length octets
  have groups := sextets_length octets
  have room := spare_bounds octets
  have stored := surplus_length octets
  have size : ((encode octets).length : Int).tdiv 4 * 3 + spare (pads octets) =
      (3 * ((octets.length + 2) / 3) + spare (pads octets) : Nat) := by
    have quotient : ((encode octets).length : Int).tdiv 4 = ((encode octets).length / 4 : Nat) := rfl
    rw [quotient, length]
    omega
  have limit : ((encode octets).length : Int) - pads octets = ((sextets octets).length : Nat) := by omega
  have content : (((encode octets ++ [0]).take (sextets octets).length).drop 0) =
      (sextets octets).map symbol := by
    rw [List.drop_zero, encode, List.append_assoc, List.take_left' (List.length_map _)]
  rw [base64Decode]
  refine wp_seq _ _ _ _ s (equalCount_spec octets s nonempty) ?_
  intro n s₀ found
  rw [found.2, size, CInt.toInt_of_small _ (by omega) (by omega), limit, Int.toNat_natCast]
  refine wp_seq _ _ _ _ s₀ (wp_calloc _ s₀) ?_
  intro _ s₁ filled₁
  refine wp_seq _ _ _ _ s₁ (decodeLoop_spec nowhere _ _ octets _ 0 ⟨need, false⟩ s₁ [] _
    (by simp; omega) content filled₁ (by simp only [List.length_nil]; omega) (by omega)) ?_
  intro need' s₂ held
  obtain ⟨stray, filled₂⟩ := held
  rw [List.nil_append] at filled₂
  have strayed : need'.stray = true := by
    rw [stray, Bool.false_or]
    simpa using nonempty
  refine wp_mono _ _ _ s₂ (wp_finish (·, need'.stray) s₂ _ _ filled₂ (by omega)) ?_
  intro r s₃ finished
  obtain ⟨buffer, filled₃⟩ := finished
  -- what follows the octets is the surplus byte and the rest of the zeroed block
  obtain ⟨m, same⟩ := surplus_zeros octets (3 * ((octets.length + 2) / 3) + spare (pads octets) -
    (octets ++ surplus octets).length - 1)
  refine ⟨m, ?_⟩
  rw [buffer, filled₃.content, strayed, List.append_assoc, ← same]
  congr 4
  omega

def cString (buffer : List UInt8) : List UInt8 := buffer.takeWhile (· ≠ 0)

theorem cString_append (text zeros : List UInt8) (nonzero : ∀ c ∈ text, c ≠ 0) :
    cString (text ++ 0 :: zeros) = text := by
  exact CText.takeWhile_stop (fun zero => nonzero 0 zero rfl) zeros

/-- Encoding `x` gives a C string of four characters for every three bytes begun, and decoding that
string gives `x` back, followed by a NUL. No byte outside the arrays is stored. -/
def RoundTrips (nowhere : BitVec 8) (need : CharArray 3) (x : List UInt8) (s : Out) : Prop :=
  ∃ e d s₁ s₂, (base64Encode x x.length).run s = .ok (e, s₁) ∧
    (cString e).length = 4 * ((x.length + 2) / 3) ∧
    (base64Decode nowhere need e (cString e).length).run s₁ = .ok ((d, false), s₂) ∧
    d.take x.length = x ∧ d[x.length]? = some 0 ∧
    ((∀ c ∈ x, c ≠ 0) → cString d = x)

/-- The round trip as it goes when nothing is kept in the byte behind `need`. -/
theorem decode_encode (nowhere : BitVec 8) (need : CharArray 3) (x : List UInt8) (nonempty : x ≠ [])
    (short : x.length < 2 ^ 30) (s : Out) :
    ∃ e d s₁ s₂, (base64Encode x x.length).run s = .ok (e, s₁) ∧
      (cString e).length = 4 * ((x.length + 2) / 3) ∧
      (base64Decode nowhere need e (cString e).length).run s₁ = .ok ((d, true), s₂) ∧
      d.take x.length = x ∧ d[x.length]? = some 0 ∧
      ((∀ c ∈ x, c ≠ 0) → cString d = x) := by
  obtain ⟨e, s₁, encoded, rfl⟩ := (wp_iff_run _ _ _).mp (base64Encode_spec x s short)
  have text : cString (encode x ++ [0]) = encode x := cString_append _ _ (encode_ne_zero x)
  obtain ⟨_, s₂, decoded, zeros, rfl⟩ := (wp_iff_run _ _ _).mp
    (base64Decode_spec nowhere need x s₁ nonempty short)
  refine ⟨_, _, s₁, s₂, encoded, by rw [text, encode_length], by rw [text]; exact decoded,
    List.take_left, ?_, ?_⟩
  · rw [List.getElem?_append_right (le_refl _), Nat.sub_self]
    rfl
  · intro nonzero
    exact cString_append _ _ nonzero

theorem stray_of_decoded (nowhere : BitVec 8) (need : CharArray 3) (x : List UInt8) (nonempty : x ≠ [])
    (short : x.length < 2 ^ 30) (s s₁ s₂ : Out) (e d : List UInt8) (stray : Bool)
    (encoded : (base64Encode x x.length).run s = .ok (e, s₁))
    (decoded : (base64Decode nowhere need e (cString e).length).run s₁ = .ok ((d, stray), s₂)) :
    stray = true := by
  obtain ⟨e', d', s₁', s₂', encoded', _, decoded', _⟩ := decode_encode nowhere need x nonempty short s
  rw [encoded, Except.ok.injEq, Prod.mk.injEq] at encoded'
  rw [← encoded'.1, ← encoded'.2, decoded] at decoded'
  simp only [Except.ok.injEq, Prod.mk.injEq] at decoded'
  exact decoded'.1.2

/-- No round trip stays inside the arrays: the first group of characters clears a fourth byte of the
three of `need`. -/
theorem base64_round_trip_strays (nowhere : BitVec 8) (need : CharArray 3) (x : List UInt8)
    (nonempty : x ≠ []) (short : x.length < 2 ^ 30) (s : Out) :
    ¬RoundTrips nowhere need x s := by
  intro held
  obtain ⟨e, d, s₁, s₂, encoded, _, decoded, _⟩ := held
  have stray := stray_of_decoded nowhere need x nonempty short s s₁ s₂ e d false encoded decoded
  cases stray

theorem base64_round_trip_strays_two_bytes :
    ([0x48, 0xFF] : List UInt8) ≠ [] ∧ ([0x48, 0xFF] : List UInt8).length < 2 ^ 30 ∧
      ¬RoundTrips 0 (CharArray.zeroed 3) [0x48, 0xFF] ⟨[], 0⟩ := by
  have nonempty : ([0x48, 0xFF] : List UInt8) ≠ [] := by decide
  have short : ([0x48, 0xFF] : List UInt8).length < 2 ^ 30 := by simp
  exact ⟨nonempty, short,
    base64_round_trip_strays 0 (CharArray.zeroed 3) [0x48, 0xFF] nonempty short ⟨[], 0⟩⟩

theorem man_not_decoded : ¬RoundTrips 0 (CharArray.zeroed 3) [0x4D, 0x61, 0x6E] ⟨[], 0⟩ := by
  intro held
  obtain ⟨e, d, s₁, s₂, encoded, _, decoded, _⟩ := held
  have stray := stray_of_decoded 0 (CharArray.zeroed 3) [0x4D, 0x61, 0x6E] (by decide) (by simp) _ _ _
    e d false encoded decoded
  cases stray

end DataStructure.Crypt
