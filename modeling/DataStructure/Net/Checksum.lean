import DataStructure.Lib.CInt
import DataStructure.Lib.EndAround

/-! The Internet checksum, as `cksum` of `socket/icmp.c` and `checkSum` of `go/ping.go` compute it.

The C function runs on a little-endian machine and sums words of 32 bits; an `int` of Go has 64. -/

namespace DataStructure.Checksum

open DataStructure.EndAround

-- socket/icmp.c

def loadNative (first second : UInt8) : BitVec 32 :=
  BitVec.ofNat 32 (first.toNat + 256 * second.toNat)

/-- The loop on the words and the byte that may be left after it. -/
def cksumLoop : List UInt8 → BitVec 32 → BitVec 32
  | first :: second :: buf, sum => cksumLoop buf (sum + loadNative first second)
  | [last], sum => sum + BitVec.ofNat 32 last.toNat
  | [], sum => sum

def cksum (buf : List UInt8) : BitVec 16 :=
  let sum := cksumLoop buf 0
  let sum := (sum >>> 16) + (sum &&& 0xffff)
  let sum := sum + (sum >>> 16)
  (~~~sum).setWidth 16

def storeNative (word : BitVec 16) : List UInt8 :=
  [.ofBitVec (word.setWidth 8), .ofBitVec ((word >>> 8).setWidth 8)]

-- go/ping.go

def checkSumLoop : List UInt8 → BitVec 64 → BitVec 64
  | first :: second :: msg, sum =>
      checkSumLoop msg (sum + (BitVec.ofNat 64 first.toNat * 256 + BitVec.ofNat 64 second.toNat))
  | [last], sum => sum + BitVec.ofNat 64 last.toNat * 256
  | [], sum => sum

def checkSum (msg : List UInt8) : BitVec 16 :=
  let sum := checkSumLoop msg 0
  let sum := sum.sshiftRight 16 + (sum &&& 0xffff)
  let sum := sum + sum.sshiftRight 16
  (~~~sum).setWidth 16

def storeCheck (check : BitVec 16) : List UInt8 :=
  [.ofBitVec ((check >>> 8).setWidth 8), .ofBitVec ((check &&& 255).setWidth 8)]

def setCheck (msg : List UInt8) (check : BitVec 16) : List UInt8 :=
  (msg.set 2 (.ofBitVec ((check >>> 8).setWidth 8))).set 3
    (.ofBitVec ((check &&& 255).setWidth 8))

/-- The sum of words with the given weights of their bytes; a last byte counts as a first one. -/
def weighted (first second : Nat) : List UInt8 → Nat
  | a :: b :: rest => first * a.toNat + second * b.toNat + weighted first second rest
  | [a] => first * a.toNat
  | [] => 0

theorem weighted_bound (p q : Nat) (bytes : List UInt8) :
    weighted p q bytes ≤ (p + q) * 255 * ((bytes.length + 1) / 2) := by
  induction bytes using weighted.induct with
  | case1 a b rest ih =>
      have ltA := a.toNat_lt
      have ltB := b.toNat_lt
      have words : (rest.length + 1 + 1 + 1) / 2 = (rest.length + 1) / 2 + 1 := by omega
      have left : p * a.toNat ≤ p * 255 := Nat.mul_le_mul_left p (by omega)
      have right : q * b.toNat ≤ q * 255 := Nat.mul_le_mul_left q (by omega)
      simp only [weighted, List.length_cons, words, Nat.mul_add, Nat.mul_one]
      calc
        p * a.toNat + q * b.toNat + weighted p q rest ≤
            p * 255 + q * 255 + (p + q) * 255 * ((rest.length + 1) / 2) := by omega
        _ = (p + q) * 255 * ((rest.length + 1) / 2) + (p + q) * 255 := by ring
  | case2 a =>
      have ltA := a.toNat_lt
      have left : p * a.toNat ≤ p * 255 := Nat.mul_le_mul_left p (by omega)
      calc
        weighted p q [a] ≤ p * 255 := left
        _ ≤ (p + q) * 255 := Nat.mul_le_mul_right 255 (Nat.le_add_right p q)
        _ = (p + q) * 255 * (([a].length + 1) / 2) := by simp
  | case3 => simp [weighted]

theorem weighted_eq_zero (p q : Nat) (positiveP : 0 < p) (positiveQ : 0 < q) (bytes : List UInt8) :
    weighted p q bytes = 0 ↔ ∀ b ∈ bytes, b.toNat = 0 := by
  induction bytes using weighted.induct with
  | case1 a b rest ih =>
      simp [weighted, ih, Nat.ne_of_gt positiveP, Nat.ne_of_gt positiveQ, and_assoc]
  | case2 a => simp [weighted, Nat.ne_of_gt positiveP]
  | case3 => simp [weighted]

/-- With the high byte first, the sum is 256 times that with the low byte first. -/
theorem weighted_swap (bytes : List UInt8) :
    weighted 256 1 bytes ≡ 256 * weighted 1 256 bytes [MOD 256 * 256 - 1] := by
  induction bytes using weighted.induct with
  | case1 a b rest ih =>
      have unit : 1 ≡ 256 * 256 [MOD 256 * 256 - 1] := by decide
      rw [weighted, weighted]
      calc
        256 * a.toNat + 1 * b.toNat + weighted 256 1 rest ≡
            256 * a.toNat + 256 * 256 * b.toNat + 256 * weighted 1 256 rest [MOD 256 * 256 - 1] :=
          ((unit.mul_right _).add_left _).add ih
        _ = 256 * (1 * a.toNat + 256 * b.toNat + weighted 1 256 rest) := by ring
  | case2 a => simp [weighted, Nat.ModEq.refl]
  | case3 => simp [weighted, Nat.ModEq.refl]

theorem cksumLoop_toNat (buf : List UInt8) (sum : BitVec 32)
    (room : sum.toNat + weighted 1 256 buf < 2 ^ 32) :
    (cksumLoop buf sum).toNat = sum.toNat + weighted 1 256 buf := by
  induction buf, sum using cksumLoop.induct with
  | case1 a b rest sum ih =>
      have ltA := a.toNat_lt
      have ltB := b.toNat_lt
      rw [weighted] at room ⊢
      have next : (sum + loadNative a b).toNat = sum.toNat + (1 * a.toNat + 256 * b.toNat) := by
        rw [loadNative, BitVec.toNat_add, BitVec.toNat_ofNat]
        omega
      rw [cksumLoop, ih (by omega), next, Nat.add_assoc]
  | case2 a sum =>
      rw [weighted] at room ⊢
      rw [cksumLoop, BitVec.toNat_add, BitVec.toNat_ofNat]
      omega
  | case3 sum => rfl

theorem checkSumLoop_toNat (msg : List UInt8) (sum : BitVec 64)
    (room : sum.toNat + weighted 256 1 msg < 2 ^ 64) :
    (checkSumLoop msg sum).toNat = sum.toNat + weighted 256 1 msg := by
  induction msg, sum using checkSumLoop.induct with
  | case1 a b rest sum ih =>
      have ltA := a.toNat_lt
      have ltB := b.toNat_lt
      rw [weighted] at room ⊢
      have next : (sum + (BitVec.ofNat 64 a.toNat * 256 + BitVec.ofNat 64 b.toNat)).toNat =
          sum.toNat + (256 * a.toNat + 1 * b.toNat) := by
        simp only [BitVec.toNat_add, BitVec.toNat_mul, BitVec.toNat_ofNat, BitVec.ofNat_eq_ofNat]
        omega
      rw [checkSumLoop, ih (by omega), next, Nat.add_assoc]
  | case2 a sum =>
      have ltA := a.toNat_lt
      rw [weighted] at room ⊢
      simp only [checkSumLoop, BitVec.toNat_add, BitVec.toNat_mul, BitVec.toNat_ofNat,
        BitVec.ofNat_eq_ofNat]
      omega
  | case3 sum => rfl

section Folding

variable {width : Nat} (wide : 32 ≤ width)
include wide

theorem low_toNat (sum : BitVec width) : (sum &&& 0xffff).toNat = sum.toNat % 65536 := by
  have room : 2 ^ 32 ≤ 2 ^ width := Nat.pow_le_pow_right (by norm_num) wide
  have mask : (0xffff : BitVec width).toNat = 2 ^ 16 - 1 := by
    rw [BitVec.ofNat_eq_ofNat, BitVec.toNat_ofNat]
    exact Nat.mod_eq_of_lt (lt_of_lt_of_le (by norm_num) room)
  rw [BitVec.toNat_and, mask, Nat.and_two_pow_sub_one_eq_mod]

theorem complement_toNat (sum : BitVec width) :
    ((~~~sum).setWidth 16).toNat = 65535 - sum.toNat % 65536 := by
  have bound := sum.isLt
  obtain ⟨k, rfl⟩ : ∃ k, width = 16 + k := ⟨width - 16, by omega⟩
  rw [BitVec.toNat_setWidth, BitVec.toNat_not]
  rw [Nat.pow_add] at bound ⊢
  generalize 2 ^ k = m at bound ⊢
  omega

theorem folded_toNat (sum high carry : BitVec width) (small : sum.toNat < 65536 * 65536)
    (shifted : high.toNat = sum.toNat / 65536)
    (carried : carry.toNat = (high + (sum &&& 0xffff)).toNat / 65536) :
    ((~~~(high + (sum &&& 0xffff) + carry)).setWidth 16).toNat = 65535 - fold 65536 sum.toNat := by
  have room : 2 ^ 32 ≤ 2 ^ width := Nat.pow_le_pow_right (by norm_num) wide
  have first : (high + (sum &&& 0xffff)).toNat = sum.toNat / 65536 + sum.toNat % 65536 := by
    rw [BitVec.toNat_add, shifted, low_toNat wide, Nat.mod_eq_of_lt (by omega)]
  have second : (high + (sum &&& 0xffff) + carry).toNat =
      sum.toNat / 65536 + sum.toNat % 65536 + (sum.toNat / 65536 + sum.toNat % 65536) / 65536 := by
    rw [BitVec.toNat_add, carried, first, Nat.mod_eq_of_lt (by omega)]
  rw [complement_toNat wide, second, fold]

end Folding

theorem cksum_toNat (buf : List UInt8) (short : buf.length ≤ 65535) :
    (cksum buf).toNat = 65535 - fold 65536 (weighted 1 256 buf) := by
  have bound := weighted_bound 1 256 buf
  have sum : (cksumLoop buf 0).toNat = weighted 1 256 buf := by
    rw [cksumLoop_toNat buf 0 (by simp; omega)]
    exact Nat.zero_add _
  rw [← sum]
  apply folded_toNat (by norm_num)
  · omega
  · rw [BitVec.toNat_ushiftRight, Nat.shiftRight_eq_div_pow]
  · rw [BitVec.toNat_ushiftRight, Nat.shiftRight_eq_div_pow]

theorem checkSum_toNat (msg : List UInt8) (short : msg.length ≤ 65535) :
    (checkSum msg).toNat = 65535 - fold 65536 (weighted 256 1 msg) := by
  have bound := weighted_bound 256 1 msg
  have sum : (checkSumLoop msg 0).toNat = weighted 256 1 msg := by
    rw [checkSumLoop_toNat msg 0 (by simp; omega)]
    exact Nat.zero_add _
  rw [← sum]
  have small : (checkSumLoop msg 0).toNat < 65536 * 65536 := by omega
  have high := CInt.toNat_sshiftRight_of_small (checkSumLoop msg 0) 16 (by omega)
  apply folded_toNat (by norm_num)
  · exact small
  · exact high
  · apply CInt.toNat_sshiftRight_of_small
    rw [BitVec.toNat_add, high, low_toNat (by norm_num), Nat.mod_eq_of_lt (by omega)]
    omega

theorem cksum_swap (buf : List UInt8) (short : buf.length ≤ 65535) :
    (checkSum buf).toNat = swap 256 (cksum buf).toNat := by
  have boundL := weighted_bound 1 256 buf
  have boundB := weighted_bound 256 1 buf
  have zero : weighted 1 256 buf = 0 ↔ weighted 256 1 buf = 0 := by
    rw [weighted_eq_zero _ _ (by norm_num) (by norm_num), weighted_eq_zero _ _ (by norm_num) (by norm_num)]
  have folds : fold (256 * 256) (weighted 256 1 buf) = swap 256 (fold (256 * 256) (weighted 1 256 buf)) :=
    fold_swap (by norm_num) (by omega) (by omega) zero (weighted_swap buf)
  have below : fold 65536 (weighted 1 256 buf) < 65536 := fold_lt (by norm_num)
  rw [cksum_toNat buf short, checkSum_toNat buf short]
  norm_num only at folds
  rw [folds, swap, swap]
  omega

/-- The C checksum stored by the machine and the Go checksum stored high byte first are the same
two bytes. -/
theorem checksums_agree (buf : List UInt8) (short : buf.length ≤ 65535) :
    storeNative (cksum buf) = storeCheck (checkSum buf) := by
  have exchanged := cksum_swap buf short
  have bound : (cksum buf).toNat < 256 * 256 := (cksum buf).isLt
  have low : (cksum buf).setWidth 8 = ((checkSum buf) >>> 8).setWidth 8 := by
    apply BitVec.eq_of_toNat_eq
    rw [BitVec.toNat_setWidth, BitVec.toNat_setWidth, BitVec.toNat_ushiftRight,
      Nat.shiftRight_eq_div_pow, exchanged, swap_div bound]
    omega
  have high : ((cksum buf) >>> 8).setWidth 8 = ((checkSum buf) &&& 255).setWidth 8 := by
    apply BitVec.eq_of_toNat_eq
    have mask : (255 : BitVec 16).toNat = 2 ^ 8 - 1 := rfl
    rw [BitVec.toNat_setWidth, BitVec.toNat_setWidth, BitVec.toNat_ushiftRight,
      Nat.shiftRight_eq_div_pow, BitVec.toNat_and, mask, Nat.and_two_pow_sub_one_eq_mod, exchanged]
    rw [swap_mod bound]
  rw [storeNative, storeCheck, low, high]

theorem checksums_agree_odd_length :
    storeNative (cksum [0x45, 0x00, 0xff]) = storeCheck (checkSum [0x45, 0x00, 0xff]) :=
  checksums_agree [0x45, 0x00, 0xff] (by decide)

example : storeNative (cksum [0x45, 0x00, 0xff]) = [0xbb, 0xfe] := by decide

theorem high_toNat (check : BitVec 16) :
    (UInt8.ofBitVec ((check >>> 8).setWidth 8)).toNat = check.toNat / 256 := by
  have bound := check.isLt
  rw [UInt8.toNat_ofBitVec, BitVec.toNat_setWidth, BitVec.toNat_ushiftRight,
    Nat.shiftRight_eq_div_pow]
  omega

theorem low_byte_toNat (check : BitVec 16) :
    (UInt8.ofBitVec ((check &&& 255).setWidth 8)).toNat = check.toNat % 256 := by
  have mask : (255 : BitVec 16).toNat = 2 ^ 8 - 1 := rfl
  rw [UInt8.toNat_ofBitVec, BitVec.toNat_setWidth, BitVec.toNat_and, mask,
    Nat.and_two_pow_sub_one_eq_mod, Nat.mod_mod]

theorem weighted_setCheck (a b : UInt8) (rest : List UInt8) (check : BitVec 16) :
    weighted 256 1 (setCheck (a :: b :: 0 :: 0 :: rest) check) =
      weighted 256 1 (a :: b :: 0 :: 0 :: rest) + check.toNat := by
  simp only [setCheck, List.set_cons_succ, List.set_cons_zero, weighted, high_toNat,
    low_byte_toNat, UInt8.toNat_zero]
  omega

/-- The checksum of a message with its own checksum stored as `Ping` stores it is zero. -/
theorem checkSum_verifies (msg : List UInt8) (long : 4 ≤ msg.length) (short : msg.length ≤ 65535)
    (third : msg[2]? = some 0) (fourth : msg[3]? = some 0) :
    checkSum (setCheck msg (checkSum msg)) = 0 := by
  obtain ⟨a, b, rest, split⟩ : ∃ a b rest, msg = a :: b :: 0 :: 0 :: rest := by
    match msg, long with
    | a :: b :: c :: d :: rest, _ =>
        cases third
        cases fourth
        exact ⟨a, b, rest, rfl⟩
  subst split
  have length : (setCheck (a :: b :: 0 :: 0 :: rest) (checkSum (a :: b :: 0 :: 0 :: rest))).length =
      (a :: b :: 0 :: 0 :: rest).length := by
    rw [setCheck, List.length_set, List.length_set]
  have bound := weighted_bound 256 1 (a :: b :: 0 :: 0 :: rest)
  apply BitVec.eq_of_toNat_eq
  rw [checkSum_toNat _ (by omega), weighted_setCheck, checkSum_toNat _ short]
  have complement : fold 65536 (weighted 256 1 (a :: b :: 0 :: 0 :: rest) +
      (65536 - 1 - fold 65536 (weighted 256 1 (a :: b :: 0 :: 0 :: rest)))) = 65536 - 1 :=
    fold_complement (by norm_num) (by omega)
  norm_num only at complement
  rw [complement]
  rfl

theorem checkSum_verifies_odd_length :
    checkSum (setCheck [8, 0, 0, 0, 255] (checkSum [8, 0, 0, 0, 255])) = 0 :=
  checkSum_verifies [8, 0, 0, 0, 255] (by decide) (by decide) rfl rfl

end DataStructure.Checksum
