import DataStructure.Lib.BlockHash
import DataStructure.Lib.Sine

/-! The MD5 message digest as RFC 1321 defines it.

Registers are renamed after each of the 64 operations, so that one recurrence describes
the four rounds. The constants are defined by the sine they are taken from. -/

namespace DataStructure.Md5

abbrev Word := BitVec 32

structure Chain where
  a : Word
  b : Word
  c : Word
  d : Word
  deriving DecidableEq, Repr

def initial : Chain := ⟨0x67452301, 0xefcdab89, 0x98badcfe, 0x10325476⟩

def littleEndian (count n : Nat) : List UInt8 :=
  (List.range count).map fun i => UInt8.ofNat (n / 256 ^ i)

@[simp] theorem littleEndian_length (count n : Nat) : (littleEndian count n).length = count := by
  simp [littleEndian]

theorem littleEndian_add (first count n : Nat) :
    littleEndian (first + count) n = littleEndian first n ++ littleEndian count (n / 256 ^ first) := by
  simp only [littleEndian, List.range_add, List.map_append, List.map_map]
  congr 1
  apply List.map_congr_left
  intro i _
  simp only [Function.comp_apply, Nat.div_div_eq_div_mul, pow_add]

theorem littleEndian_mod (count n : Nat) : littleEndian count (n % 256 ^ count) = littleEndian count n := by
  apply List.map_congr_left
  intro i inside
  have below : i < count := List.mem_range.1 inside
  apply UInt8.toNat_inj.1
  have split : 256 ^ count = 256 ^ i * (256 * 256 ^ (count - i - 1)) := by
    rw [← pow_succ', ← pow_add]
    congr 1
    omega
  simp only [UInt8.toNat_ofNat']
  rw [split, Nat.mod_mul_right_div_self]
  exact Nat.mod_mod_of_dvd _ ⟨_, rfl⟩

def word (block : List UInt8) (k : Nat) : Word :=
  BitVec.ofNat 32 (Nat.ofDigits 256 (((block.drop (4 * k)).take 4).map UInt8.toNat))

def auxiliary (round : Nat) (x y z : Word) : Word :=
  match round with
  | 0 => (x &&& y) ||| (~~~x &&& z)
  | 1 => (x &&& z) ||| (y &&& ~~~z)
  | 2 => x ^^^ y ^^^ z
  | _ => y ^^^ (x ||| ~~~z)

def pick (i : Nat) : Nat :=
  match i / 16 with
  | 0 => i % 16
  | 1 => (5 * i + 1) % 16
  | 2 => (3 * i + 5) % 16
  | _ => 7 * i % 16

def shift (i : Nat) : Nat :=
  match i / 16 with
  | 0 => [7, 12, 17, 22].getD (i % 4) 0
  | 1 => [5, 9, 14, 20].getD (i % 4) 0
  | 2 => [4, 11, 16, 23].getD (i % 4) 0
  | _ => [6, 10, 15, 21].getD (i % 4) 0

/-- `T[i + 1]`, the integer part of `4294967296 * abs (sin (i + 1))`. -/
noncomputable def sine (i : Nat) : Word :=
  BitVec.ofNat 32 ⌊((4294967296 : Nat) : ℝ) * |Real.sin ((i + 1 : Nat) : ℝ)|⌋₊

/-- Operation `i`: the new value takes the place of `b`, the others move on. -/
noncomputable def step (block : List UInt8) (i : Nat) (r : Chain) : Chain :=
  let sum := r.a + auxiliary (i / 16) r.b r.c r.d + word block (pick i) + sine i
  ⟨r.d, r.b + sum.rotateLeft (shift i), r.b, r.c⟩

noncomputable def compress (r : Chain) (block : List UInt8) : Chain :=
  let s := (List.range 64).foldl (fun s i => step block i s) r
  ⟨r.a + s.a, r.b + s.b, r.c + s.c, r.d + s.d⟩

noncomputable def hash : BlockHash Chain UInt8 where
  size := 64
  positive := by decide
  compress := compress

def padding (m : List UInt8) : List UInt8 :=
  0x80 :: List.replicate ((119 - m.length % 64) % 64) 0

/-- The padded message ends with its length in bits, of which 64 bits are kept. -/
def padded (m : List UInt8) : List UInt8 :=
  m ++ padding m ++ littleEndian 8 (8 * m.length)

noncomputable def digest (m : List UInt8) : List UInt8 :=
  let r := (hash.absorb initial (padded m)).1
  [r.a, r.b, r.c, r.d].flatMap fun w => littleEndian 4 w.toNat

theorem padding_length (m : List UInt8) :
    (padding m).length = if m.length % 64 < 56 then 56 - m.length % 64 else 120 - m.length % 64 := by
  simp only [padding, List.length_cons, List.length_replicate]
  split <;> omega

end DataStructure.Md5
