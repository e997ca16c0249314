import DataStructure.Lib.Md5

/-! The streaming MD5 of `md5sum/md5.c`.

`unsigned int` is a 32-bit word and arithmetic wraps. The context is passed from call to
call as the source updates it in place; an `unsigned char` array is a list of bytes. A loop
that would not end is `none`. -/

namespace DataStructure.Crypt

open Md5 (Word Chain)

inductive Register where
  | a
  | b
  | c
  | d
  deriving DecidableEq, Repr

namespace Register

def read (r : Chain) : Register → Word
  | a => r.a
  | b => r.b
  | c => r.c
  | d => r.d

def write (r : Chain) (value : Word) : Register → Chain
  | a => { r with a := value }
  | b => { r with b := value }
  | c => { r with c := value }
  | d => { r with d := value }

end Register

def F (x y z : Word) : Word := (x &&& y) ||| (~~~x &&& z)

def G (x y z : Word) : Word := (x &&& z) ||| (y &&& ~~~z)

def H (x y z : Word) : Word := x ^^^ y ^^^ z

def I (x y z : Word) : Word := y ^^^ (x ||| ~~~z)

def rotateLeft (x : Word) (n : Nat) : Word := (x <<< n) ||| (x >>> (32 - n))

inductive Macro where
  | FF
  | GG
  | HH
  | II
  deriving DecidableEq, Repr

def Macro.function : Macro → Word → Word → Word → Word
  | FF => F
  | GG => G
  | HH => H
  | II => I

structure Operation where
  name : Macro
  a : Register
  b : Register
  c : Register
  d : Register
  x : Nat
  s : Nat
  ac : Word
  deriving DecidableEq, Repr

def Operation.run (words : List Word) (r : Chain) (op : Operation) : Chain :=
  let sum := op.name.function (op.b.read r) (op.c.read r) (op.d.read r) + words.getD op.x 0 + op.ac
  let r := op.a.write r (op.a.read r + sum)
  let r := op.a.write r (rotateLeft (op.a.read r) op.s)
  op.a.write r (op.a.read r + op.b.read r)

def operations : List Operation :=
  [⟨.FF, .a, .b, .c, .d, 0, 7, 0xd76aa478⟩, ⟨.FF, .d, .a, .b, .c, 1, 12, 0xe8c7b756⟩,
   ⟨.FF, .c, .d, .a, .b, 2, 17, 0x242070db⟩, ⟨.FF, .b, .c, .d, .a, 3, 22, 0xc1bdceee⟩,
   ⟨.FF, .a, .b, .c, .d, 4, 7, 0xf57c0faf⟩, ⟨.FF, .d, .a, .b, .c, 5, 12, 0x4787c62a⟩,
   ⟨.FF, .c, .d, .a, .b, 6, 17, 0xa8304613⟩, ⟨.FF, .b, .c, .d, .a, 7, 22, 0xfd469501⟩,
   ⟨.FF, .a, .b, .c, .d, 8, 7, 0x698098d8⟩, ⟨.FF, .d, .a, .b, .c, 9, 12, 0x8b44f7af⟩,
   ⟨.FF, .c, .d, .a, .b, 10, 17, 0xffff5bb1⟩, ⟨.FF, .b, .c, .d, .a, 11, 22, 0x895cd7be⟩,
   ⟨.FF, .a, .b, .c, .d, 12, 7, 0x6b901122⟩, ⟨.FF, .d, .a, .b, .c, 13, 12, 0xfd987193⟩,
   ⟨.FF, .c, .d, .a, .b, 14, 17, 0xa679438e⟩, ⟨.FF, .b, .c, .d, .a, 15, 22, 0x49b40821⟩,
   ⟨.GG, .a, .b, .c, .d, 1, 5, 0xf61e2562⟩, ⟨.GG, .d, .a, .b, .c, 6, 9, 0xc040b340⟩,
   ⟨.GG, .c, .d, .a, .b, 11, 14, 0x265e5a51⟩, ⟨.GG, .b, .c, .d, .a, 0, 20, 0xe9b6c7aa⟩,
   ⟨.GG, .a, .b, .c, .d, 5, 5, 0xd62f105d⟩, ⟨.GG, .d, .a, .b, .c, 10, 9, 0x2441453⟩,
   ⟨.GG, .c, .d, .a, .b, 15, 14, 0xd8a1e681⟩, ⟨.GG, .b, .c, .d, .a, 4, 20, 0xe7d3fbc8⟩,
   ⟨.GG, .a, .b, .c, .d, 9, 5, 0x21e1cde6⟩, ⟨.GG, .d, .a, .b, .c, 14, 9, 0xc33707d6⟩,
   ⟨.GG, .c, .d, .a, .b, 3, 14, 0xf4d50d87⟩, ⟨.GG, .b, .c, .d, .a, 8, 20, 0x455a14ed⟩,
   ⟨.GG, .a, .b, .c, .d, 13, 5, 0xa9e3e905⟩, ⟨.GG, .d, .a, .b, .c, 2, 9, 0xfcefa3f8⟩,
   ⟨.GG, .c, .d, .a, .b, 7, 14, 0x676f02d9⟩, ⟨.GG, .b, .c, .d, .a, 12, 20, 0x8d2a4c8a⟩,
   ⟨.HH, .a, .b, .c, .d, 5, 4, 0xfffa3942⟩, ⟨.HH, .d, .a, .b, .c, 8, 11, 0x8771f681⟩,
   ⟨.HH, .c, .d, .a, .b, 11, 16, 0x6d9d6122⟩, ⟨.HH, .b, .c, .d, .a, 14, 23, 0xfde5380c⟩,
   ⟨.HH, .a, .b, .c, .d, 1, 4, 0xa4beea44⟩, ⟨.HH, .d, .a, .b, .c, 4, 11, 0x4bdecfa9⟩,
   ⟨.HH, .c, .d, .a, .b, 7, 16, 0xf6bb4b60⟩, ⟨.HH, .b, .c, .d, .a, 10, 23, 0xbebfbc70⟩,
   ⟨.HH, .a, .b, .c, .d, 13, 4, 0x289b7ec6⟩, ⟨.HH, .d, .a, .b, .c, 0, 11, 0xeaa127fa⟩,
   ⟨.HH, .c, .d, .a, .b, 3, 16, 0xd4ef3085⟩, ⟨.HH, .b, .c, .d, .a, 6, 23, 0x4881d05⟩,
   ⟨.HH, .a, .b, .c, .d, 9, 4, 0xd9d4d039⟩, ⟨.HH, .d, .a, .b, .c, 12, 11, 0xe6db99e5⟩,
   ⟨.HH, .c, .d, .a, .b, 15, 16, 0x1fa27cf8⟩, ⟨.HH, .b, .c, .d, .a, 2, 23, 0xc4ac5665⟩,
   ⟨.II, .a, .b, .c, .d, 0, 6, 0xf4292244⟩, ⟨.II, .d, .a, .b, .c, 7, 10, 0x432aff97⟩,
   ⟨.II, .c, .d, .a, .b, 14, 15, 0xab9423a7⟩, ⟨.II, .b, .c, .d, .a, 5, 21, 0xfc93a039⟩,
   ⟨.II, .a, .b, .c, .d, 12, 6, 0x655b59c3⟩, ⟨.II, .d, .a, .b, .c, 3, 10, 0x8f0ccc92⟩,
   ⟨.II, .c, .d, .a, .b, 10, 15, 0xffeff47d⟩, ⟨.II, .b, .c, .d, .a, 1, 21, 0x85845dd1⟩,
   ⟨.II, .a, .b, .c, .d, 8, 6, 0x6fa87e4f⟩, ⟨.II, .d, .a, .b, .c, 15, 10, 0xfe2ce6e0⟩,
   ⟨.II, .c, .d, .a, .b, 6, 15, 0xa3014314⟩, ⟨.II, .b, .c, .d, .a, 13, 21, 0x4e0811a1⟩,
   ⟨.II, .a, .b, .c, .d, 4, 6, 0xf7537e82⟩, ⟨.II, .d, .a, .b, .c, 11, 10, 0xbd3af235⟩,
   ⟨.II, .c, .d, .a, .b, 2, 15, 0x2ad7d2bb⟩, ⟨.II, .b, .c, .d, .a, 9, 21, 0xeb86d391⟩]

def toChar (w : Word) : UInt8 := .ofBitVec (w.setWidth 8)

def md5Encode (input : List Word) : List UInt8 :=
  input.flatMap fun w =>
    [toChar (w &&& 0xFF), toChar ((w >>> 8) &&& 0xFF), toChar ((w >>> 16) &&& 0xFF),
      toChar ((w >>> 24) &&& 0xFF)]

def md5Decode : List UInt8 → List Word
  | b₀ :: b₁ :: b₂ :: b₃ :: rest =>
      (b₀.toBitVec.setWidth 32 ||| b₁.toBitVec.setWidth 32 <<< 8 |||
        b₂.toBitVec.setWidth 32 <<< 16 ||| b₃.toBitVec.setWidth 32 <<< 24) :: md5Decode rest
  | _ => []

def md5Transform (state : Chain) (block : List UInt8) : Chain :=
  let r := operations.foldl (Operation.run (md5Decode block)) state
  ⟨state.a + r.a, state.b + r.b, state.c + r.c, state.d + r.d⟩

structure Context where
  count₀ : Word
  count₁ : Word
  state : Chain
  buffer : List UInt8
  deriving DecidableEq, Repr

def memcpy (target : List UInt8) (offset : Nat) (source : List UInt8) (n : Nat) : List UInt8 :=
  target.take offset ++ source.take n ++ target.drop (offset + n)

def md5Init (context : Context) : Context :=
  { context with
    count₀ := 0
    count₁ := 0
    state := ⟨0x67452301, 0xEFCDAB89, 0x98BADCFE, 0x10325476⟩ }

def transformBlocks (input : List UInt8) (inputlen : Word) :
    Nat → Word → Chain → Option (Word × Chain)
  | 0, _, _ => none
  | fuel + 1, i, state =>
      if i + 64 ≤ inputlen then
        transformBlocks input inputlen fuel (i + 64)
          (md5Transform state ((input.drop i.toNat).take 64))
      else
        some (i, state)

def bufferIndex (context : Context) : Word := (context.count₀ >>> 3) &&& 0x3F

def countBits (context : Context) (inputlen : Word) : Context :=
  let count₀ := context.count₀ + inputlen <<< 3
  let count₁ := if count₀ < inputlen <<< 3 then context.count₁ + 1 else context.count₁
  { context with count₀ := count₀, count₁ := count₁ + inputlen >>> 29 }

def md5Update (context : Context) (input : List UInt8) (inputlen : Word) : Option Context :=
  let index := bufferIndex context
  let partlen := 64 - index
  let context := countBits context inputlen
  if partlen ≤ inputlen then
    let buffer := memcpy context.buffer index.toNat input partlen.toNat
    let state := md5Transform context.state buffer
    (transformBlocks input inputlen (inputlen.toNat / 64 + 1) partlen state).map fun (i, state) =>
      { context with
        state := state
        buffer := memcpy buffer 0 (input.drop i.toNat) (inputlen - i).toNat }
  else
    some { context with buffer := memcpy context.buffer index.toNat input inputlen.toNat }

def PADDING : List UInt8 := 0x80 :: List.replicate 63 0

def md5Final (context : Context) : Option (List UInt8) := do
  let index := bufferIndex context
  let padlen := if index < 56 then 56 - index else 120 - index
  let bits := md5Encode [context.count₀, context.count₁]
  let context ← md5Update context PADDING padlen
  let context ← md5Update context bits 8
  return md5Encode [context.state.a, context.state.b, context.state.c, context.state.d]

def md5Chunks (context : Context) (chunks : List (List UInt8)) : Option (List UInt8) := do
  let context ← chunks.foldlM (fun context chunk => md5Update context chunk chunk.length)
    (md5Init context)
  md5Final context

def Register.cycle (i : Nat) : Register :=
  match i % 4 with
  | 0 => .a
  | 1 => .b
  | 2 => .c
  | _ => .d

def Macro.round (i : Nat) : Macro :=
  match i / 16 with
  | 0 => .FF
  | 1 => .GG
  | 2 => .HH
  | _ => .II

/-- The registers as the recurrence names them before operation `i`. -/
def renamed (i : Nat) (r : Chain) : Chain :=
  ⟨(Register.cycle (3 * i)).read r, (Register.cycle (3 * i + 1)).read r,
    (Register.cycle (3 * i + 2)).read r, (Register.cycle (3 * i + 3)).read r⟩

def scheduled (i : Nat) (ac : Word) : Operation :=
  ⟨Macro.round i, .cycle (3 * i), .cycle (3 * i + 1), .cycle (3 * i + 2), .cycle (3 * i + 3),
    Md5.pick i, Md5.shift i, ac⟩

def constants : List Word := operations.map Operation.ac

theorem operations_scheduled :
    operations = (List.range 64).map fun i => scheduled i (constants.getD i 0) := by
  decide +kernel

theorem constants_pinned :
    ∀ i < 64, Sine.Pinned 4294967296 (i + 1) (constants.getD i 0).toNat := by
  decide +kernel

theorem constants_sine (i : Nat) (inside : i < 64) : constants.getD i 0 = Md5.sine i := by
  have digits := Sine.floor_sin 4294967296 (i + 1) _ (constants_pinned i inside)
  rw [Md5.sine, digits, BitVec.ofNat_toNat, BitVec.setWidth_eq]

theorem macro_function (i : Nat) : (Macro.round i).function = Md5.auxiliary (i / 16) := by
  unfold Macro.round
  match i / 16 with
  | 0 => rfl
  | 1 => rfl
  | 2 => rfl
  | _ + 3 => rfl

theorem rotateLeft_eq (x : Word) (n : Nat) (inside : n < 32) :
    rotateLeft x n = x.rotateLeft n := by
  rw [BitVec.rotateLeft_def, Nat.mod_eq_of_lt inside]
  rfl

theorem shift_lt (i : Nat) : Md5.shift i < 32 := by
  have column : i % 4 < 4 := Nat.mod_lt _ (by decide)
  unfold Md5.shift
  split <;> interval_cases i % 4 <;> decide

theorem pick_lt (i : Nat) : Md5.pick i < 16 := by
  unfold Md5.pick
  split <;> exact Nat.mod_lt _ (by decide)

theorem Register.cycle_mod (i k : Nat) (same : i % 4 = k % 4) :
    Register.cycle i = Register.cycle k := by
  rw [Register.cycle, Register.cycle, same]

theorem renamed_write (i : Nat) (r : Chain) (value : Word) :
    renamed (i + 1) ((Register.cycle (3 * i)).write r value) =
      ⟨(renamed i r).d, value, (renamed i r).b, (renamed i r).c⟩ := by
  obtain ⟨k, inside, same⟩ : ∃ k, k < 4 ∧ i % 4 = k := ⟨_, Nat.mod_lt _ (by decide), rfl⟩
  rw [renamed, renamed, Register.cycle_mod (3 * i) (3 * k) (by omega),
    Register.cycle_mod (3 * i + 1) (3 * k + 1) (by omega),
    Register.cycle_mod (3 * i + 2) (3 * k + 2) (by omega),
    Register.cycle_mod (3 * i + 3) (3 * k + 3) (by omega),
    Register.cycle_mod (3 * (i + 1)) (3 * k + 3) (by omega),
    Register.cycle_mod (3 * (i + 1) + 1) (3 * k) (by omega),
    Register.cycle_mod (3 * (i + 1) + 2) (3 * k + 1) (by omega),
    Register.cycle_mod (3 * (i + 1) + 3) (3 * k + 2) (by omega)]
  interval_cases k <;> rfl

@[simp] theorem Register.read_write (r : Chain) (value : Word) (reg : Register) :
    reg.read (reg.write r value) = value := by
  cases reg <;> rfl

@[simp] theorem Register.write_write (r : Chain) (first second : Word) (reg : Register) :
    reg.write (reg.write r first) second = reg.write r second := by
  cases reg <;> rfl

theorem Register.read_write_ne (r : Chain) (value : Word) (reg other : Register)
    (apart : other ≠ reg) : other.read (reg.write r value) = other.read r := by
  cases reg <;> cases other <;> first | rfl | exact absurd rfl apart

theorem Register.cycle_succ_ne (i : Nat) : Register.cycle (i + 1) ≠ Register.cycle i := by
  obtain ⟨k, inside, same⟩ : ∃ k, k < 4 ∧ i % 4 = k := ⟨_, Nat.mod_lt _ (by decide), rfl⟩
  rw [Register.cycle_mod i k (by omega), Register.cycle_mod (i + 1) (k + 1) (by omega)]
  interval_cases k <;> decide

theorem Operation.run_eq (words : List Word) (r : Chain) (op : Operation) (apart : op.b ≠ op.a) :
    op.run words r =
      op.a.write r (rotateLeft (op.a.read r +
        (op.name.function (op.b.read r) (op.c.read r) (op.d.read r) + words.getD op.x 0 + op.ac))
        op.s + op.b.read r) := by
  simp only [Operation.run, Register.read_write, Register.write_write,
    Register.read_write_ne _ _ _ _ apart]

theorem shifted_toNat (b : UInt8) (k : Nat) (inside : k ≤ 24) :
    (b.toBitVec.setWidth 32 <<< k : Word).toNat = 2 ^ k * b.toNat := by
  have small : b.toNat < 2 ^ 8 := b.toNat_lt
  have room : 2 ^ k * b.toNat < 2 ^ 32 := by
    calc 2 ^ k * b.toNat < 2 ^ k * 2 ^ 8 := Nat.mul_lt_mul_of_pos_left small (by positivity)
      _ = 2 ^ (k + 8) := (pow_add 2 k 8).symm
      _ ≤ 2 ^ 32 := Nat.pow_le_pow_right (by decide) (by omega)
  rw [BitVec.toNat_shiftLeft, BitVec.toNat_setWidth, UInt8.toNat_toBitVec,
    Nat.mod_eq_of_lt (show b.toNat < 2 ^ 32 by omega), Nat.shiftLeft_eq, Nat.mul_comm,
    Nat.mod_eq_of_lt room]

theorem decode_word (b₀ b₁ b₂ b₃ : UInt8) :
    (b₀.toBitVec.setWidth 32 ||| b₁.toBitVec.setWidth 32 <<< 8 |||
        b₂.toBitVec.setWidth 32 <<< 16 ||| b₃.toBitVec.setWidth 32 <<< 24 : Word) =
      BitVec.ofNat 32 (Nat.ofDigits 256 [b₀.toNat, b₁.toNat, b₂.toNat, b₃.toNat]) := by
  have small₀ : b₀.toNat < 2 ^ 8 := b₀.toNat_lt
  have small₁ : b₁.toNat < 2 ^ 8 := b₁.toNat_lt
  have small₂ : b₂.toNat < 2 ^ 8 := b₂.toNat_lt
  have small₃ : b₃.toNat < 2 ^ 8 := b₃.toNat_lt
  have alone : (b₀.toBitVec.setWidth 32 : Word).toNat = b₀.toNat := by
    rw [BitVec.toNat_setWidth, UInt8.toNat_toBitVec, Nat.mod_eq_of_lt (by omega)]
  apply BitVec.eq_of_toNat_eq
  rw [BitVec.toNat_or, BitVec.toNat_or, BitVec.toNat_or, shifted_toNat _ 8 (by decide),
    shifted_toNat _ 16 (by decide), shifted_toNat _ 24 (by decide), alone, Nat.lor_comm b₀.toNat,
    ← Nat.two_pow_add_eq_or_of_lt small₀, Nat.lor_comm _ (2 ^ 16 * _),
    ← Nat.two_pow_add_eq_or_of_lt (by omega), Nat.lor_comm _ (2 ^ 24 * _),
    ← Nat.two_pow_add_eq_or_of_lt (by omega)]
  simp only [Nat.ofDigits_cons, Nat.ofDigits_nil, BitVec.toNat_ofNat]
  omega

theorem md5Decode_word (block : List UInt8) (k : Nat) (inside : 4 * k + 4 ≤ block.length) :
    (md5Decode block).getD k 0 = Md5.word block k := by
  induction k generalizing block with
  | zero =>
      match block, inside with
      | b₀ :: b₁ :: b₂ :: b₃ :: rest, _ => 
          exact decode_word b₀ b₁ b₂ b₃
  | succ k ih =>
      match block, inside with
      | b₀ :: b₁ :: b₂ :: b₃ :: rest, inside => 
          rw [md5Decode, List.getD_cons_succ, ih rest (by simp at inside; omega)]
          rfl

theorem run_scheduled (block : List UInt8) (i : Nat) (r : Chain) (inside : i < 64)
    (full : block.length = 64) :
    renamed (i + 1) ((scheduled i (constants.getD i 0)).run (md5Decode block) r) =
      Md5.step block i (renamed i r) := by
  have picked := pick_lt i
  rw [Operation.run_eq _ _ _ (Register.cycle_succ_ne (3 * i))]
  simp only [scheduled]
  rw [renamed_write, macro_function, rotateLeft_eq _ _ (shift_lt i), constants_sine i inside,
    md5Decode_word block (Md5.pick i) (by omega), BitVec.add_comm _ (Register.read r _)]
  simp only [Md5.step, renamed, BitVec.add_assoc]

theorem fold_operations (block : List UInt8) (full : block.length = 64) (r : Chain) (n : Nat)
    (inside : n ≤ 64) :
    renamed n (((List.range n).map fun i => scheduled i (constants.getD i 0)).foldl
        (Operation.run (md5Decode block)) r) =
      (List.range n).foldl (fun s i => Md5.step block i s) r := by
  induction n with
  | zero => rfl
  | succ n ih =>
      rw [List.range_succ, List.map_append, List.foldl_append, List.foldl_append, ← ih (by omega)]
      exact run_scheduled block n _ (by omega) full

theorem md5Transform_eq (state : Chain) (block : List UInt8) (full : block.length = 64) :
    md5Transform state block = Md5.compress state block := by
  have folded := fold_operations block full state 64 le_rfl
  have back (r : Chain) : renamed 64 r = r := rfl
  rw [back, ← operations_scheduled] at folded
  rw [md5Transform, Md5.compress, folded]

theorem toChar_toNat (w : Word) (k : Nat) :
    toChar ((w >>> k) &&& 0xFF) = UInt8.ofNat (w.toNat / 2 ^ k) := by
  apply UInt8.toNat_inj.1
  have masked : ((w >>> k) &&& 0xFF).toNat = w.toNat / 2 ^ k % 2 ^ 8 := by
    rw [BitVec.toNat_and, BitVec.toNat_ushiftRight, Nat.shiftRight_eq_div_pow]
    exact Nat.and_two_pow_sub_one_eq_mod _ 8
  simp only [toChar, UInt8.toNat_ofBitVec, BitVec.toNat_setWidth, masked, UInt8.toNat_ofNat']
  omega

theorem md5Encode_eq (input : List Word) :
    md5Encode input = input.flatMap fun w => Md5.littleEndian 4 w.toNat := by
  have bytes (w : Word) : [toChar (w &&& 0xFF), toChar ((w >>> 8) &&& 0xFF),
      toChar ((w >>> 16) &&& 0xFF), toChar ((w >>> 24) &&& 0xFF)] =
      Md5.littleEndian 4 w.toNat := by
    have low := toChar_toNat w 0
    rw [BitVec.ushiftRight_zero] at low
    rw [low, toChar_toNat, toChar_toNat, toChar_toNat]
    rfl
  simp only [md5Encode, bytes]

/-- What the context holds after the bytes `m`: the chaining value of the whole blocks and,
at the front of the buffer, what follows them. -/
structure Represents (context : Context) (m : List UInt8) : Prop where
  room : context.buffer.length = 64
  bits : context.count₁.toNat * 2 ^ 32 + context.count₀.toNat = 8 * m.length % 2 ^ 64
  chained : context.state = (Md5.hash.absorb Md5.initial m).1
  pending : context.buffer.take (m.length % 64) = (Md5.hash.absorb Md5.initial m).2

theorem md5Init_represents (context : Context) (room : context.buffer.length = 64) :
    Represents (md5Init context) [] := by
  have nothing := Md5.hash.absorb_short Md5.initial [] (by decide)
  constructor
  · exact room
  · simp [md5Init]
  · rw [nothing]
    rfl
  · simp [nothing]

theorem bufferIndex_toNat (context : Context) (m : List UInt8) (held : Represents context m) :
    (bufferIndex context).toNat = m.length % 64 := by
  have bits := held.bits
  have small := context.count₀.isLt
  have masked : (bufferIndex context).toNat = context.count₀.toNat / 2 ^ 3 % 2 ^ 6 := by
    rw [bufferIndex, BitVec.toNat_and, BitVec.toNat_ushiftRight, Nat.shiftRight_eq_div_pow]
    exact Nat.and_two_pow_sub_one_eq_mod _ 6
  omega

theorem pack_mod (a b size : Nat) (small : b < size) :
    a % size * size + b = (a * size + b) % (size * size) := by
  have positive : 0 < size := by omega
  rw [Nat.mod_mul, Nat.mul_comm a size, Nat.mul_add_mod, Nat.mod_eq_of_lt small,
    Nat.mul_add_div positive, Nat.div_eq_of_lt small, Nat.add_zero]
  ring

theorem count_carry (low high bits len n : Nat) (small : low < 2 ^ 32)
    (shifted : bits = len * 8 % 2 ^ 32) (counted : high * 2 ^ 32 + low = 8 * n % 2 ^ 64) :
    ((if (low + bits) % 2 ^ 32 < bits then (high + 1) % 2 ^ 32 else high) + len / 2 ^ 29) % 2 ^ 32 *
        2 ^ 32 + (low + bits) % 2 ^ 32 = 8 * (n + len) % 2 ^ 64 := by
  have upper : len / 2 ^ 29 = len * 8 / 2 ^ 32 := by omega
  have below : bits < 2 ^ 32 := shifted ▸ Nat.mod_lt _ (by decide)
  have parts : len / 2 ^ 29 * 2 ^ 32 + bits = 8 * len := by
    rw [upper, shifted, Nat.mul_comm _ (2 ^ 32), Nat.div_add_mod, Nat.mul_comm]
  have total : 8 * (n + len) % 2 ^ 64 =
      (high * 2 ^ 32 + low + (len / 2 ^ 29 * 2 ^ 32 + bits)) % (2 ^ 32 * 2 ^ 32) := by
    rw [counted, parts, Nat.mul_add, ← pow_add]
    exact (Nat.mod_add_mod _ _ _).symm
  rw [total]
  clear counted total parts upper shifted
  generalize len / 2 ^ 29 = q
  split
  · have carried : 2 ^ 32 ≤ low + bits := by omega
    have wrapped : (low + bits) % 2 ^ 32 = low + bits - 2 ^ 32 := by omega
    have same : (high + 1 + q) * 2 ^ 32 + (low + bits - 2 ^ 32) =
        high * 2 ^ 32 + low + (q * 2 ^ 32 + bits) := by omega
    rw [wrapped, Nat.mod_add_mod, pack_mod _ _ _ (by omega), same]
  · have stayed : low + bits < 2 ^ 32 := by omega
    have same : (high + q) * 2 ^ 32 + (low + bits) =
        high * 2 ^ 32 + low + (q * 2 ^ 32 + bits) := by omega
    rw [Nat.mod_eq_of_lt stayed, pack_mod _ _ _ stayed, same]

theorem countBits_toNat (context : Context) (inputlen : Word) (n : Nat)
    (bits : context.count₁.toNat * 2 ^ 32 + context.count₀.toNat = 8 * n % 2 ^ 64) :
    (countBits context inputlen).count₁.toNat * 2 ^ 32 + (countBits context inputlen).count₀.toNat =
      8 * (n + inputlen.toNat) % 2 ^ 64 := by
  have low : (inputlen <<< 3).toNat = inputlen.toNat * 8 % 2 ^ 32 := by
    rw [BitVec.toNat_shiftLeft, Nat.shiftLeft_eq]
  have high : (inputlen >>> 29).toNat = inputlen.toNat / 2 ^ 29 := by
    rw [BitVec.toNat_ushiftRight, Nat.shiftRight_eq_div_pow]
  rw [← count_carry _ _ _ _ _ context.count₀.isLt low bits, ← high]
  simp only [countBits, BitVec.toNat_add, BitVec.lt_def]
  split
  · rw [BitVec.toNat_add]
    rfl
  · rfl

theorem memcpy_length (target source : List UInt8) (offset n : Nat)
    (inside : offset + n ≤ target.length) (available : n ≤ source.length) :
    (memcpy target offset source n).length = target.length := by
  simp only [memcpy, List.length_append, List.length_take, List.length_drop]
  omega

theorem take_memcpy (target source : List UInt8) (offset n : Nat)
    (inside : offset + n ≤ target.length) (available : n ≤ source.length) :
    (memcpy target offset source n).take (offset + n) = target.take offset ++ source.take n := by
  apply List.take_left'
  simp only [List.length_append, List.length_take]
  omega

theorem transformBlocks_spec (input : List UInt8) (inputlen : Word) (fuel : Nat) (i : Word)
    (state : Chain) (available : inputlen.toNat ≤ input.length)
    (short : inputlen.toNat + 64 < 2 ^ 32) (inside : i.toNat ≤ inputlen.toNat)
    (enough : (inputlen.toNat - i.toNat) / 64 < fuel) :
    ∃ last : Word, ∃ state' : Chain,
      transformBlocks input inputlen fuel i state = some (last, state') ∧
      last.toNat ≤ inputlen.toNat ∧
      Md5.hash.absorb state ((input.take inputlen.toNat).drop i.toNat) =
        (state', (input.take inputlen.toNat).drop last.toNat) := by
  induction fuel generalizing i state with
  | zero => omega
  | succ fuel ih =>
      have next : (i + 64).toNat = i.toNat + 64 := by
        rw [BitVec.toNat_add]
        exact Nat.mod_eq_of_lt (by simp; omega)
      have remaining : ((input.take inputlen.toNat).drop i.toNat).length =
          inputlen.toNat - i.toNat := by
        rw [List.length_drop, List.length_take]
        omega
      rw [transformBlocks]
      by_cases whole : i + 64 ≤ inputlen
      · have fits : i.toNat + 64 ≤ inputlen.toNat := next ▸ BitVec.le_def.1 whole
        have block : ((input.take inputlen.toNat).drop i.toNat).take 64 =
            (input.drop i.toNat).take 64 := by
          rw [List.drop_take, List.take_take, Nat.min_eq_left (by omega)]
        have full : ((input.drop i.toNat).take 64).length = 64 := by
          rw [List.length_take, List.length_drop]
          omega
        obtain ⟨last, state', ran, ended, absorbed⟩ := ih (i + 64)
          (md5Transform state ((input.drop i.toNat).take 64)) (by omega) (by omega)
        refine ⟨last, state', ?_, ended, ?_⟩
        · rw [if_pos whole, ran]
        · rw [← absorbed, next, md5Transform_eq _ _ full, ← block, ← List.drop_drop]
          exact Md5.hash.absorb_step _ _ (by rw [remaining]; exact Nat.le_sub_of_add_le' fits)
      · have ends : inputlen.toNat < i.toNat + 64 := next ▸ BitVec.not_le.1 whole
        refine ⟨i, state, if_neg whole, inside, ?_⟩
        exact Md5.hash.absorb_short _ _ (by rw [remaining]; exact Nat.sub_lt_left_of_lt_add inside ends)

theorem represents_of_absorb (context : Context) (m rest : List UInt8)
    (room : context.buffer.length = 64)
    (bits : context.count₁.toNat * 2 ^ 32 + context.count₀.toNat = 8 * m.length % 2 ^ 64)
    (absorbed : Md5.hash.absorb Md5.initial m = (context.state, rest))
    (front : context.buffer.take rest.length = rest) : Represents context m := by
  have remainder := Md5.hash.absorb_remainder Md5.initial m
  rw [absorbed] at remainder
  refine ⟨room, bits, by rw [absorbed], ?_⟩
  rw [absorbed]
  exact remainder ▸ front

/-- The bytes before the call and those of the call, absorbed from what the context holds. -/
theorem absorb_represented (context : Context) (m data : List UInt8)
    (held : Represents context m) :
    Md5.hash.absorb Md5.initial (m ++ data) =
      Md5.hash.absorb context.state (context.buffer.take (m.length % 64) ++ data) := by
  rw [Md5.hash.absorb_append, ← held.chained, ← held.pending]

theorem partlen_toNat (context : Context) (m : List UInt8) (held : Represents context m) :
    (64 - bufferIndex context).toNat = 64 - m.length % 64 := by
  have index := bufferIndex_toNat context m held
  rw [BitVec.toNat_sub_of_le, index]
  · rfl
  · rw [BitVec.le_def, index]
    exact (Nat.mod_lt _ (by decide)).le

theorem md5Update_bits (context : Context) (m input : List UInt8) (inputlen : Word)
    (held : Represents context m) (available : inputlen.toNat ≤ input.length) :
    (countBits context inputlen).count₁.toNat * 2 ^ 32 + (countBits context inputlen).count₀.toNat =
      8 * (m ++ input.take inputlen.toNat).length % 2 ^ 64 := by
  rw [List.length_append, List.length_take_of_le available]
  exact countBits_toNat context inputlen m.length held.bits

theorem md5Update_keeps (context : Context) (m input : List UInt8) (inputlen : Word)
    (held : Represents context m) (available : inputlen.toNat ≤ input.length)
    (fewer : inputlen < 64 - bufferIndex context) :
    ∃ context', md5Update context input inputlen = some context' ∧
      Represents context' (m ++ input.take inputlen.toNat) := by
  have space : inputlen.toNat < 64 - m.length % 64 :=
    partlen_toNat context m held ▸ BitVec.lt_def.1 fewer
  have fits : m.length % 64 + inputlen.toNat ≤ context.buffer.length := by
    rw [held.room]
    omega
  have count : (context.buffer.take (m.length % 64) ++ input.take inputlen.toNat).length =
      m.length % 64 + inputlen.toNat := by
    rw [List.length_append, List.length_take_of_le available, List.length_take_of_le (by omega)]
  have returned : md5Update context input inputlen = some
      { countBits context inputlen with
        buffer := memcpy context.buffer (m.length % 64) input inputlen.toNat } := by
    rw [md5Update, if_neg (BitVec.not_le.2 fewer), bufferIndex_toNat context m held]
    rfl
  refine ⟨_, returned, represents_of_absorb _ _
    (context.buffer.take (m.length % 64) ++ input.take inputlen.toNat) ?_
    (md5Update_bits context m input inputlen held available) ?_ ?_⟩
  · exact (memcpy_length _ _ _ _ fits available).trans held.room
  · rw [absorb_represented context m _ held]
    apply Md5.hash.absorb_short
    rw [count]
    exact Nat.add_lt_of_lt_sub' space
  · rw [count]
    exact take_memcpy _ _ _ _ fits available

theorem absorb_filled (context : Context) (m data : List UInt8) (held : Represents context m)
    (enough : 64 - m.length % 64 ≤ data.length) :
    Md5.hash.absorb Md5.initial (m ++ data) =
      Md5.hash.absorb (md5Transform context.state
          (memcpy context.buffer (m.length % 64) data (64 - m.length % 64)))
        (data.drop (64 - m.length % 64)) := by
  have below : m.length % 64 < 64 := Nat.mod_lt _ (by decide)
  have filled : memcpy context.buffer (m.length % 64) data (64 - m.length % 64) =
      context.buffer.take (m.length % 64) ++ data.take (64 - m.length % 64) := by
    rw [memcpy, List.drop_of_length_le, List.append_nil]
    rw [held.room]
    omega
  have size : (memcpy context.buffer (m.length % 64) data (64 - m.length % 64)).length = 64 := by
    rw [memcpy_length _ _ _ _ (by rw [held.room]; omega) enough, held.room]
  rw [absorb_represented context m _ held, md5Transform_eq _ _ size, filled]
  nth_rewrite 1 [← List.take_append_drop (64 - m.length % 64) data]
  rw [← List.append_assoc]
  exact Md5.hash.absorb_append_block _ _ _ (filled ▸ size)

/-- The input completes the block: its whole blocks are compressed from where they are
and the rest of it is moved to the front of the buffer. -/
theorem md5Update_fills (context : Context) (m input : List UInt8) (inputlen : Word)
    (held : Represents context m) (available : inputlen.toNat ≤ input.length)
    (short : inputlen.toNat + 64 < 2 ^ 32) (fills : 64 - bufferIndex context ≤ inputlen) :
    ∃ context', md5Update context input inputlen = some context' ∧
      Represents context' (m ++ input.take inputlen.toNat) := by
  have part := partlen_toNat context m held
  have below : m.length % 64 < 64 := Nat.mod_lt _ (by decide)
  have enough : 64 - m.length % 64 ≤ inputlen.toNat := part ▸ BitVec.le_def.1 fills
  have taken : (input.take inputlen.toNat).length = inputlen.toNat :=
    List.length_take_of_le available
  have same : memcpy context.buffer (m.length % 64) (input.take inputlen.toNat)
      (64 - m.length % 64) = memcpy context.buffer (m.length % 64) input (64 - m.length % 64) := by
    rw [memcpy, memcpy, List.take_take, Nat.min_eq_left enough]
  have absorbed := absorb_filled context m (input.take inputlen.toNat) held (by omega)
  rw [same] at absorbed
  have size : (memcpy context.buffer (m.length % 64) input (64 - m.length % 64)).length = 64 := by
    rw [memcpy_length _ _ _ _ (by rw [held.room]; omega) (by omega), held.room]
  obtain ⟨last, state', ran, ended, blocks⟩ := transformBlocks_spec input inputlen
    (inputlen.toNat / 64 + 1) (64 - bufferIndex context)
    (md5Transform context.state
      (memcpy context.buffer (m.length % 64) input (64 - m.length % 64)))
    available short (BitVec.le_def.1 fills)
    (Nat.lt_succ_of_le (Nat.div_le_div_right (Nat.sub_le _ _)))
  rw [part] at blocks
  rw [blocks] at absorbed
  have behind : (inputlen - last).toNat = inputlen.toNat - last.toNat :=
    BitVec.toNat_sub_of_le (BitVec.le_def.2 ended)
  have left : ((input.take inputlen.toNat).drop last.toNat).length = (inputlen - last).toNat := by
    rw [List.length_drop, taken, behind]
  have few : (inputlen - last).toNat < 64 := by
    have remainder := Md5.hash.absorb_remainder Md5.initial (m ++ input.take inputlen.toNat)
    rw [absorbed, left] at remainder
    exact remainder ▸ Nat.mod_lt _ (by decide)
  have supply : (inputlen - last).toNat ≤ (input.drop last.toNat).length := by
    rw [behind, List.length_drop]
    exact Nat.sub_le_sub_right available _
  have returned : md5Update context input inputlen = some
      { countBits context inputlen with
        state := state'
        buffer := memcpy (memcpy context.buffer (m.length % 64) input (64 - m.length % 64)) 0
          (input.drop last.toNat) (inputlen - last).toNat } := by
    rw [md5Update, if_pos fills, bufferIndex_toNat context m held, part]
    exact congrArg (Option.map _) ran
  refine ⟨_, returned, represents_of_absorb _ _ _ ?_
    (md5Update_bits context m input inputlen held available) absorbed ?_⟩
  · exact (memcpy_length _ _ _ _ (by rw [size]; omega) supply).trans size
  · have front := take_memcpy (memcpy context.buffer (m.length % 64) input (64 - m.length % 64))
      (input.drop last.toNat) 0 (inputlen - last).toNat (by rw [size]; omega) supply
    rw [Nat.zero_add, List.take_zero, List.nil_append] at front
    rw [left, List.drop_take, ← behind]
    exact front

theorem md5Update_spec (context : Context) (m input : List UInt8) (inputlen : Word)
    (held : Represents context m) (available : inputlen.toNat ≤ input.length)
    (short : inputlen.toNat + 64 < 2 ^ 32) :
    ∃ context', md5Update context input inputlen = some context' ∧
      Represents context' (m ++ input.take inputlen.toNat) := by
  by_cases fills : 64 - bufferIndex context ≤ inputlen
  · exact md5Update_fills context m input inputlen held available short fills
  · exact md5Update_keeps context m input inputlen held available (BitVec.not_le.1 fills)

theorem padlen_toNat (context : Context) (m : List UInt8) (held : Represents context m) :
    (if bufferIndex context < 56 then 56 - bufferIndex context
      else 120 - bufferIndex context).toNat = (Md5.padding m).length := by
  have index := bufferIndex_toNat context m held
  have below : m.length % 64 < 64 := Nat.mod_lt _ (by decide)
  have few : bufferIndex context < 56 ↔ m.length % 64 < 56 := by
    rw [BitVec.lt_def, index]
    rfl
  rw [Md5.padding_length]
  by_cases room : m.length % 64 < 56
  · rw [if_pos (few.2 room), if_pos room, BitVec.toNat_sub_of_le, index]
    · rfl
    · exact BitVec.le_of_lt (few.2 room)
  · rw [if_neg (few.not.2 room), if_neg room, BitVec.toNat_sub_of_le, index]
    · rfl
    · rw [BitVec.le_def, index]
      exact (show m.length % 64 ≤ 120 by omega)

theorem PADDING_take (m : List UInt8) : PADDING.take (Md5.padding m).length = Md5.padding m := by
  have few : (119 - m.length % 64) % 64 ≤ 63 := Nat.le_of_lt_succ (Nat.mod_lt _ (by decide))
  rw [PADDING, Md5.padding, List.length_cons, List.length_replicate, List.take_succ_cons,
    List.take_replicate, Nat.min_eq_left few]

theorem bits_encoded (context : Context) (m : List UInt8) (held : Represents context m) :
    md5Encode [context.count₀, context.count₁] = Md5.littleEndian 8 (8 * m.length) := by
  have small := context.count₀.isLt
  have low : context.count₀.toNat = (8 * m.length % 2 ^ 64) % 256 ^ 4 := by
    rw [← held.bits]
    omega
  have high : context.count₁.toNat = (8 * m.length % 2 ^ 64) / 256 ^ 4 := by
    rw [← held.bits]
    omega
  rw [md5Encode_eq, ← Md5.littleEndian_mod 8, Md5.littleEndian_add 4 4]
  simp only [List.flatMap_cons, List.flatMap_nil, List.append_nil]
  rw [low, high, Md5.littleEndian_mod, show 256 ^ 8 = 2 ^ 64 by norm_num]

theorem md5Final_spec (context : Context) (m : List UInt8) (held : Represents context m) :
    md5Final context = some (Md5.digest m) := by
  have padlen := padlen_toNat context m held
  have size : (Md5.padding m).length ≤ 64 := by
    rw [Md5.padding_length]
    split <;> omega
  obtain ⟨padded, paddedRan, paddedHeld⟩ := md5Update_spec context m PADDING _ held
    (padlen.trans_le size) (by rw [padlen]; omega)
  rw [padlen, PADDING_take] at paddedHeld
  obtain ⟨last, lastRan, lastHeld⟩ := md5Update_spec padded _
    (md5Encode [context.count₀, context.count₁]) 8 paddedHeld
    (by rw [bits_encoded context m held, Md5.littleEndian_length]; rfl) (by decide)
  have whole : m ++ Md5.padding m ++
      (md5Encode [context.count₀, context.count₁]).take (8 : Word).toNat = Md5.padded m := by
    have eight : (Md5.littleEndian 8 (8 * m.length)).length ≤ (8 : Word).toNat := by
      rw [Md5.littleEndian_length]
      rfl
    rw [bits_encoded context m held, List.take_of_length_le eight]
    rfl
  rw [whole] at lastHeld
  have returned : md5Final context = some (md5Encode
      [last.state.a, last.state.b, last.state.c, last.state.d]) := by
    simp only [md5Final, paddedRan, Option.bind_eq_bind, Option.bind_some, lastRan]
    rfl
  rw [returned, md5Encode_eq, lastHeld.chained]
  rfl

theorem md5Chunks_spec (chunks : List (List UInt8)) (context : Context) (m : List UInt8)
    (held : Represents context m) (short : ∀ chunk ∈ chunks, chunk.length < 2 ^ 32 - 64) :
    ∃ context', chunks.foldlM (fun context chunk => md5Update context chunk chunk.length) context =
      some context' ∧ Represents context' (m ++ chunks.flatten) := by
  induction chunks generalizing context m with
  | nil => exact ⟨context, rfl, by simpa using held⟩
  | cons chunk chunks ih =>
      have few := short chunk List.mem_cons_self
      have length : (chunk.length : Word).toNat = chunk.length := by
        rw [BitVec.natCast_eq_ofNat, BitVec.toNat_ofNat]
        omega
      obtain ⟨next, ran, nextHeld⟩ := md5Update_spec context m chunk chunk.length held length.le
        (by omega)
      rw [length, List.take_length] at nextHeld
      obtain ⟨last, rest, lastHeld⟩ := ih next (m ++ chunk) nextHeld
        (fun other inside => short other (List.mem_cons_of_mem chunk inside))
      refine ⟨last, ?_, ?_⟩
      · rw [List.foldlM_cons, ran]
        exact rest
      · rw [List.flatten_cons, ← List.append_assoc]
        exact lastHeld

theorem md5_streaming (context : Context) (room : context.buffer.length = 64)
    (m : List UInt8) (chunks : List (List UInt8))
    (split : chunks.flatten = m) (short : ∀ chunk ∈ chunks, chunk.length < 2 ^ 32 - 64) :
    md5Chunks context chunks = some (Md5.digest m) := by
  obtain ⟨last, ran, held⟩ := md5Chunks_spec chunks (md5Init context) []
    (md5Init_represents context room) short
  rw [List.nil_append, split] at held
  rw [md5Chunks, ran]
  exact md5Final_spec last m held

theorem md5_streaming_abc :
    md5Chunks ⟨0, 0, ⟨0, 0, 0, 0⟩, List.replicate 64 0xff⟩ [[0x61], [], [0x62, 0x63]] =
      some (Md5.digest [0x61, 0x62, 0x63]) := by
  apply md5_streaming
  · exact List.length_replicate
  · rfl
  · decide

example : md5Chunks ⟨0, 0, ⟨0, 0, 0, 0⟩, List.replicate 64 0xff⟩ [[0x61], [], [0x62, 0x63]] =
    some [0x90, 0x01, 0x50, 0x98, 0x3c, 0xd2, 0x4f, 0xb0, 0xd6, 0x96, 0x3f, 0x7d, 0x28, 0xe1, 0x7f,
      0x72] := by
  decide +kernel

end DataStructure.Crypt
