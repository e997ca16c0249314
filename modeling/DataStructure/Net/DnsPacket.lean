import DataStructure.Lib.CText
import DataStructure.Lib.CharArray

/-! The question that `dns_query` of `socket/dnspacket.c` sends.

The socket is taken to be there. A store outside `buf` gives `none`, and `id`, which is stored
without `htons`, is stored with its low byte first. -/

namespace DataStructure.DnsPacket

open CharArray

def dot : UInt8 := 46

def headerSize : Nat := 12

def writeHeader (buf : CharArray 1024) : Option (CharArray 1024) := do
  let buf ← buf.write 0 [1, 0]
  let buf ← buf.write 2 [1, 0]
  let buf ← buf.write 4 [0, 1]
  buf.write 6 [0, 0]

/-- The rounds of the loop over the copy of the domain. -/
def labelLoop : Nat → CharArray 1024 → Nat → Nat → Option (CharArray 1024 × Nat × Nat)
  | 0, buf, p, i => some (buf, p, i)
  | rounds + 1, buf, p, i => do
      let c ← buf.bytes[p]?
      if c = dot then
        let buf ← buf.write (p - i - 1) [UInt8.ofNat i]
        labelLoop rounds buf (p + 1) 0
      else labelLoop rounds buf (p + 1) (i + 1)

def writeLengths (rounds : Nat) (buf : CharArray 1024) (p i : Nat) : Option (CharArray 1024) := do
  let (buf, p, i) ← labelLoop rounds buf p i
  buf.write (p - i - 1) [UInt8.ofNat i]

def dnsQuery (domain : List UInt8) : Option (List UInt8) := do
  let domain := domain.takeWhile (· ≠ 0)
  let buf ← writeHeader (zeroed 1024)
  let buf ← buf.write (headerSize + 1) (domain ++ [0])
  let buf ← writeLengths domain.length buf (headerSize + 1) 0
  -- `classes` is the second field of the question and is stored first
  let buf ← buf.write (headerSize + 2 + domain.length + 2) [0, 1]
  let buf ← buf.write (headerSize + 2 + domain.length) [0, 1]
  if headerSize + 4 + domain.length + 2 ≤ 1024 then
    some (buf.bytes.take (headerSize + 4 + domain.length + 2))
  else none

def wire : List (List UInt8) → List UInt8
  | [] => []
  | label :: labels => UInt8.ofNat label.length :: (label ++ wire labels)

def dotted (label : List UInt8) (labels : List (List UInt8)) : List UInt8 :=
  label ++ labels.flatMap (dot :: ·)

/-- The labels up to the zero byte, and what follows; the first argument bounds their number. -/
def decodeLabels : Nat → List UInt8 → Option (List (List UInt8) × List UInt8)
  | 0, _ => none
  | _ + 1, [] => none
  | fuel + 1, n :: rest =>
      if n = 0 then some ([], rest)
      else if n.toNat ≤ 63 ∧ n.toNat ≤ rest.length then do
        let (labels, rest') ← decodeLabels fuel (rest.drop n.toNat)
        some (rest.take n.toNat :: labels, rest')
      else none

def decodeName (bytes : List UInt8) : Option (List UInt8 × List UInt8) :=
  (decodeLabels bytes.length bytes).map fun (labels, rest) => ([dot].intercalate labels, rest)

theorem dotted_eq_intercalate (label : List UInt8) (labels : List (List UInt8)) :
    dotted label labels = [dot].intercalate (label :: labels) := by
  induction labels generalizing label with
  | nil => simp [dotted]
  | cons next labels ih =>
      rw [List.intercalate_cons_cons, ← ih next]
      simp [dotted]

theorem wire_length (label : List UInt8) (labels : List (List UInt8)) :
    (wire (label :: labels)).length = (dotted label labels).length + 1 := by
  induction labels generalizing label with
  | nil => simp [wire, dotted]
  | cons next labels ih =>
      have rest := ih next
      simp only [wire, dotted, List.length_cons, List.length_append, List.flatMap_cons] at rest ⊢
      omega

theorem length_le_wire (labels : List (List UInt8)) : labels.length ≤ (wire labels).length := by
  induction labels with
  | nil => exact le_rfl
  | cons label labels ih =>
      simp only [wire, List.length_cons, List.length_append]
      omega

theorem decodeLabels_wire (labels : List (List UInt8))
    (each : ∀ label ∈ labels, label ≠ [] ∧ label.length ≤ 63) (rest : List UInt8) (fuel : Nat)
    (enough : labels.length < fuel) :
    decodeLabels fuel (wire labels ++ 0 :: rest) = some (labels, rest) := by
  induction labels generalizing fuel with
  | nil =>
      obtain ⟨fuel, rfl⟩ : ∃ n, fuel = n + 1 := ⟨fuel - 1, by rw [List.length_nil] at enough; omega⟩
      simp [wire, decodeLabels]
  | cons label labels ih =>
      rw [List.length_cons] at enough
      obtain ⟨fuel, rfl⟩ : ∃ n, fuel = n + 1 := ⟨fuel - 1, by omega⟩
      obtain ⟨present, short⟩ := each label List.mem_cons_self
      have positive := List.length_pos_of_ne_nil present
      have value : (UInt8.ofNat label.length).toNat = label.length :=
        UInt8.toNat_ofNat_of_lt' (by rw [UInt8.size]; omega)
      have nonzero : UInt8.ofNat label.length ≠ 0 := by
        intro zero
        have length := congrArg UInt8.toNat zero
        rw [value, UInt8.toNat_zero] at length
        omega
      have later := ih (fun other member => each other (List.mem_cons_of_mem label member)) fuel
        (by omega)
      have room : label.length ≤ 63 ∧ label.length ≤ (label ++ (wire labels ++ 0 :: rest)).length :=
        ⟨short, by rw [List.length_append]; omega⟩
      rw [wire, List.cons_append, List.append_assoc, decodeLabels, if_neg nonzero, value,
        if_pos room, List.drop_left, List.take_left, later]
      rfl

theorem labelLoop_label {buf : CharArray 1024} {label : List UInt8} (clean : dot ∉ label)
    (front back : List UInt8) (bytes : buf.bytes = front ++ (label ++ back)) (rounds i : Nat) :
    labelLoop (label.length + rounds) buf front.length i =
      labelLoop rounds buf (front.length + label.length) (i + label.length) := by
  induction label generalizing front i with
  | nil => simp
  | cons c label ih =>
      obtain ⟨other, rest⟩ := not_or.1 (mt List.mem_cons.2 clean)
      have here : buf.bytes[front.length]? = some c := by simp [bytes]
      have later := ih rest (front ++ [c]) (by simp [bytes]) (i + 1)
      rw [List.length_append, List.length_singleton] at later
      rw [List.length_cons, Nat.add_right_comm, labelLoop, here]
      simp only [Option.bind_eq_bind, Option.bind_some, if_neg (Ne.symm other)]
      rw [later]
      congr 1 <;> omega

theorem labelLoop_dot {buf : CharArray 1024} {label : List UInt8} (clean : dot ∉ label)
    (front : List UInt8) (x : UInt8) (back : List UInt8)
    (bytes : buf.bytes = front ++ ([x] ++ (label ++ dot :: back))) (rounds : Nat) :
    ∃ buf', labelLoop (label.length + (rounds + 1)) buf (front.length + 1) 0 =
        labelLoop rounds buf' (front.length + 1 + label.length + 1) 0 ∧
      buf'.bytes = front ++ ([UInt8.ofNat label.length] ++ (label ++ dot :: back)) := by
  obtain ⟨buf', wrote, after⟩ :=
    write_over buf [UInt8.ofNat label.length] bytes (by rfl : [x].length = [_].length)
  have counted := labelLoop_label clean (front ++ [x]) (dot :: back) (by simpa using bytes)
    (rounds + 1) 0
  have here : buf.bytes[front.length + 1 + label.length]? = some dot := by
    have split : buf.bytes = (front ++ ([x] ++ label)) ++ dot :: back := by simpa using bytes
    have place : (front ++ ([x] ++ label)).length = front.length + 1 + label.length := by
      simp only [List.length_append, List.length_singleton]
      omega
    rw [split, ← place]
    simp
  refine ⟨buf', ?_, after⟩
  rw [List.length_append, List.length_singleton, Nat.zero_add] at counted
  rw [counted, labelLoop, here]
  simp only [Option.bind_eq_bind, Option.bind_some, if_true]
  rw [(by omega : front.length + 1 + label.length - label.length - 1 = front.length), wrote,
    Option.bind_some]

theorem writeLengths_last {buf : CharArray 1024} {label : List UInt8} (clean : dot ∉ label)
    (front : List UInt8) (x : UInt8) (back : List UInt8)
    (bytes : buf.bytes = front ++ ([x] ++ (label ++ back))) :
    ∃ buf', writeLengths label.length buf (front.length + 1) 0 = some buf' ∧
      buf'.bytes = front ++ ([UInt8.ofNat label.length] ++ (label ++ back)) := by
  obtain ⟨buf', wrote, after⟩ :=
    write_over buf [UInt8.ofNat label.length] bytes (by rfl : [x].length = [_].length)
  have counted := labelLoop_label clean (front ++ [x]) back (by simpa using bytes) 0 0
  rw [List.length_append, List.length_singleton, Nat.zero_add, Nat.add_zero, labelLoop] at counted
  refine ⟨buf', ?_, after⟩
  rw [writeLengths, counted]
  simp only [Option.bind_eq_bind, Option.bind_some]
  rw [(by omega : front.length + 1 + label.length - label.length - 1 = front.length), wrote]

/-- With the byte before the first label as room for its length, the text becomes its encoding. -/
theorem writeLengths_spec (label : List UInt8) (labels : List (List UInt8))
    (clean : ∀ other ∈ label :: labels, dot ∉ other) (buf : CharArray 1024)
    (front : List UInt8) (x : UInt8) (back : List UInt8)
    (bytes : buf.bytes = front ++ ([x] ++ (dotted label labels ++ back))) :
    ∃ buf', writeLengths (dotted label labels).length buf (front.length + 1) 0 = some buf' ∧
      buf'.bytes = front ++ (wire (label :: labels) ++ back) := by
  induction labels generalizing label buf front x with
  | nil =>
      have text : dotted label [] = label := by simp [dotted]
      rw [text] at bytes ⊢
      obtain ⟨buf', ran, after⟩ :=
        writeLengths_last (clean label List.mem_cons_self) front x back bytes
      exact ⟨buf', ran, by simpa [wire] using after⟩
  | cons next labels ih =>
      have text : dotted label (next :: labels) = label ++ dot :: dotted next labels := by
        simp [dotted]
      rw [text, List.append_assoc, List.cons_append] at bytes
      obtain ⟨buf', step, after⟩ := labelLoop_dot (clean label List.mem_cons_self) front x
        (dotted next labels ++ back) bytes (dotted next labels).length
      -- the dot becomes the room for the length of the next label
      obtain ⟨final, ran, result⟩ := ih next
        (fun other member => clean other (List.mem_cons_of_mem label member)) buf'
        (front ++ UInt8.ofNat label.length :: label) dot (by simpa using after)
      have place : (front ++ UInt8.ofNat label.length :: label).length + 1 =
          front.length + 1 + label.length + 1 := by
        rw [List.length_append, List.length_cons]
        omega
      refine ⟨final, ?_, by simpa [wire] using result⟩
      rw [place, writeLengths] at ran
      rw [text, List.length_append, List.length_cons, writeLengths, step]
      exact ran

/-- The header as it is sent: `id`, `tag`, `numq` and three counters that are zero. -/
def header : List UInt8 := [1, 0, 1, 0, 0, 1, 0, 0, 0, 0, 0, 0]

theorem writeHeader_spec :
    ∃ buf, writeHeader (zeroed 1024) = some buf ∧
      buf.bytes = header ++ List.replicate 1012 0 := by
  have start : (zeroed 1024).bytes =
      [] ++ ([0, 0] ++ ([0, 0, 0, 0, 0, 0, 0, 0, 0, 0] ++ List.replicate 1012 0)) :=
    List.replicate_add 12 1012 0
  obtain ⟨first, one, id⟩ := write_over (zeroed 1024) [1, 0] start rfl
  have tagRoom : first.bytes =
      [1, 0] ++ ([0, 0] ++ ([0, 0, 0, 0, 0, 0, 0, 0] ++ List.replicate 1012 0)) := id
  obtain ⟨second, two, tag⟩ := write_over first [1, 0] tagRoom rfl
  have numqRoom : second.bytes =
      [1, 0, 1, 0] ++ ([0, 0] ++ ([0, 0, 0, 0, 0, 0] ++ List.replicate 1012 0)) := tag
  obtain ⟨third, three, numq⟩ := write_over second [0, 1] numqRoom rfl
  have numaRoom : third.bytes =
      [1, 0, 1, 0, 0, 1] ++ ([0, 0] ++ ([0, 0, 0, 0] ++ List.replicate 1012 0)) := numq
  obtain ⟨fourth, four, numa⟩ := write_over third [0, 0] numaRoom rfl
  refine ⟨fourth, ?_, numa⟩
  simp only [List.length_nil, List.length_cons] at one two three four
  simp only [writeHeader, one, two, three, four, Option.bind_eq_bind, Option.bind_some]

theorem copy_spec {text : List UInt8} (short : text.length ≤ 253) {buf : CharArray 1024}
    (headed : buf.bytes = header ++ List.replicate 1012 0) :
    ∃ buf', buf.write (headerSize + 1) (text ++ [0]) = some buf' ∧
      buf'.bytes = header ++ ([0] ++ (text ++ ([0, 0, 0, 0, 0] ++
        List.replicate (1006 - text.length) 0))) := by
  have room : buf.bytes = (header ++ [0]) ++
      (List.replicate (text.length + 1) 0 ++ List.replicate (1010 - text.length) 0) := by
    rw [headed, List.append_assoc, ← List.replicate_add, List.singleton_append,
      ← List.replicate_succ]
    congr 2
    omega
  have zeros : 1010 - text.length = 4 + (1006 - text.length) := by omega
  obtain ⟨buf', copied, bytes⟩ := write_over buf (text ++ [0]) room (by simp)
  refine ⟨buf', copied, ?_⟩
  rw [bytes, zeros, List.replicate_add]
  simp [List.replicate]

theorem question_spec {buf : CharArray 1024} {front back : List UInt8}
    (bytes : buf.bytes = front ++ ([0, 0, 0, 0, 0] ++ back)) :
    ∃ classed typed, buf.write (front.length + 3) [0, 1] = some classed ∧
      classed.write (front.length + 1) [0, 1] = some typed ∧
      typed.bytes = front ++ ([0, 0, 1, 0, 1] ++ back) := by
  have classRoom : buf.bytes = (front ++ [0, 0, 0]) ++ ([0, 0] ++ back) := by simpa using bytes
  obtain ⟨classed, classes, after⟩ := write_over buf [0, 1] classRoom rfl
  have typeRoom : classed.bytes = (front ++ [0]) ++ ([0, 0] ++ ([0, 1] ++ back)) := by
    simpa using after
  obtain ⟨typed, types, final⟩ := write_over classed [0, 1] typeRoom rfl
  rw [List.length_append] at classes types
  exact ⟨classed, typed, classes, types, by simpa using final⟩

theorem dnsQuery_labels (label : List UInt8) (labels : List (List UInt8))
    (clean : ∀ other ∈ label :: labels, dot ∉ other) (nonzero : 0 ∉ dotted label labels)
    (short : (dotted label labels).length ≤ 253) :
    dnsQuery (dotted label labels) =
      some (header ++ (wire (label :: labels) ++ [0, 0, 1, 0, 1])) := by
  obtain ⟨first, headed, start⟩ := writeHeader_spec
  obtain ⟨second, copied, text⟩ := copy_spec short start
  obtain ⟨third, converted, encoded⟩ := writeLengths_spec label labels clean second header 0 _ text
  rw [← List.append_assoc] at encoded
  obtain ⟨fourth, fifth, classes, types, final⟩ := question_spec encoded
  have whole := takeWhile_clean _ nonzero
  have name : (header ++ wire (label :: labels)).length =
      headerSize + (dotted label labels).length + 1 := by
    rw [List.length_append, wire_length]
    rfl
  have classPlace : (header ++ wire (label :: labels)).length + 3 =
      headerSize + 2 + (dotted label labels).length + 2 := by omega
  have typePlace : (header ++ wire (label :: labels)).length + 1 =
      headerSize + 2 + (dotted label labels).length := by omega
  have sent : fifth.bytes.take (headerSize + 4 + (dotted label labels).length + 2) =
      header ++ (wire (label :: labels) ++ [0, 0, 1, 0, 1]) := by
    rw [final, ← List.append_assoc, ← List.append_assoc]
    apply List.take_left'
    rw [List.length_append, name, List.length_cons, List.length_cons, List.length_cons,
      List.length_cons, List.length_singleton]
    omega
  have place : header.length + 1 = headerSize + 1 := rfl
  rw [place] at converted
  rw [classPlace] at classes
  rw [typePlace] at types
  simp only [dnsQuery, whole, headed, copied, converted, classes, types, Option.bind_eq_bind,
    Option.bind_some, sent]
  rw [if_pos (by rw [headerSize]; omega)]

/-- The question of a domain is its encoding, from which the domain is decoded. -/
theorem dnsQuery_encodes (domain : List UInt8) (nonzero : 0 ∉ domain)
    (each : ∀ label ∈ domain.splitOn dot, label ≠ [] ∧ label.length ≤ 63)
    (short : domain.length ≤ 253) :
    ∃ packet, dnsQuery domain = some packet ∧ packet.length = domain.length + 18 ∧
      packet.drop 12 = wire (domain.splitOn dot) ++ ([0] ++ ([0, 1] ++ [0, 1])) ∧
      decodeName (packet.drop 12) = some (domain, [0, 1, 0, 1]) := by
  have whole : [dot].intercalate (domain.splitOn dot) = domain := List.intercalate_splitOn dot
  have clean : ∀ other ∈ domain.splitOn dot, dot ∉ other := by
    intro other member inside
    exact (CText.mem_splitOn dot domain other member dot inside).2 rfl
  cases pieces : domain.splitOn dot with
  | nil => exact absurd pieces (List.splitOn_ne_nil dot domain)
  | cons label labels =>
      rw [pieces] at whole each clean
      have text : dotted label labels = domain := (dotted_eq_intercalate label labels).trans whole
      have size := wire_length label labels
      rw [text] at size
      have sent := dnsQuery_labels label labels clean (by rw [text]; exact nonzero)
        (by rw [text]; exact short)
      rw [text] at sent
      have question : (header ++ (wire (label :: labels) ++ [0, 0, 1, 0, 1])).drop 12 =
          wire (label :: labels) ++ [0, 0, 1, 0, 1] := by
        have twelve : header.length = 12 := rfl
        rw [← twelve, List.drop_left]
      refine ⟨_, sent, ?_, question, ?_⟩
      · simp only [List.length_append, size, header, List.length_cons, List.length_nil]
        omega
      · have many : (label :: labels).length <
            (wire (label :: labels) ++ [0, 0, 1, 0, 1]).length := by
          rw [List.length_append]
          have count := length_le_wire (label :: labels)
          have tail : [(0 : UInt8), 0, 1, 0, 1].length = 5 := rfl
          omega
        have decoded : decodeLabels (wire (label :: labels) ++ [0, 0, 1, 0, 1]).length
            (wire (label :: labels) ++ [0, 0, 1, 0, 1]) = some (label :: labels, [0, 1, 0, 1]) :=
          decodeLabels_wire _ each _ _ many
        rw [question, decodeName, decoded, Option.map_some]
        simp only [whole]

theorem dnsQuery_encodes_two_labels :
    ∃ packet, dnsQuery [97, 98, 46, 99] = some packet ∧ packet.length = 4 + 18 ∧
      packet.drop 12 = wire ([97, 98, 46, 99].splitOn dot) ++ ([0] ++ ([0, 1] ++ [0, 1])) ∧
      decodeName (packet.drop 12) = some ([97, 98, 46, 99], [0, 1, 0, 1]) :=
  dnsQuery_encodes [97, 98, 46, 99] (by decide) (by decide) (by decide)

end DataStructure.DnsPacket
