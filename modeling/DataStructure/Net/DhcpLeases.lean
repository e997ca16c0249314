import DataStructure.Lib.Scanf
import DataStructure.Net.Dhcpinfo

/-! `dhcp_leases_get` of `socket/libevent/server/dhcpinfo.c`.

`none` stands for an access outside an array. -/

namespace DataStructure.Dhcpinfo

open DataStructure.Scanf DataStructure.CText

def isMacChar (c : UInt8) : Bool :=
  (65 ≤ c && c ≤ 70) || (97 ≤ c && c ≤ 102) || (48 ≤ c && c ≤ 57) || c = 58

def isIpChar (c : UInt8) : Bool := (48 ≤ c && c ≤ 57) || c = 46

/-- `"%*s %17[A-Fa-f0-9:] %15[0-9.] %s %*s"` into `mac[18]`, `ip[16]` and `name[512]`. -/
def leaseFormat : List Directive :=
  [.skipWord, .space, .oneOf 17 isMacChar 18, .space, .oneOf 15 isIpChar 16, .space, .word 512,
    .space, .skipWord]

def assignIp (mac ip : List UInt8) :
    Nat → Nat → (Fin MAX_USER → Dhcp) → Option (Fin MAX_USER → Dhcp)
  | 0, _, value => some value
  | left + 1, i, value =>
      if inside : i < MAX_USER then do
        let order ← CharArray.strcmp (value ⟨i, inside⟩).mac.bytes (mac ++ [0])
        if order = 0 then do
          let ip ← (value ⟨i, inside⟩).ip.snprintf IP_LENGTH ip
          some (Function.update value ⟨i, inside⟩ { value ⟨i, inside⟩ with ip })
        else assignIp mac ip left (i + 1) value
      else none

def leasesLoop (length : Int) :
    Nat → Input → (Fin MAX_USER → Dhcp) → Option (Fin MAX_USER → Dhcp)
  | 0, _, _ => none
  | fuel + 1, dhcpLease, value =>
      if dhcpLease.ended then some value
      else do
        let (stored, dhcpLease) ← scan leaseFormat dhcpLease
        match stored with
        | [.text mac, .text ip, .text _] => do
            let value ← assignIp mac ip length.toNat 0 value
            leasesLoop length fuel dhcpLease value
        | _ => some value

/-- `dhcp_leases_get` with the content of `/tmp/dhcp.leases`, `none` if it cannot be opened. -/
def dhcpLeasesGet (leases : Option (List UInt8)) (pair : DhcpPair) : Option DhcpPair :=
  match leases with
  | none => some pair
  | some content => do
      let value ← leasesLoop pair.length (content.length + 1) ⟨content, false⟩ pair.value
      some { pair with value }

/-- A lease: what a line of the file says, each entry within what the format reads. -/
structure Lease where
  expiry : List UInt8
  mac : List UInt8
  ip : List UInt8
  name : List UInt8
  client : List UInt8
  expiryWord : expiry ≠ [] ∧ ∀ c ∈ expiry, isspace c.toNat = false
  macChars : mac ≠ [] ∧ mac.length ≤ 17 ∧ ∀ c ∈ mac, isMacChar c
  ipChars : ip ≠ [] ∧ ip.length ≤ 15 ∧ ∀ c ∈ ip, isIpChar c
  nameWord : name ≠ [] ∧ name.length < 512 ∧ ∀ c ∈ name, isspace c.toNat = false
  clientWord : client ≠ [] ∧ ∀ c ∈ client, isspace c.toNat = false

def Lease.line (l : Lease) : List UInt8 :=
  l.expiry ++ 32 :: (l.mac ++ 32 :: (l.ip ++ 32 :: (l.name ++ 32 :: (l.client ++ [10]))))

def leaseFile (leases : List Lease) : List UInt8 := (leases.map Lease.line).flatten

def lastLease (leases : List Lease) (user : Dhcp) : Option Lease :=
  leases.reverse.find? fun l => user.mac.cString = some l.mac

/-- Every user whose mac has a lease got the ip of the last one, and nothing else changed. -/
structure Updated (leases : List Lease) (before after : DhcpPair) : Prop where
  rest : after = { before with value := after.value }
  found : ∀ i : Fin MAX_USER, (i : Int) < before.length → ∀ l, lastLease leases (before.value i) = some l →
    (after.value i).mac = (before.value i).mac ∧ (after.value i).ip.cString = some l.ip
  others : ∀ i : Fin MAX_USER, ¬((i : Int) < before.length ∧ (lastLease leases (before.value i)).isSome) →
    after.value i = before.value i

structure First (n : Nat) (value : Fin MAX_USER → Dhcp) (j : Fin MAX_USER) : Prop where
  inside : j < n
  new : ∀ k, k < j → (value k).mac.cString ≠ (value j).mac.cString

structure Assigned (l : Lease) (n : Nat) (value value' : Fin MAX_USER → Dhcp) : Prop where
  holder : ∀ j, First n value j → (value j).mac.cString = some l.mac →
    (value' j).mac = (value j).mac ∧ (value' j).ip.cString = some l.ip
  other : ∀ j, ¬(First n value j ∧ (value j).mac.cString = some l.mac) → value' j = value j

theorem Lease.mac_clean (l : Lease) : 0 ∉ l.mac := fun inside => absurd (l.macChars.2.2 0 inside) (by decide)

theorem Lease.ip_clean (l : Lease) : 0 ∉ l.ip := fun inside => absurd (l.ipChars.2.2 0 inside) (by decide)

theorem assigned_update (l : Lease) {n i : Nat} {value : Fin MAX_USER → Dhcp} (inside : i < MAX_USER)
    (within : i < n) (missed : ∀ j : Fin MAX_USER, j < i → (value j).mac.cString ≠ some l.mac)
    (same : (value ⟨i, inside⟩).mac.cString = some l.mac) {ip : CharArray IP_LENGTH}
    (string : ip.cString = some l.ip) :
    Assigned l n value (Function.update value ⟨i, inside⟩ { value ⟨i, inside⟩ with ip }) := by
  constructor
  · intro j first held
    have place : j = ⟨i, inside⟩ := by
      apply le_antisymm
      · by_contra later
        exact first.new ⟨i, inside⟩ (not_le.1 later) (same.trans held.symm)
      · by_contra earlier
        exact missed j (not_le.1 earlier) held
    rw [place, Function.update_self]
    exact ⟨rfl, string⟩
  · intro j unheld
    apply Function.update_of_ne
    intro place
    subst place
    refine unheld ⟨⟨within, ?_⟩, same⟩
    intro k before
    rw [same]
    exact missed k before

theorem assignIp_spec (l : Lease) (left i : Nat) (value : Fin MAX_USER → Dhcp)
    (room : i + left ≤ MAX_USER) (missed : ∀ j : Fin MAX_USER, j < i → (value j).mac.cString ≠ some l.mac) :
    ∃ value', assignIp l.mac l.ip left i value = some value' ∧ Assigned l (i + left) value value' := by
  induction left generalizing i with
  | zero =>
      refine ⟨value, rfl, ⟨?_, fun _ _ => rfl⟩⟩
      intro j first held
      exact absurd held (missed j first.inside)
  | succ left ih =>
      have inside : i < MAX_USER := by omega
      obtain ⟨order, compared, equal⟩ := (value ⟨i, inside⟩).mac.strcmp_terminated l.mac_clean
        (Nat.lt_succ_of_le l.macChars.2.1)
      rw [assignIp, dif_pos inside, compared, Option.bind_eq_bind, Option.bind_some]
      by_cases here : order = 0
      · obtain ⟨ip, printed, string⟩ := (value ⟨i, inside⟩).ip.snprintf_fits l.ip l.ip_clean
          (Nat.lt_succ_of_le l.ipChars.2.1)
        rw [if_pos here, printed]
        exact ⟨_, rfl, assigned_update l inside (by omega) missed (equal.1 here) string⟩
      · have missed' : ∀ j : Fin MAX_USER, j < i + 1 → (value j).mac.cString ≠ some l.mac := by
          intro j before
          rcases Nat.lt_succ_iff_lt_or_eq.mp before with earlier | last
          · exact missed j earlier
          · have place : j = ⟨i, inside⟩ := Fin.ext last
            rw [place]
            exact fun same => here (equal.2 same)
        obtain ⟨value', ran, assigned⟩ := ih (i + 1) (by omega) missed'
        rw [show i + 1 + left = i + (left + 1) by omega] at assigned
        rw [if_neg here]
        exact ⟨value', ran, assigned⟩

theorem Assigned.mac {l : Lease} {n : Nat} {value value' : Fin MAX_USER → Dhcp}
    (assigned : Assigned l n value value') (j : Fin MAX_USER) : (value' j).mac = (value j).mac := by
  by_cases held : First n value j ∧ (value j).mac.cString = some l.mac
  · exact (assigned.holder j held.1 held.2).1
  · rw [assigned.other j held]

theorem Assigned.first_iff {l : Lease} {n : Nat} {value value' : Fin MAX_USER → Dhcp}
    (assigned : Assigned l n value value') (j : Fin MAX_USER) : First n value' j ↔ First n value j := by
  constructor
  · intro first
    refine ⟨first.inside, ?_⟩
    intro k before
    rw [← assigned.mac k, ← assigned.mac j]
    exact first.new k before
  · intro first
    refine ⟨first.inside, ?_⟩
    intro k before
    rw [assigned.mac k, assigned.mac j]
    exact first.new k before

theorem lastLease_cons (l : Lease) (leases : List Lease) (user : Dhcp) :
    lastLease (l :: leases) user = match lastLease leases user with
      | some later => some later
      | none => if user.mac.cString = some l.mac then some l else none := by
  simp only [lastLease, List.reverse_cons, List.find?_append]
  cases leases.reverse.find? fun l => user.mac.cString = some l.mac with
  | some later => rfl
  | none => by_cases same : user.mac.cString = some l.mac <;> simp [same]

structure Looked (leases : List Lease) (n : Nat) (value value' : Fin MAX_USER → Dhcp) : Prop where
  holder : ∀ j l, First n value j → lastLease leases (value j) = some l →
    (value' j).mac = (value j).mac ∧ (value' j).ip.cString = some l.ip
  other : ∀ j, ¬(First n value j ∧ (lastLease leases (value j)).isSome) → value' j = value j

theorem Looked.cons {l : Lease} {leases : List Lease} {n : Nat} {value value₁ value₂ : Fin MAX_USER → Dhcp}
    (first : Assigned l n value value₁) (rest : Looked leases n value₁ value₂) :
    Looked (l :: leases) n value value₂ := by
  have kept (j : Fin MAX_USER) : lastLease leases (value₁ j) = lastLease leases (value j) := by
    rw [lastLease, first.mac j, lastLease]
  constructor
  · intro j found isFirst last
    rw [lastLease_cons] at last
    cases later : lastLease leases (value j) with
    | some other =>
        rw [later] at last
        obtain rfl := Option.some.inj last
        obtain ⟨mac, ip⟩ := rest.holder j other ((first.first_iff j).2 isFirst) (by rw [kept, later])
        exact ⟨mac.trans (first.mac j), ip⟩
    | none =>
        rw [later] at last
        dsimp only at last
        split at last
        · next same =>
            obtain rfl := Option.some.inj last
            rw [rest.other j (by rw [kept, later]; simp)]
            exact first.holder j isFirst same
        · cases last
  · intro j unheld
    rw [lastLease_cons] at unheld
    have mine : ¬(First n value j ∧ (value j).mac.cString = some l.mac) := by
      intro held
      apply unheld
      rw [if_pos held.2]
      refine ⟨held.1, ?_⟩
      cases lastLease leases (value j) <;> rfl
    have later : ¬(First n value₁ j ∧ (lastLease leases (value₁ j)).isSome) := by
      intro held
      rw [first.first_iff, kept] at held
      apply unheld
      obtain ⟨other, last⟩ := Option.isSome_iff_exists.1 held.2
      rw [last]
      exact ⟨held.1, rfl⟩
    rw [rest.other j later, first.other j mine]

theorem not_isspace_of_isMacChar {c : UInt8} (char : isMacChar c) : isspace c.toNat = false := by
  revert c
  decide +kernel

theorem not_isspace_of_isIpChar {c : UInt8} (char : isIpChar c) : isspace c.toNat = false := by
  revert c
  decide +kernel

theorem scan_lease (l : Lease) {gap : List UInt8} (blank : ∀ c ∈ gap, isspace c.toNat) (rest : List UInt8) :
    scan leaseFormat ⟨gap ++ (l.line ++ rest), false⟩ =
      some ([.text l.mac, .text l.ip, .text l.name], ⟨10 :: rest, false⟩) := by
  have one : ∀ c ∈ [(32 : UInt8)], isspace c.toNat := by simp [isspace]
  have nothing : ∀ c ∈ ([] : List UInt8), isspace c.toNat := by simp
  have texts : gap ++ (l.line ++ rest) = gap ++ (l.expiry ++ 32 :: (l.mac ++ 32 ::
      (l.ip ++ 32 :: (l.name ++ 32 :: (l.client ++ 10 :: rest))))) := by
    simp [Lease.line]
  obtain ⟨expiry, expiryBlack⟩ := l.expiryWord
  obtain ⟨mac, macShort, macChars⟩ := l.macChars
  obtain ⟨ip, ipShort, ipChars⟩ := l.ipChars
  obtain ⟨name, nameShort, nameBlack⟩ := l.nameWord
  obtain ⟨client, clientBlack⟩ := l.clientWord
  have macBlack := fun c inside => not_isspace_of_isMacChar (macChars c inside)
  have ipBlack := fun c inside => not_isspace_of_isIpChar (ipChars c inside)
  rw [texts, leaseFormat, scan_skip (read_skipWord blank expiry expiryBlack (by decide))]
  refine (scan_skip (read_space one mac macBlack)).trans ?_
  apply scan_store (read_oneOf mac macChars macShort (by omega) (by decide))
  refine (scan_skip (read_space one ip ipBlack)).trans ?_
  apply scan_store (read_oneOf ip ipChars ipShort (by omega) (by decide))
  refine (scan_skip (read_space one name nameBlack)).trans ?_
  apply scan_store (read_word nothing name nameBlack nameShort (by decide))
  refine (scan_skip (read_space one client clientBlack)).trans ?_
  exact scan_skip (read_skipWord nothing client clientBlack (by decide))

theorem leaseFile_cons (l : Lease) (leases : List Lease) :
    leaseFile (l :: leases) = l.line ++ leaseFile leases := by
  rw [leaseFile, List.map_cons, List.flatten_cons, leaseFile]

theorem leases_length_le (leases : List Lease) : leases.length ≤ (leaseFile leases).length := by
  induction leases with
  | nil => exact le_rfl
  | cons l leases ih =>
      have positive : 0 < l.line.length := by simp [Lease.line]
      rw [leaseFile_cons, List.length_append, List.length_cons]
      omega

theorem leasesLoop_spec (length : Int) (room : length.toNat ≤ MAX_USER) (leases : List Lease)
    {gap : List UInt8} (blank : ∀ c ∈ gap, isspace c.toNat) (fuel : Nat) (enough : leases.length < fuel)
    (value : Fin MAX_USER → Dhcp) :
    ∃ value', leasesLoop length fuel ⟨gap ++ leaseFile leases, false⟩ value = some value' ∧
      Looked leases length.toNat value value' := by
  induction leases generalizing gap fuel value with
  | nil =>
      obtain ⟨fuel, rfl⟩ : ∃ more, fuel = more + 1 := ⟨fuel - 1, by omega⟩
      obtain ⟨left, ends⟩ : ∃ left, Directive.skipWord.read ⟨gap, false⟩ = .failed left :=
        read_skipWord_blank blank
      refine ⟨value, ?_, ⟨?_, fun _ _ => rfl⟩⟩
      · have text : gap ++ leaseFile [] = gap := List.append_nil gap
        rw [text, leasesLoop, if_neg (by simp), leaseFormat, scan, ends]
        rfl
      · intro j l _ last
        cases last
  | cons l leases ih =>
      rw [List.length_cons] at enough
      obtain ⟨fuel, rfl⟩ : ∃ more, fuel = more + 1 := ⟨fuel - 1, by omega⟩
      have missed : ∀ j : Fin MAX_USER, (j : Nat) < 0 → (value j).mac.cString ≠ some l.mac := by
        intro j before
        exact absurd before (Nat.not_lt_zero _)
      obtain ⟨value₁, assigned, first⟩ := assignIp_spec l length.toNat 0 value (by omega) missed
      have newline : ∀ c ∈ [(10 : UInt8)], isspace c.toNat := by simp [isspace]
      obtain ⟨value₂, ran, rest⟩ := ih newline fuel (by omega) value₁
      rw [Nat.zero_add] at first
      refine ⟨value₂, ?_, Looked.cons first rest⟩
      rw [leaseFile_cons, leasesLoop, if_neg (by simp), scan_lease l blank, Option.bind_eq_bind,
        Option.bind_some]
      dsimp only
      rw [assigned]
      exact ran

theorem dhcpLeasesGet_spec (leases : List Lease) (pair : DhcpPair) (room : pair.length ≤ MAX_USER) :
    ∃ value, dhcpLeasesGet (some (leaseFile leases)) pair = some { pair with value } ∧
      Looked leases pair.length.toNat pair.value value := by
  have nothing : ∀ c ∈ ([] : List UInt8), isspace c.toNat := by simp
  obtain ⟨value, ran, looked⟩ := leasesLoop_spec pair.length (by omega) leases nothing
    ((leaseFile leases).length + 1) (Nat.lt_succ_of_le (leases_length_le leases)) pair.value
  rw [List.nil_append] at ran
  refine ⟨value, ?_, looked⟩
  rw [dhcpLeasesGet, ran]
  rfl

/-- A user behind another one with the same mac already has the ip of the last lease for it. -/
def RepeatedUpToDate (leases : List Lease) (pair : DhcpPair) : Prop :=
  ∀ i j : Fin MAX_USER, i < j → (j : Int) < pair.length →
    (pair.value i).mac.cString = (pair.value j).mac.cString →
    ∀ l, lastLease leases (pair.value j) = some l → (pair.value j).ip.cString = some l.ip

theorem repeatedUpToDate_of_updated {leases : List Lease} {pair after : DhcpPair}
    (room : pair.length ≤ MAX_USER) (ran : dhcpLeasesGet (some (leaseFile leases)) pair = some after)
    (updated : Updated leases pair after) : RepeatedUpToDate leases pair := by
  obtain ⟨value, ran', looked⟩ := dhcpLeasesGet_spec leases pair room
  obtain rfl := Option.some.inj (ran'.symm.trans ran)
  intro i j before inside same l last
  have unheld : ¬(First pair.length.toNat pair.value j ∧ (lastLease leases (pair.value j)).isSome) :=
    fun held => held.1.new i before same
  rw [← looked.other j unheld]
  exact (updated.found j inside l last).2

theorem updated_of_repeatedUpToDate {leases : List Lease} {pair : DhcpPair} {value : Fin MAX_USER → Dhcp}
    (looked : Looked leases pair.length.toNat pair.value value) (upToDate : RepeatedUpToDate leases pair) :
    Updated leases pair { pair with value } := by
  refine ⟨rfl, ?_, ?_⟩
  · intro j inside l last
    by_cases first : First pair.length.toNat pair.value j
    · exact looked.holder j l first last
    · have repeated : ∃ i, i < j ∧ (pair.value i).mac.cString = (pair.value j).mac.cString := by
        by_contra new
        exact first ⟨by omega, fun k before same => new ⟨k, before, same⟩⟩
      obtain ⟨i, before, same⟩ := repeated
      dsimp only
      rw [looked.other j fun held => first held.1]
      exact ⟨rfl, upToDate i j before inside same l last⟩
  · intro j unfound
    apply looked.other
    intro held
    have inside := held.1.inside
    exact unfound ⟨by omega, held.2⟩

/-- `dhcp_leases_get` gives every user the ip of the last lease for its mac, and changes nothing else,
exactly if each user behind one with the same mac had that ip before: only the first of them is
looked at. -/
theorem leases_looked_up_iff (leases : List Lease) (pair : DhcpPair) (room : pair.length ≤ MAX_USER) :
    (∃ after, dhcpLeasesGet (some (leaseFile leases)) pair = some after ∧ Updated leases pair after) ↔
      RepeatedUpToDate leases pair := by
  constructor
  · intro result
    obtain ⟨after, ran, updated⟩ := result
    exact repeatedUpToDate_of_updated room ran updated
  · intro upToDate
    obtain ⟨value, ran, looked⟩ := dhcpLeasesGet_spec leases pair room
    exact ⟨_, ran, updated_of_repeatedUpToDate looked upToDate⟩

def sampleLease (letter digit : UInt8) (char : isMacChar letter) (number : isIpChar digit) : Lease where
  expiry := [49]
  mac := [letter, letter]
  ip := [49, 48, 46, 48, 46, 48, 46, digit]
  name := [104]
  client := [42]
  expiryWord := by simp [isspace]
  macChars := by simpa using char
  ipChars := by simpa [isIpChar] using number
  nameWord := by simp [isspace]
  clientWord := by simp [isspace]

def leaseA : Lease := sampleLease 65 49 (by decide) (by decide)

def leaseB : Lease := sampleLease 66 50 (by decide) (by decide)

def sampleUsers (letter : UInt8) : DhcpPair :=
  { DhcpPair.zeroed with
    value := fun i =>
      let first := if i.val = 0 then 65 else letter
      ⟨⟨first :: first :: List.replicate 16 0, rfl⟩, .zeroed _⟩
    length := 2 }

theorem leases_looked_up_two_users : (sampleUsers 66).length ≤ MAX_USER ∧
    ((∃ after, dhcpLeasesGet (some (leaseFile [leaseB, leaseA])) (sampleUsers 66) = some after ∧
      Updated [leaseB, leaseA] (sampleUsers 66) after) ↔
      RepeatedUpToDate [leaseB, leaseA] (sampleUsers 66)) := by
  have room : (sampleUsers 66).length ≤ MAX_USER := by decide
  exact ⟨room, leases_looked_up_iff [leaseB, leaseA] (sampleUsers 66) room⟩

/-- The second of two users with the mac `AA` does not get its ip. -/
theorem repeated_mac_left_out :
    ¬∃ after, dhcpLeasesGet (some (leaseFile [leaseA])) (sampleUsers 65) = some after ∧
      Updated [leaseA] (sampleUsers 65) after := by
  intro result
  obtain ⟨after, ran, updated⟩ := result
  have upToDate := repeatedUpToDate_of_updated (by decide) ran updated
  have kept := upToDate ⟨0, by decide⟩ ⟨1, by decide⟩ (by decide) (by decide) rfl leaseA rfl
  revert kept
  decide

end DataStructure.Dhcpinfo
