import Predictive.Text.Digits

/-!
# Internet addresses

Which of the addresses that a proxy names for a client is a public one.
An address is read strictly - decimal parts without leading zeros,
groups of at most four hexadecimal digits, one `::` for at least one
group, an IPv4 address in place of the last two groups, a zone after a
percent sign - and is public unless it lies in a network set aside for
special use. An IPv4 address written as an IPv6 one is judged as
itself.

The tables are lists of networks: the ones set aside, and the exceptions
inside them that are public after all.
-/

namespace Predictive

namespace Address

/-! ## Reading -/

/-- A part of an IPv4 address: one to three digits without leading
zero, at most 255. -/
def readOctet (t : Text) : Option Nat :=
  if t.isEmpty || 3 < t.length || !t.all Text.isDigit || (t.head? == some (.char '0') && t.length ≠ 1) then
    none
  else
    let n := Text.decimalValue t
    if n ≤ 255 then some n else none

def readV4 (t : Text) : Option Nat := do
  let octets ← (Text.pieces '.' t).mapM readOctet
  if octets.length = 4 then some (Text.ofDigits 256 octets) else none

def readGroup (t : Text) : Option Nat :=
  if t.isEmpty || 4 < t.length then none
  else (t.mapM Text.hexValue?).map (Text.ofDigits 16)

/-- The pieces between colons, an IPv4 address at the end replaced by
the two groups that it stands for. -/
def groupTexts (t : Text) : Option (List Text) :=
  let parts := Text.pieces ':' t
  match parts.getLast? with
  | some last =>
    if last.contains (.char '.') then
      if parts.length < 3 then none
      else (readV4 last).map fun n =>
        parts.dropLast ++ [Text.digits 16 (n / 0x10000), Text.digits 16 (n % 0x10000)]
    else some parts
  | none => some parts

/-- The eight groups of pieces between colons, where an empty piece
marks the place of `::`. -/
def expand (parts : List Text) : Option (List Text) :=
  let inner := (parts.drop 1).dropLast
  if parts.length < 3 || 9 < parts.length then none
  else match inner.findIdx? List.isEmpty with
    | none => if parts.length = 8 then some parts else none
    | some i =>
      let before := parts.take (i + 1)
      let after := parts.drop (i + 2)
      let before := if before.head? == some [] then before.drop 1 else before
      let after := if after.getLast? == some [] then after.dropLast else after
      if before.any List.isEmpty || after.any List.isEmpty || 7 < before.length + after.length then
        none
      else if (parts.take 1 == [[]] && !before.isEmpty) ||
          (parts.getLast? == some [] && !after.isEmpty) then none
      else some (before ++ (List.replicate (8 - (before.length + after.length)) "0" : List Text) ++ after)

/-- The number of an IPv6 address, whose zone is not looked at but for
being there. -/
def readV6 (t : Text) : Option Nat := do
  let (address, zone) := Text.partition '%' t
  if zone.any fun z => z.isEmpty || z.contains (.char '%') then none
  else
    let groups ← (← expand (← groupTexts address)).mapM readGroup
    return Text.ofDigits 0x10000 groups

/-! ## Networks -/

/-- All addresses with the same leading bits: the others are `free`. -/
structure Network where
  base : Nat
  free : Nat

def Network.contains (n : Network) (address : Nat) : Bool :=
  address / Nat.pow 2 n.free == n.base / Nat.pow 2 n.free

/-- The IPv4 network of an address of four parts and a number of leading
bits. -/
def v4 (a b c d bits : Nat) : Network := ⟨Text.ofDigits 256 [a, b, c, d], 32 - bits⟩

/-- The IPv6 network of the first groups of an address and a number of
leading bits. -/
def v6 (groups : List Nat) (bits : Nat) : Network :=
  ⟨Text.ofDigits 0x10000 (groups ++ List.replicate (8 - groups.length) 0), 128 - bits⟩

def reservedV4 : List Network := [
  v4 0 0 0 0 8, v4 10 0 0 0 8, v4 127 0 0 0 8, v4 169 254 0 0 16, v4 172 16 0 0 12,
  v4 192 0 0 0 24, v4 192 0 2 0 24, v4 192 168 0 0 16, v4 198 18 0 0 15, v4 198 51 100 0 24,
  v4 203 0 113 0 24, v4 240 0 0 0 4]

def publicV4 : List Network := [v4 192 0 0 9 32, v4 192 0 0 10 32]

def reservedV6 : List Network := [
  v6 [0, 0, 0, 0, 0, 0, 0, 1] 128, v6 [] 128, v6 [0x64, 0xff9b, 1] 48, v6 [0x100] 64,
  v6 [0x2001] 23, v6 [0x2001, 0xdb8] 32, v6 [0x2002] 16, v6 [0xfc00] 7, v6 [0xfe80] 10]

def publicV6 : List Network := [
  v6 [0x2001, 1, 0, 0, 0, 0, 0, 1] 128, v6 [0x2001, 1, 0, 0, 0, 0, 0, 2] 128,
  v6 [0x2001, 3] 32, v6 [0x2001, 4, 0x112] 48, v6 [0x2001, 0x20] 28, v6 [0x2001, 0x30] 28]

/-- The address lies in one of the networks and in none of the
exceptions. -/
def isSetAside (networks exceptions : List Network) (address : Nat) : Bool :=
  networks.any (·.contains address) && !exceptions.any (·.contains address)

/-- The IPv4 address that an IPv6 address of the form `::ffff:a.b.c.d`
carries. -/
def mapped? (address : Nat) : Option Nat :=
  if address / 0x100000000 = 0xffff then some (address % 0x100000000) else none

def isPublic (t : Text) : Bool :=
  if t.contains (.char '/') then false
  else match readV4 t with
    | some address => !isSetAside reservedV4 publicV4 address
    | none =>
      match readV6 t with
      | none => false
      | some address =>
        match mapped? address with
        | some address => !isSetAside reservedV4 publicV4 address
        | none => !isSetAside reservedV6 publicV6 address

end Address

end Predictive
