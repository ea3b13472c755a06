import Quorum.Address.Basic

set_option autoImplicit false

/-! # Reading socket addresses

The parts of a version 4 address are decimal, without leading zeros and of at most three digits.
A group of a version 6 address has one to four hexadecimal digits of either case; `::` stands for
the groups that are missing, of which there is at least one; the last two groups can be given as a
version 4 address, but not before `::`. Ports and scopes are decimal, with any number of leading
zeros. A version 6 address stands in brackets, with an optional scope behind a percent sign.

Readers take a text and give what they have read with the rest of the text. -/

namespace Quorum

/-- The given character. -/
def readChar (c : Char) : List Char → Option (List Char)
  | first :: rest => if first = c then some rest else none
  | [] => none

/-! ## Numbers -/

/-- The value of a digit in base `radix`, which is at most 16. -/
def digitValue? (radix : Nat) (c : Char) : Option Nat :=
  let value :=
    if '0' ≤ c ∧ c ≤ '9' then c.toNat - '0'.toNat
    else if 'a' ≤ c ∧ c ≤ 'f' then c.toNat - 'a'.toNat + 10
    else if 'A' ≤ c ∧ c ≤ 'F' then c.toNat - 'A'.toNat + 10
    else radix
  if value < radix then some value else none

/-- The digits at the beginning of a text, as their values. -/
def digitValues (radix : Nat) : List Char → List Nat
  | [] => []
  | c :: rest =>
      match digitValue? radix c with
      | some value => value :: digitValues radix rest
      | none => []

/-- All digits at the beginning of a text, as a number below `limit`. The digits must not be more
    than `maxDigits`, and begin with a superfluous zero only if `zeros` allows it. -/
def readNumber (radix limit : Nat) (maxDigits : Option Nat) (zeros : Bool)
    (text : List Char) : Option (Nat × List Char) :=
  let digits := digitValues radix text
  let value := digits.foldl (fun n digit => radix * n + digit) 0
  if digits.isEmpty || maxDigits.any (· < digits.length)
      || !zeros && 1 < digits.length && digits.head? = some 0 || limit ≤ value then none
  else some (value, text.drop digits.length)

/-- A decimal number with any number of leading zeros. -/
def readDecimal (limit : Nat) (text : List Char) : Option (Nat × List Char) :=
  readNumber 10 limit none true text

/-- A part of a version 4 address. -/
def readOctet (text : List Char) : Option (UInt8 × List Char) :=
  (readNumber 10 0x100 (some 3) false text).map fun (n, rest) => (UInt8.ofNat n, rest)

/-- A group of a version 6 address. -/
def readGroup (text : List Char) : Option (UInt16 × List Char) :=
  (readNumber 16 0x10000 (some 4) true text).map fun (n, rest) => (UInt16.ofNat n, rest)

/-- A colon and a port. -/
def readPort (text : List Char) : Option (UInt16 × List Char) :=
  (readChar ':' text).bind fun rest =>
    (readDecimal 0x10000 rest).map fun (n, rest) => (UInt16.ofNat n, rest)

/-- A percent sign and a scope; zero if there is none. -/
def readScope (text : List Char) : UInt32 × List Char :=
  match (readChar '%' text).bind (readDecimal 0x100000000) with
  | some (scope, rest) => (UInt32.ofNat scope, rest)
  | none => (0, text)

/-! ## Addresses -/

/-- A version 4 address. -/
def readIpv4 (text : List Char) : Option (Ipv4 × List Char) := do
  let (a, text) ← readOctet text
  let text ← readChar '.' text
  let (b, text) ← readOctet text
  let text ← readChar '.' text
  let (c, text) ← readOctet text
  let text ← readChar '.' text
  let (d, text) ← readOctet text
  some (⟨a, b, c, d⟩, text)

/-- The two groups that a version 4 address fills. -/
def Ipv4.groups (address : Ipv4) : List UInt16 :=
  [address.a.toUInt16 <<< 8 ||| address.b.toUInt16,
    address.c.toUInt16 <<< 8 ||| address.d.toUInt16]

/-- The colon that stands before every group of a sequence but the first. -/
def readColon (first : Bool) (text : List Char) : Option (List Char) :=
  if first then some text else readChar ':' text

/-- At most `count` groups with colons between them, as many as there are. The last two can be
    given as a version 4 address; the answer tells whether they were. -/
def readGroups : Nat → Bool → List Char → List UInt16 × Bool × List Char
  | 0, _, text => ([], false, text)
  | count + 1, first, text =>
      let dotted := if count = 0 then none else (readColon first text).bind readIpv4
      match dotted with
      | some (address, rest) => (address.groups, true, rest)
      | none =>
          match (readColon first text).bind readGroup with
          | some (group, rest) =>
              let (groups, dotted, rest) := readGroups count false rest
              (group :: groups, dotted, rest)
          | none => ([], false, text)

/-- A version 6 address. -/
def readIpv6 (text : List Char) : Option (List UInt16 × List Char) :=
  let (head, dotted, rest) := readGroups 8 true text
  if head.length = 8 then some (head, rest)
  else if dotted then none
  else
    ((readChar ':' rest).bind (readChar ':')).map fun rest =>
      let (tail, _, rest) := readGroups (7 - head.length) true rest
      (head ++ List.replicate (8 - head.length - tail.length) 0 ++ tail, rest)

/-- A version 4 address with its port. -/
def readSocketV4 (text : List Char) : Option (SocketAddress × List Char) := do
  let (address, text) ← readIpv4 text
  let (port, text) ← readPort text
  some (.v4 address port, text)

/-- A version 6 address in brackets with its scope and port. -/
def readSocketV6 (text : List Char) : Option (SocketAddress × List Char) := do
  let text ← readChar '[' text
  let (groups, text) ← readIpv6 text
  let (scope, text) := readScope text
  let text ← readChar ']' text
  let (port, text) ← readPort text
  some (.v6 groups scope port, text)

/-- The address that a text holds. -/
def SocketAddress.ofText? (text : String) : Option SocketAddress :=
  match readSocketV4 text.toList <|> readSocketV6 text.toList with
  | some (address, []) => some address
  | _ => none

end Quorum
