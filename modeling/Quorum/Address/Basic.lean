import Quorum.Basic

set_option autoImplicit false

/-! # Socket addresses

Where a member listens: an address of the internet protocol, version 4 or 6, with a port. The
written form of a version 6 address is shortened as is usual: the longest run of at least two zero
groups, the first of those that are equally long, becomes `::`; groups are in lower case without
leading zeros; an address that stands for one of version 4 (`::ffff:…`) shows it in dots. The
scope is shown if it is not zero. -/

namespace Quorum

/-- An address of version 4. -/
structure Ipv4 where
  a : UInt8
  b : UInt8
  c : UInt8
  d : UInt8
  deriving DecidableEq, Repr

/-- An address with a port. A version 6 address has eight groups of sixteen bits. -/
inductive SocketAddress where
  | v4 (address : Ipv4) (port : UInt16)
  | v6 (groups : List UInt16) (scope : UInt32) (port : UInt16)
  deriving DecidableEq, Repr

/-! ## Writing -/

/-- A version 4 address in dots. -/
def Ipv4.toText (address : Ipv4) : String :=
  s!"{address.a.toNat}.{address.b.toNat}.{address.c.toNat}.{address.d.toNat}"

/-- A group in hexadecimal, without leading zeros. -/
def groupText (group : UInt16) : String := String.ofList (Nat.toDigits 16 group.toNat)

/-- Groups with colons between them. -/
def groupsText (groups : List UInt16) : String := ":".intercalate (groups.map groupText)

/-- The longest run of zero groups, the first of several: where it starts and how long it is.
    `start` and `length` describe the run just before the groups, which begin at `position`. -/
def longestZeroRun (position start length : Nat) : List UInt16 → Nat × Nat
  | [] => (start, length)
  | group :: rest =>
      if group = 0 then longestZeroRun (position + 1) start (length + 1) rest
      else
        let later := longestZeroRun (position + 1) (position + 1) 0 rest
        if later.2 ≤ length then (start, length) else later

/-- A version 6 address. -/
def ipv6Text (groups : List UInt16) : String :=
  match groups with
  | [0, 0, 0, 0, 0, 0xFFFF, high, low] =>
      let address : Ipv4 :=
        ⟨(high >>> 8).toUInt8, high.toUInt8, (low >>> 8).toUInt8, low.toUInt8⟩
      "::ffff:" ++ address.toText
  | _ =>
      let (start, length) := longestZeroRun 0 0 0 groups
      if 2 ≤ length then
        groupsText (groups.take start) ++ "::" ++ groupsText (groups.drop (start + length))
      else groupsText groups

/-- The written form of an address with its port. -/
def SocketAddress.toText : SocketAddress → String
  | .v4 address port => s!"{address.toText}:{port.toNat}"
  | .v6 groups scope port =>
      let shown := if scope = 0 then "" else s!"%{scope.toNat}"
      s!"[{ipv6Text groups}{shown}]:{port.toNat}"

end Quorum
