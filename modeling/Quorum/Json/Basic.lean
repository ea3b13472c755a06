import Quorum.Basic

set_option autoImplicit false

/-! # JSON values

Messages, configurations and files are JSON. A value keeps what its reader may have to be strict
about: the members of an object with their order and repetitions, and the code points of a string,
among which a half of a surrogate pair can stand alone. Of numbers only natural ones have a
meaning here; any other is kept as it was written.

A record of named fields is written as an object. It is read from an object in any order, where
members with other names are skipped and a field given twice is refused, or from an array that
holds the fields in order. -/

namespace Quorum

/-- A JSON value. -/
inductive Json where
  | null
  | bool (value : Bool)
  /-- A number written without sign, fraction and exponent. -/
  | natural (value : Nat)
  /-- Any other number, as written. -/
  | otherNumber (digits : List Char)
  /-- A string, as code points and unpaired surrogates. -/
  | string (codes : List Nat)
  | array (items : List Json)
  /-- An object, with its members in the order of the text. -/
  | object (members : List (List Nat × Json))

namespace Json

/-! ## Strings -/

/-- The code points of a text. -/
def codesOf (text : String) : List Nat := text.toList.map Char.toNat

/-- The text with these code points, unless one of them is an unpaired surrogate. -/
def text? (codes : List Nat) : Option String :=
  if codes.all (fun code => decide code.isValidChar) then
    some (String.ofList (codes.map Char.ofNat))
  else none

/-- A text as a JSON string. -/
def ofString (text : String) : Json := .string (codesOf text)

/-- The text of a JSON string. -/
def string? : Json → Option String
  | .string codes => text? codes
  | _ => none

/-! ## Numbers and truth values -/

/-- A natural number of at most 64 bits. -/
def word? : Json → Option Nat
  | .natural n => if n < wordLimit then some n else none
  | _ => none

/-- A natural number of at most 8 bits. -/
def byte? : Json → Option UInt8
  | .natural n => if n < 256 then some (UInt8.ofNat n) else none
  | _ => none

/-- A truth value. -/
def bool? : Json → Option Bool
  | .bool b => some b
  | _ => none

/-- The items of an array. -/
def array? : Json → Option (List Json)
  | .array items => some items
  | _ => none

/-- A member's identity, as a plain number. -/
def serverId? (json : Json) : Option ServerId := json.word?.map ServerId.mk

/-- Bytes, as an array of numbers. -/
def bytes? (json : Json) : Option Bytes := json.array?.bind (·.mapM byte?)

/-- Bytes as an array of numbers. -/
def ofBytes (bytes : Bytes) : Json := .array (bytes.map fun b => .natural b.toNat)

/-! ## Records -/

/-- An object with the given fields. -/
def ofFields (fields : List (String × Json)) : Json :=
  .object (fields.map fun (name, value) => (codesOf name, value))

/-- The values of a record's fields, in the order of their names. -/
structure Fields where
  /-- Whether the values were given in order, without names. -/
  positional : Bool
  /-- The value of each field, if it was given. -/
  values : List (Option Json)

/-- The value of a field among the members of an object; refused if it is given twice. -/
def member? (members : List (List Nat × Json)) (name : String) : Option (Option Json) :=
  match members.filter (·.1 == codesOf name) with
  | [] => some none
  | [(_, value)] => some (some value)
  | _ => none

/-- Read a record with these field names. In an object every name has to be a proper text; in an
    array fields can only be missing at the end. -/
def fields? (names : List String) : Json → Option Fields
  | .object members =>
      if members.all (fun member => (text? member.1).isSome) then
        (names.mapM (member? members)).map fun values => ⟨false, values⟩
      else none
  | .array items =>
      if items.length ≤ names.length then
        some ⟨true, items.map some ++ List.replicate (names.length - items.length) none⟩
      else none
  | _ => none

end Json

end Quorum
