import Quorum.Json.Basic

set_option autoImplicit false

/-! # Writing JSON

Two forms: the compact one, without any blanks, for messages, and the indented one for files, in
which every item and every member stands on a line of its own, two spaces deeper than what it
belongs to. In strings only quotes, backslashes and control characters are escaped. -/

namespace Quorum.Json

/-! ## Strings and numbers -/

/-- A hexadecimal digit, in lower case. -/
def hexDigit (n : Nat) : Char := "0123456789abcdef".toList.getD n '0'

/-- A code unit as an escape with four digits. -/
def unicodeEscape (code : Nat) : List Char :=
  ['\\', 'u', hexDigit (code / 0x1000 % 16), hexDigit (code / 0x100 % 16),
    hexDigit (code / 0x10 % 16), hexDigit (code % 16)]

/-- A code point as it stands in a string. -/
def writeCode (code : Nat) : List Char :=
  if code = 0x22 then ['\\', '"']
  else if code = 0x5C then ['\\', '\\']
  else if code = 0x08 then ['\\', 'b']
  else if code = 0x09 then ['\\', 't']
  else if code = 0x0A then ['\\', 'n']
  else if code = 0x0C then ['\\', 'f']
  else if code = 0x0D then ['\\', 'r']
  else if code < 0x20 || 0xD800 ≤ code && code < 0xE000 then unicodeEscape code
  else [Char.ofNat code]

/-- A string in quotes. -/
def writeString (codes : List Nat) : List Char := '"' :: codes.flatMap writeCode ++ ['"']

/-- A natural number in decimal. -/
def writeNatural (n : Nat) : List Char := Nat.toDigits 10 n

/-! ## The compact form -/

mutual

/-- A value without blanks. -/
def compact : Json → List Char
  | .null => "null".toList
  | .bool true => "true".toList
  | .bool false => "false".toList
  | .natural n => writeNatural n
  | .otherNumber digits => digits
  | .string codes => writeString codes
  | .array [] => ['[', ']']
  | .array (item :: rest) => '[' :: compact item ++ compactItems rest
  | .object [] => ['{', '}']
  | .object ((name, value) :: rest) =>
      '{' :: writeString name ++ ':' :: compact value ++ compactMembers rest

/-- The items of an array behind its first one, and its closing bracket. -/
def compactItems : List Json → List Char
  | [] => [']']
  | item :: rest => ',' :: compact item ++ compactItems rest

/-- The members of an object behind its first one, and its closing brace. -/
def compactMembers : List (List Nat × Json) → List Char
  | [] => ['}']
  | (name, value) :: rest =>
      ',' :: writeString name ++ ':' :: compact value ++ compactMembers rest

end

/-! ## The indented form -/

/-- The beginning of a line at some depth. -/
def newLine (depth : Nat) : List Char := '\n' :: List.replicate (2 * depth) ' '

mutual

/-- A value at some depth, with each of its parts on a line of its own. -/
def indented (depth : Nat) : Json → List Char
  | .null => "null".toList
  | .bool true => "true".toList
  | .bool false => "false".toList
  | .natural n => writeNatural n
  | .otherNumber digits => digits
  | .string codes => writeString codes
  | .array [] => ['[', ']']
  | .array (item :: rest) =>
      '[' :: newLine (depth + 1) ++ indented (depth + 1) item ++ indentedItems depth rest
  | .object [] => ['{', '}']
  | .object ((name, value) :: rest) =>
      '{' :: newLine (depth + 1) ++ writeString name ++ ':' :: ' ' ::
        indented (depth + 1) value ++ indentedMembers depth rest

/-- The items of an array behind its first one, and its closing bracket. -/
def indentedItems (depth : Nat) : List Json → List Char
  | [] => newLine depth ++ [']']
  | item :: rest =>
      ',' :: newLine (depth + 1) ++ indented (depth + 1) item ++ indentedItems depth rest

/-- The members of an object behind its first one, and its closing brace. -/
def indentedMembers (depth : Nat) : List (List Nat × Json) → List Char
  | [] => newLine depth ++ ['}']
  | (name, value) :: rest =>
      ',' :: newLine (depth + 1) ++ writeString name ++ ':' :: ' ' ::
        indented (depth + 1) value ++ indentedMembers depth rest

end

/-- The compact form as a text. -/
def toCompact (json : Json) : String := String.ofList json.compact

/-- The indented form as a text. -/
def toIndented (json : Json) : String := String.ofList (json.indented 0)

end Quorum.Json
