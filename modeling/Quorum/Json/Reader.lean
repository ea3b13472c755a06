import Quorum.Json.Basic

set_option autoImplicit false

/-! # Reading JSON

The grammar is that of RFC 8259 and nothing more: blanks are space, tab, line feed and carriage
return, numbers have no leading zeros, control characters in strings have to be escaped, and only
blanks may follow the value. Escaped surrogates are put together where a high one precedes a low
one, and are left alone otherwise; it is up to whoever asks for the text of the string to refuse
those.

Readers take a text and give what they have read with the rest of the text. -/

namespace Quorum.Json

/-! ## Blanks, digits and escapes -/

/-- The blanks of the grammar. -/
def isSpace (c : Char) : Bool := c == ' ' || c == '\t' || c == '\n' || c == '\r'

/-- The text without the blanks before it. -/
def skipSpace (text : List Char) : List Char := text.dropWhile isSpace

/-- The number that decimal digits stand for. -/
def ofDigits (digits : List Char) : Nat :=
  digits.foldl (fun n c => 10 * n + (c.toNat - '0'.toNat)) 0

/-- The value of a hexadecimal digit. -/
def hexDigit? (c : Char) : Option Nat :=
  if '0' ≤ c ∧ c ≤ '9' then some (c.toNat - '0'.toNat)
  else if 'a' ≤ c ∧ c ≤ 'f' then some (c.toNat - 'a'.toNat + 10)
  else if 'A' ≤ c ∧ c ≤ 'F' then some (c.toNat - 'A'.toNat + 10)
  else none

/-- What a single character after a backslash stands for. -/
def escaped? : Char → Option Nat
  | '"' => some 0x22
  | '\\' => some 0x5C
  | '/' => some 0x2F
  | 'b' => some 0x08
  | 'f' => some 0x0C
  | 'n' => some 0x0A
  | 'r' => some 0x0D
  | 't' => some 0x09
  | _ => none

/-! ## Strings -/

/-- The rest of a string up to its closing quote, each escape as one unit. -/
def readUnits : List Char → Option (List Nat × List Char)
  | [] => none
  | '"' :: rest => some ([], rest)
  | '\\' :: 'u' :: a :: b :: c :: d :: rest =>
      match [a, b, c, d].mapM hexDigit? with
      | some digits =>
          (readUnits rest).map fun (units, rest) =>
            (digits.foldl (fun n digit => 16 * n + digit) 0 :: units, rest)
      | none => none
  | '\\' :: c :: rest =>
      match escaped? c with
      | some unit => (readUnits rest).map fun (units, rest) => (unit :: units, rest)
      | none => none
  | c :: rest =>
      if c.toNat < 0x20 then none
      else (readUnits rest).map fun (units, rest) => (c.toNat :: units, rest)

/-- The first half of a surrogate pair. -/
def isHighSurrogate (unit : Nat) : Bool := 0xD800 ≤ unit && unit < 0xDC00

/-- The second half of a surrogate pair. -/
def isLowSurrogate (unit : Nat) : Bool := 0xDC00 ≤ unit && unit < 0xE000

/-- Put the halves of surrogate pairs together. -/
def joinSurrogates : List Nat → List Nat
  | [] => []
  | [unit] => [unit]
  | high :: low :: rest =>
      if isHighSurrogate high && isLowSurrogate low then
        (0x10000 + (high - 0xD800) * 0x400 + (low - 0xDC00)) :: joinSurrogates rest
      else high :: joinSurrogates (low :: rest)

/-- The rest of a string up to its closing quote. -/
def readString (text : List Char) : Option (List Nat × List Char) :=
  (readUnits text).map fun (units, rest) => (joinSurrogates units, rest)

/-! ## Numbers -/

/-- At least one digit. -/
def readDigits (text : List Char) : Option (List Char × List Char) :=
  match text.takeWhile Char.isDigit with
  | [] => none
  | digits => some (digits, text.dropWhile Char.isDigit)

/-- The digits before the point: a single zero, or digits that do not begin with one. -/
def readWhole : List Char → Option (List Char × List Char)
  | '0' :: rest => if (rest.head?.any Char.isDigit) then none else some (['0'], rest)
  | text => readDigits text

/-- A point with digits, or nothing. -/
def readFraction : List Char → Option (List Char × List Char)
  | '.' :: rest => (readDigits rest).map fun (digits, rest) => ('.' :: digits, rest)
  | text => some ([], text)

/-- The digits of an exponent, behind an optional sign. -/
def readSigned : List Char → Option (List Char × List Char)
  | '+' :: rest => (readDigits rest).map fun (digits, rest) => ('+' :: digits, rest)
  | '-' :: rest => (readDigits rest).map fun (digits, rest) => ('-' :: digits, rest)
  | text => readDigits text

/-- An exponent, or nothing. -/
def readExponent : List Char → Option (List Char × List Char)
  | 'e' :: rest => (readSigned rest).map fun (digits, rest) => ('e' :: digits, rest)
  | 'E' :: rest => (readSigned rest).map fun (digits, rest) => ('E' :: digits, rest)
  | text => some ([], text)

/-- A number without a sign. -/
def readUnsigned (text : List Char) : Option (Json × List Char) :=
  match readWhole text with
  | none => none
  | some (whole, rest) =>
      match readFraction rest with
      | none => none
      | some (fraction, rest) =>
          match readExponent rest with
          | none => none
          | some ([], rest) =>
              if fraction.isEmpty then some (.natural (ofDigits whole), rest)
              else some (.otherNumber (whole ++ fraction), rest)
          | some (exponent, rest) => some (.otherNumber (whole ++ fraction ++ exponent), rest)

/-- A number. -/
def readNumber : List Char → Option (Json × List Char)
  | '-' :: text =>
      (readUnsigned text).map fun
        | (.natural _, rest) => (.otherNumber ('-' :: text.take (text.length - rest.length)), rest)
        | (.otherNumber digits, rest) => (.otherNumber ('-' :: digits), rest)
        | (other, rest) => (other, rest)
  | text => readUnsigned text

/-! ## Values -/

mutual

/-- A value, after blanks. The first argument bounds the depth of the recursion. -/
def readValue : Nat → List Char → Option (Json × List Char)
  | 0, _ => none
  | bound + 1, text =>
      match skipSpace text with
      | '{' :: rest =>
          match skipSpace rest with
          | '}' :: rest => some (.object [], rest)
          | rest => (readMembers bound rest).map fun (members, rest) => (.object members, rest)
      | '[' :: rest =>
          match skipSpace rest with
          | ']' :: rest => some (.array [], rest)
          | rest => (readItems bound rest).map fun (items, rest) => (.array items, rest)
      | '"' :: rest => (readString rest).map fun (codes, rest) => (.string codes, rest)
      | 'n' :: 'u' :: 'l' :: 'l' :: rest => some (.null, rest)
      | 't' :: 'r' :: 'u' :: 'e' :: rest => some (.bool true, rest)
      | 'f' :: 'a' :: 'l' :: 's' :: 'e' :: rest => some (.bool false, rest)
      | text => readNumber text

/-- The items of an array up to its closing bracket; at least one. -/
def readItems : Nat → List Char → Option (List Json × List Char)
  | 0, _ => none
  | bound + 1, text =>
      match readValue bound text with
      | none => none
      | some (item, rest) =>
          match skipSpace rest with
          | ',' :: rest => (readItems bound rest).map fun (items, rest) => (item :: items, rest)
          | ']' :: rest => some ([item], rest)
          | _ => none

/-- The members of an object up to its closing brace; at least one. -/
def readMembers : Nat → List Char → Option (List (List Nat × Json) × List Char)
  | 0, _ => none
  | bound + 1, text =>
      match skipSpace text with
      | '"' :: rest =>
          match readString rest with
          | none => none
          | some (name, rest) =>
              match skipSpace rest with
              | ':' :: rest =>
                  match readValue bound rest with
                  | none => none
                  | some (value, rest) =>
                      match skipSpace rest with
                      | ',' :: rest =>
                          (readMembers bound rest).map fun (members, rest) =>
                            ((name, value) :: members, rest)
                      | '}' :: rest => some ([(name, value)], rest)
                      | _ => none
              | _ => none
      | _ => none

end

/-- The value that a text holds. Each level of the recursion but every other one takes a character
    from the text, so twice its length is bound enough. -/
def ofText? (text : List Char) : Option Json :=
  match readValue (2 * text.length + 2) text with
  | some (value, rest) => if (skipSpace rest).isEmpty then some value else none
  | none => none

/-! ## What the first character decides -/

theorem readValue_quote (bound : Nat) (text : List Char) :
    readValue (bound + 1) ('"' :: text) =
      (readString text).map fun (codes, rest) => (.string codes, rest) := rfl

theorem readValue_bracket (bound : Nat) (text : List Char) :
    readValue (bound + 1) ('[' :: text) =
      match skipSpace text with
      | ']' :: rest => some (.array [], rest)
      | text => (readItems bound text).map fun (items, rest) => (.array items, rest) := rfl

theorem readValue_brace (bound : Nat) (text : List Char) :
    readValue (bound + 1) ('{' :: text) =
      match skipSpace text with
      | '}' :: rest => some (.object [], rest)
      | text => (readMembers bound text).map fun (members, rest) => (.object members, rest) := rfl

theorem readItems_succ (bound : Nat) (text : List Char) :
    readItems (bound + 1) text =
      match readValue bound text with
      | none => none
      | some (item, rest) =>
          match skipSpace rest with
          | ',' :: rest => (readItems bound rest).map fun (items, rest) => (item :: items, rest)
          | ']' :: rest => some ([item], rest)
          | _ => none := rfl

theorem readMembers_quote (bound : Nat) (text : List Char) :
    readMembers (bound + 1) ('"' :: text) =
      match readString text with
      | none => none
      | some (name, rest) =>
          match skipSpace rest with
          | ':' :: rest =>
              match readValue bound rest with
              | none => none
              | some (value, rest) =>
                  match skipSpace rest with
                  | ',' :: rest =>
                      (readMembers bound rest).map fun (members, rest) =>
                        ((name, value) :: members, rest)
                  | '}' :: rest => some ([(name, value)], rest)
                  | _ => none
          | _ => none := rfl

/-! ## Blanks before a value -/

@[simp]
theorem skipSpace_skipSpace (text : List Char) : skipSpace (skipSpace text) = skipSpace text := by
  induction text with
  | nil => rfl
  | cons c text ih =>
    by_cases hc : isSpace c
    · simpa [skipSpace, hc] using ih
    · simp [skipSpace, hc]

theorem readValue_skipSpace (bound : Nat) (text : List Char) :
    readValue bound (skipSpace text) = readValue bound text := by
  cases bound with
  | zero => simp [readValue]
  | succ bound => simp [readValue]

theorem readItems_skipSpace (bound : Nat) (text : List Char) :
    readItems bound (skipSpace text) = readItems bound text := by
  cases bound with
  | zero => simp [readItems]
  | succ bound => simp [readItems, readValue_skipSpace]

theorem readMembers_skipSpace (bound : Nat) (text : List Char) :
    readMembers bound (skipSpace text) = readMembers bound text := by
  cases bound with
  | zero => simp [readMembers]
  | succ bound => simp [readMembers]

end Quorum.Json
