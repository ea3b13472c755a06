import Quorum.Basic

set_option autoImplicit false

/-! # Blank characters

A character is blank if Unicode gives it the property White_Space: 25 characters, among them the
no-break space, the line separators and the ideographic space. Words are what stands between
blanks. -/

namespace Quorum.Text

/-- The characters with the Unicode property White_Space, as inclusive ranges of code points. -/
def blankRanges : List (Nat × Nat) :=
  [(0x09, 0x0D), (0x20, 0x20), (0x85, 0x85), (0xA0, 0xA0), (0x1680, 0x1680), (0x2000, 0x200A),
    (0x2028, 0x2029), (0x202F, 0x202F), (0x205F, 0x205F), (0x3000, 0x3000)]

/-- Whether a character is blank. -/
def isBlank (c : Char) : Bool :=
  blankRanges.any fun (low, high) => low ≤ c.toNat && c.toNat ≤ high

/-- A text without the blanks before it. -/
def trimStart (text : List Char) : List Char := text.dropWhile isBlank

/-- A text without the blanks behind it. -/
def trimEnd (text : List Char) : List Char := (text.reverse.dropWhile isBlank).reverse

/-- A text without the blanks around it. -/
def trim (text : List Char) : List Char := trimEnd (trimStart text)

/-- What stands before the first blank. -/
def firstWord (text : List Char) : List Char := text.takeWhile (!isBlank ·)

/-- What stands behind the first blank; nothing if there is none. -/
def afterFirstBlank (text : List Char) : List Char := (text.dropWhile (!isBlank ·)).drop 1

end Quorum.Text
