import Quorum.Error
import Quorum.Text.Blank
import Quorum.Text.Utf8

set_option autoImplicit false

/-! # Commands of the key-value store

A command is one line of text: `SET` with a key and a value, or `DEL` with a key. The verb may be
written in any mixture of ASCII cases. Words are separated by any number of blanks, the value is
the rest of the line, and blanks around the whole are no part of it. Keys and values have at least
one character that is not blank and at most 256 characters. -/

namespace Quorum.KeyValue

open Quorum.Text

/-- A change to the store. -/
inductive Command where
  /-- Give `key` the value `value`. -/
  | set (key value : String)
  /-- Remove `key`. -/
  | delete (key : String)
  deriving DecidableEq, Repr

/-- The longest key or value, in characters. -/
def maxFieldLength : Nat := 256

/-! ## Writing -/

/-- A command as a line of text. -/
def Command.line : Command → String
  | .set key value => "SET " ++ key ++ " " ++ value
  | .delete key => "DEL " ++ key

/-- A command as it is carried in the log. -/
def Command.encode (command : Command) : Bytes := utf8 command.line

/-! ## Reading -/

/-- The complaint about a key or a value that is blank or too long. -/
def fieldFault? (name : String) (field : String) : Option String :=
  if (trim field.toList).isEmpty then some s!"expected non-blank {name}"
  else if maxFieldLength < field.toList.length then
    some s!"{name} is {field.toList.length} characters, limit is {maxFieldLength}"
  else none

/-- The complaint about the fields of a command; the key is looked at first. -/
def Command.fault? : Command → Option String
  | .set key value => fieldFault? "key" key <|> fieldFault? "value" value
  | .delete key => fieldFault? "key" key

/-- More than one word. -/
def hasSecondWord (text : List Char) : Bool :=
  ((trimStart text).dropWhile (!isBlank ·)).any (!isBlank ·)

/-- Read the verb and what follows it, without a look at the length of the fields. -/
def Command.ofWords (verb rest : List Char) : Except ApplyError Command :=
  let upper := verb.map Char.toUpper
  if upper = "SET".toList then
    .ok (.set (String.ofList (firstWord rest)) (String.ofList (trim (afterFirstBlank rest))))
  else if upper = "DEL".toList then
    if hasSecondWord rest then
      .error (.invalidCommand s!"DEL takes one key, got [{String.ofList rest}]")
    else .ok (.delete (String.ofList (trim rest)))
  else .error (.invalidCommand s!"unknown command [{String.ofList upper}]")

/-- Read a line of text. -/
def Command.ofText (text : String) : Except ApplyError Command :=
  let line := trim text.toList
  match Command.ofWords (firstWord line) (trimStart (afterFirstBlank line)) with
  | .error e => .error e
  | .ok command =>
      match command.fault? with
      | some complaint => .error (.invalidCommand complaint)
      | none => .ok command

/-- Read a command as it is carried in the log. -/
def Command.decode (bytes : Bytes) : Except ApplyError Command :=
  match Bytes.text? bytes with
  | none => .error (.invalidCommand "command is not valid utf-8")
  | some text => Command.ofText text

end Quorum.KeyValue
