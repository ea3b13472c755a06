import Quorum.Dictionary
import Quorum.Error
import Quorum.Text.Utf8

set_option autoImplicit false

/-! # A directory of files

What a disk offers below the level of terms and logs: names that stand for files or for other
directories. Every change is a `FileAction`, the unit between two of which a machine can stop.
Replacing a file is done so that it is never seen half written: the new contents go to another
file, which is then renamed. -/

namespace Quorum

/-- What a name stands for. Of a directory within a directory only the name matters here. -/
inductive Node where
  | file (bytes : Bytes)
  | directory
  deriving DecidableEq, Repr

/-- Names and what they stand for. -/
abbrev Directory := Dictionary Node

/-! ## Looking -/

/-- The bytes that were found under a name, if it is the name of a file. -/
def Node.readBytes : Option Node → Except DiskError Bytes
  | some (.file bytes) => .ok bytes
  | some .directory => .error .isADirectory
  | none => .error .notFound

/-- The text that was found under a name, if it is the name of a file that holds text. -/
def Node.readText (node : Option Node) : Except DiskError String :=
  match Node.readBytes node with
  | .error e => .error e
  | .ok bytes =>
      match Bytes.text? bytes with
      | some text => .ok text
      | none => .error .invalidData

/-! ## Changing -/

/-- A single change to a directory. -/
inductive FileAction where
  /-- Make an empty file, also out of one that is there already. -/
  | create (name : String)
  /-- Put bytes behind the contents of a file. -/
  | write (name : String) (bytes : Bytes)
  /-- Wait until the contents of a file are safe. -/
  | sync (name : String)
  /-- Give a file another name, which stands for no other file any more. -/
  | rename (source target : String)
  /-- Wait until the names are safe. -/
  | syncNames
  deriving DecidableEq, Repr

/-- The directory after a change. A directory never takes the place of a file, nor a file that of
    a directory. -/
def FileAction.perform (directory : Directory) : FileAction → Except DiskError Directory
  | .create name =>
      match directory.get? name with
      | some .directory => .error .isADirectory
      | _ => .ok (directory.insert name (.file []))
  | .write name bytes =>
      match Node.readBytes (directory.get? name) with
      | .ok before => .ok (directory.insert name (.file (before ++ bytes)))
      | .error e => .error e
  | .sync _ => .ok directory
  | .rename source target =>
      match Node.readBytes (directory.get? source), directory.get? target with
      | .error e, _ => .error e
      | .ok _, some .directory => .error .isADirectory
      | .ok bytes, _ => .ok ((directory.erase source).insert target (.file bytes))
  | .syncNames => .ok directory

/-- Perform changes in turn up to the first one that fails; those before it stay. -/
def performAll (directory : Directory) : List FileAction → Attempt DiskError Unit Directory
  | [] => .ok () directory
  | action :: rest =>
      match action.perform directory with
      | .ok directory => performAll directory rest
      | .error e => .error e directory

/-- The changes that give a file new contents by way of a temporary file. -/
def replaceFile (target temporary : String) (bytes : Bytes) : List FileAction :=
  [.create temporary, .write temporary bytes, .sync temporary, .rename temporary target,
    .syncNames]

/-- Give a file new contents in place. -/
def Directory.writeFile (directory : Directory) (name : String) (bytes : Bytes) :
    Attempt DiskError Unit Directory :=
  performAll directory [.create name, .write name bytes]

/-- Make a directory within a directory. -/
def Directory.makeDirectory (directory : Directory) (name : String) :
    Attempt DiskError Unit Directory :=
  if directory.contains name then .error .alreadyExists directory
  else .ok () (directory.insert name .directory)

/-- Remove a file; that there is none is no failure. -/
def Directory.removeFile (directory : Directory) (name : String) :
    Attempt DiskError Unit Directory :=
  match directory.get? name with
  | some .directory => .error .isADirectory directory
  | _ => .ok () (directory.erase name)

/-- The directory at a path below `root`, made with all those above it where they are missing. The
    directories in `root` are taken to be empty. -/
def Directory.openPath (root : Directory) : List String → Except DiskError Directory
  | [] => .ok root
  | name :: below =>
      match root.get? name with
      | some (.file _) =>
          if below.isEmpty then .error .alreadyExists else .error .notADirectory
      | _ => .ok .empty

end Quorum
