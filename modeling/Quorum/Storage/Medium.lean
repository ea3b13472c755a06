import Quorum.Storage.File

set_option autoImplicit false

/-! # A disk of either kind

A disk that is kept in memory or in files; which of them makes no difference to a server. -/

namespace Quorum

/-- A disk in memory or in files. -/
inductive Medium where
  | memory (contents : Contents)
  | files (store : FileStore)

namespace Medium

/-- A fresh disk in memory. -/
def inMemory : Medium := .memory .blank

/-- A fresh disk in files. -/
def inFiles : Medium := .files ⟨.empty⟩

/-- Make a change to whichever kind of disk it is. -/
def change (medium : Medium) (inMemory : Contents → Attempt DiskError Unit Contents)
    (inFiles : FileStore → Attempt DiskError Unit FileStore) : Attempt DiskError Unit Medium :=
  match medium with
  | .memory contents => (inMemory contents).within .memory
  | .files store => (inFiles store).within .files

instance : Storage Medium where
  saveBallot medium ballot := medium.change (Storage.saveBallot · ballot) (·.saveBallot ballot)
  loadBallot
    | .memory contents => Storage.loadBallot contents
    | .files store => store.loadBallot
  appendEntries medium entries :=
    medium.change (Storage.appendEntries · entries) (·.appendEntries entries)
  loadLog
    | .memory contents => Storage.loadLog contents
    | .files store => store.loadLog
  truncateFrom medium start :=
    medium.change (Storage.truncateFrom · start) (·.truncateFrom start)

/-- Forget everything. -/
def clear (medium : Medium) : Attempt DiskError Unit Medium :=
  medium.change (fun _ => .ok () .blank) FileStore.clear

/-- Open the disk again where it is: the same memory, or the directory with whatever it holds. -/
def reopen (medium : Medium) : Attempt DiskError Unit Medium :=
  medium.change (.ok ()) fun store =>
    match Directory.openPath store.directory [] with
    | .ok directory => .ok () ⟨directory⟩
    | .error e => .error e store

end Medium

end Quorum
