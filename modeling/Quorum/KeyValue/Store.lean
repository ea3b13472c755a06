import Quorum.Dictionary
import Quorum.KeyValue.Command
import Quorum.StateMachine

set_option autoImplicit false

/-! # The key-value store

The state machine of this library: a dictionary of texts. A command answers with the value that it
replaced or removed, as bytes, and with no bytes if there was none. A command that cannot be read
is rejected and changes nothing. -/

namespace Quorum.KeyValue

/-- The keys and their values. -/
abbrev Store := Dictionary String

/-- The key that a command changes. -/
def Command.key : Command → String
  | .set key _ => key
  | .delete key => key

/-- The store after a command. -/
def Command.run (command : Command) (store : Store) : Store :=
  match command with
  | .set key value => store.insert key value
  | .delete key => store.erase key

/-- Read a command and carry it out; the answer is the earlier value of its key, or no bytes. -/
def applyCommand (store : Store) (bytes : Bytes) : Attempt ApplyError Bytes Store :=
  match Command.decode bytes with
  | .error e => .error e store
  | .ok command => .ok (((store.get? command.key).map utf8).getD []) (command.run store)

instance : StateMachine Store where
  apply store _ bytes := applyCommand store bytes

end Quorum.KeyValue
