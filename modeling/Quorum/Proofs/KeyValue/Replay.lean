import Quorum.KeyValue.Store
import Quorum.Proofs.State.Volatile

set_option autoImplicit false

/-! # Applying commands again

After a restart a machine is fed the log from its first entry, also what it has been fed before. On
the way the store is not what it was at first: keys come back that were removed later, and have
values that were replaced later. In the end nothing is left of that. What a key has in the end is
decided by the last command that changes it, if there is one; and if there is none, there was none
among the commands that had been applied before either. -/

namespace Quorum

/-! ## Dictionaries by their values -/

namespace Dictionary

variable {α : Type}

theorem mem_pairs_iff (d : Dictionary α) (key : String) (value : α) :
    (key, value) ∈ d.pairs ↔ d.get? key = some value := by
  unfold get?
  rw [List.lookup_eq_some_iff]
  constructor
  · intro hmem
    obtain ⟨before, after, hpairs⟩ := List.append_of_mem hmem
    refine ⟨before, after, hpairs, ?_⟩
    intro pair hpair
    have hascending := d.ascending
    rw [hpairs] at hascending
    have hlt : pair.1 < key :=
      (List.pairwise_append.1 hascending).2.2 pair hpair (key, value) (List.mem_cons_self ..)
    exact bne_iff_ne.2 fun heq => String.lt_irrefl key (heq ▸ hlt)
  · rintro ⟨before, after, hpairs, -⟩
    rw [hpairs]
    simp

theorem nodup_pairs (d : Dictionary α) : d.pairs.Nodup := by
  refine d.ascending.imp ?_
  rintro a _ hlt rfl
  exact String.lt_irrefl a.1 hlt

/-- Dictionaries with the same values are the same. -/
theorem ext_get? {d d' : Dictionary α} (h : ∀ key, d.get? key = d'.get? key) : d = d' := by
  have hperm : d.pairs.Perm d'.pairs := by
    rw [List.perm_ext_iff_of_nodup d.nodup_pairs d'.nodup_pairs]
    rintro ⟨key, value⟩
    rw [mem_pairs_iff, mem_pairs_iff, h]
  have hpairs : d.pairs = d'.pairs := by
    refine hperm.eq_of_pairwise ?_ d.ascending d'.ascending
    intro a b _ _ hlt hgt
    exact absurd hgt (String.lt_asymm hlt)
  obtain ⟨pairs, _⟩ := d
  obtain ⟨pairs', _⟩ := d'
  obtain rfl : pairs = pairs' := hpairs
  rfl

end Dictionary

namespace KeyValue

/-! ## What commands do to one key -/

/-- The value that a command leaves, if it leaves one. -/
def Command.outcome? : Command → Option String
  | .set _ value => some value
  | .delete _ => none

/-- What a command does to a key: nothing, or it leaves it with a value or without one. -/
def Command.effect? (command : Command) (key : String) : Option (Option String) :=
  if key = command.key then some command.outcome? else none

theorem Command.get?_run (command : Command) (store : Store) (key : String) :
    (command.run store).get? key = (command.effect? key).getD (store.get? key) := by
  unfold Command.effect?
  cases command with
  | set changed value =>
    by_cases hkey : key = changed
    · simp [Command.run, Command.key, Command.outcome?, Dictionary.get?_insert, hkey]
    · simp [Command.run, Command.key, Dictionary.get?_insert, hkey]
  | delete changed =>
    by_cases hkey : key = changed
    · simp [Command.run, Command.key, Command.outcome?, Dictionary.get?_erase, hkey]
    · simp [Command.run, Command.key, Dictionary.get?_erase, hkey]

/-- What bytes do to a key; those that cannot be read do nothing. -/
def effect? (bytes : Bytes) (key : String) : Option (Option String) :=
  match Command.decode bytes with
  | .error _ => none
  | .ok command => command.effect? key

theorem get?_apply (store : Store) (index : Nat) (bytes : Bytes) (key : String) :
    (StateMachine.apply store index bytes).state.get? key =
      (effect? bytes key).getD (store.get? key) := by
  show (applyCommand store bytes).state.get? key = (effect? bytes key).getD (store.get? key)
  unfold applyCommand effect?
  cases Command.decode bytes with
  | error e => rfl
  | ok command => exact command.get?_run store key

/-! ## What the last of them does -/

/-- What the last entry that does anything to a key does to it. -/
def lastEffect? (entries : List Entry) (key : String) : Option (Option String) :=
  entries.reverse.findSome? fun entry => effect? entry.command key

/-- The last entry decides, and if there is none, the key is what it was. -/
theorem get?_feed (store : Store) (entries : List Entry) (key : String) :
    (feed store entries).get? key = (lastEffect? entries key).getD (store.get? key) := by
  induction entries generalizing store with
  | nil => rfl
  | cons entry entries ih =>
    have hfirst := get?_apply store entry.index entry.command key
    have hlater := ih (StateMachine.apply store entry.index entry.command).state
    show (feed (StateMachine.apply store entry.index entry.command).state entries).get? key = _
    rw [hlater, hfirst]
    unfold lastEffect?
    rw [List.reverse_cons, List.findSome?_append]
    cases entries.reverse.findSome? fun entry => effect? entry.command key with
    | some value => rfl
    | none => simp

theorem lastEffect?_take {entries : List Entry} {key : String}
    (h : lastEffect? entries key = none) (count : Nat) :
    lastEffect? (entries.take count) key = none := by
  unfold lastEffect? at h ⊢
  rw [List.findSome?_eq_none_iff] at h ⊢
  intro entry hentry
  exact h entry (List.mem_reverse.2 (List.mem_of_mem_take (List.mem_reverse.1 hentry)))

/-- A store that was fed the first of some entries and then all of them is what it is when it is
    fed all of them once. -/
theorem feed_feed_take (store : Store) (entries : List Entry) (count : Nat) :
    feed (feed store (entries.take count)) entries = feed store entries := by
  refine Dictionary.ext_get? fun key => ?_
  rw [get?_feed, get?_feed, get?_feed]
  cases hlast : lastEffect? entries key with
  | some value => rfl
  | none =>
    rw [lastEffect?_take hlast]
    rfl

end KeyValue

end Quorum
