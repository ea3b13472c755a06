import Quorum.Basic

set_option autoImplicit false

/-! # Dictionaries

Finite maps from texts, kept as a list of pairs with strictly ascending keys, so that a map has
only one form. Keys are ordered by their code points, which is also the order of their UTF-8
encodings. -/

namespace Quorum

/-- Pairs of a key and a value, with strictly ascending keys. -/
structure Dictionary (α : Type) where
  pairs : List (String × α)
  ascending : pairs.Pairwise (fun a b => a.1 < b.1)

namespace Dictionary

variable {α : Type}

/-- The dictionary without keys. -/
def empty : Dictionary α := ⟨[], List.Pairwise.nil⟩

/-- The value of a key, if it has one. -/
def get? (d : Dictionary α) (key : String) : Option α := d.pairs.lookup key

/-- Whether a key has a value. -/
def contains (d : Dictionary α) (key : String) : Bool := (d.get? key).isSome

/-- The keys in ascending order. -/
def keys (d : Dictionary α) : List String := d.pairs.map Prod.fst

/-- The number of keys. -/
def size (d : Dictionary α) : Nat := d.pairs.length

/-- Whether there are no keys. -/
def isEmpty (d : Dictionary α) : Bool := d.pairs.isEmpty

/-! ## Changing a key -/

/-- Put a pair at its place among pairs with ascending keys, instead of one with the same key. -/
def insertPair (key : String) (value : α) : List (String × α) → List (String × α)
  | [] => [(key, value)]
  | (k, v) :: rest =>
      if key < k then (key, value) :: (k, v) :: rest
      else if key = k then (key, value) :: rest
      else (k, v) :: insertPair key value rest

theorem mem_insertPair {key : String} {value : α} {pairs : List (String × α)}
    {pair : String × α} (h : pair ∈ insertPair key value pairs) :
    pair = (key, value) ∨ pair ∈ pairs := by
  induction pairs with
  | nil => simpa [insertPair] using h
  | cons first rest ih =>
      obtain ⟨k, v⟩ := first
      unfold insertPair at h
      grind

theorem pairwise_insertPair {key : String} {value : α} {pairs : List (String × α)}
    (h : pairs.Pairwise (fun a b => a.1 < b.1)) :
    (insertPair key value pairs).Pairwise (fun a b => a.1 < b.1) := by
  induction pairs with
  | nil => simp [insertPair]
  | cons first rest ih =>
      obtain ⟨k, v⟩ := first
      have ⟨hfirst, hrest⟩ := List.pairwise_cons.1 h
      unfold insertPair
      split
      · next hlt =>
          refine List.pairwise_cons.2 ⟨fun pair hpair => ?_, h⟩
          rcases List.mem_cons.1 hpair with rfl | hpair
          · exact hlt
          · exact String.lt_trans hlt (hfirst pair hpair)
      · split
        · next heq => subst heq; exact List.pairwise_cons.2 ⟨hfirst, hrest⟩
        · next hlt hne =>
            refine List.pairwise_cons.2 ⟨fun pair hpair => ?_, ih hrest⟩
            rcases mem_insertPair hpair with rfl | hpair
            · exact Std.lt_of_le_of_ne (String.not_lt.1 hlt) (Ne.symm hne)
            · exact hfirst pair hpair

theorem lookup_insertPair (key wanted : String) (value : α) (pairs : List (String × α)) :
    (insertPair key value pairs).lookup wanted =
      if wanted = key then some value else pairs.lookup wanted := by
  induction pairs with
  | nil => grind [insertPair]
  | cons first rest ih => unfold insertPair; grind

/-- The dictionary in which `key` has the value `value`. -/
def insert (d : Dictionary α) (key : String) (value : α) : Dictionary α :=
  ⟨insertPair key value d.pairs, pairwise_insertPair d.ascending⟩

theorem get?_insert (d : Dictionary α) (key wanted : String) (value : α) :
    (d.insert key value).get? wanted = if wanted = key then some value else d.get? wanted :=
  lookup_insertPair key wanted value d.pairs

/-- The dictionary without `key`. -/
def erase (d : Dictionary α) (key : String) : Dictionary α :=
  ⟨d.pairs.filter (·.1 != key), d.ascending.filter _⟩

theorem get?_erase (d : Dictionary α) (key wanted : String) :
    (d.erase key).get? wanted = if wanted = key then none else d.get? wanted := by
  show (d.pairs.filter (·.1 != key)).lookup wanted =
    if wanted = key then none else d.pairs.lookup wanted
  induction d.pairs with
  | nil => simp
  | cons first rest ih => grind

theorem get?_erase_of_ne (d : Dictionary α) {key wanted : String} (h : wanted ≠ key) :
    (d.erase key).get? wanted = d.get? wanted := by
  rw [get?_erase, if_neg h]

end Dictionary

end Quorum
