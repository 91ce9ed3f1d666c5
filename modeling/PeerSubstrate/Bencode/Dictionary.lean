/-!
# Dictionaries keyed by byte strings

A dictionary is the list of its entries in ascending order of their keys, compared byte by byte from
the left. Every operation here keeps the keys strictly ascending, so two dictionaries with the same
entries are the same list whatever was done to build them.
-/

namespace PeerSubstrate.Bencode

abbrev Bytes := List UInt8

/-- Entries in ascending order of their keys. -/
abbrev Dictionary (α : Type) := List (Bytes × α)

namespace Dictionary

variable {α : Type}

/-- Keys ascend strictly, hence none occurs twice. -/
def Ascending (dict : Dictionary α) : Prop := dict.Pairwise fun a b => a.1 < b.1

instance (dict : Dictionary α) : Decidable dict.Ascending :=
  inferInstanceAs (Decidable (dict.Pairwise fun a b => a.1 < b.1))

def find? (key : Bytes) : Dictionary α → Option α
  | [] => none
  | (k, v) :: rest => if k = key then some v else find? key rest

def contains (dict : Dictionary α) (key : Bytes) : Bool := (find? key dict).isSome

/-- Puts `value` under `key`, in place of the value that was there. -/
def insert (key : Bytes) (value : α) : Dictionary α → Dictionary α
  | [] => [(key, value)]
  | (k, v) :: rest =>
    if key < k then (key, value) :: (k, v) :: rest
    else if k = key then (key, value) :: rest
    else (k, v) :: insert key value rest

def erase (key : Bytes) : Dictionary α → Dictionary α
  | [] => []
  | (k, v) :: rest => if k = key then rest else (k, v) :: erase key rest

/-- Inserts entries one after another, so that of several with one key the last remains. -/
def ofEntries (entries : List (Bytes × α)) : Dictionary α :=
  entries.foldl (fun dict entry => insert entry.1 entry.2 dict) []

def keys (dict : Dictionary α) : List Bytes := dict.map Prod.fst

end Dictionary

end PeerSubstrate.Bencode
