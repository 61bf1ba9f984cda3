import MemIndex.HashedIndex.Basic

/-!
# Value slots

The entry that `emplace` answers has a slot for its value, which can be read, filled and emptied. A
value that leaves the slot is let go.
-/
namespace MemIndex.HashedIndex

variable {κ ν ρ : Type}

/-- The value in the slot of an entry. -/
def slot? (index : HashedIndex κ ν ρ) (h : Handle) : Option (Held ν) :=
  (index.chains.entries.get? h).bind Entry.value

/-- Puts a held value into a slot, or empties it, and lets go of what was there. -/
def putSlot (index : HashedIndex κ ν ρ) (h : Handle) (value : Option (Held ν)) :
    Outcome κ ν ρ Unit :=
  let released := index.values.releaseAll (index.slot? h)
  ⟨index.withChains fun chains => chains.setValue h value, (), valueEvents released⟩

/-- Stores a value as the policy for values says; a failed copy leaves the slot as it was. -/
def storeSlot (index : HashedIndex κ ν ρ) (h : Handle) (value : ν) :
    Outcome κ ν ρ (Except TableError Unit) :=
  let stored := index.values.store value
  match stored.result with
  | .error cause => ⟨index, .error cause, valueEvents stored.calls⟩
  | .ok held =>
    let put := index.putSlot h (some held)
    ⟨put.index, .ok (), valueEvents stored.calls ++ put.events⟩

inductive SlotAction (ν : Type) where
  | get
  | isEmpty
  | store (value : ν)
  /-- Hands over a value that the index shall own. -/
  | storeOwned (value : ν)
  | clear

inductive SlotReply (ν : Type) where
  | value (value : Option ν)
  | isEmpty (empty : Bool)
  | stored
  | failed (cause : TableError)
  | cleared

def act (index : HashedIndex κ ν ρ) (h : Handle) : SlotAction ν → Outcome κ ν ρ (SlotReply ν)
  | .get => ⟨index, .value ((index.slot? h).map Held.value), []⟩
  | .isEmpty => ⟨index, .isEmpty (index.slot? h).isNone, []⟩
  | .store value =>
    let stored := index.storeSlot h value
    match stored.result with
    | .ok () => ⟨stored.index, .stored, stored.events⟩
    | .error cause => ⟨stored.index, .failed cause, stored.events⟩
  | .storeOwned value =>
    let put := index.putSlot h (some (.owned value))
    ⟨put.index, .stored, put.events⟩
  | .clear =>
    let put := index.putSlot h none
    ⟨put.index, .cleared, put.events⟩

def actAll (h : Handle) :
    List (SlotAction ν) → HashedIndex κ ν ρ → Outcome κ ν ρ (List (SlotReply ν))
  | [], index => ⟨index, [], []⟩
  | action :: rest, index =>
    let first := index.act h action
    let others := actAll h rest first.index
    ⟨others.index, first.result :: others.result, first.events ++ others.events⟩

/-- Finds or makes the entry of a key and acts on its slot. -/
def emplaceWith [LoadScale ρ] (alloc : Allocator) (index : HashedIndex κ ν ρ) (key : κ)
    (actions : List (SlotAction ν)) :
    Option (Outcome κ ν ρ (Except TableError (List (SlotReply ν)))) :=
  (index.emplace alloc key).map fun emplaced =>
    match emplaced.result with
    | .error cause => ⟨emplaced.index, .error cause, emplaced.events⟩
    | .ok h =>
      let acted := actAll h actions emplaced.index
      ⟨acted.index, .ok acted.result, emplaced.events ++ acted.events⟩

end MemIndex.HashedIndex
