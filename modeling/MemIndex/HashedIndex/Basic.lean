import MemIndex.HashedIndex.Chains

/-!
# Hashed indexes

A hashed index keeps at most one value under each key. Which keys are the same is said by its
equality, and a key is looked for only among the entries with its hash. Storing under a known key
replaces the value and keeps the key that was stored first. After an entry has come in or gone out
the index takes at most one step on the ladder.

Every operation answers with the index after it, its result, and its events: the calls of the hash
function, of the equality, and of the copy and free functions, in order. An operation that may ask
for room takes the allocator it meets. It answers none when a handle or a bucket that it needs is not
there, or when the links that it follows run in a circle.
-/
namespace MemIndex

structure HashedIndex (κ ν ρ : Type) where
  hash : κ → UInt64
  /-- Asked about the stored key first and the given key second. -/
  same : κ → κ → Bool
  keys : Policy κ
  values : Policy ν
  thresholds : Thresholds ρ
  chains : Chains κ ν

/-- One call of a function that the index was given. -/
inductive Event (κ ν : Type) where
  | hashed (key : κ)
  | compared (stored given : κ)
  | key (call : Call κ)
  | value (call : Call ν)

namespace HashedIndex

variable {κ ν ρ : Type} {β : Type}

structure Outcome (κ ν ρ : Type) (β : Type) where
  index : HashedIndex κ ν ρ
  result : β
  events : List (Event κ ν)

/-- What storing a value under a key has done. -/
inductive Change where
  | inserted
  | updated
  deriving DecidableEq

def size (index : HashedIndex κ ν ρ) : Nat := index.chains.size

def isEmpty (index : HashedIndex κ ν ρ) : Bool := index.size == 0

def bucketCount (index : HashedIndex κ ν ρ) : Nat := index.chains.bucketCount

/-- The keys and values, in pool order. An entry may have no value. -/
def pairs (index : HashedIndex κ ν ρ) : List (κ × Option ν) :=
  index.chains.entries.records.map fun entry => (entry.key.value, entry.value.map Held.value)

def keyEvents (calls : List (Call κ)) : List (Event κ ν) := calls.map .key

def valueEvents (calls : List (Call ν)) : List (Event κ ν) := calls.map .value

/-- What is called when an entry is let go: for its key first, then for its value. -/
def releaseEntry (index : HashedIndex κ ν ρ) (entry : Entry κ ν) : List (Event κ ν) :=
  keyEvents (index.keys.release entry.key) ++ valueEvents (index.values.releaseAll entry.value)

/-- The end of a search for a key: its hash, where it ended and the calls made. -/
structure Probe (κ ν : Type) where
  hash : UInt64
  spot : Spot
  events : List (Event κ ν)

def probe (index : HashedIndex κ ν ρ) (key : κ) : Option (Probe κ ν) :=
  let hash := index.hash key
  (index.chains.locate index.same hash key).map fun search =>
    ⟨hash, search.spot, .hashed key :: search.asked.map (.compared · key)⟩

def withChains (index : HashedIndex κ ν ρ) (f : Chains κ ν → Chains κ ν) : HashedIndex κ ν ρ :=
  let ⟨hash, same, keys, values, thresholds, chains⟩ := index
  ⟨hash, same, keys, values, thresholds, f chains⟩

/-- Changes the chains by an operation that has a result besides them. -/
def withChains? (index : HashedIndex κ ν ρ) (f : Chains κ ν → Option (Chains κ ν × β)) :
    Option (HashedIndex κ ν ρ × β) :=
  let ⟨hash, same, keys, values, thresholds, chains⟩ := index
  (f chains).map fun (chains, result) => (⟨hash, same, keys, values, thresholds, chains⟩, result)

def get (index : HashedIndex κ ν ρ) (key : κ) : Option (Outcome κ ν ρ (Option ν)) := do
  let p ← index.probe key
  match p.spot.found with
  | none => return ⟨index, none, p.events⟩
  | some h =>
    let entry ← index.chains.entries.get? h
    return ⟨index, entry.value.map Held.value, p.events⟩

def contains (index : HashedIndex κ ν ρ) (key : κ) : Option (Outcome κ ν ρ Bool) := do
  let p ← index.probe key
  return ⟨index, p.spot.found.isSome, p.events⟩

section Changes

variable [LoadScale ρ]

/-- Takes an entry in at a spot and then a step on the ladder if one is called for. -/
def addEntry (alloc : Allocator) (index : HashedIndex κ ν ρ) (spot : Spot) (entry : Entry κ ν) :
    Option (HashedIndex κ ν ρ × Handle) :=
  let thresholds := index.thresholds
  index.withChains? fun chains => do
    let (chains, h) ← chains.link spot entry
    let (chains, _) ← chains.adjust alloc thresholds
    return (chains, h)

/-- Takes the entry at a spot out and then a step on the ladder if one is called for. Without an entry
nothing is done. -/
def dropEntry (alloc : Allocator) (index : HashedIndex κ ν ρ) (spot : Spot) :
    Option (HashedIndex κ ν ρ × Option (Entry κ ν)) :=
  let thresholds := index.thresholds
  index.withChains? fun chains => do
    let (chains, entry) ← chains.unlink spot
    match entry with
    | none => return (chains, none)
    | some entry =>
      let (chains, _) ← chains.adjust alloc thresholds
      return (chains, some entry)

/-- Stores a value under a key. The value is copied first, then, for a new entry, the key; a copy
that fails leaves the index as it was, and a value already copied is let go. -/
def set (alloc : Allocator) (index : HashedIndex κ ν ρ) (key : κ) (value : ν) :
    Option (Outcome κ ν ρ (Except TableError Change)) := do
  let p ← index.probe key
  let stored := index.values.store value
  let events := p.events ++ valueEvents stored.calls
  match stored.result with
  | .error cause => return ⟨index, .error cause, events⟩
  | .ok held =>
    match p.spot.found with
    | some h =>
      let entry ← index.chains.entries.get? h
      let released := valueEvents (index.values.releaseAll entry.value)
      return ⟨index.withChains fun chains => chains.setValue h (some held), .ok .updated,
        events ++ released⟩
    | none =>
      let storedKey := index.keys.store key
      match storedKey.result with
      | .error cause =>
        return ⟨index, .error cause,
          events ++ keyEvents storedKey.calls ++ valueEvents (index.values.release held)⟩
      | .ok heldKey =>
        let (index, _) ← index.addEntry alloc p.spot ⟨heldKey, some held, p.hash, none⟩
        return ⟨index, .ok .inserted, events ++ keyEvents storedKey.calls⟩

/-- Finds the entry of a key, or takes in a new one without a value, and answers its handle. -/
def emplace (alloc : Allocator) (index : HashedIndex κ ν ρ) (key : κ) :
    Option (Outcome κ ν ρ (Except TableError Handle)) := do
  let p ← index.probe key
  match p.spot.found with
  | some h =>
    let _ ← index.chains.entries.get? h
    return ⟨index, .ok h, p.events⟩
  | none =>
    let storedKey := index.keys.store key
    let events := p.events ++ keyEvents storedKey.calls
    match storedKey.result with
    | .error cause => return ⟨index, .error cause, events⟩
    | .ok heldKey =>
      let (index, h) ← index.addEntry alloc p.spot ⟨heldKey, none, p.hash, none⟩
      let _ ← index.chains.entries.get? h
      return ⟨index, .ok h, events⟩

/-- Removes the entry of a key and hands its value over; the key is let go, the value is not. -/
def take (alloc : Allocator) (index : HashedIndex κ ν ρ) (key : κ) :
    Option (Outcome κ ν ρ (Option (Held ν))) := do
  let p ← index.probe key
  let (after, gone) ← index.dropEntry alloc p.spot
  match gone with
  | none => return ⟨after, none, p.events⟩
  | some entry =>
    let released := keyEvents (after.keys.release entry.key)
    return ⟨after, entry.value, p.events ++ released⟩

/-- Removes the entry of a key and lets its key and value go; answers whether there was one. -/
def delete (alloc : Allocator) (index : HashedIndex κ ν ρ) (key : κ) :
    Option (Outcome κ ν ρ Bool) := do
  let p ← index.probe key
  let (after, gone) ← index.dropEntry alloc p.spot
  match gone with
  | none => return ⟨after, false, p.events⟩
  | some entry => return ⟨after, true, p.events ++ after.releaseEntry entry⟩

end Changes

/-- Lets every entry go, in pool order; the bucket count stays. -/
def purge (index : HashedIndex κ ν ρ) : Outcome κ ν ρ Unit :=
  ⟨index.withChains Chains.clear, (), index.chains.entries.records.flatMap index.releaseEntry⟩

@[simp] theorem chains_withChains (index : HashedIndex κ ν ρ) (f : Chains κ ν → Chains κ ν) :
    (index.withChains f).chains = f index.chains := rfl

@[simp] theorem hash_withChains (index : HashedIndex κ ν ρ) (f : Chains κ ν → Chains κ ν) :
    (index.withChains f).hash = index.hash := rfl

@[simp] theorem same_withChains (index : HashedIndex κ ν ρ) (f : Chains κ ν → Chains κ ν) :
    (index.withChains f).same = index.same := rfl

@[simp] theorem keys_withChains (index : HashedIndex κ ν ρ) (f : Chains κ ν → Chains κ ν) :
    (index.withChains f).keys = index.keys := rfl

@[simp] theorem values_withChains (index : HashedIndex κ ν ρ) (f : Chains κ ν → Chains κ ν) :
    (index.withChains f).values = index.values := rfl

@[simp] theorem thresholds_withChains (index : HashedIndex κ ν ρ)
    (f : Chains κ ν → Chains κ ν) : (index.withChains f).thresholds = index.thresholds := rfl

@[simp] theorem bucketCount_purge (index : HashedIndex κ ν ρ) :
    index.purge.index.bucketCount = index.bucketCount := by
  simp [purge, bucketCount]

end HashedIndex

end MemIndex
