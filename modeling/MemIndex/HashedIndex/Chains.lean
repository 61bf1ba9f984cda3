import MemIndex.Pool
import MemIndex.HashedIndex.Ladder
import MemIndex.HashedIndex.Policy

/-!
# Chains of entries

The entries of a hashed index lie in a pool. Every bucket keeps the handle of the first entry of its
chain, and every entry the handle of the next one. An entry also keeps the full hash of its key, so a
probe compares hashes before it asks for equality, and a change of the bucket count relinks the entries
without hashing any key.

Links that run in a circle have no end, so what follows them takes a budget of entries; a chain without
circles is no longer than there are entries. An operation answers none when the budget is used up, or
when a handle or a bucket that it needs is not there.
-/
namespace MemIndex

structure Entry (κ ν : Type) where
  key : Held κ
  value : Option (Held ν)
  hash : UInt64
  next : Option Handle

namespace Entry

variable {κ ν : Type}

def withNext (entry : Entry κ ν) (next : Option Handle) : Entry κ ν :=
  let ⟨key, value, hash, _⟩ := entry
  ⟨key, value, hash, next⟩

def withValue (entry : Entry κ ν) (value : Option (Held ν)) : Entry κ ν :=
  let ⟨key, _, hash, next⟩ := entry
  ⟨key, value, hash, next⟩

end Entry

/-- Where a probe ended: the bucket, the entry before the match, or the last one of the chain when
nothing matched, and the match itself. -/
structure Spot where
  bucket : Nat
  prev : Option Handle
  found : Option Handle

structure Chains (κ ν : Type) where
  heads : Array (Option Handle)
  entries : Pool (Entry κ ν)
  rung : Nat

namespace Chains

variable {κ ν ρ : Type}

/-- No entries, on the lowest rung. -/
def fresh : Chains κ ν := ⟨Array.replicate Ladder.bottom none, Pool.empty, 0⟩

/-- The number of entries. -/
def size (c : Chains κ ν) : Nat := c.entries.size

def bucketCount (c : Chains κ ν) : Nat := c.heads.size

/-- The bucket of a hash among so many. -/
def bucketOf (count : Nat) (hash : UInt64) : Nat := hash.toNat % count

/-- A spot and the stored keys that were asked about on the way to it, in order. -/
structure Search (κ : Type) where
  spot : Spot
  asked : List κ

/-- Goes along a chain to the first entry with this hash whose key is the same. -/
def locateFrom (entries : Pool (Entry κ ν)) (same : κ → κ → Bool) (hash : UInt64) (key : κ)
    (bucket : Nat) : Nat → Option Handle → Option Handle → Option (Search κ)
  | _, prev, none => some ⟨⟨bucket, prev, none⟩, []⟩
  | 0, _, some _ => none
  | budget + 1, prev, some h => do
    let entry ← entries.get? h
    if entry.hash = hash then
      if same entry.key.value key then return ⟨⟨bucket, prev, some h⟩, [entry.key.value]⟩
      else
        let rest ← locateFrom entries same hash key bucket budget (some h) entry.next
        return ⟨rest.spot, entry.key.value :: rest.asked⟩
    else locateFrom entries same hash key bucket budget (some h) entry.next

def locate (c : Chains κ ν) (same : κ → κ → Bool) (hash : UInt64) (key : κ) :
    Option (Search κ) := do
  let bucket := bucketOf c.bucketCount hash
  let head ← c.heads[bucket]?
  locateFrom c.entries same hash key bucket c.size none head

/-- Sets the link after an entry, or the head of the bucket where there is no entry before it. -/
def setNext (c : Chains κ ν) (bucket : Nat) (prev link : Option Handle) : Option (Chains κ ν) :=
  let ⟨heads, entries, rung⟩ := c
  match prev with
  | some h => (entries.modify? h (·.withNext link)).map fun entries => ⟨heads, entries, rung⟩
  | none =>
    if bucket < heads.size then some ⟨heads.setIfInBounds bucket link, entries, rung⟩ else none

/-- Takes an entry in behind the last one of the chain that a probe went along in vain. -/
def link (c : Chains κ ν) (spot : Spot) (entry : Entry κ ν) : Option (Chains κ ν × Handle) :=
  let ⟨heads, entries, rung⟩ := c
  let h := entries.nextHandle
  (setNext ⟨heads, entries.insert entry, rung⟩ spot.bucket spot.prev (some h)).map (·, h)

/-- Takes the entry at a spot out of its chain and lets its record go. -/
def unlink (c : Chains κ ν) (spot : Spot) : Option (Chains κ ν × Option (Entry κ ν)) :=
  let ⟨heads, entries, rung⟩ := c
  match spot.found with
  | none => some (⟨heads, entries, rung⟩, none)
  | some h =>
    match entries.get? h with
    | none => some (⟨heads, entries, rung⟩, none)
    | some entry =>
      (setNext ⟨heads, entries.erase h, rung⟩ spot.bucket spot.prev entry.next).map
        (·, some entry)

def setValue (c : Chains κ ν) (h : Handle) (value : Option (Held ν)) : Chains κ ν :=
  let ⟨heads, entries, rung⟩ := c
  ⟨heads, entries.modify h (·.withValue value), rung⟩

/-- Takes every entry out; the bucket count stays. -/
def clear (c : Chains κ ν) : Chains κ ν :=
  ⟨Array.replicate c.bucketCount none, c.entries.clear, c.rung⟩

/-- Entries that are being dealt out into new buckets. -/
structure Deal (κ ν : Type) where
  heads : Array (Option Handle)
  entries : Pool (Entry κ ν)

/-- Deals the entries of an old chain out, each to the front of its new chain. -/
def dealFrom (count : Nat) : Nat → Option Handle → Deal κ ν → Option (Deal κ ν)
  | _, none, d => some d
  | 0, some _, _ => none
  | budget + 1, some h, d => do
    let ⟨heads, entries⟩ := d
    let entry ← entries.get? h
    let bucket := bucketOf count entry.hash
    let head ← heads[bucket]?
    let entries ← entries.modify? h (·.withNext head)
    dealFrom count budget entry.next ⟨heads.setIfInBounds bucket (some h), entries⟩

/-- Deals all chains out, bucket by bucket. -/
def dealAll (count : Nat) : List (Option Handle) → Deal κ ν → Option (Deal κ ν)
  | [], d => some d
  | head :: rest, d => (dealFrom count d.entries.size head d).bind (dealAll count rest)

section Steps

variable [LoadScale ρ]

def load (c : Chains κ ν) : ρ := LoadScale.ratio c.size c.bucketCount

/-- The rung that the load calls for, if it is not the present one. -/
def target? (thresholds : Thresholds ρ) (c : Chains κ ν) : Option Nat :=
  if 0 < c.rung ∧ LoadScale.atMost c.load thresholds.shrinkAt then some (c.rung - 1)
  else if c.rung + 1 < Ladder.height ∧ LoadScale.atMost thresholds.growAt c.load then
    some (c.rung + 1)
  else none

/-- Takes a step on the ladder if the load calls for one and the buckets are granted, and answers
whether it did. -/
def adjust (alloc : Allocator) (thresholds : Thresholds ρ) (c : Chains κ ν) :
    Option (Chains κ ν × Bool) :=
  match c.target? thresholds with
  | none => some (c, false)
  | some rung =>
    match Ladder.buckets? rung with
    | none => some (c, false)
    | some count =>
      if alloc count then
        let ⟨heads, entries, _⟩ := c
        (dealAll count heads.toList ⟨Array.replicate count none, entries⟩).map fun d =>
          (⟨d.heads, d.entries, rung⟩, true)
      else some (c, false)

/-- Takes steps as long as they are called for and granted, so many at most. -/
def adjustAtMost (alloc : Allocator) (thresholds : Thresholds ρ) :
    Nat → Chains κ ν → Option (Chains κ ν)
  | 0, c => some c
  | steps + 1, c =>
    match c.adjust alloc thresholds with
    | some (c, true) => adjustAtMost alloc thresholds steps c
    | some (c, false) => some c
    | none => none

/-- Takes steps until none is called for and granted; there are never more of them than rungs. -/
def settle (alloc : Allocator) (thresholds : Thresholds ρ) (c : Chains κ ν) :
    Option (Chains κ ν) :=
  c.adjustAtMost alloc thresholds Ladder.height

end Steps

theorem bucketOf_eq (count : Nat) (hash : UInt64) : bucketOf count hash = hash.toNat % count := rfl

@[simp] theorem bucketCount_fresh : (fresh : Chains κ ν).bucketCount = Ladder.bottom := by
  simp [fresh, bucketCount]

@[simp] theorem bucketCount_clear (c : Chains κ ν) : c.clear.bucketCount = c.bucketCount := by
  simp [clear, bucketCount]

end Chains

end MemIndex
