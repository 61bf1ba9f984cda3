import MemIndex.Datum
import MemIndex.HashedIndex.Basic

/-!
# Bulk operations

One operation is applied to the keys of a series of numbers. What is reported is how often it hit,
missed or failed, and where the number of buckets changed.
-/
namespace MemIndex.HashedIndex

/-- The numbers from `first` below `limit`, so far apart. -/
def series (first limit step : Nat) : List Nat :=
  (List.range ((limit - first + step - 1) / step)).map fun i => first + i * step

inductive Bulk where
  /-- Hits where it updates. -/
  | set
  /-- Leaves the slot alone, and hits where it holds a value. -/
  | emplace
  | delete
  /-- Hits where a value is handed over. -/
  | take
  /-- Hits where the value of the number is found. -/
  | get

inductive Effect where
  | hit
  | miss
  | failure

def Effect.ofBool (hit : Bool) : Effect := if hit then .hit else .miss

section Apply

variable {κ ν ρ : Type} [Datum κ] [Datum ν] [LoadScale ρ]

def Bulk.apply (alloc : Allocator) (front : String) (n : Nat) (index : HashedIndex κ ν ρ) :
    Bulk → Option (Outcome κ ν ρ Effect)
  | set => do
    let r ← index.set alloc (Datum.seriesKey front n) (Datum.seriesValue n)
    match r.result with
    | .ok change => return ⟨r.index, .ofBool (change == .updated), r.events⟩
    | .error _ => return ⟨r.index, .failure, r.events⟩
  | emplace => do
    let r ← index.emplace alloc (Datum.seriesKey front n)
    match r.result with
    | .ok h =>
      let filled := ((r.index.chains.entries.get? h).bind Entry.value).isSome
      return ⟨r.index, .ofBool filled, r.events⟩
    | .error _ => return ⟨r.index, .failure, r.events⟩
  | delete => do
    let r ← index.delete alloc (Datum.seriesKey front n)
    return ⟨r.index, .ofBool r.result, r.events⟩
  | take => do
    let r ← index.take alloc (Datum.seriesKey front n)
    return ⟨r.index, .ofBool r.result.isSome, r.events⟩
  | get => do
    let r ← index.get (Datum.seriesKey front n)
    return ⟨r.index, .ofBool (r.result == some (Datum.seriesValue n)), r.events⟩

end Apply

structure Tally where
  hits : Nat
  misses : Nat
  failures : Nat
  /-- The positions in the series after which the number of buckets had changed, and to what. -/
  resizes : Array (Nat × Nat)

def Tally.empty : Tally := ⟨0, 0, 0, #[]⟩

def Tally.count (tally : Tally) : Effect → Tally
  | .hit => { tally with hits := tally.hits + 1 }
  | .miss => { tally with misses := tally.misses + 1 }
  | .failure => { tally with failures := tally.failures + 1 }

/-- How far a bulk operation has come. -/
structure BulkProgress (κ ν ρ : Type) where
  index : HashedIndex κ ν ρ
  tally : Tally
  events : Array (Event κ ν)

section Run

variable {κ ν ρ : Type} [Datum κ] [Datum ν] [LoadScale ρ]

def BulkProgress.step (alloc : Allocator) (front : String) (bulk : Bulk)
    (p : BulkProgress κ ν ρ) (position n : Nat) : Option (BulkProgress κ ν ρ) := do
  let ⟨index, tally, events⟩ := p
  let before := index.bucketCount
  let ⟨index, effect, more⟩ ← bulk.apply alloc front n index
  let after := index.bucketCount
  let tally := tally.count effect
  let resizes := if after = before then tally.resizes else tally.resizes.push (position, after)
  return ⟨index, { tally with resizes }, events ++ more⟩

def runBulk (alloc : Allocator) (index : HashedIndex κ ν ρ) (bulk : Bulk) (front : String)
    (numbers : List Nat) : Option (Outcome κ ν ρ Tally) := do
  let p ← numbers.zipIdx.foldlM
    (fun (p : BulkProgress κ ν ρ) (n, position) => p.step alloc front bulk position n)
    ⟨index, .empty, #[]⟩
  return ⟨p.index, p.tally, p.events.toList⟩

end Run

end MemIndex.HashedIndex
