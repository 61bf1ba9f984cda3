import MemIndex.Verdict
import MemIndex.HashedIndex.Basic

/-!
# Sweeps

A sweep shows every entry to a visitor, bucket by bucket and along each chain. The visitor may have
the entry that it is shown removed, whatever its verdict; the entry is let go before the next one is
shown. Once the sweep is over, and if anything was removed, the index takes as many steps on the
ladder as its load calls for. A sweep answers none when a handle or a bucket that it needs is not
there, or when the links that it follows run in a circle.
-/
namespace MemIndex.HashedIndex

variable {κ ν ρ : Type} {σ : Type}

structure Answer (σ : Type) where
  verdict : Verdict
  remove : Bool
  state : σ

/-- Gets the key, the value if there is one, and its own state. -/
abbrev EntryVisitor (κ ν σ : Type) := κ → Option ν → σ → Answer σ

/-- How far a sweep has come. -/
structure Progress (κ ν σ : Type) where
  chains : Chains κ ν
  verdict : Verdict
  removed : Bool
  state : σ
  events : Array (Event κ ν)

/-- Shows the rest of a chain, the entry before it given; an entry that is removed leaves the one before
it in its place. -/
def sweepFrom (index : HashedIndex κ ν ρ) (visit : EntryVisitor κ ν σ) (bucket : Nat) :
    Nat → Option Handle → Option Handle → Progress κ ν σ → Option (Progress κ ν σ)
  | _, _, none, p => some p
  | 0, _, some _, _ => none
  | budget + 1, prev, some h, p => do
    let ⟨chains, _, removed, state, events⟩ := p
    let entry ← chains.entries.get? h
    let answer := visit entry.key.value (entry.value.map Held.value) state
    if answer.remove then
      let (chains, gone) ← chains.unlink ⟨bucket, prev, some h⟩
      let released := (gone.map index.releaseEntry).getD []
      let p := ⟨chains, answer.verdict, true, answer.state, events ++ released⟩
      if answer.verdict = .proceed then sweepFrom index visit bucket budget prev entry.next p
      else return p
    else
      let p := ⟨chains, answer.verdict, removed, answer.state, events⟩
      if answer.verdict = .proceed then sweepFrom index visit bucket budget (some h) entry.next p
      else return p

def sweepBuckets (index : HashedIndex κ ν ρ) (visit : EntryVisitor κ ν σ) :
    List Nat → Progress κ ν σ → Option (Progress κ ν σ)
  | [], p => some p
  | bucket :: rest, p => do
    let head ← p.chains.heads[bucket]?
    let p ← index.sweepFrom visit bucket p.chains.size none head p
    if p.verdict = .proceed then sweepBuckets index visit rest p else return p

structure Swept (κ ν ρ σ : Type) extends Outcome κ ν ρ (Except TableError Unit) where
  state : σ

def sweep [LoadScale ρ] (alloc : Allocator) (index : HashedIndex κ ν ρ)
    (visit : EntryVisitor κ ν σ) (state : σ) : Option (Swept κ ν ρ σ) := do
  let p ← index.sweepBuckets visit (List.range index.bucketCount)
    ⟨index.chains, .proceed, false, state, #[]⟩
  let chains ← if p.removed then p.chains.settle alloc index.thresholds else some p.chains
  let result := if p.verdict = .fail then .error .visitorFailed else .ok ()
  return ⟨⟨index.withChains fun _ => chains, result, p.events.toList⟩, p.state⟩

end MemIndex.HashedIndex
