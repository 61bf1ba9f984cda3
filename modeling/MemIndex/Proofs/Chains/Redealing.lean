import MemIndex.Proofs.Chains.Levels

/-!
# The effect of a step

The load calls for a step on the ladder, one rung down or one rung up. The step may be refused for want
of buckets, and otherwise deals all entries out. What it leaves is told exactly: every new chain entry by
entry, and what stands under every handle.
-/
namespace MemIndex.Chains

variable {κ ν ρ : Type}

/-- The entries are where they were, dealt out into so many buckets. Each new chain is made of the old
ones, put one behind the other and read backwards: it has the entries whose hash leaves its number as the
remainder by the number of buckets. -/
structure Redealt (c : Chains κ ν) (chain : Nat → List Handle) (rung count : Nat)
    (c' : Chains κ ν) : Prop where
  rung : c'.rung = rung
  bucketCount : c'.bucketCount = count
  lane : ∀ b < count, c'.Lane b
    ((order c.bucketCount chain).filter fun h =>
      (c.entries.get? h).any fun entry => entry.hash.toNat % count = b).reverse none
  slots : Pool.SameSlots c.entries c'.entries
  bare : ∀ h, (c'.entries.get? h).map Entry.bare = (c.entries.get? h).map Entry.bare
  size : c'.size = c.size
  handles : c'.entries.handles = c.entries.handles
  records : c'.entries.records.map Entry.bare = c.entries.records.map Entry.bare

theorem dealt_eq_filter_hash (p : Pool (Entry κ ν)) (count : Nat) (hs : List Handle) (b : Nat) :
    dealt p count hs b =
      (hs.filter fun h => (p.get? h).any fun entry => entry.hash.toNat % count = b).reverse := by
  unfold dealt
  congr 1
  apply List.filter_congr
  intro h _
  cases hh : p.get? h <;> simp [InBucket, hh]

theorem redealt_of_sameEntries {c c' : Chains κ ν} {chain : Nat → List Handle} {rung count : Nat}
    (hcount : Ladder.buckets? rung = some count) (hrung : c'.rung = rung)
    (hp : SameEntries c.entries c'.entries)
    (ht' : c'.Threaded (dealt c.entries count (order c.bucketCount chain))) :
    Redealt c chain rung count c' := by
  have hbuckets : c'.bucketCount = count := by
    have hrung' := ht'.rung
    rw [hrung, hcount] at hrung'
    exact (Option.some.inj hrung').symm
  refine ⟨hrung, hbuckets, fun b hb => ?_, hp.slots, hp.bare, hp.slots.size, hp.slots.handles,
    Pool.map_records_congr hp.bare⟩
  rw [← dealt_eq_filter_hash]
  exact ht'.lane b (hbuckets ▸ hb)

variable [LoadScale ρ]

/-- The load is at most the lower threshold, and there is a rung below. -/
def Light (t : Thresholds ρ) (c : Chains κ ν) : Prop :=
  0 < c.rung ∧ LoadScale.atMost (LoadScale.ratio c.size c.bucketCount) t.shrinkAt = true

/-- The load is at least the upper threshold, and there is a rung above. -/
def Heavy (t : Thresholds ρ) (c : Chains κ ν) : Prop :=
  c.rung + 1 < Ladder.height ∧
    LoadScale.atMost t.growAt (LoadScale.ratio c.size c.bucketCount) = true

theorem target?_of_light {t : Thresholds ρ} {c : Chains κ ν} (h : c.Light t) :
    c.target? t = some (c.rung - 1) := if_pos h

theorem target?_of_heavy {t : Thresholds ρ} {c : Chains κ ν} (h : ¬c.Light t) (h' : c.Heavy t) :
    c.target? t = some (c.rung + 1) := (if_neg h).trans (if_pos h')

theorem target?_of_neither {t : Thresholds ρ} {c : Chains κ ν} (h : ¬c.Light t) (h' : ¬c.Heavy t) :
    c.target? t = none := (if_neg h).trans (if_neg h')

/-- The entries are dealt out into the buckets of a rung, unless those are refused; then the chains are
left alone. -/
def LedTo (alloc : Allocator) (t : Thresholds ρ) (c : Chains κ ν) (chain : Nat → List Handle)
    (rung : Nat) : Prop :=
  ∃ count, Ladder.buckets? rung = some count ∧
    (alloc count = false → c.adjust alloc t = some (c, false)) ∧
    (alloc count = true → ∃ c', c.adjust alloc t = some (c', true) ∧ Redealt c chain rung count c')

/-- A light table goes one rung down, one that is heavy and not light goes one rung up, and one that is
neither is left alone. -/
structure Stepped (alloc : Allocator) (t : Thresholds ρ) (c : Chains κ ν)
    (chain : Nat → List Handle) : Prop where
  down : c.Light t → LedTo alloc t c chain (c.rung - 1)
  up : ¬c.Light t → c.Heavy t → LedTo alloc t c chain (c.rung + 1)
  idle : ¬c.Light t → ¬c.Heavy t → c.adjust alloc t = some (c, false)

namespace Threaded

variable {c : Chains κ ν} {chain : Nat → List Handle} (ht : c.Threaded chain)

include ht

theorem ledTo_of_target (alloc : Allocator) {t : Thresholds ρ} {rung : Nat}
    (hrung : c.target? t = some rung) : LedTo alloc t c chain rung := by
  have hlevel : c.level.target? t = some rung := by rw [ht.target?_level, hrung]
  obtain ⟨count, hcount⟩ := Option.isSome_iff_exists.1
    (Ladder.buckets?_isSome.2 (Level.target?_lt_height hlevel ht.rung_lt_height))
  refine ⟨count, hcount, fun hrefused => by simp [adjust, hrung, hcount, hrefused],
    fun hgranted => ?_⟩
  have hnext : c.level.next? alloc t = some rung := by
    simp [Level.next?, hlevel, hcount, hgranted]
  obtain ⟨hnone, -⟩ | ⟨rung', count', c', hrung', hcount', hrun, hr, hp, ht'⟩ :=
    ht.adjust_cases alloc t
  · rw [hnext] at hnone
    cases hnone
  · obtain rfl : rung = rung' := Option.some.inj (hnext.symm.trans hrung')
    obtain rfl : count = count' := Option.some.inj (hcount.symm.trans hcount')
    exact ⟨c', hrun, redealt_of_sameEntries hcount hr hp ht'⟩

theorem stepped (alloc : Allocator) (t : Thresholds ρ) : Stepped alloc t c chain where
  down hlight := ht.ledTo_of_target alloc (target?_of_light hlight)
  up hnot hheavy := ht.ledTo_of_target alloc (target?_of_heavy hnot hheavy)
  idle hnot hnot' := by simp [adjust, target?_of_neither hnot hnot']

end Threaded

end MemIndex.Chains
