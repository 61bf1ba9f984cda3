import MemIndex.Proofs.Chains.Rising
import MemIndex.Proofs.HashedIndex.LoadBounds
import MemIndex.Proofs.HashedIndex.Settling

/-!
# Sweeps that add buckets

The steps on the ladder at the end of a sweep are the same as anywhere else: a load that is still at the
upper threshold leads up. So a sweep can leave more buckets than there were, though it only removes. It does
so where an earlier step up was refused, or where a single entry had called for more than one.
-/
namespace MemIndex.HashedIndex

variable {κ ν ρ σ : Type}

/-- What is left of the entries calls for a step up from the rung on which they lie, and the buckets for it
are granted. -/
structure LeftHeavy [LoadScale ρ] (alloc : Allocator) (index : HashedIndex κ ν ρ) (left : Nat) : Prop where
  fewer : left < index.size
  room : index.chains.rung + 1 < Ladder.height
  light : 0 < index.chains.rung →
    LoadScale.atMost (LoadScale.ratio left index.bucketCount) index.thresholds.shrinkAt = false
  heavy : LoadScale.atMost index.thresholds.growAt (LoadScale.ratio left index.bucketCount) = true
  granted : alloc (Ladder.bucketsAt (index.chains.rung + 1)) = true

theorem bucketCount_lt_iff {index index' : HashedIndex κ ν ρ} {chain chain' : Nat → List Handle}
    (ht : index.chains.Threaded chain) (ht' : index'.chains.Threaded chain') :
    index.bucketCount < index'.bucketCount ↔ index.chains.rung < index'.chains.rung := by
  have hbuckets := ht.buckets_level
  have hbuckets' := ht'.buckets_level
  rw [Level.buckets] at hbuckets hbuckets'
  rw [bucketCount, bucketCount, ← hbuckets, ← hbuckets']
  exact Ladder.bucketsAt_lt_iff ht.rung_lt_height ht'.rung_lt_height

section Sweep

variable [LoadScale ρ] {index : HashedIndex κ ν ρ} {chain : Nat → List Handle}

theorem leftHeavy_iff (ht : index.chains.Threaded chain) {alloc : Allocator} {left : Nat} :
    LeftHeavy alloc index left ↔ left < index.size ∧
      Level.Rises alloc index.thresholds ⟨left, index.chains.rung⟩ := by
  have hload : (Level.load ⟨left, index.chains.rung⟩ : ρ) = LoadScale.ratio left index.bucketCount := by
    rw [Level.load, Level.buckets]
    exact congrArg (LoadScale.ratio left) ht.buckets_level
  constructor
  · intro h
    exact ⟨h.fewer, h.room, hload ▸ h.light, hload ▸ h.heavy, h.granted⟩
  · rintro ⟨hfewer, h⟩
    exact ⟨hfewer, h.room, hload ▸ h.light, hload ▸ h.heavy, h.granted⟩

/-- Where a sweep leaves the index. -/
theorem exists_sweep_level (ht : index.chains.Threaded chain) (alloc : Allocator)
    (visit : EntryVisitor κ ν σ) (state : σ) :
    ∃ r chain', index.sweep alloc visit state = some r ∧ r.index.chains.Threaded chain' ∧
      r.index.size ≤ index.size ∧
      r.index.chains.rung = if r.index.size = index.size then index.chains.rung
        else (Level.settled alloc index.thresholds ⟨r.index.size, index.chains.rung⟩).rung := by
  obtain ⟨done, chain', hturn, hdone⟩ := exists_turn alloc ht (.sweep visit state)
  obtain ⟨r, hsweep, rfl⟩ := Option.map_eq_some_iff.1 hturn
  refine ⟨r, chain', hsweep, hdone.threaded, hdone.resizes ht, ?_⟩
  have hrung := congrArg Level.rung hdone.level
  rw [Op.relevel, apply_ite Level.rung] at hrung
  exact hrung

/-- A sweep leaves no more buckets than there were, unless what it leaves is still too much for them. -/
theorem exists_sweep_heavy (ht : index.chains.Threaded chain) (alloc : Allocator)
    (visit : EntryVisitor κ ν σ) (state : σ) :
    ∃ r, index.sweep alloc visit state = some r ∧ r.index.size ≤ index.size ∧
      (r.index.bucketCount ≤ index.bucketCount ∨ LeftHeavy alloc index r.index.size) := by
  obtain ⟨r, chain', hsweep, ht', hle, hrung⟩ := exists_sweep_level ht alloc visit state
  refine ⟨r, hsweep, hle, ?_⟩
  rw [← Nat.not_lt, bucketCount_lt_iff ht ht', leftHeavy_iff ht]
  by_cases hsame : r.index.size = index.size
  · left
    rw [hrung, if_pos hsame]
    exact Nat.lt_irrefl _
  · by_cases hrises : Level.Rises alloc index.thresholds ⟨r.index.size, index.chains.rung⟩
    · exact .inr ⟨Nat.lt_of_le_of_ne hle hsame, hrises⟩
    · left
      rw [hrung, if_neg hsame]
      exact Nat.not_lt.2 (Level.rung_settledWithin_le_top hrises _ (Nat.le_refl _))

end Sweep

/-- On any scale, with any thresholds, whatever has happened and whatever was refused: a sweep leaves no
more buckets than there were, unless it has removed something and the entries that it leaves call for a step
up from the rung on which they lie, and the buckets for this step are granted. -/
theorem run_sweep_adds_buckets_only_if_heavy [LoadScale ρ] (hash : κ → UInt64) (same : κ → κ → Bool)
    (keys : Policy κ) (values : Policy ν) (thresholds : Thresholds ρ)
    (ops : List (Allocator × Op κ ν)) :
    ∃ index replies, (start hash same keys values thresholds).run ops = some (index, replies) ∧
      ∀ {σ : Type} (alloc : Allocator) (visit : EntryVisitor κ ν σ) (state : σ),
        ∃ r, index.sweep alloc visit state = some r ∧
          (r.index.bucketCount ≤ index.bucketCount ∨ LeftHeavy alloc index r.index.size) := by
  have hstart : (start hash same keys values thresholds).chains.Threaded fun _ => [] :=
    Chains.threaded_fresh
  obtain ⟨index, replies, chain, hrun, -, ht, -⟩ := exists_run hstart ops
  refine ⟨index, replies, hrun, fun alloc visit state => ?_⟩
  obtain ⟨r, hsweep, -, hheavy⟩ := exists_sweep_heavy ht alloc visit state
  exact ⟨r, hsweep, hheavy⟩

/-- Two entries have led to the third rung, one step for each of them. One entry is still too much for it:
the sweep that removes the other leads to the fourth. Nothing was refused. -/
theorem run_sweep_adds_buckets :
    (⟨0.005, 0⟩ : Thresholds Float).usable = true ∧
    ∃ index replies r,
      (start UInt64.ofNat (· == ·) (.borrow : Policy Nat) (.borrow : Policy Nat)
        (⟨0.005, 0⟩ : Thresholds Float)).run
          [(.unlimited, .set 1 5), (.unlimited, .set 2 5)] = some (index, replies) ∧
      index.sweep .unlimited (fun key _ _ => ⟨.proceed, key == 1, ()⟩) () = some r ∧
      index.bucketCount = 181 ∧ r.index.bucketCount = 359 ∧
      ¬r.index.bucketCount ≤ index.bucketCount := by
  have hcounts : ((start UInt64.ofNat (· == ·) (.borrow : Policy Nat) (.borrow : Policy Nat)
      (⟨0.005, 0⟩ : Thresholds Float)).run [(.unlimited, .set 1 5), (.unlimited, .set 2 5)]).map
        (fun done => (done.1.bucketCount,
          (done.1.sweep .unlimited (fun key _ _ => ⟨.proceed, key == 1, ()⟩) ()).map
            (·.index.bucketCount))) = some (181, some 359) := by
    decide +kernel
  obtain ⟨⟨index, replies⟩, hrun, hknown⟩ := Option.map_eq_some_iff.1 hcounts
  obtain ⟨hbefore, hswept⟩ := Prod.mk.inj hknown
  obtain ⟨r, hsweep, hafter⟩ := Option.map_eq_some_iff.1 hswept
  refine ⟨by decide +kernel, index, replies, r, hrun, hsweep, hbefore, hafter, ?_⟩
  rw [hafter, hbefore]
  decide

/-- With exact loads and usable thresholds that is also when a sweep does leave more buckets. -/
theorem run_sweep_adds_buckets_iff_heavy {thresholds : Thresholds Rat} (husable : thresholds.usable = true)
    (hash : κ → UInt64) (same : κ → κ → Bool) (keys : Policy κ) (values : Policy ν)
    (ops : List (Allocator × Op κ ν)) :
    ∃ index replies, (start hash same keys values thresholds).run ops = some (index, replies) ∧
      ∀ {σ : Type} (alloc : Allocator) (visit : EntryVisitor κ ν σ) (state : σ),
        ∃ r, index.sweep alloc visit state = some r ∧
          (index.bucketCount < r.index.bucketCount ↔ LeftHeavy alloc index r.index.size) := by
  have ha := Thresholds.apart_of_usable husable
  have hstart : (start hash same keys values thresholds).chains.Threaded fun _ => [] :=
    Chains.threaded_fresh
  obtain ⟨index, replies, chain, hrun, hconfig, ht, -⟩ := exists_run hstart ops
  have hthresholds : index.thresholds = thresholds := hconfig.thresholds
  refine ⟨index, replies, hrun, fun alloc visit state => ?_⟩
  obtain ⟨r, chain', hsweep, ht', -, hrung⟩ := exists_sweep_level ht alloc visit state
  obtain ⟨r', hsweep', -, hheavy⟩ := exists_sweep_heavy ht alloc visit state
  obtain rfl : r' = r := Option.some.inj (hsweep'.symm.trans hsweep)
  refine ⟨r', hsweep, fun hlt => hheavy.resolve_left (Nat.not_le.2 hlt), fun hleft => ?_⟩
  obtain ⟨hfewer, hrises⟩ := (leftHeavy_iff ht).1 hleft
  rw [bucketCount_lt_iff ht ht', hrung, if_neg (Nat.ne_of_lt hfewer), hthresholds]
  rw [hthresholds] at hrises
  exact hrises.lt_rung_settled ha

/-- Where the load is below the upper threshold before the sweep, as it always is when nothing has been
refused, a sweep leaves no more buckets than there were. -/
theorem run_granted_sweep_adds_no_buckets {thresholds : Thresholds Rat}
    (husable : thresholds.usable = true) (hfloor : 1 / 42 ≤ thresholds.shrinkAt) (hash : κ → UInt64)
    (same : κ → κ → Bool) (keys : Policy κ) (values : Policy ν) (ops : List (Allocator × Op κ ν))
    (hgrants : ∀ step ∈ ops, step.1.GrantsLadder) :
    ∃ index replies, (start hash same keys values thresholds).run ops = some (index, replies) ∧
      ∀ {σ : Type} (alloc : Allocator) (visit : EntryVisitor κ ν σ) (state : σ),
        ∃ r, index.sweep alloc visit state = some r ∧ r.index.bucketCount ≤ index.bucketCount := by
  have hs := Thresholds.spaced_of_usable husable hfloor
  have hstart : (start hash same keys values thresholds).chains.Threaded fun _ => [] :=
    Chains.threaded_fresh
  obtain ⟨index, replies, chain, hrun, hconfig, ht, hbelow, -⟩ :=
    exists_run_bounded hstart rfl hs (belowGrowth_start hs.toApart hash same keys values) hgrants
  have hthresholds : index.thresholds = thresholds := hconfig.thresholds
  refine ⟨index, replies, hrun, fun alloc visit state => ?_⟩
  obtain ⟨r, hsweep, hle, hheavy⟩ := exists_sweep_heavy ht alloc visit state
  refine ⟨r, hsweep, hheavy.resolve_right fun hleft => ?_⟩
  obtain ⟨-, hrises⟩ := (leftHeavy_iff ht).1 hleft
  rw [hthresholds] at hrises
  have hstays : Level.Below thresholds ⟨r.index.size, index.chains.rung⟩ :=
    ((below_iff ht).2 hbelow).of_le ht.rung_lt_height hle
  obtain hload | htop := hstays
  · exact absurd (of_decide_eq_true hrises.heavy) (not_le.2 hload)
  · exact absurd htop (Nat.ne_of_lt hrises.room)

end MemIndex.HashedIndex
