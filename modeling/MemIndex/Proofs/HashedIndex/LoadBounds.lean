import MemIndex.Proofs.Chains.Bounds
import MemIndex.Proofs.HashedIndex.Runs

/-!
# Loads of a hashed index

With exact loads, suitable thresholds and no refused request, the load never reaches the upper threshold
below the top rung, and it stays above the lower one except where a purge has taken it there. From there
every entry that comes or goes leads one rung down or ends the matter.
-/
namespace MemIndex.HashedIndex

open MemIndex.Level (Below Above)

variable {κ ν : Type}

/-- The load is less than the upper threshold, unless there is no rung above. -/
def BelowGrowth (t : Thresholds Rat) (index : HashedIndex κ ν Rat) : Prop :=
  (index.size : Rat) / index.bucketCount < t.growAt ∨ index.chains.rung + 1 = Ladder.height

/-- The load is more than the lower threshold, unless there is no rung below. -/
def AboveShrink (t : Thresholds Rat) (index : HashedIndex κ ν Rat) : Prop :=
  t.shrinkAt < (index.size : Rat) / index.bucketCount ∨ index.chains.rung = 0

/-! ## Numbers of entries -/

/-- How the number of entries may change. -/
def Op.Resizes : Op κ ν → Nat → Nat → Prop
  | .sweep _ _, n, n' | .purge, n, n' => n' ≤ n
  | .pairs, n, n' | .size, n, n' => n' = n
  | _, n, n' => n' ≤ n + 1 ∧ n ≤ n' + 1

theorem Op.resizes_self (op : Op κ ν) (n : Nat) : op.Resizes n n := by
  cases op <;> simp [Resizes]

theorem Step.resizes {ρ : Type} {index : HashedIndex κ ν ρ} (hsound : index.chains.entries.Sound)
    {op : Op κ ν} {reply : Reply κ ν} {p : Pool (Entry κ ν)} {calls : List (Event κ ν)}
    (hs : Step index op reply p calls) : op.Resizes index.chains.entries.size p.size := by
  cases hs with
  | @setUpdated key value held h entry store hit =>
    rw [(Pool.lawful.slots_modify index.chains.entries h _).size]
    exact Op.resizes_self (.set key value) _
  | @emplaceFound key actions h entry hit =>
    rw [(Pool.lawful.slots_modify index.chains.entries h _).size]
    exact Op.resizes_self (.emplace key actions) _
  | setInserted _ _ _ | emplaceMade _ _ =>
    have hsize := fun entry => Pool.size_insert hsound entry
    simp only [Op.Resizes, hsize]
    omega
  | takeFound hit | deleteFound hit =>
    have hsize := Pool.size_erase hsound (Pool.contains_of_get? hit.get)
    simp only [Op.Resizes]
    omega
  | @sweep _ visit state hs perm visited walk =>
    obtain ⟨hn, hheld⟩ := removed_held visit perm state
    rw [walk] at hn hheld
    have hsize := Pool.size_foldl_erase hsound hn hheld
    simp only [Op.Resizes]
    omega
  | purge =>
    rw [Pool.size_clear hsound]
    exact Nat.zero_le _
  | setRefused | setKeyRefused | emplaceRefused | getFound | getMissed | containsFound
  | containsMissed | takeMissed | deleteMissed | pairs | size => exact Op.resizes_self _ _

theorem Performed.resizes {ρ : Type} [LoadScale ρ] {index : HashedIndex κ ν ρ}
    {chain chain' : Nat → List Handle} (ht : index.chains.Threaded chain) {alloc : Allocator}
    {op : Op κ ν} {done : Turn κ ν ρ} (hdone : Performed alloc index op done chain') :
    op.Resizes index.size done.index.size := by
  obtain ⟨p, hstep, hp⟩ := hdone.step
  have hresizes := hstep.resizes ht.sound
  rwa [← hp.slots.size] at hresizes

/-! ## Levels after an operation -/

section Levels

variable {alloc : Allocator} (ha : alloc.GrantsLadder) {t : Thresholds Rat} (ht : t.Spaced)
  {l : Level} (hl : l.rung < Ladder.height) {op : Op κ ν} {n : Nat}

include ha ht hl

theorem Op.below_relevel (hn : op.Resizes l.entries n) (hbelow : Below t l) :
    Below t (op.relevel alloc t l n) := by
  by_cases hsame : n = l.entries
  · rw [hsame, Op.relevel_same]
    exact hbelow
  · cases op with
    | purge => exact hbelow.of_le hl hn
    | sweep visit state =>
      rw [Op.relevel, if_neg hsame]
      exact (Level.settled_bounded ha hl ht hn hbelow).1
    | pairs | size => exact absurd hn hsame
    | set | emplace | get | contains | take | delete =>
      rw [Op.relevel_single alloc t l rfl hsame]
      exact Level.below_adjusted ha hl ht hn.1 hbelow

theorem Op.above_relevel (hop : op.isPurge = false) (hn : op.Resizes l.entries n) (hbelow : Below t l)
    (habove : Above t l) : Above t (op.relevel alloc t l n) := by
  by_cases hsame : n = l.entries
  · rw [hsame, Op.relevel_same]
    exact habove
  · cases op with
    | purge => cases hop
    | sweep visit state =>
      rw [Op.relevel, if_neg hsame]
      exact (Level.settled_bounded ha hl ht hn hbelow).2
    | pairs | size => exact absurd hn hsame
    | set | emplace | get | contains | take | delete =>
      rw [Op.relevel_single alloc t l rfl hsame]
      exact Level.above_adjusted ha hl ht hn.2 habove

/-- An entry that comes or goes under the lower bound leads one rung down or ends the matter. -/
theorem Op.descends_relevel (hop : op.key?.isSome = true) (hbottom : l.rung ≠ 0)
    (hchanged : n ≠ l.entries) :
    (op.relevel alloc t l n).rung + 1 = l.rung ∨
      t.shrinkAt < ((op.relevel alloc t l n).load : Rat) := by
  rw [Op.relevel_single alloc t l hop hchanged]
  exact Level.descends_or_above ha hl ht hbottom n

/-- A sweep that removes anything ends it at once. -/
theorem Op.above_relevel_sweep (hop : op.isSweep = true) (hn : op.Resizes l.entries n)
    (hbelow : Below t l) (hchanged : n ≠ l.entries) : Above t (op.relevel alloc t l n) := by
  cases op with
  | sweep visit state =>
    rw [Op.relevel, if_neg hchanged]
    exact (Level.settled_bounded ha hl ht hn hbelow).2
  | _ => cases hop

end Levels

/-! ## One operation -/

/-- What an operation does to the bounds of an index that is below the upper one. -/
structure Regulated (t : Thresholds Rat) (index : HashedIndex κ ν Rat) (op : Op κ ν)
    (index' : HashedIndex κ ν Rat) : Prop where
  below : BelowGrowth t index'
  /-- Only a purge leads under the lower bound. -/
  above : op.isPurge = false → AboveShrink t index → AboveShrink t index'
  /-- An entry that comes or goes under the lower bound leads one rung down, or the load is above the
  bound then. -/
  descends : op.key?.isSome = true → ¬AboveShrink t index → index'.size ≠ index.size →
    index'.chains.rung + 1 = index.chains.rung ∨
      t.shrinkAt < (index'.size : Rat) / index'.bucketCount
  /-- A sweep that removes anything leads above the lower bound. -/
  restores : op.isSweep = true → index'.size ≠ index.size → AboveShrink t index'
  /-- The rung changes with the number of entries only, and a purge keeps it. -/
  stays : index'.size = index.size ∨ op.isPurge = true → index'.chains.rung = index.chains.rung

section Threaded

variable {index : HashedIndex κ ν Rat} {chain : Nat → List Handle} (ht : index.chains.Threaded chain)
  {t : Thresholds Rat}

include ht

theorem load_level : (index.chains.level.load : Rat) = (index.size : Rat) / index.bucketCount :=
  ht.load_level

theorem below_iff : Below t index.chains.level ↔ BelowGrowth t index := by
  rw [Below, load_level ht, BelowGrowth]
  rfl

theorem above_iff : Above t index.chains.level ↔ AboveShrink t index := by
  rw [Above, load_level ht, AboveShrink]
  rfl

theorem Performed.regulated {alloc : Allocator} (ha : alloc.GrantsLadder)
    (hthresholds : index.thresholds = t) (hs : t.Spaced) (hbelow : BelowGrowth t index) {op : Op κ ν}
    {done : Turn κ ν Rat} {chain' : Nat → List Handle}
    (hdone : Performed alloc index op done chain') : Regulated t index op done.index := by
  have hl : index.chains.level.rung < Ladder.height := ht.rung_lt_height
  have ht' := hdone.threaded
  have hlevel := hdone.level
  rw [hthresholds] at hlevel
  have hrung : done.index.chains.rung = (op.relevel alloc t index.chains.level done.index.size).rung :=
    congrArg Level.rung hlevel
  have hsize : op.Resizes index.chains.level.entries done.index.size := hdone.resizes ht
  have hbelow' := (below_iff ht).2 hbelow
  constructor
  · rw [← below_iff ht', hlevel]
    exact Op.below_relevel ha hs hl hsize hbelow'
  · intro hop habove
    rw [← above_iff ht', hlevel]
    exact Op.above_relevel ha hs hl hop hsize hbelow' ((above_iff ht).2 habove)
  · intro hop hunder hchanged
    have hbottom : index.chains.rung ≠ 0 := fun hzero => hunder (.inr hzero)
    rw [← load_level ht', hrung, hlevel]
    exact Op.descends_relevel ha hs hl hop hbottom hchanged
  · intro hop hchanged
    rw [← above_iff ht', hlevel]
    exact Op.above_relevel_sweep ha hs hl hop hsize hbelow' hchanged
  · rw [hrung]
    rintro (hsame | hop)
    · rw [show done.index.size = index.chains.level.entries from hsame, Op.relevel_same]
      rfl
    · cases op with
      | purge => rfl
      | _ => cases hop

end Threaded

/-! ## Runs -/

/-- How many operations of a run change the number of entries. -/
def turnovers (index : HashedIndex κ ν Rat) : List (Allocator × Op κ ν) → Nat
  | [] => 0
  | (alloc, op) :: rest =>
    match index.perform alloc op with
    | none => 0
    | some (index', _) => (if index'.size = index.size then 0 else 1) + turnovers index' rest

section Runs

variable {t : Thresholds Rat} {index : HashedIndex κ ν Rat} {chain : Nat → List Handle}

/-- As long as the load is not above the lower bound, every change of the number of entries leads one rung
down. -/
theorem Regulated.rung_succ {alloc : Allocator} {op : Op κ ν} {done : Turn κ ν Rat}
    (hreg : Regulated t index op done.index) (hturn : index.turn alloc op = some done)
    (hop : op.isPurge = false) (hunder : ¬AboveShrink t done.index)
    (hchanged : done.index.size ≠ index.size) :
    done.index.chains.rung + 1 = index.chains.rung := by
  have hbefore : ¬AboveShrink t index := fun habove => hunder (hreg.above hop habove)
  cases op with
  | purge => cases hop
  | sweep visit state => exact absurd (hreg.restores rfl hchanged) hunder
  | pairs | size =>
    cases hturn
    exact absurd rfl hchanged
  | set | emplace | get | contains | take | delete =>
    exact (hreg.descends rfl hbefore hchanged).resolve_right fun hload => hunder (.inl hload)

/-- The upper bound is kept. Without purges the lower bound is kept too, and if it does not hold then
every change of the number of entries has led one rung down. -/
theorem exists_run_bounded (ht : index.chains.Threaded chain) (hthresholds : index.thresholds = t)
    (hs : t.Spaced) (hbelow : BelowGrowth t index) {ops : List (Allocator × Op κ ν)}
    (hgrants : ∀ step ∈ ops, step.1.GrantsLadder) :
    ∃ index' replies chain', index.run ops = some (index', replies) ∧ SameConfig index index' ∧
      index'.chains.Threaded chain' ∧ BelowGrowth t index' ∧
      ((∀ step ∈ ops, step.2.isPurge = false) →
        (AboveShrink t index → AboveShrink t index') ∧
        (AboveShrink t index' ∨ index'.chains.rung + index.turnovers ops ≤ index.chains.rung)) := by
  induction ops generalizing index chain with
  | nil => exact ⟨index, [], chain, rfl, .refl index, ht, hbelow, fun _ => ⟨id, .inr (Nat.le_refl _)⟩⟩
  | cons first rest ih =>
    obtain ⟨alloc, op⟩ := first
    obtain ⟨hgrant, hgrants⟩ := List.forall_mem_cons.1 hgrants
    obtain ⟨done, chain₁, hturn, hdone⟩ := exists_turn alloc ht op
    have hreg := hdone.regulated ht hgrant hthresholds hs hbelow
    have hperform : index.perform alloc op = some (done.index, done.reply) := by
      simp [perform_eq_turn, hturn]
    obtain ⟨index₂, replies, chain₂, hrun, hconfig₂, ht₂, hbelow₂, hpurgeless⟩ :=
      ih hdone.threaded (hdone.config.thresholds.trans hthresholds) hreg.below hgrants
    refine ⟨index₂, done.reply :: replies, chain₂, by simp [run, hperform, hrun],
      hdone.config.trans hconfig₂, ht₂, hbelow₂, fun hops => ?_⟩
    obtain ⟨hop, hops⟩ := List.forall_mem_cons.1 hops
    obtain ⟨hkeeps, hdescends⟩ := hpurgeless hops
    refine ⟨fun habove => hkeeps (hreg.above hop habove), ?_⟩
    by_cases hunder : AboveShrink t done.index
    · exact .inl (hkeeps hunder)
    · -- Every change of the number of entries is paid for with a rung.
      refine hdescends.imp_right fun hrung => ?_
      simp only [turnovers, hperform]
      by_cases hsame : done.index.size = index.size
      · have hstays := hreg.stays (.inl hsame)
        rw [if_pos hsame]
        omega
      · have hsucc := hreg.rung_succ hturn hop hunder hsame
        rw [if_neg hsame]
        omega

end Runs

theorem belowGrowth_start {t : Thresholds Rat} (ht : t.Apart) (hash : κ → UInt64)
    (same : κ → κ → Bool) (keys : Policy κ) (values : Policy ν) :
    BelowGrowth t (start hash same keys values t) := by
  have hnonneg := ht.nonneg
  have hspread := ht.spread
  left
  rw [show (start hash same keys values t).size = 0 from rfl, Nat.cast_zero, zero_div]
  linarith

/-- Loads are exact, the thresholds are usable, the lower one is at least one over the narrowest gap of the
ladder, and no request is refused. Then the load is below the upper threshold after every run, unless the
index is on the top rung. Without purges it is also above the lower threshold, unless the index is on the
lowest rung, and with purges it comes back as any further operation is regulated. After a purge both bounds
hold again once the number of entries has changed as many times as there are rungs below, and they hold
from then on up to the next purge. -/
theorem run_keeps_load_bounds {thresholds : Thresholds Rat} (husable : thresholds.usable = true)
    (hfloor : 1 / 42 ≤ thresholds.shrinkAt) (hash : κ → UInt64) (same : κ → κ → Bool)
    (keys : Policy κ) (values : Policy ν) (ops : List (Allocator × Op κ ν))
    (hgrants : ∀ step ∈ ops, step.1.GrantsLadder) :
    ∃ index replies, (start hash same keys values thresholds).run ops = some (index, replies) ∧
      BelowGrowth thresholds index ∧
      ((∀ step ∈ ops, step.2.isPurge = false) → AboveShrink thresholds index) ∧
      (∀ alloc op, alloc.GrantsLadder → ∃ index' reply,
        index.perform alloc op = some (index', reply) ∧ Regulated thresholds index op index') ∧
      ∀ more : List (Allocator × Op κ ν),
        (∀ step ∈ more, step.1.GrantsLadder) → (∀ step ∈ more, step.2.isPurge = false) →
        ∃ index' replies', index.purge.index.run more = some (index', replies') ∧
          BelowGrowth thresholds index' ∧
          (index.chains.rung ≤ index.purge.index.turnovers more → AboveShrink thresholds index') := by
  have hs := Thresholds.spaced_of_usable husable hfloor
  have hstart : (start hash same keys values thresholds).chains.Threaded fun _ => [] :=
    Chains.threaded_fresh
  have hempty : BelowGrowth thresholds (start hash same keys values thresholds) := by
    have hspread := hs.spread
    left
    rw [show (start hash same keys values thresholds).size = 0 from rfl, Nat.cast_zero, zero_div]
    linarith
  obtain ⟨index, replies, chain, hrun, hconfig, ht, hbelow, hpurgeless⟩ :=
    exists_run_bounded hstart rfl hs hempty hgrants
  have hthresholds : index.thresholds = thresholds := hconfig.thresholds
  refine ⟨index, replies, hrun, hbelow, fun hops => (hpurgeless hops).1 (.inr rfl),
    fun alloc op hgrant => ?_, fun more hgrants hops => ?_⟩
  · obtain ⟨done, chain', hturn, hdone⟩ := exists_turn alloc ht op
    exact ⟨done.index, done.reply, by simp [perform_eq_turn, hturn],
      hdone.regulated ht hgrant hthresholds hs hbelow⟩
  · obtain ⟨done, chain', hturn, hdone⟩ := exists_turn .unlimited ht .purge
    have hreg := hdone.regulated ht (fun _ _ => rfl) hthresholds hs hbelow
    cases hturn
    obtain ⟨index', replies', -, hrun', -, -, hbelow', hrestored⟩ :=
      exists_run_bounded hdone.threaded (hdone.config.thresholds.trans hthresholds) hs hreg.below
        hgrants
    refine ⟨index', replies', hrun', hbelow', fun hturnovers => ?_⟩
    have hrung : index.purge.index.chains.rung = index.chains.rung := hreg.stays (.inr rfl)
    refine (hrestored hops).2.elim id fun hdescended => .inr ?_
    dsimp only at hdescended
    omega

/-- Four entries lead to the second rung. After a purge the first new entry leads back. -/
theorem run_keeps_load_bounds_tenth :
    (⟨1 / 10, 1 / 42⟩ : Thresholds Rat).usable = true ∧
    ∃ index replies index' replies',
      (start UInt64.ofNat (· == ·) (.borrow : Policy Nat) (.borrow : Policy Nat)
        (⟨1 / 10, 1 / 42⟩ : Thresholds Rat)).run
          ([3, 40, 7, 8].map fun key => (.unlimited, .set key 5)) = some (index, replies) ∧
      BelowGrowth ⟨1 / 10, 1 / 42⟩ index ∧ AboveShrink ⟨1 / 10, 1 / 42⟩ index ∧
      index.chains.rung = 1 ∧
      index.purge.index.run [(.unlimited, .set 9 5)] = some (index', replies') ∧
      BelowGrowth ⟨1 / 10, 1 / 42⟩ index' ∧ AboveShrink ⟨1 / 10, 1 / 42⟩ index' := by
  have husable : (⟨1 / 10, 1 / 42⟩ : Thresholds Rat).usable = true := by decide +kernel
  obtain ⟨index, replies, hrun, hbelow, hpurgeless, -, hpurged⟩ :=
    run_keeps_load_bounds husable (le_refl (1 / 42)) UInt64.ofNat (· == ·) (.borrow : Policy Nat)
      (.borrow : Policy Nat) ([3, 40, 7, 8].map fun key => (.unlimited, .set key 5))
      (by simp [Allocator.GrantsLadder])
  obtain ⟨index', replies', hrun', hbelow', hrestored⟩ :=
    hpurged [(.unlimited, .set 9 5)] (by simp [Allocator.GrantsLadder]) (by simp [Op.isPurge])
  have hrungs : ((start UInt64.ofNat (· == ·) (.borrow : Policy Nat) (.borrow : Policy Nat)
      (⟨1 / 10, 1 / 42⟩ : Thresholds Rat)).run
        ([3, 40, 7, 8].map fun key => (.unlimited, .set key 5))).map
          (fun r => (r.1.chains.rung, r.1.purge.index.turnovers [(.unlimited, .set 9 5)])) =
        some (1, 1) := by
    decide +kernel
  rw [hrun, Option.map_some, Option.some.injEq, Prod.mk.injEq] at hrungs
  obtain ⟨hrung, hturnovers⟩ := hrungs
  exact ⟨husable, index, replies, index', replies', hrun, hbelow, hpurgeless (by simp [Op.isPurge]),
    hrung, hrun', hbelow', hrestored (Nat.le_of_eq (hrung.trans hturnovers.symm))⟩

end MemIndex.HashedIndex
