import MemIndex.Proofs.Chains.Draining
import MemIndex.Proofs.HashedIndex.LoadBounds

/-!
# Drained indexes

Where an index has lost its last entry it should stand on the lowest rung again. A sweep leads it there,
since it takes as many steps as there are to take. A single removal takes one step only, so that the steps
before it must have kept up; they do where the lower threshold is not less than the load of two entries on
the fourth rung.
-/
namespace MemIndex.HashedIndex

variable {κ ν ρ : Type}

/-! ## Levels after an operation -/

section Levels

variable [LoadScale ρ] {t : Thresholds ρ} {alloc : Allocator} (ha : alloc.GrantsLadder) {l : Level}
  (hl : l.rung < Ladder.height) {op : Op κ ν} {n : Nat}

include ha hl

/-- No operation but a purge leaves a rung above the number of entries. -/
theorem Op.rung_relevel_le (ht : t.Leads n) (hop : op.isPurge = false) (hn : op.Resizes l.entries n)
    (hle : l.rung ≤ l.entries) : (op.relevel alloc t l n).rung ≤ n := by
  by_cases hsame : n = l.entries
  · rw [hsame, Op.relevel_same]
    exact hle
  · cases op with
    | purge => cases hop
    | sweep visit state =>
      rw [Op.relevel, if_neg hsame]
      exact Level.rung_settled_le ht ha hl
    | pairs | size => exact absurd hn hsame
    | set | emplace | get | contains | take | delete =>
      rw [Op.relevel_single alloc t l rfl hsame]
      exact Level.rung_adjusted_le ht ha hl (hle.trans hn.2)

/-- A sweep that removes the last entry leads to the lowest rung. -/
theorem Op.rung_relevel_sweep (ht : t.Leads 0) (hop : op.isSweep = true) (hsome : 0 < l.entries) :
    (op.relevel alloc t l 0).rung = 0 := by
  cases op with
  | sweep visit state =>
    rw [Op.relevel, if_neg (Nat.ne_of_lt hsome)]
    exact Nat.le_zero.1 (Level.rung_settled_le ht ha hl)
  | _ => cases hop

/-- Any other operation that does so leads one rung down. -/
theorem Op.rung_relevel_single (ht : t.Leads 0) (hop : op.isPurge = false) (hsweep : op.isSweep = false)
    (hn : op.Resizes l.entries 0) (hsome : 0 < l.entries) :
    (op.relevel alloc t l 0).rung = l.rung - 1 := by
  have hchanged : 0 ≠ l.entries := Nat.ne_of_lt hsome
  cases op with
  | purge => cases hop
  | sweep visit state => cases hsweep
  | pairs | size => exact absurd hn hchanged
  | set | emplace | get | contains | take | delete =>
    rw [Op.relevel_single alloc t l rfl hchanged]
    exact Level.rung_adjusted_empty ht ha hl

end Levels

/-! ## Runs -/

section Runs

variable [LoadScale ρ] {index : HashedIndex κ ν ρ} {chain : Nat → List Handle}

theorem Performed.rung_eq {alloc : Allocator} {op : Op κ ν} {done : Turn κ ν ρ}
    {chain' : Nat → List Handle} (hdone : Performed alloc index op done chain') :
    done.index.chains.rung =
      (op.relevel alloc index.thresholds index.chains.level done.index.size).rung :=
  congrArg Level.rung hdone.level

/-- Without purges and refused requests an index that stood no higher than it had entries still does. -/
theorem exists_run_led {t : Thresholds ρ} (ht : ∀ n, t.Leads n) (hthreaded : index.chains.Threaded chain)
    (hthresholds : index.thresholds = t) (hle : index.chains.rung ≤ index.size)
    {ops : List (Allocator × Op κ ν)} (hgrants : ∀ step ∈ ops, step.1.GrantsLadder)
    (hpurgeless : ∀ step ∈ ops, step.2.isPurge = false) {index' : HashedIndex κ ν ρ}
    {replies : List (Reply κ ν)} (hrun : index.run ops = some (index', replies)) :
    index'.chains.rung ≤ index'.size := by
  induction ops generalizing index chain replies with
  | nil =>
    cases hrun
    exact hle
  | cons first rest ih =>
    obtain ⟨alloc, op⟩ := first
    obtain ⟨hgrant, hgrants⟩ := List.forall_mem_cons.1 hgrants
    obtain ⟨hop, hpurgeless⟩ := List.forall_mem_cons.1 hpurgeless
    obtain ⟨done, chain₁, hturn, hdone⟩ := exists_turn alloc hthreaded op
    have hle₁ : done.index.chains.rung ≤ done.index.size := by
      rw [hdone.rung_eq, hthresholds]
      exact Op.rung_relevel_le hgrant hthreaded.rung_lt_height (ht _) hop (hdone.resizes hthreaded) hle
    rw [run, perform_eq_turn, hturn] at hrun
    obtain ⟨⟨index₂, replies₂⟩, hrest, heq⟩ := Option.map_eq_some_iff.1 hrun
    cases heq
    exact ih hdone.threaded (hdone.config.thresholds.trans hthresholds) hle₁ hgrants hpurgeless hrest

end Runs

/-- The thresholds are usable and no request is refused. After any run without purges, a sweep that
removes the last entry leads to the lowest rung, and any other operation that does so leads one rung down.
Where the lower threshold is not less than two entries over the buckets of the fourth rung, that is the
lowest rung too. -/
theorem run_drained_to_bottom {thresholds : Thresholds Float} (husable : thresholds.usable = true)
    (hash : κ → UInt64) (same : κ → κ → Bool) (keys : Policy κ) (values : Policy ν)
    (ops : List (Allocator × Op κ ν)) (hgrants : ∀ step ∈ ops, step.1.GrantsLadder)
    (hpurgeless : ∀ step ∈ ops, step.2.isPurge = false) :
    ∃ index replies, (start hash same keys values thresholds).run ops = some (index, replies) ∧
      ∀ (alloc : Allocator) (op : Op κ ν), alloc.GrantsLadder → op.isPurge = false →
        ∃ index' reply, index.perform alloc op = some (index', reply) ∧
          (0 < index.size → index'.size = 0 →
            (2 / 359 ≤ thresholds.shrinkAt → index'.bucketCount = Ladder.bottom) ∧
            (op.isSweep = true → index'.bucketCount = Ladder.bottom) ∧
            (op.isSweep = false → index'.chains.rung = index.chains.rung - 1)) := by
  have hstart : (start hash same keys values thresholds).chains.Threaded fun _ => [] :=
    Chains.threaded_fresh
  have hempty := Thresholds.leads_zero_of_usable husable
  obtain ⟨index, replies, chain, hrun, hconfig, ht, -⟩ := exists_run hstart ops
  have hthresholds : index.thresholds = thresholds := hconfig.thresholds
  refine ⟨index, replies, hrun, fun alloc op hgrant hop => ?_⟩
  obtain ⟨done, chain', hturn, hdone⟩ := exists_turn alloc ht op
  refine ⟨done.index, done.reply, by simp [perform_eq_turn, hturn], fun hsome hnone => ?_⟩
  have hlt : index.chains.level.rung < Ladder.height := ht.rung_lt_height
  have hresizes := hdone.resizes ht
  have hrung := hdone.rung_eq
  rw [hnone] at hresizes
  rw [hthresholds, hnone] at hrung
  refine ⟨fun hfloor => ?_, fun hsweep => ?_, fun hsingle => ?_⟩
  · have hled := Thresholds.leads_of_usable husable hfloor
    have hle := exists_run_led hled hstart rfl (Nat.le_refl 0) hgrants hpurgeless hrun
    have hzero := Op.rung_relevel_le hgrant hlt (hled 0) hop hresizes hle
    exact hdone.threaded.bucketCount_of_bottom (hrung.trans (Nat.le_zero.1 hzero))
  · have hzero := Op.rung_relevel_sweep hgrant hlt hempty hsweep hsome
    exact hdone.threaded.bucketCount_of_bottom (hrung.trans hzero)
  · exact hrung.trans (Op.rung_relevel_single hgrant hlt hempty hop hsingle hresizes hsome)

/-- Three entries have led to the fourth rung. As they leave, every removal leads one rung down. -/
theorem run_drained_to_bottom_floor :
    (⟨0.014, 2 / 359⟩ : Thresholds Float).usable = true ∧
    ∃ index replies index' reply,
      (start UInt64.ofNat (· == ·) (.borrow : Policy Nat) (.borrow : Policy Nat)
        (⟨0.014, 2 / 359⟩ : Thresholds Float)).run
          ([.set 1 5, .set 2 5, .set 3 5, .delete 1, .delete 2].map fun op => (.unlimited, op)) =
        some (index, replies) ∧
      index.perform .unlimited (.delete 3) = some (index', reply) ∧
      index.size = 1 ∧ index'.size = 0 ∧ index'.bucketCount = Ladder.bottom := by
  have husable : (⟨0.014, 2 / 359⟩ : Thresholds Float).usable = true := by decide +kernel
  obtain ⟨index, replies, hrun, hdrained⟩ :=
    run_drained_to_bottom husable UInt64.ofNat (· == ·) (.borrow : Policy Nat) (.borrow : Policy Nat)
      ([.set 1 5, .set 2 5, .set 3 5, .delete 1, .delete 2].map fun op => (.unlimited, op))
      (by simp [Allocator.GrantsLadder]) (by simp [Op.isPurge])
  obtain ⟨index', reply, hperform, hbottom⟩ :=
    hdrained .unlimited (.delete 3) (fun _ _ => rfl) rfl
  have hsizes : ((start UInt64.ofNat (· == ·) (.borrow : Policy Nat) (.borrow : Policy Nat)
      (⟨0.014, 2 / 359⟩ : Thresholds Float)).run
        ([.set 1 5, .set 2 5, .set 3 5, .delete 1, .delete 2].map fun op => (.unlimited, op))).map
          (fun done => (done.1.size,
            (done.1.perform .unlimited (.delete 3)).map fun next => next.1.size)) =
        some (1, some 0) := by
    decide +kernel
  rw [hrun, Option.map_some, Option.some.injEq, Prod.mk.injEq, hperform, Option.map_some,
    Option.some.injEq] at hsizes
  obtain ⟨hone, hnone⟩ := hsizes
  have hcount := (hbottom (Nat.lt_of_lt_of_eq Nat.one_pos hone.symm) hnone).1 (by decide +kernel)
  exact ⟨husable, index, replies, index', reply, hrun, hperform, hone, hnone, hcount⟩

/-- With the next lower number as the lower threshold the first removal does not lead down, and the last
one leaves the index on the second rung. -/
theorem run_drained_above_bottom :
    (⟨0.014, 0.005571030640668523⟩ : Thresholds Float).usable = true ∧
    ((start UInt64.ofNat (· == ·) (.borrow : Policy Nat) (.borrow : Policy Nat)
      (⟨0.014, 0.005571030640668523⟩ : Thresholds Float)).run
        ([.set 1 5, .set 2 5, .set 3 5, .delete 1, .delete 2].map fun op => (.unlimited, op))).map
          (fun done => (done.1.size,
            (done.1.perform .unlimited (.delete 3)).map fun next =>
              (next.1.size, next.1.bucketCount))) =
      some (1, some (0, 79)) ∧ Ladder.bottom ≠ 79 := by
  decide +kernel

end MemIndex.HashedIndex
