import MemIndex.Proofs.Chains.Settling
import MemIndex.Proofs.HashedIndex.Runs

/-!
# Settling after a sweep

A sweep that has removed anything ends with steps on the ladder, as many as there are to take. Whatever has
happened before, there are fewer of them than rungs.
-/
namespace MemIndex.HashedIndex

open MemIndex.Chains (Looped StepsUp StepsDown Stopped)

variable {κ ν ρ σ : Type}

/-- A sweep that has removed anything ends where the steps on the ladder do. -/
theorem exists_sweep_of_looped [LoadScale ρ] {index : HashedIndex κ ν ρ} {visit : EntryVisitor κ ν σ}
    {state : σ} {p : Progress κ ν σ} {alloc : Allocator} {cs : List (Chains κ ν)} {c : Chains κ ν}
    (hwalk : index.sweepBuckets visit (List.range index.bucketCount)
      ⟨index.chains, .proceed, false, state, #[]⟩ = some p)
    (hremoved : p.removed = true) (hloop : Looped index.thresholds (fun _ => alloc) p.chains cs c)
    (hlength : cs.length < Ladder.height) :
    ∃ r, index.sweep alloc visit state = some r ∧ r.index = index.withChains fun _ => c := by
  have hsettle : p.chains.settle alloc index.thresholds = some c := hloop.adjustAtMost hlength
  simp [sweep, hwalk, hremoved, hsettle]

/-- Loads are exact and the thresholds are usable. A step up then leads above the lower threshold, and a
step down below the upper one, whatever the number of entries and the rung. So after any run and any
sweep, steps on the ladder come to an end, whichever of them are refused. There are 26 at most, all up or
all down, and after them no further step is called for, or the next one is refused. A sweep that has
removed anything takes just these steps. -/
theorem run_sweep_settles {thresholds : Thresholds Rat} (husable : thresholds.usable = true)
    (hash : κ → UInt64) (same : κ → κ → Bool) (keys : Policy κ) (values : Policy ν)
    (ops : List (Allocator × Op κ ν)) :
    (∀ n r : Nat, r + 1 < Ladder.height →
      (thresholds.growAt ≤ (n : Rat) / Ladder.bucketsAt r →
        thresholds.shrinkAt < (n : Rat) / Ladder.bucketsAt (r + 1)) ∧
      ((n : Rat) / Ladder.bucketsAt (r + 1) ≤ thresholds.shrinkAt →
        (n : Rat) / Ladder.bucketsAt r < thresholds.growAt)) ∧
    ∃ index replies, (start hash same keys values thresholds).run ops = some (index, replies) ∧
      ∀ {σ : Type} (visit : EntryVisitor κ ν σ) (state : σ),
        ∃ p, index.sweepBuckets visit (List.range index.bucketCount)
            ⟨index.chains, .proceed, false, state, #[]⟩ = some p ∧
          (∀ allocs : Nat → Allocator, ∃ cs c, Looped thresholds allocs p.chains cs c ∧
            cs.length ≤ 26 ∧
            ((p.chains :: cs).IsChain (StepsUp thresholds) ∨
              (p.chains :: cs).IsChain (StepsDown thresholds)) ∧
            Stopped thresholds (allocs cs.length) c) ∧
          (p.removed = true → ∀ (alloc : Allocator) cs c,
            Looped thresholds (fun _ => alloc) p.chains cs c →
              ∃ r, index.sweep alloc visit state = some r ∧
                r.index = index.withChains fun _ => c) := by
  have ha := Thresholds.apart_of_usable husable
  have hstart : (start hash same keys values thresholds).chains.Threaded fun _ => [] :=
    Chains.threaded_fresh
  obtain ⟨index, replies, chain, hrun, hconfig, ht, -⟩ := exists_run hstart ops
  have hthresholds : index.thresholds = thresholds := hconfig.thresholds
  refine ⟨fun n r hr => ⟨Level.lt_load_of_grow ha hr, Level.load_lt_of_shrink ha hr⟩, index, replies,
    hrun, fun {σ} visit state => ?_⟩
  obtain ⟨p, chain₁, hshow, -, ht₁⟩ := exists_showAll ht visit state
  have hwalk := fst_showAll index visit state
  rw [hshow] at hwalk
  refine ⟨p, hwalk.symm, fun allocs => ?_, fun hremoved alloc cs c hloop => ?_⟩
  · obtain ⟨cs, c, hloop, hlength, hchain, hstopped⟩ := ht₁.exists_looped ha allocs
    exact ⟨cs, c, hloop, Nat.le_of_lt_succ hlength, hchain, hstopped⟩
  · obtain ⟨cs', c', hloop', hlength, -, -⟩ := ht₁.exists_looped ha fun _ => alloc
    obtain ⟨rfl, rfl⟩ := hloop.unique hloop'
    rw [← hthresholds] at hloop
    exact exists_sweep_of_looped hwalk.symm hremoved hloop hlength

/-- A visitor that has every entry removed. -/
def removing : EntryVisitor κ ν Unit := fun _ _ _ => ⟨.proceed, true, ()⟩

/-- Eight entries lead to the third rung. A sweep that removes all of them leads back to the lowest one. -/
theorem run_sweep_settles_tenth :
    (⟨1 / 10, 1 / 30⟩ : Thresholds Rat).usable = true ∧
    ∃ index replies p cs c r,
      (start UInt64.ofNat (· == ·) (.borrow : Policy Nat) (.borrow : Policy Nat)
        (⟨1 / 10, 1 / 30⟩ : Thresholds Rat)).run
          ((List.range 8).map fun key => (.unlimited, .set key 5)) = some (index, replies) ∧
      index.sweepBuckets removing (List.range index.bucketCount)
        ⟨index.chains, .proceed, false, (), #[]⟩ = some p ∧
      Looped (⟨1 / 10, 1 / 30⟩ : Thresholds Rat) (fun _ => .unlimited) p.chains cs c ∧ cs.length ≤ 26 ∧
      index.sweep .unlimited removing () = some r ∧
      r.index = (index.withChains fun _ => c) ∧ index.bucketCount = 181 ∧
      r.index.bucketCount = 37 := by
  have husable : (⟨1 / 10, 1 / 30⟩ : Thresholds Rat).usable = true := by decide +kernel
  obtain ⟨-, index, replies, hrun, hsweeps⟩ :=
    run_sweep_settles husable UInt64.ofNat (· == ·) (.borrow : Policy Nat) (.borrow : Policy Nat)
      ((List.range 8).map fun key => (.unlimited, .set key 5))
  obtain ⟨p, hwalk, hends, htakes⟩ := hsweeps removing ()
  have hevaluated : ((start UInt64.ofNat (· == ·) (.borrow : Policy Nat) (.borrow : Policy Nat)
      (⟨1 / 10, 1 / 30⟩ : Thresholds Rat)).run
        ((List.range 8).map fun key => (.unlimited, .set key 5))).map
          (fun done => (done.1.bucketCount,
            (done.1.sweepBuckets removing (List.range done.1.bucketCount)
              ⟨done.1.chains, .proceed, false, (), #[]⟩).map Progress.removed,
            (done.1.sweep .unlimited removing ()).map
              (·.index.bucketCount))) = some (181, some true, some 37) := by
    decide +kernel
  rw [hrun, Option.map_some, Option.some.injEq, Prod.mk.injEq, Prod.mk.injEq, hwalk,
    Option.map_some, Option.some.injEq] at hevaluated
  obtain ⟨hbefore, hremoved, hafter⟩ := hevaluated
  obtain ⟨cs, c, hloop, hlength, -⟩ := hends fun _ => .unlimited
  obtain ⟨r, hsweep, hr⟩ := htakes hremoved .unlimited cs c hloop
  rw [hsweep, Option.map_some, Option.some.injEq] at hafter
  exact ⟨husable, index, replies, p, cs, c, r, hrun, hwalk, hloop, hlength, hsweep, hr, hbefore,
    hafter⟩

end MemIndex.HashedIndex
