import MemIndex.Proofs.Chains.Bounds

/-!
# Settling

After a sweep has removed anything, steps are taken on the ladder until one is not called for or not
granted. Nothing counts these steps. They come to an end because the thresholds lie so far apart that no
step calls for the opposite one: all lead the same way, and the ladder has two ends.
-/
namespace MemIndex.Chains

variable {κ ν ρ : Type}

/-- Steps are taken until one is not, each under an allocator of its own. The chains after every step are
listed. -/
inductive Looped [LoadScale ρ] (thresholds : Thresholds ρ) :
    (Nat → Allocator) → Chains κ ν → List (Chains κ ν) → Chains κ ν → Prop
  | done {allocs : Nat → Allocator} {c : Chains κ ν}
    (stay : c.adjust (allocs 0) thresholds = some (c, false)) : Looped thresholds allocs c [] c
  | step {allocs : Nat → Allocator} {c c₁ c₂ : Chains κ ν} {cs : List (Chains κ ν)}
    (taken : c.adjust (allocs 0) thresholds = some (c₁, true))
    (rest : Looped thresholds (fun i => allocs (i + 1)) c₁ cs c₂) :
    Looped thresholds allocs c (c₁ :: cs) c₂

/-- The loop has one outcome. -/
theorem Looped.unique [LoadScale ρ] {thresholds : Thresholds ρ} {allocs : Nat → Allocator}
    {c c' c'' : Chains κ ν} {cs cs' : List (Chains κ ν)} (h : Looped thresholds allocs c cs c')
    (h' : Looped thresholds allocs c cs' c'') : cs = cs' ∧ c' = c'' := by
  induction h generalizing cs' with
  | done stay =>
    cases h' with
    | done stay' => exact ⟨rfl, rfl⟩
    | step taken' rest' =>
      rw [stay] at taken'
      cases taken'
  | step taken rest ih =>
    cases h' with
    | done stay' =>
      rw [taken] at stay'
      cases stay'
    | step taken' rest' =>
      rw [taken] at taken'
      cases taken'
      obtain ⟨rfl, rfl⟩ := ih rest'
      exact ⟨rfl, rfl⟩

/-- Where fewer steps are taken than are allowed, allowing no more of them makes no difference. -/
theorem Looped.adjustAtMost [LoadScale ρ] {thresholds : Thresholds ρ} {alloc : Allocator}
    {c c' : Chains κ ν} {cs : List (Chains κ ν)} (h : Looped thresholds (fun _ => alloc) c cs c')
    {steps : Nat} (hsteps : cs.length < steps) : c.adjustAtMost alloc thresholds steps = some c' := by
  generalize hallocs : (fun _ => alloc : Nat → Allocator) = allocs at h
  induction h generalizing steps with
  | done stay =>
    subst hallocs
    obtain ⟨steps, rfl⟩ := Nat.exists_eq_add_one_of_ne_zero (Nat.ne_of_gt hsteps)
    simp [Chains.adjustAtMost, stay]
  | step taken rest ih =>
    subst hallocs
    obtain ⟨steps, rfl⟩ := Nat.exists_eq_add_one_of_ne_zero (Nat.ne_zero_of_lt hsteps)
    simpa [Chains.adjustAtMost, taken] using ih (Nat.lt_of_succ_lt_succ hsteps) rfl

/-! ## Directions -/

/-- A step up, taken because the load is not below the upper threshold. -/
structure StepsUp (t : Thresholds Rat) (c c' : Chains κ ν) : Prop where
  rung : c'.rung = c.rung + 1
  before : t.growAt ≤ (c.load : Rat)
  after : t.shrinkAt < (c'.load : Rat)

/-- A step down, taken because the load is not above the lower threshold. -/
structure StepsDown (t : Thresholds Rat) (c c' : Chains κ ν) : Prop where
  rung : c.rung = c'.rung + 1
  before : (c.load : Rat) ≤ t.shrinkAt
  after : (c'.load : Rat) < t.growAt

/-- No further step is taken: neither threshold calls for one, or the one called for is refused. -/
inductive Stopped (t : Thresholds Rat) (alloc : Allocator) (c : Chains κ ν) : Prop
  | rest (above : t.shrinkAt < (c.load : Rat) ∨ c.rung = 0)
    (below : (c.load : Rat) < t.growAt ∨ c.rung + 1 = Ladder.height)
  | down {r count : Nat} (rung : c.rung = r + 1) (load : (c.load : Rat) ≤ t.shrinkAt)
    (buckets : Ladder.buckets? r = some count) (refused : alloc count = false)
  | up {count : Nat} (above : t.shrinkAt < (c.load : Rat) ∨ c.rung = 0)
    (rung : c.rung + 1 < Ladder.height) (load : t.growAt ≤ (c.load : Rat))
    (buckets : Ladder.buckets? (c.rung + 1) = some count) (refused : alloc count = false)

namespace Threaded

variable {c c' : Chains κ ν} {chain chain' : Nat → List Handle} (ht : c.Threaded chain)
  {t : Thresholds Rat}

include ht

theorem called_target? (t : Thresholds Rat) : c.level.Called t (c.target? t) := by
  rw [← ht.target?_level]
  exact Level.called_target? t ht.rung_lt_height

/-- The loop ends where no step is called for and granted. -/
theorem stopped {alloc : Allocator} (hnext : c.level.next? alloc t = none) : Stopped t alloc c := by
  have hcalled := ht.called_target? t
  rw [Level.next?, ht.target?_level, Option.filter_eq_none_iff] at hnext
  have hrefused : ∀ rung, c.target? t = some rung →
      ∃ count, Ladder.buckets? rung = some count ∧ alloc count = false := by
    intro rung htarget
    have hrung := Level.target?_lt_height (ht.target?_level t ▸ htarget) ht.rung_lt_height
    obtain ⟨count, hcount⟩ := Option.isSome_iff_exists.1 (Ladder.buckets?_isSome.2 hrung)
    exact ⟨count, hcount, by simpa [hcount] using hnext rung htarget⟩
  have hload := ht.load_level (ρ := Rat)
  generalize c.target? t = target at hcalled hrefused
  cases hcalled with
  | stay above below =>
    rw [Level.Above, hload] at above
    rw [Level.Below, hload] at below
    exact .rest above below
  | down rung load =>
    obtain ⟨count, hcount, halloc⟩ := hrefused _ rfl
    exact .down rung (hload ▸ load) hcount halloc
  | up above rung load =>
    obtain ⟨count, hcount, halloc⟩ := hrefused _ rfl
    rw [Level.Above, hload] at above
    exact .up above rung (hload ▸ load) hcount halloc

/-- A step that is called for does not call for the opposite one. -/
theorem steps_of_target (ha : t.Apart) (ht' : c'.Threaded chain') (hsize : c'.size = c.size)
    (htarget : c.target? t = some c'.rung) : StepsUp t c c' ∨ StepsDown t c c' := by
  have hcalled := ht.called_target? t
  have hload := ht.load_level (ρ := Rat)
  have hload' := ht'.load_level (ρ := Rat)
  have hlt := ht.rung_lt_height
  rw [htarget] at hcalled
  rw [Chains.level] at hload hcalled
  rw [Chains.level, hsize] at hload'
  generalize hrung : c.rung = r at hload hcalled hlt
  generalize hrung' : c'.rung = r' at hload' hcalled
  cases hcalled with
  | down rung load =>
    obtain rfl : r = r' + 1 := rung
    have hafter := Level.load_lt_of_shrink ha hlt load
    exact .inr ⟨by rw [hrung, hrung'], hload ▸ load, hload' ▸ hafter⟩
  | up above rung load =>
    have hafter := Level.lt_load_of_grow ha rung load
    exact .inl ⟨by rw [hrung, hrung'], hload ▸ load, hload' ▸ hafter⟩

end Threaded

/-! ## The loop -/

/-- Where this holds every step leads one way, to where it holds again and less is left of the ladder. -/
structure Heading (t : Thresholds Rat) (holds : Chains κ ν → Prop)
    (steps : Chains κ ν → Chains κ ν → Prop) (left : Nat → Nat) : Prop where
  step {c c' : Chains κ ν} {chain chain' : Nat → List Handle} (before : c.Threaded chain)
    (after : c'.Threaded chain') (size : c'.size = c.size) (target : c.target? t = some c'.rung) :
    holds c → steps c c' ∧ holds c' ∧ left c'.rung < left c.rung

theorem heading_up {t : Thresholds Rat} (ha : t.Apart) :
    Heading t (fun c : Chains κ ν => t.shrinkAt < c.load ∨ c.rung = 0) (StepsUp t) (26 - ·) := by
  constructor
  intro c c' chain chain' ht ht' hsize htarget habove
  obtain hup | hdown := ht.steps_of_target ha ht' hsize htarget
  · have hlt := ht'.rung_lt_height
    have hrung := hup.rung
    rw [Ladder.height_eq] at hlt
    exact ⟨hup, .inl hup.after, by omega⟩
  · obtain hload | hzero := habove
    · exact absurd hdown.before (not_le.2 hload)
    · exact absurd (hdown.rung.symm.trans hzero) (Nat.succ_ne_zero _)

theorem heading_down {t : Thresholds Rat} (ha : t.Apart) :
    Heading t (fun c : Chains κ ν => c.load < t.growAt ∨ c.rung + 1 = Ladder.height) (StepsDown t)
      id := by
  constructor
  intro c c' chain chain' ht ht' hsize htarget hbelow
  obtain hup | hdown := ht.steps_of_target ha ht' hsize htarget
  · obtain hload | htop := hbelow
    · exact absurd hup.before (not_le.2 hload)
    · exact absurd (hup.rung.trans htop) (Nat.ne_of_lt ht'.rung_lt_height)
  · exact ⟨hdown, .inl hdown.after, Nat.lt_of_lt_of_eq (Nat.lt_succ_self _) hdown.rung.symm⟩

section Loop

variable {t : Thresholds Rat} {holds : Chains κ ν → Prop} {steps : Chains κ ν → Chains κ ν → Prop}
  {left : Nat → Nat}

theorem Heading.exists_looped (hh : Heading t holds steps left) {c : Chains κ ν}
    {chain : Nat → List Handle} (ht : c.Threaded chain) (hholds : holds c)
    (allocs : Nat → Allocator) :
    ∃ cs c', Looped t allocs c cs c' ∧ cs.length ≤ left c.rung ∧ (c :: cs).IsChain steps ∧
      Stopped t (allocs cs.length) c' := by
  induction hleft : left c.rung using Nat.strong_induction_on generalizing c chain allocs with
  | _ n ih =>
    subst hleft
    obtain ⟨hnone, hstay⟩ | ⟨rung, count, c₁, hnext, -, htaken, hrung, hp, ht₁⟩ :=
      ht.adjust_cases (allocs 0) t
    · exact ⟨[], c, .done hstay, Nat.zero_le _, .singleton c, ht.stopped hnone⟩
    · have htarget : c.target? t = some c₁.rung := by
        rw [Level.next?, ht.target?_level] at hnext
        rw [hrung]
        exact (Option.filter_eq_some_iff.1 hnext).1
      obtain ⟨hstep, hholds₁, hless⟩ := hh.step ht ht₁ hp.slots.size htarget hholds
      obtain ⟨cs, c', hloop, hlength, hchain, hstopped⟩ :=
        ih _ hless ht₁ hholds₁ (fun i => allocs (i + 1)) rfl
      exact ⟨c₁ :: cs, c', .step htaken hloop, Nat.lt_of_le_of_lt hlength hless,
        hchain.cons_cons hstep, hstopped⟩

/-- Whatever is refused on the way, the loop ends after fewer steps than there are rungs, all of them up or
all of them down. -/
theorem Threaded.exists_looped (ha : t.Apart) {c : Chains κ ν} {chain : Nat → List Handle}
    (ht : c.Threaded chain) (allocs : Nat → Allocator) :
    ∃ cs c', Looped t allocs c cs c' ∧ cs.length < Ladder.height ∧
      ((c :: cs).IsChain (StepsUp t) ∨ (c :: cs).IsChain (StepsDown t)) ∧
      Stopped t (allocs cs.length) c' := by
  have hrung := ht.rung_lt_height
  by_cases hload : (c.load : Rat) < t.growAt
  · obtain ⟨cs, c', hloop, hlength, hchain, hstopped⟩ :=
      (heading_down ha).exists_looped ht (.inl hload) allocs
    exact ⟨cs, c', hloop, Nat.lt_of_le_of_lt hlength hrung, .inr hchain, hstopped⟩
  · have habove : t.shrinkAt < c.load := by
      have hnonneg := ha.nonneg
      have hspread := ha.spread
      linarith
    obtain ⟨cs, c', hloop, hlength, hchain, hstopped⟩ :=
      (heading_up ha).exists_looped ht (.inl habove) allocs
    exact ⟨cs, c', hloop, by rw [Ladder.height_eq]; omega, .inl hchain, hstopped⟩

end Loop

end MemIndex.Chains
