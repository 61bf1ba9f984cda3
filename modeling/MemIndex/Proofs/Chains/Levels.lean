import MemIndex.Proofs.Chains.Dealing

/-!
# Levels

Where a table stands is told by two numbers, its entries and its rung. They alone decide whether it takes
a step on the ladder and where the step leads; keys, hashes and links do not matter.
-/
namespace MemIndex

/-- The number of buckets on a rung. -/
def Ladder.bucketsAt (rung : Nat) : Nat := (Ladder.buckets? rung).getD 0

/-- So many entries on a rung. -/
structure Level where
  entries : Nat
  rung : Nat

namespace Level

variable {ρ : Type} [LoadScale ρ]

def buckets (l : Level) : Nat := Ladder.bucketsAt l.rung

def load (l : Level) : ρ := LoadScale.ratio l.entries l.buckets

/-- The rung that the load calls for, if it is not the present one. -/
def target? (thresholds : Thresholds ρ) (l : Level) : Option Nat :=
  if 0 < l.rung ∧ LoadScale.atMost l.load thresholds.shrinkAt then some (l.rung - 1)
  else if l.rung + 1 < Ladder.height ∧ LoadScale.atMost thresholds.growAt l.load then
    some (l.rung + 1)
  else none

theorem target?_lt_height {thresholds : Thresholds ρ} {l : Level} {rung : Nat}
    (h : l.target? thresholds = some rung) (hl : l.rung < Ladder.height) : rung < Ladder.height := by
  unfold target? at h
  split at h
  · cases h
    omega
  · split at h
    · rename_i hup
      cases h
      exact hup.1
    · cases h

variable (alloc : Allocator) (thresholds : Thresholds ρ)

/-- The rung that a step leads to, if one is called for and its buckets are granted. -/
def next? (l : Level) : Option Nat :=
  (l.target? thresholds).filter fun rung => (Ladder.buckets? rung).any alloc

/-- The level after a step, if there is one to take. -/
def adjusted (l : Level) : Level := ⟨l.entries, (l.next? alloc thresholds).getD l.rung⟩

/-- The level after as many steps as there are to take, so many at most. -/
def settledWithin : Nat → Level → Level
  | 0, l => l
  | steps + 1, l =>
    match l.next? alloc thresholds with
    | some rung => settledWithin steps ⟨l.entries, rung⟩
    | none => l

def settled (l : Level) : Level := l.settledWithin alloc thresholds Ladder.height

end Level

namespace Chains

variable {κ ν ρ : Type}

def level (c : Chains κ ν) : Level := ⟨c.size, c.rung⟩

namespace Threaded

variable {c : Chains κ ν} {chain : Nat → List Handle} (ht : c.Threaded chain)

include ht

theorem rung_lt_height : c.rung < Ladder.height :=
  (List.getElem?_eq_some_iff.1 ht.rung).1

theorem bucketCount_of_bottom (hbottom : c.rung = 0) : c.bucketCount = Ladder.bottom := by
  have hrung := ht.rung
  rw [hbottom, Ladder.buckets?_zero] at hrung
  exact (Option.some.inj hrung).symm

theorem buckets_level : c.level.buckets = c.bucketCount := by
  rw [Level.buckets, level, Ladder.bucketsAt, ht.rung]
  rfl

/-- The number of buckets tells the rung. -/
theorem rung_eq {c' : Chains κ ν} {chain' : Nat → List Handle} (ht' : c'.Threaded chain')
    (hcount : c'.bucketCount = c.bucketCount) : c'.rung = c.rung := by
  have hn : Ladder.rungs.Nodup := by decide
  have hrung : Ladder.rungs[c'.rung]? = some c.bucketCount := hcount ▸ ht'.rung
  exact ((List.getElem?_inj ht.rung_lt_height hn).1 (ht.rung.trans hrung.symm)).symm

variable [LoadScale ρ] (alloc : Allocator) (thresholds : Thresholds ρ)

theorem load_level : (c.level.load : ρ) = c.load := by
  rw [Level.load, ht.buckets_level]
  rfl

theorem target?_level : c.level.target? thresholds = c.target? thresholds := by
  rw [Level.target?, ht.load_level]
  rfl

/-- Nothing is done, or the step that the load calls for is granted and all entries are dealt out. -/
theorem adjust_cases :
    (c.level.next? alloc thresholds = none ∧ c.adjust alloc thresholds = some (c, false)) ∨
    ∃ rung count c', c.level.next? alloc thresholds = some rung ∧
      Ladder.buckets? rung = some count ∧ c.adjust alloc thresholds = some (c', true) ∧
      c'.rung = rung ∧ SameEntries c.entries c'.entries ∧
      c'.Threaded (dealt c.entries count (order c.bucketCount chain)) := by
  rw [Level.next?, ht.target?_level]
  cases hrung : c.target? thresholds with
  | none => exact .inl ⟨rfl, by simp [Chains.adjust, hrung]⟩
  | some rung =>
    cases hcount : Ladder.buckets? rung with
    | none => exact .inl ⟨by simp [hcount], by simp [Chains.adjust, hrung, hcount]⟩
    | some count =>
      cases halloc : alloc count with
      | false =>
        exact .inl ⟨by simp [hcount, halloc], by simp [Chains.adjust, hrung, hcount, halloc]⟩
      | true =>
        obtain ⟨d, hrun, hp, ht'⟩ := ht.deal hcount
        exact .inr ⟨rung, count, ⟨d.heads, d.entries, rung⟩, by simp [hcount, halloc], hcount,
          by simp [Chains.adjust, hrung, hcount, halloc, hrun], rfl, hp, ht'⟩

theorem exists_adjust :
    ∃ c' chain', c.adjust alloc thresholds = some (c', (c.level.next? alloc thresholds).isSome) ∧
      c'.level = c.level.adjusted alloc thresholds ∧
      SameEntries c.entries c'.entries ∧ c'.Threaded chain' := by
  obtain ⟨hnone, hstay⟩ | ⟨rung, count, c', hrung, -, hrun, hr, hp, ht'⟩ :=
    ht.adjust_cases alloc thresholds
  · exact ⟨c, chain, by rw [hstay, hnone]; rfl, by rw [Level.adjusted, hnone]; rfl, .refl _, ht⟩
  · refine ⟨c', _, by rw [hrun, hrung]; rfl, ?_, hp, ht'⟩
    rw [Level.adjusted, hrung, level, hr, size, hp.slots.size]
    rfl

theorem exists_adjustAtMost (steps : Nat) :
    ∃ c' chain', c.adjustAtMost alloc thresholds steps = some c' ∧
      c'.level = c.level.settledWithin alloc thresholds steps ∧
      SameEntries c.entries c'.entries ∧ c'.Threaded chain' := by
  induction steps generalizing c chain with
  | zero => exact ⟨c, chain, rfl, rfl, .refl _, ht⟩
  | succ steps ih =>
    obtain ⟨c₁, chain₁, hrun, hlevel, hp, ht₁⟩ := ht.exists_adjust alloc thresholds
    cases hnext : c.level.next? alloc thresholds with
    | none =>
      refine ⟨c₁, chain₁, by simp [adjustAtMost, hrun, hnext], ?_, hp, ht₁⟩
      rw [hlevel, Level.settledWithin, Level.adjusted, hnext]
      rfl
    | some rung =>
      obtain ⟨c₂, chain₂, hrun₂, hlevel₂, hp₂, ht₂⟩ := ih ht₁
      refine ⟨c₂, chain₂, by simp [adjustAtMost, hrun, hnext, hrun₂], ?_, hp.trans hp₂, ht₂⟩
      rw [hlevel₂, hlevel, Level.settledWithin, Level.adjusted, hnext]
      rfl

theorem exists_settle :
    ∃ c' chain', c.settle alloc thresholds = some c' ∧
      c'.level = c.level.settled alloc thresholds ∧
      SameEntries c.entries c'.entries ∧ c'.Threaded chain' :=
  ht.exists_adjustAtMost alloc thresholds Ladder.height

end Threaded

end Chains

end MemIndex
