import MemIndex.Proofs.Chains.Bounds
import MemIndex.Proofs.Machine.Numbers

/-!
# Draining

A table stands no higher than it has entries as long as its thresholds lead it so: down from every rung
above their number, and up to no rung above it.
-/
namespace MemIndex

variable {ρ : Type} [LoadScale ρ]

/-- So many entries are led down from every rung above their number, and up from those below it only. -/
structure Thresholds.Leads (t : Thresholds ρ) (n : Nat) : Prop where
  down : ∀ r < Ladder.height, n < r →
    LoadScale.atMost (LoadScale.ratio n (Ladder.bucketsAt r)) t.shrinkAt = true
  up : ∀ r < Ladder.height, n ≤ r →
    LoadScale.atMost t.growAt (LoadScale.ratio n (Ladder.bucketsAt r)) = false

namespace Level

variable {t : Thresholds ρ} {n : Nat} (ht : t.Leads n)

include ht

theorem target?_cases {r : Nat} (hr : r < Ladder.height) :
    (∃ r', r = r' + 1 ∧ target? t ⟨n, r⟩ = some r') ∨
      (r < n ∧ target? t ⟨n, r⟩ = some (r + 1)) ∨ (r ≤ n ∧ target? t ⟨n, r⟩ = none) := by
  have hdown := ht.down r hr
  have hup := ht.up r hr
  unfold target?
  by_cases hfall : 0 < r ∧ LoadScale.atMost (load ⟨n, r⟩) t.shrinkAt = true
  · obtain ⟨r', rfl⟩ := Nat.exists_eq_add_one_of_ne_zero (Nat.ne_of_gt hfall.1)
    exact .inl ⟨r', rfl, if_pos hfall⟩
  · have hle : r ≤ n := by
      by_contra hlt
      exact hfall ⟨by omega, hdown (by omega)⟩
    rw [if_neg hfall]
    by_cases hrise : r + 1 < Ladder.height ∧ LoadScale.atMost t.growAt (load ⟨n, r⟩) = true
    · rw [if_pos hrise]
      have hlt : r < n := by
        by_contra hge
        have hstays := hup (by omega)
        exact Bool.false_ne_true (hstays.symm.trans hrise.2)
      exact .inr (.inl ⟨hlt, rfl⟩)
    · rw [if_neg hrise]
      exact .inr (.inr ⟨hle, rfl⟩)

variable {alloc : Allocator} (ha : alloc.GrantsLadder) {r : Nat} (hr : r < Ladder.height)

include ha hr

theorem rung_adjusted_le (hle : r ≤ n + 1) : (adjusted alloc t ⟨n, r⟩).rung ≤ n := by
  rw [adjusted, next?_of_grants ha t hr]
  obtain ⟨r', rfl, htarget⟩ | ⟨hlt, htarget⟩ | ⟨hle, htarget⟩ := target?_cases ht hr <;>
    rw [htarget]
  · exact Nat.le_of_succ_le_succ hle
  · exact hlt
  · exact hle

theorem rung_settledWithin_le {steps : Nat} (hle : r ≤ n + steps) :
    (settledWithin alloc t steps ⟨n, r⟩).rung ≤ n := by
  induction steps generalizing r with
  | zero => exact hle
  | succ steps ih =>
    rw [settledWithin, next?_of_grants ha t hr]
    obtain ⟨r', rfl, htarget⟩ | ⟨hlt, htarget⟩ | ⟨hle, htarget⟩ := target?_cases ht hr
    · rw [htarget]
      exact ih (Nat.lt_of_succ_lt hr) (Nat.le_of_succ_le_succ hle)
    · have hr' := target?_lt_height htarget hr
      rw [htarget]
      exact ih hr' (by omega)
    · rw [htarget]
      exact hle

theorem rung_settled_le : (settled alloc t ⟨n, r⟩).rung ≤ n :=
  rung_settledWithin_le ht ha hr (by omega)

end Level

/-- Without entries a step leads one rung down. -/
theorem Level.rung_adjusted_empty {t : Thresholds ρ} (ht : t.Leads 0) {alloc : Allocator}
    (ha : alloc.GrantsLadder) {r : Nat} (hr : r < Ladder.height) :
    (adjusted alloc t ⟨0, r⟩).rung = r - 1 := by
  rw [adjusted, next?_of_grants ha t hr]
  obtain ⟨r', rfl, htarget⟩ | ⟨hlt, -⟩ | ⟨hle, htarget⟩ := target?_cases ht hr
  · rw [htarget]
    rfl
  · cases hlt
  · rw [htarget, Nat.le_zero.1 hle]
    rfl

/-! ## Machine numbers -/

section Loads

open LoadScale

/-- Among tables with fewer entries than their rung, none has a greater load than two entries on the
fourth rung. -/
theorem ratio_le_two_fourth {n r : Nat} (hr : r < Ladder.height) (hn : n < r) :
    (ratio n (Ladder.bucketsAt r) : Float) ≤ 2 / 359 := by
  have hall : ∀ r < 27, ∀ n < r, (ratio n (Ladder.bucketsAt r) : Float) ≤ 2 / 359 := by
    decide +kernel
  exact hall r hr n hn

/-- Among tables with no more entries than their rung, none has a greater load than one entry on the
second rung. -/
theorem ratio_le_one_second {n r : Nat} (hr : r < Ladder.height) (hn : n ≤ r) :
    (ratio n (Ladder.bucketsAt r) : Float) ≤ 1 / 79 := by
  have hall : ∀ r < 27, ∀ n < r + 1, (ratio n (Ladder.bucketsAt r) : Float) ≤ 1 / 79 := by
    decide +kernel
  exact hall r hr n (Nat.lt_succ_of_le hn)

theorem ratio_zero_le {r : Nat} (hr : r < Ladder.height) :
    (ratio 0 (Ladder.bucketsAt r) : Float) ≤ 0 := by
  have hall : ∀ r < 27, (ratio 0 (Ladder.bucketsAt r) : Float) ≤ 0 := by decide +kernel
  exact hall r hr

end Loads

namespace Thresholds

variable {t : Thresholds Float} (husable : t.usable = true)

include husable

theorem facts_of_usable :
    t.shrinkAt.isFinite = true ∧ 0 ≤ t.shrinkAt ∧ t.shrinkAt * 2.5 < t.growAt := by
  simp only [usable, Bool.and_eq_true] at husable
  exact ⟨husable.1.1.2, of_decide_eq_true husable.1.2, of_decide_eq_true husable.2⟩

theorem leads_zero_of_usable : t.Leads 0 := by
  obtain ⟨-, hnonneg, hspread⟩ := facts_of_usable husable
  constructor
  · intro r hr _
    exact decide_eq_true (Machine.le_trans (ratio_zero_le hr) hnonneg)
  · intro r hr _
    refine decide_eq_false fun hgrow => Machine.not_spread_lt_zero hnonneg ?_
    exact Machine.lt_of_lt_of_le hspread (Machine.le_trans hgrow (ratio_zero_le hr))

theorem leads_of_usable (hfloor : 2 / 359 ≤ t.shrinkAt) (n : Nat) : t.Leads n := by
  obtain ⟨hfinite, -, hspread⟩ := facts_of_usable husable
  constructor
  · intro r hr hn
    exact decide_eq_true (Machine.le_trans (ratio_le_two_fourth hr hn) hfloor)
  · intro r hr hn
    refine decide_eq_false fun hgrow => Machine.not_spread_lt hfinite hfloor ?_
    exact Machine.lt_of_lt_of_le hspread (Machine.le_trans hgrow (ratio_le_one_second hr hn))

end Thresholds

end MemIndex
