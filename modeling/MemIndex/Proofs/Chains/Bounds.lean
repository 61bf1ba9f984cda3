import Mathlib.Algebra.Order.Field.Basic
import Mathlib.Data.Rat.Cast.Order
import Mathlib.Tactic.Linarith
import MemIndex.Proofs.Chains.Levels

/-!
# Loads within bounds

Loads are exact here. Where the lower threshold is no less than one over the narrowest gap between two
rungs, a single step on the ladder makes up for a single entry: it brings the load within the bounds and
does not carry it past the other one.
-/
namespace MemIndex

/-! ## The ladder -/

namespace Ladder

theorem bucketsAt_pos {rung : Nat} (h : rung < height) : 0 < bucketsAt rung := by
  have hall : ∀ r < 27, 0 < bucketsAt r := by decide
  exact hall rung h

/-- The narrowest gap is between the two lowest rungs. -/
theorem bucketsAt_gap {rung : Nat} (h : rung + 1 < height) :
    bucketsAt rung + 42 ≤ bucketsAt (rung + 1) := by
  have hall : ∀ r < 26, bucketsAt r + 42 ≤ bucketsAt (r + 1) := by decide
  exact hall rung (Nat.lt_of_succ_lt_succ h)

/-- A rung has less than two and a half times the buckets of the one below. -/
theorem bucketsAt_ratio {rung : Nat} (h : rung + 1 < height) :
    2 * bucketsAt (rung + 1) < 5 * bucketsAt rung := by
  have hall : ∀ r < 26, 2 * bucketsAt (r + 1) < 5 * bucketsAt r := by decide
  exact hall rung (Nat.lt_of_succ_lt_succ h)

end Ladder

/-- The thresholds lie far enough apart. -/
structure Thresholds.Apart (t : Thresholds Rat) : Prop where
  nonneg : 0 ≤ t.shrinkAt
  spread : t.shrinkAt * (5 / 2) < t.growAt

theorem Thresholds.apart_of_usable {t : Thresholds Rat} (husable : t.usable = true) : t.Apart := by
  simp only [usable, Bool.and_eq_true] at husable
  exact ⟨of_decide_eq_true husable.1.2, of_decide_eq_true husable.2⟩

/-- And the lower one is not too low for the ladder. -/
structure Thresholds.Spaced (t : Thresholds Rat) : Prop extends t.Apart where
  floor : 1 / 42 ≤ t.shrinkAt

theorem Thresholds.spaced_of_usable {t : Thresholds Rat} (husable : t.usable = true)
    (hfloor : 1 / 42 ≤ t.shrinkAt) : t.Spaced :=
  ⟨apart_of_usable husable, hfloor⟩

/-- The allocator grants the buckets of every rung. -/
def Allocator.GrantsLadder (alloc : Allocator) : Prop :=
  ∀ count ∈ Ladder.rungs, alloc count = true

namespace Level

/-- There is no step up to take. -/
def Below (t : Thresholds Rat) (l : Level) : Prop :=
  (l.load : Rat) < t.growAt ∨ l.rung + 1 = Ladder.height

/-- There is no step down to take. -/
def Above (t : Thresholds Rat) (l : Level) : Prop := t.shrinkAt < (l.load : Rat) ∨ l.rung = 0

section Load

variable {n r : Nat} {x : Rat}

theorem load_lt_iff (hr : r < Ladder.height) :
    ((⟨n, r⟩ : Level).load : Rat) < x ↔ (n : Rat) < x * Ladder.bucketsAt r :=
  div_lt_iff₀ (Nat.cast_pos.2 (Ladder.bucketsAt_pos hr))

theorem lt_load_iff (hr : r < Ladder.height) :
    x < ((⟨n, r⟩ : Level).load : Rat) ↔ x * Ladder.bucketsAt r < (n : Rat) :=
  lt_div_iff₀ (Nat.cast_pos.2 (Ladder.bucketsAt_pos hr))

theorem load_le_iff (hr : r < Ladder.height) :
    ((⟨n, r⟩ : Level).load : Rat) ≤ x ↔ (n : Rat) ≤ x * Ladder.bucketsAt r :=
  div_le_iff₀ (Nat.cast_pos.2 (Ladder.bucketsAt_pos hr))

theorem le_load_iff (hr : r < Ladder.height) :
    x ≤ ((⟨n, r⟩ : Level).load : Rat) ↔ x * Ladder.bucketsAt r ≤ (n : Rat) :=
  le_div_iff₀ (Nat.cast_pos.2 (Ladder.bucketsAt_pos hr))

end Load

theorem Below.of_le {t : Thresholds Rat} {n n' r : Nat} (hbelow : Below t ⟨n, r⟩)
    (hr : r < Ladder.height) (hn : n' ≤ n) : Below t ⟨n', r⟩ := by
  refine hbelow.imp_left fun hload => ?_
  rw [load_lt_iff hr] at hload ⊢
  have hn' : (n' : Rat) ≤ n := by exact_mod_cast hn
  exact hn'.trans_lt hload

/-! ## One step -/

/-- On the upper one of two rungs one entry more or less counts for little. -/
theorem mul_bucketsAt_gap {x : Rat} (hx : 1 / 42 ≤ x) {r : Nat} (hr : r + 1 < Ladder.height) :
    x * Ladder.bucketsAt r + 1 ≤ x * Ladder.bucketsAt (r + 1) := by
  have hgap : (Ladder.bucketsAt r : Rat) + 42 ≤ Ladder.bucketsAt (r + 1) := by
    exact_mod_cast Ladder.bucketsAt_gap hr
  calc x * Ladder.bucketsAt r + 1 ≤ x * Ladder.bucketsAt r + x * 42 := by linarith
    _ = x * (Ladder.bucketsAt r + 42) := (mul_add _ _ _).symm
    _ ≤ x * Ladder.bucketsAt (r + 1) := mul_le_mul_of_nonneg_left hgap (by linarith)

section Apart

variable {t : Thresholds Rat} (ht : t.Apart) {n r : Nat} (hr : r + 1 < Ladder.height)

include ht hr

/-- The loads at which the step between two rungs is taken lie apart. -/
theorem shrinkAt_mul_lt_growAt_mul :
    t.shrinkAt * Ladder.bucketsAt (r + 1) < t.growAt * Ladder.bucketsAt r := by
  have hratio : (2 : Rat) * Ladder.bucketsAt (r + 1) < 5 * Ladder.bucketsAt r := by
    exact_mod_cast Ladder.bucketsAt_ratio hr
  have hpos : (0 : Rat) < Ladder.bucketsAt r :=
    Nat.cast_pos.2 (Ladder.bucketsAt_pos (Nat.lt_of_succ_lt hr))
  calc t.shrinkAt * Ladder.bucketsAt (r + 1)
      ≤ t.shrinkAt * (5 / 2 * Ladder.bucketsAt r) :=
        mul_le_mul_of_nonneg_left (by linarith) ht.nonneg
    _ = t.shrinkAt * (5 / 2) * Ladder.bucketsAt r := by rw [mul_assoc]
    _ < t.growAt * Ladder.bucketsAt r := mul_lt_mul_of_pos_right ht.spread hpos

/-- A step down does not carry the load past the upper bound. -/
theorem load_lt_of_shrink (hload : ((⟨n, r + 1⟩ : Level).load : Rat) ≤ t.shrinkAt) :
    ((⟨n, r⟩ : Level).load : Rat) < t.growAt := by
  rw [load_le_iff hr] at hload
  rw [load_lt_iff (Nat.lt_of_succ_lt hr)]
  exact hload.trans_lt (shrinkAt_mul_lt_growAt_mul ht hr)

/-- A step up does not carry the load past the lower bound. -/
theorem lt_load_of_grow (hload : t.growAt ≤ ((⟨n, r⟩ : Level).load : Rat)) :
    t.shrinkAt < ((⟨n, r + 1⟩ : Level).load : Rat) := by
  rw [le_load_iff (Nat.lt_of_succ_lt hr)] at hload
  rw [lt_load_iff hr]
  exact (shrinkAt_mul_lt_growAt_mul ht hr).trans_le hload

end Apart

section Step

variable {t : Thresholds Rat} (ht : t.Spaced) {n n' r : Nat} (hr : r + 1 < Ladder.height)

include ht hr

/-- A step down is enough after one entry has left. -/
theorem lt_load_of_shrink (hn : n ≤ n' + 1)
    (hload : t.shrinkAt < ((⟨n, r + 1⟩ : Level).load : Rat)) :
    t.shrinkAt < ((⟨n', r⟩ : Level).load : Rat) := by
  rw [lt_load_iff hr] at hload
  rw [lt_load_iff (Nat.lt_of_succ_lt hr)]
  have hstep := mul_bucketsAt_gap ht.floor hr
  have hn' : (n : Rat) ≤ n' + 1 := by exact_mod_cast hn
  linarith

/-- A step up is enough after one entry has come. -/
theorem load_lt_of_grow (hn : n' ≤ n + 1) (hload : ((⟨n, r⟩ : Level).load : Rat) < t.growAt) :
    ((⟨n', r + 1⟩ : Level).load : Rat) < t.growAt := by
  rw [load_lt_iff (Nat.lt_of_succ_lt hr)] at hload
  rw [load_lt_iff hr]
  have hfloor := ht.floor
  have hspread := ht.spread
  have hstep := mul_bucketsAt_gap (show 1 / 42 ≤ t.growAt by linarith) hr
  have hn' : (n' : Rat) ≤ n + 1 := by exact_mod_cast hn
  linarith

end Step

/-! ## Steps that are granted -/

/-- The rung that the load calls for, if it is not the present one. -/
inductive Called (t : Thresholds Rat) (l : Level) : Option Nat → Prop
  | down {r : Nat} (rung : l.rung = r + 1) (load : (l.load : Rat) ≤ t.shrinkAt) : Called t l (some r)
  | up (above : l.Above t) (rung : l.rung + 1 < Ladder.height) (load : t.growAt ≤ (l.load : Rat)) :
    Called t l (some (l.rung + 1))
  | stay (above : l.Above t) (below : l.Below t) : Called t l none

theorem called_target? (t : Thresholds Rat) {l : Level} (hl : l.rung < Ladder.height) :
    Called t l (l.target? t) := by
  unfold target?
  by_cases hdown : 0 < l.rung ∧ LoadScale.atMost (l.load : Rat) t.shrinkAt = true
  · rw [if_pos hdown]
    obtain ⟨r, hr⟩ := Nat.exists_eq_add_one_of_ne_zero (Nat.ne_of_gt hdown.1)
    rw [hr, Nat.add_sub_cancel]
    exact .down hr (of_decide_eq_true hdown.2)
  · have habove : l.Above t := by
      by_contra hnot
      obtain ⟨hload, hrung⟩ := not_or.1 hnot
      exact hdown ⟨Nat.pos_of_ne_zero hrung, decide_eq_true (not_lt.1 hload)⟩
    rw [if_neg hdown]
    by_cases hup : l.rung + 1 < Ladder.height ∧ LoadScale.atMost t.growAt (l.load : Rat) = true
    · rw [if_pos hup]
      exact .up habove hup.1 (of_decide_eq_true hup.2)
    · rw [if_neg hup]
      refine .stay habove ?_
      by_contra hnot
      obtain ⟨hload, hrung⟩ := not_or.1 hnot
      exact hup ⟨by omega, decide_eq_true (not_lt.1 hload)⟩

/-- Where all buckets are granted, a step is taken when it is called for. -/
theorem next?_of_grants {ρ : Type} [LoadScale ρ] {alloc : Allocator} (ha : alloc.GrantsLadder)
    (t : Thresholds ρ) {l : Level} (hl : l.rung < Ladder.height) : l.next? alloc t = l.target? t := by
  cases htarget : l.target? t with
  | none => rw [next?, htarget, Option.filter_none]
  | some rung =>
    have hrung := target?_lt_height htarget hl
    have hgranted : (Ladder.buckets? rung).any alloc = true := by
      rw [Ladder.buckets?, List.getElem?_eq_getElem hrung]
      exact ha _ (List.getElem_mem hrung)
    rw [next?, htarget, Option.filter_some, if_pos hgranted]

theorem called_next? {alloc : Allocator} (ha : alloc.GrantsLadder) (t : Thresholds Rat) {l : Level}
    (hl : l.rung < Ladder.height) : Called t l (l.next? alloc t) := by
  rw [next?_of_grants ha t hl]
  exact called_target? t hl

section Adjusted

variable {alloc : Allocator} (ha : alloc.GrantsLadder) {t : Thresholds Rat} {n n' r : Nat}
  (hr : r < Ladder.height)

include ha hr

theorem adjusted_cases (t : Thresholds Rat) (n : Nat) :
    (∃ r', r = r' + 1 ∧ ((⟨n, r⟩ : Level).load : Rat) ≤ t.shrinkAt ∧
      adjusted alloc t ⟨n, r⟩ = ⟨n, r'⟩) ∨
    (r + 1 < Ladder.height ∧ t.growAt ≤ ((⟨n, r⟩ : Level).load : Rat) ∧
      adjusted alloc t ⟨n, r⟩ = ⟨n, r + 1⟩) ∨
    (Above t ⟨n, r⟩ ∧ Below t ⟨n, r⟩ ∧ adjusted alloc t ⟨n, r⟩ = ⟨n, r⟩) := by
  have hcalled : Called t ⟨n, r⟩ (next? alloc t ⟨n, r⟩) := called_next? ha t hr
  unfold adjusted
  generalize next? alloc t ⟨n, r⟩ = target at hcalled ⊢
  cases hcalled with
  | down rung load => exact .inl ⟨_, rung, load, rfl⟩
  | up above rung load => exact .inr (.inl ⟨rung, load, rfl⟩)
  | stay above below => exact .inr (.inr ⟨above, below, rfl⟩)

variable (ht : t.Spaced)

include ht

/-- Below the upper bound one entry more at most leads to a level below it. -/
theorem below_adjusted (hn : n' ≤ n + 1) (hbelow : Below t ⟨n, r⟩) :
    Below t (adjusted alloc t ⟨n', r⟩) := by
  obtain ⟨r', rfl, hload, heq⟩ | ⟨hup, hload, heq⟩ | ⟨-, hstay, heq⟩ := adjusted_cases ha hr t n'
  · rw [heq]
    exact .inl (load_lt_of_shrink ht.toApart hr hload)
  · rw [heq]
    obtain hbefore | htop := hbelow
    · exact .inl (load_lt_of_grow ht hup hn hbefore)
    · exact absurd htop (Nat.ne_of_lt hup)
  · rwa [heq]

/-- Above the lower bound one entry less at most leads to a level above it. -/
theorem above_adjusted (hn : n ≤ n' + 1) (habove : Above t ⟨n, r⟩) :
    Above t (adjusted alloc t ⟨n', r⟩) := by
  obtain ⟨r', rfl, hload, heq⟩ | ⟨hup, hload, heq⟩ | ⟨hstay, -, heq⟩ := adjusted_cases ha hr t n'
  · rw [heq]
    obtain hbefore | hbottom := habove
    · exact .inl (lt_load_of_shrink ht hr hn hbefore)
    · exact absurd hbottom (Nat.succ_ne_zero r')
  · rw [heq]
    exact .inl (lt_load_of_grow ht.toApart hup hload)
  · rwa [heq]

/-- Elsewhere than on the lowest rung a step leads down, or the load is above the lower bound after it. -/
theorem descends_or_above (hbottom : r ≠ 0) (n : Nat) :
    (adjusted alloc t ⟨n, r⟩).rung + 1 = r ∨
      t.shrinkAt < ((adjusted alloc t ⟨n, r⟩).load : Rat) := by
  obtain ⟨r', rfl, hload, heq⟩ | ⟨hup, hload, heq⟩ | ⟨hstay, -, heq⟩ := adjusted_cases ha hr t n
  · rw [heq]
    exact .inl rfl
  · rw [heq]
    exact .inr (lt_load_of_grow ht.toApart hup hload)
  · rw [heq]
    exact .inr (hstay.resolve_right hbottom)

/-- With fewer entries than rungs are left below, steps are taken down until none is left. -/
theorem settledWithin_bounded {steps : Nat} (hsteps : r < steps) (hbelow : Below t ⟨n, r⟩) :
    Below t (settledWithin alloc t steps ⟨n, r⟩) ∧ Above t (settledWithin alloc t steps ⟨n, r⟩) := by
  induction steps generalizing r with
  | zero => cases hsteps
  | succ steps ih =>
    have hcalled : Called t ⟨n, r⟩ (next? alloc t ⟨n, r⟩) := called_next? ha t hr
    unfold settledWithin
    generalize next? alloc t ⟨n, r⟩ = target at hcalled ⊢
    cases hcalled with
    | @down r' rung load =>
      obtain rfl : r = r' + 1 := rung
      exact ih (Nat.lt_of_succ_lt hr) (Nat.lt_of_succ_lt_succ hsteps)
        (.inl (load_lt_of_shrink ht.toApart hr load))
    | up above rung load =>
      obtain hload | htop := hbelow
      · exact absurd load (not_le.2 hload)
      · exact absurd htop (Nat.ne_of_lt rung)
    | stay above below => exact ⟨below, above⟩

/-- Where entries have left, taking as many steps as there are brings the load within both bounds. -/
theorem settled_bounded (hn : n' ≤ n) (hbelow : Below t ⟨n, r⟩) :
    Below t (settled alloc t ⟨n', r⟩) ∧ Above t (settled alloc t ⟨n', r⟩) :=
  settledWithin_bounded ha hr ht hr (hbelow.of_le hr hn)

end Adjusted

end Level

end MemIndex
