import MemIndex.Proofs.Chains.Bounds

/-!
# Rising

Steps on the ladder lead one rung up or down, and whether one is taken depends on the rung and the number of
entries alone. So steps that end above the rung on which they began have led up from that very rung. With
exact loads and usable thresholds the converse holds too: what is once led up is not led down again.
-/
namespace MemIndex

theorem Ladder.bucketsAt_lt_iff {r r' : Nat} (hr : r < height) (hr' : r' < height) :
    bucketsAt r < bucketsAt r' ↔ r < r' := by
  have hall : ∀ r < 27, ∀ r' < 27, (bucketsAt r < bucketsAt r' ↔ r < r') := by decide +kernel
  exact hall r hr r' hr'

namespace Level

section Scale

variable {ρ : Type} [LoadScale ρ] {alloc : Allocator} {t : Thresholds ρ} {l : Level}

/-- The load calls for a step up, and the buckets for it are granted. -/
structure Rises (alloc : Allocator) (t : Thresholds ρ) (l : Level) : Prop where
  room : l.rung + 1 < Ladder.height
  light : 0 < l.rung → LoadScale.atMost l.load t.shrinkAt = false
  heavy : LoadScale.atMost t.growAt l.load = true
  granted : alloc (Ladder.bucketsAt (l.rung + 1)) = true

theorem Rises.next? (h : l.Rises alloc t) : l.next? alloc t = some (l.rung + 1) := by
  have hdown : ¬(0 < l.rung ∧ LoadScale.atMost l.load t.shrinkAt = true) := fun hdown =>
    Bool.false_ne_true ((h.light hdown.1).symm.trans hdown.2)
  have htarget : l.target? t = some (l.rung + 1) := by
    rw [target?, if_neg hdown, if_pos ⟨h.room, h.heavy⟩]
  obtain ⟨count, hcount⟩ := Option.isSome_iff_exists.1 (Ladder.buckets?_isSome.2 h.room)
  have hgranted := h.granted
  rw [Ladder.bucketsAt, hcount, Option.getD_some] at hgranted
  rw [Level.next?, htarget, Option.filter_some, hcount, Option.any_some, if_pos hgranted]

/-- A step leads one rung down for its load, or one rung up from a level that rises. -/
theorem next?_cases {rung : Nat} (h : l.next? alloc t = some rung) :
    (rung + 1 = l.rung ∧ LoadScale.atMost l.load t.shrinkAt = true) ∨
      rung = l.rung + 1 ∧ l.Rises alloc t := by
  obtain ⟨htarget, hgranted⟩ := Option.filter_eq_some_iff.1 h
  unfold target? at htarget
  split at htarget
  · rename_i hdown
    cases htarget
    exact .inl ⟨Nat.sub_add_cancel hdown.1, hdown.2⟩
  · rename_i hdown
    split at htarget
    · rename_i hup
      cases htarget
      refine .inr ⟨rfl, hup.1, fun hrung => ?_, hup.2, ?_⟩
      · exact Bool.eq_false_iff.2 fun hload => hdown ⟨hrung, hload⟩
      · obtain ⟨count, hcount⟩ := Option.isSome_iff_exists.1 (Ladder.buckets?_isSome.2 hup.1)
        rw [hcount, Option.any_some] at hgranted
        rw [Ladder.bucketsAt, hcount]
        exact hgranted
    · cases htarget

/-- No step leads over a rung that does not rise. -/
theorem rung_settledWithin_le_top {n top : Nat} (htop : ¬Rises alloc t ⟨n, top⟩) (steps : Nat) {r : Nat}
    (hr : r ≤ top) : (settledWithin alloc t steps ⟨n, r⟩).rung ≤ top := by
  induction steps generalizing r with
  | zero => exact hr
  | succ steps ih =>
    rw [settledWithin]
    cases hnext : next? alloc t ⟨n, r⟩ with
    | none => exact hr
    | some rung =>
      apply ih
      obtain ⟨hdown, -⟩ | ⟨hup, hrises⟩ := next?_cases hnext
      · dsimp only at hdown
        omega
      · have hne : r ≠ top := fun heq => htop (heq ▸ hrises)
        dsimp only at hup
        omega

end Scale

/-! ## Exact loads -/

variable {alloc : Allocator} {t : Thresholds Rat} (ha : t.Apart)

include ha

/-- What is above the lower threshold is not led down. -/
theorem le_rung_settledWithin {n : Nat} (steps : Nat) {r : Nat}
    (hload : t.shrinkAt < ((⟨n, r⟩ : Level).load : Rat)) :
    r ≤ (settledWithin alloc t steps ⟨n, r⟩).rung := by
  induction steps generalizing r with
  | zero => exact Nat.le_refl r
  | succ steps ih =>
    rw [settledWithin]
    cases hnext : next? alloc t ⟨n, r⟩ with
    | none => exact Nat.le_refl r
    | some rung =>
      obtain ⟨-, hdown⟩ | ⟨hup, hrises⟩ := next?_cases hnext
      · exact absurd (of_decide_eq_true hdown) (not_le.2 hload)
      · obtain rfl : rung = r + 1 := hup
        have hafter := lt_load_of_grow ha hrises.room (of_decide_eq_true hrises.heavy)
        exact Nat.le_of_succ_le (ih hafter)

theorem Rises.lt_rung_settled {l : Level} (h : l.Rises alloc t) : l.rung < (l.settled alloc t).rung := by
  have hafter := lt_load_of_grow ha h.room (of_decide_eq_true h.heavy)
  rw [settled, Ladder.height_eq, settledWithin, h.next?]
  exact le_rung_settledWithin ha _ hafter

end Level

end MemIndex
