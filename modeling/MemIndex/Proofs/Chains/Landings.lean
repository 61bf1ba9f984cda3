import MemIndex.Proofs.Chains.Bounds

/-!
# Where removals land

Entries that leave lead down the ladder, one step after each of them or all steps at the end. From a load
within the bounds both ways land on the same rung: on the highest one, not above the rung at the start, on
which the load is above the lower bound. With the entries that are left there is only one such rung.
-/
namespace MemIndex.Level

/-- The level is the highest one with its entries, not above a top rung, that is above the lower bound. -/
structure Landed (t : Thresholds Rat) (top : Nat) (l : Level) : Prop where
  le_top : l.rung ≤ top
  above : Above t l
  highest : ∀ q, l.rung < q → q ≤ top → ¬Above t ⟨l.entries, q⟩

variable {t : Thresholds Rat} {top n n' r : Nat}

theorem Above.of_ge {q : Nat} (habove : Above t ⟨n, q⟩) (hq : q < Ladder.height) (hn : n ≤ n') :
    Above t ⟨n', q⟩ := by
  refine habove.imp_left fun hload => ?_
  rw [lt_load_iff hq] at hload ⊢
  have hn' : (n : Rat) ≤ n' := by exact_mod_cast hn
  exact hload.trans_le hn'

theorem not_above_succ (hload : ((⟨n, r + 1⟩ : Level).load : Rat) ≤ t.shrinkAt) :
    ¬Above t ⟨n, r + 1⟩ := by
  rintro (habove | hbottom)
  · exact absurd hload (not_le.2 habove)
  · exact absurd hbottom (Nat.succ_ne_zero r)

/-- A level that is above the lower bound at the start has landed. -/
theorem Above.landed {l : Level} (habove : Above t l) : Landed t l.rung l :=
  ⟨Nat.le_refl _, habove, fun _ hlt hle => absurd hle (Nat.not_le.2 hlt)⟩

/-- The number of entries tells where they land. -/
theorem Landed.unique {l l' : Level} (hl : Landed t top l) (hl' : Landed t top l')
    (hentries : l'.entries = l.entries) : l' = l := by
  obtain ⟨n, r⟩ := l
  obtain ⟨n', r'⟩ := l'
  obtain rfl : n' = n := hentries
  have hnot : ¬r < r' := fun hlt => hl.highest r' hlt hl'.le_top hl'.above
  have hnot' : ¬r' < r := fun hlt => hl'.highest r hlt hl.le_top hl.above
  obtain rfl : r' = r := Nat.le_antisymm (Nat.not_lt.1 hnot) (Nat.not_lt.1 hnot')
  rfl

section Steps

variable {alloc : Allocator} (ha : alloc.GrantsLadder)

include ha

/-- One entry less leads at most one rung down, and lands there. -/
theorem Landed.adjusted (ht : t.Spaced) (htop : top < Ladder.height) (hn : n = n' + 1)
    (hl : Landed t top ⟨n, r⟩) (hbelow : Below t ⟨n, r⟩) :
    Landed t top (adjusted alloc t ⟨n', r⟩) := by
  have hr : r < Ladder.height := Nat.lt_of_le_of_lt hl.le_top htop
  have hless : n' ≤ n := hn ▸ Nat.le_succ n'
  have habove := above_adjusted ha hr ht (Nat.le_of_eq hn) hl.above
  -- What was not above the lower bound before is not with one entry less.
  have hhighest : ∀ q, r < q → q ≤ top → ¬Above t ⟨n', q⟩ := fun q hlt hle hq =>
    hl.highest q hlt hle (hq.of_ge (Nat.lt_of_le_of_lt hle htop) hless)
  obtain ⟨r', rfl, hload, heq⟩ | ⟨hup, hload, -⟩ | ⟨-, -, heq⟩ := adjusted_cases ha hr t n'
  · rw [heq] at habove ⊢
    refine ⟨Nat.le_of_succ_le hl.le_top, habove, fun q hlt hle => ?_⟩
    rcases Nat.eq_or_lt_of_le (Nat.succ_le_of_lt hlt) with rfl | hlt'
    · exact not_above_succ hload
    · exact hhighest q hlt' hle
  · rcases hbelow.of_le hr hless with hbefore | htop'
    · exact absurd hload (not_le.2 hbefore)
    · exact absurd htop' (Nat.ne_of_lt hup)
  · rw [heq] at habove ⊢
    exact ⟨hl.le_top, habove, hhighest⟩

/-- Taking steps down lands as soon as none is called for. -/
theorem landed_settledWithin (ht : t.Apart) {steps : Nat} (hsteps : r < steps) (hle : r ≤ top)
    (hr : r < Ladder.height) (hbelow : Below t ⟨n, r⟩)
    (hhighest : ∀ q, r < q → q ≤ top → ¬Above t ⟨n, q⟩) :
    Landed t top (settledWithin alloc t steps ⟨n, r⟩) := by
  induction steps generalizing r with
  | zero => cases hsteps
  | succ steps ih =>
    have hcalled : Called t ⟨n, r⟩ (next? alloc t ⟨n, r⟩) := called_next? ha t hr
    unfold settledWithin
    generalize next? alloc t ⟨n, r⟩ = target at hcalled ⊢
    cases hcalled with
    | @down r' rung load =>
      obtain rfl : r = r' + 1 := rung
      refine ih (Nat.lt_of_succ_lt_succ hsteps) (Nat.le_of_succ_le hle) (Nat.lt_of_succ_lt hr)
        (.inl (load_lt_of_shrink ht hr load)) fun q hlt hq => ?_
      rcases Nat.eq_or_lt_of_le (Nat.succ_le_of_lt hlt) with rfl | hlt'
      · exact not_above_succ load
      · exact hhighest q hlt' hq
    | up above rung load =>
      obtain hload | htop := hbelow
      · exact absurd load (not_le.2 hload)
      · exact absurd htop (Nat.ne_of_lt rung)
    | stay above below => exact ⟨hle, above, hhighest⟩

theorem landed_settled (ht : t.Apart) (hr : r < Ladder.height) (hn : n' ≤ n)
    (hbelow : Below t ⟨n, r⟩) : Landed t r (settled alloc t ⟨n', r⟩) :=
  landed_settledWithin ha ht hr (Nat.le_refl _) hr (hbelow.of_le hr hn)
    fun _ hlt hle => absurd hle (Nat.not_le.2 hlt)

end Steps

end MemIndex.Level
