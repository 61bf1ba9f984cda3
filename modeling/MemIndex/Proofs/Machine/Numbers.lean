import Mathlib
import MemIndex.HashedIndex.Thresholds

/-!
# Machine numbers

Loads and thresholds are machine numbers where a table runs. They are compared by their places in one
linear order, and two and a half times a number is found by rounding a product. What is needed of this
product is that it does not fall too low.
-/
namespace MemIndex.Machine

open Float.Model UnpackedFloat

/-! ## Order -/

/-- Where a number stands: by its sign, then by its exponent, then by its mantissa. What is not a number
stands nowhere. -/
def place : UnpackedFloat → Option (ℤ ×ₗ ℤ ×ₗ ℤ)
  | .notANumber => none
  | .infinity .negative => some (toLex (-2, toLex (0, 0)))
  | .finite .negative m e _ => some (toLex (-1, toLex (-e, -m)))
  | .zero _ => some (toLex (0, toLex (0, 0)))
  | .finite .positive m e _ => some (toLex (1, toLex (e, m)))
  | .infinity .positive => some (toLex (2, toLex (0, 0)))

theorem compare_neg (a b : ℤ) : compare (-a) (-b) = (compare a b).swap := by
  obtain h | rfl | h := lt_trichotomy a b
  · rw [compare_lt_iff_lt.2 h, compare_gt_iff_gt.2 (Int.neg_lt_neg h)]
    rfl
  · rw [compare_eq_iff_eq.2 rfl, compare_eq_iff_eq.2 rfl]
    rfl
  · rw [compare_gt_iff_gt.2 h, compare_lt_iff_lt.2 (Int.neg_lt_neg h)]
    rfl

theorem compare_natCast (a b : ℕ) : compare (a : ℤ) (b : ℤ) = compare a b := by
  obtain h | rfl | h := lt_trichotomy a b
  · rw [compare_lt_iff_lt.2 h, compare_lt_iff_lt.2 (Int.ofNat_lt.2 h)]
  · rw [compare_eq_iff_eq.2 rfl, compare_eq_iff_eq.2 rfl]
  · rw [compare_gt_iff_gt.2 h, compare_gt_iff_gt.2 (Int.ofNat_lt.2 h)]

theorem compare_eq (a b : UnpackedFloat) :
    a.compare b = (place a).bind fun x => (place b).map fun y => compare x y := by
  rcases a with (_ | _) | _ | (_ | _) | ⟨_ | _, m, e, hm⟩ <;>
    rcases b with (_ | _) | _ | (_ | _) | ⟨_ | _, m', e', hm'⟩ <;> try rfl
  · change some ((compare e e').then (compare m m')).swap =
      some ((compare (-e) (-e')).then (compare (-m : ℤ) (-m')))
    rw [compare_neg, compare_neg, compare_natCast, Ordering.swap_then]
  · change some ((compare e e').then (compare m m')) =
      some ((compare e e').then (compare (m : ℤ) m'))
    rw [compare_natCast]

theorem le_iff {a b : Float} :
    a ≤ b ↔ ∃ x, place a.toModel.unpack = some x ∧ ∃ y, place b.toModel.unpack = some y ∧ x ≤ y := by
  have hle : a ≤ b ↔ a.toModel.unpack.le b.toModel.unpack = true :=
    decide_eq_true_iff (p := a.toModel ≤ b.toModel)
  rw [hle, UnpackedFloat.le, compare_eq]
  cases place a.toModel.unpack with
  | none => simp
  | some x =>
    cases place b.toModel.unpack with
    | none => simp
    | some y => simp [← Ordering.ne_gt_iff_isLE, compare_le_iff_le]

theorem lt_iff {a b : Float} :
    a < b ↔ ∃ x, place a.toModel.unpack = some x ∧ ∃ y, place b.toModel.unpack = some y ∧ x < y := by
  have hlt : a < b ↔ a.toModel.unpack.lt b.toModel.unpack = true :=
    decide_eq_true_iff (p := a.toModel < b.toModel)
  rw [hlt, UnpackedFloat.lt, compare_eq]
  cases place a.toModel.unpack with
  | none => simp
  | some x =>
    cases place b.toModel.unpack with
    | none => simp
    | some y => simp [compare_lt_iff_lt]

theorem le_trans {a b c : Float} (hab : a ≤ b) (hbc : b ≤ c) : a ≤ c := by
  obtain ⟨x, hx, y, hy, hxy⟩ := le_iff.1 hab
  obtain ⟨y', hy', z, hz, hyz⟩ := le_iff.1 hbc
  cases hy.symm.trans hy'
  exact le_iff.2 ⟨x, hx, z, hz, hxy.trans hyz⟩

theorem lt_of_lt_of_le {a b c : Float} (hab : a < b) (hbc : b ≤ c) : a < c := by
  obtain ⟨x, hx, y, hy, hxy⟩ := lt_iff.1 hab
  obtain ⟨y', hy', z, hz, hyz⟩ := le_iff.1 hbc
  cases hy.symm.trans hy'
  exact lt_iff.2 ⟨x, hx, z, hz, hxy.trans_le hyz⟩

/-! ## Rounding -/

theorem mantissa_shiftRight (em : ExtendedMantissa) (k : Nat) :
    (em >>> k).mantissa = em.mantissa / 2 ^ k := by
  change (k.repeat ExtendedMantissa.shiftRightOne em).mantissa = _
  induction k with
  | zero => simp [Nat.repeat]
  | succ k ih =>
    change (k.repeat ExtendedMantissa.shiftRightOne em).mantissa / 2 = _
    rw [ih, Nat.div_div_eq_div_mul, Nat.pow_succ]

theorem roundedMantissa_bounds (em : ExtendedMantissa) :
    em.mantissa ≤ em.roundedMantissa ∧ em.roundedMantissa ≤ em.mantissa + 1 := by
  obtain ⟨m, r, s⟩ := em
  cases r <;> cases s <;>
    simp only [ExtendedMantissa.roundedMantissa, ExtendedMantissa.accuracy,
      Accuracy.roundToNearestEven] <;> omega

/-- The exponent of a number whose mantissa has so many bits too many. -/
theorem targetExponent_eq {m k : Nat} {e : Int} (hm : m.log2 = 52 + k) (he : -1074 ≤ e + k) :
    Format.binary64.targetExponent (totalExponent m e) = e + k := by
  have hmin : Format.binary64.minExponent = -1074 := rfl
  have hbits : Format.binary64.mantissaBits = 53 := rfl
  rw [Format.targetExponent, totalExponent, hmin, hbits, hm]
  omega

theorem shiftToTargetExponent_eq {m k : Nat} {e : Int} (hm : m.log2 = 52 + k)
    (he : -1074 ≤ e + k) :
    (shiftToTargetExponent Format.binary64 m e .exact).1.mantissa = m / 2 ^ k ∧
      (shiftToTargetExponent Format.binary64 m e .exact).2 = e + k := by
  have hk : (e + k - e).toNat = k := by omega
  rw [shiftToTargetExponent, targetExponent_eq hm he, shiftToExponent, hk]
  exact ⟨mantissa_shiftRight _ k, rfl⟩

theorem log2_eq {m : Nat} (hlow : 2 ^ 52 ≤ m) (hhigh : m < 2 ^ 53) : m.log2 = 52 + 0 :=
  (Nat.log2_eq_iff (by omega)).2 ⟨hlow, hhigh⟩

theorem round_of_shift {m m₁ m₂ : Nat} {e e₁ e₂ : Int}
    (hround : (shiftToTargetExponent Format.binary64 m e .exact).1.roundedMantissa = m₁)
    (hexp : (shiftToTargetExponent Format.binary64 m e .exact).2 = e₁)
    (hlast : (shiftToTargetExponent Format.binary64 m₁ e₁ .exact).1.mantissa = m₂ ∧
      (shiftToTargetExponent Format.binary64 m₁ e₁ .exact).2 = e₂) (hpos : 0 < m₂) :
    roundWithAccuracy Format.binary64 .positive m e .exact = .finite .positive m₂ e₂ hpos := by
  subst hround hexp
  obtain ⟨rfl, rfl⟩ := hlast
  exact dif_neg hpos.ne'

/-- Rounding leads no lower than cutting off. -/
theorem exists_round {m k : Nat} {e : Int} (hm : m.log2 = 52 + k) (he : -1074 ≤ e + k) :
    ∃ m' e' hpos, roundWithAccuracy Format.binary64 .positive m e .exact =
        .finite .positive m' e' hpos ∧ 2 ^ 52 ≤ m' ∧ m' < 2 ^ 53 ∧
      (e' = e + k ∧ m / 2 ^ k ≤ m' ∨ e' = e + k + 1) := by
  obtain ⟨hcut, hexp⟩ := shiftToTargetExponent_eq hm he
  obtain ⟨hlow, hhigh⟩ := roundedMantissa_bounds
    (shiftToTargetExponent Format.binary64 m e .exact).1
  have hm0 : m ≠ 0 := by
    rintro rfl
    rw [Nat.log2_zero] at hm
    omega
  obtain ⟨hlog, hlog'⟩ := (Nat.log2_eq_iff hm0).1 hm
  have hcutlow : 2 ^ 52 ≤ m / 2 ^ k :=
    (Nat.le_div_iff_mul_le (Nat.two_pow_pos k)).2 (Nat.pow_add 2 52 k ▸ hlog)
  have hcuthigh : m / 2 ^ k < 2 ^ 53 := by
    rw [Nat.div_lt_iff_lt_mul (Nat.two_pow_pos k), ← Nat.pow_add, Nat.add_right_comm 52 1 k]
    exact hlog'
  rw [hcut] at hlow hhigh
  generalize hround : (shiftToTargetExponent Format.binary64 m e .exact).1.roundedMantissa = r
    at hlow hhigh
  by_cases hr : r < 2 ^ 53
  · have hrlow := hcutlow.trans hlow
    have hlast := shiftToTargetExponent_eq (log2_eq hrlow hr) (show -1074 ≤ e + k + (0 : Nat) by omega)
    rw [Nat.pow_zero, Nat.div_one, Int.natCast_zero, Int.add_zero] at hlast
    exact ⟨r, e + k, by omega, round_of_shift hround hexp hlast _, hrlow, hr, .inl ⟨rfl, hlow⟩⟩
  · obtain rfl : r = 2 ^ 53 := by omega
    have hlast := shiftToTargetExponent_eq (m := 2 ^ 53) (k := 1) (e := e + k)
      Nat.log2_two_pow (by omega)
    exact ⟨2 ^ 52, e + k + 1, by omega, round_of_shift hround hexp hlast _, Nat.le_refl _,
      by omega, .inr rfl⟩

/-! ## Packing -/

theorem unpack_packedInfinity :
    UnpackedFloat.unpack Format.binary64 (packedInfinity Format.binary64 .positive) =
      .infinity .positive := by
  rfl

/-- The first bit of a full mantissa is not stored. -/
theorem toNat_one_append (v : BitVec 52) : (1#1 ++ v).toNat = 2 ^ 52 + v.toNat := by
  rw [BitVec.toNat_append, ← Nat.shiftLeft_add_eq_or_of_lt v.isLt, Nat.shiftLeft_eq]
  simp

/-- A number of full length is unpacked as it was packed, if its exponent is not too great. -/
theorem unpack_pack {m : Nat} {e : Int} (hpos : 0 < m) (hlow : 2 ^ 52 ≤ m) (hhigh : m < 2 ^ 53)
    (he : -1074 ≤ e) :
    (Float.Model.pack (.finite .positive m e hpos)).unpack = .finite .positive m e hpos ∨
      (Float.Model.pack (.finite .positive m e hpos)).unpack = .infinity .positive := by
  have hbias : (Format.binary64.exponentBias : Int) = 1023 := rfl
  obtain ⟨b, hb⟩ : ∃ b : Nat, e + 1023 + (52 : Nat) = b := Int.eq_ofNat_of_zero_le (by omega)
  have hbits : m.log2 + 1 = Format.binary64.mantissaBits := by
    rw [log2_eq hlow hhigh]
    rfl
  have hpack : UnpackedFloat.pack Format.binary64 (.finite .positive m e hpos) =
      if 2 ^ 11 ≤ b + 1 then packedInfinity Format.binary64 .positive
      else packComponents Format.binary64 .positive (BitVec.ofNat 11 b) (BitVec.ofNat 52 m) := by
    rw [UnpackedFloat.pack, hbias]
    dsimp only
    rw [hb, Int.toNat_natCast, if_pos hbits]
  change UnpackedFloat.unpack _ (UnpackedFloat.pack Format.binary64 _) = _ ∨
    UnpackedFloat.unpack _ (UnpackedFloat.pack Format.binary64 _) = _
  rw [hpack]
  split
  · exact .inr unpack_packedInfinity
  · left
    have hexp : (BitVec.ofNat 11 b).toNat = b := by
      rw [BitVec.toNat_ofNat]
      omega
    have hmantissa : (1#1 ++ BitVec.ofNat 52 m).toNat = m := by
      rw [toNat_one_append, BitVec.toNat_ofNat]
      omega
    -- Neither the exponent of the infinities nor that of the short mantissas.
    have hlast : BitVec.ofNat 11 b ≠ -1#11 := BitVec.toNat_ne.2 (by
      rw [hexp]
      exact (show b < 2047 by omega).ne)
    have hfirst : BitVec.ofNat 11 b ≠ 0#11 := BitVec.toNat_ne.2 (by
      rw [hexp]
      exact (show 0 < b by omega).ne')
    simp only [UnpackedFloat.unpack, unpackMantissa_packComponents, unpackExponent_packComponents,
      unpackSign_packComponents, if_neg hlast, if_neg hfirst, hmantissa, hexp]
    have hexponent : (b : Int) - (Format.binary64.exponentBias + (52 : Nat)) = e := by omega
    simp only [hexponent]
    rfl

/-- Short mantissas go with the least exponent only. -/
theorem full_mantissa {b : BitVec 64} {sign : Sign} {m : Nat} {e : Int} {hpos : 0 < m}
    (hb : UnpackedFloat.unpack Format.binary64 b = .finite sign m e hpos) (he : -1074 < e) :
    2 ^ 52 ≤ m ∧ m < 2 ^ 53 := by
  have hbias : (Format.binary64.exponentBias : Int) = 1023 := rfl
  rw [UnpackedFloat.unpack] at hb
  dsimp only at hb
  split at hb
  · split at hb <;> cases hb
  · split at hb
    · rename_i hexp
      split at hb
      · cases hb
      · cases hb
        rw [hexp, hbias] at he
        simp at he
    · cases hb
      have hlt : (@unpackMantissa Format.binary64 b).toNat < 2 ^ 52 := BitVec.isLt _
      rw [toNat_one_append]
      omega

/-- What carries a plus sign is not below zero. -/
theorem zero_le_place {b : BitVec 64} (hsign : @unpackSign Format.binary64 b = 0#1)
    {p : ℤ ×ₗ ℤ ×ₗ ℤ} (hp : place (UnpackedFloat.unpack Format.binary64 b) = some p) :
    toLex (0, toLex (0, 0)) ≤ p := by
  rw [UnpackedFloat.unpack, hsign] at hp
  dsimp only at hp
  split at hp
  · split at hp
    · cases hp
      decide
    · cases hp
  · split at hp
    · split at hp
      · cases hp
        exact le_refl _
      · cases hp
        exact Prod.Lex.toLex_le_toLex.2 (.inl Int.one_pos)
    · cases hp
      exact Prod.Lex.toLex_le_toLex.2 (.inl Int.one_pos)

theorem unpackSign_pack (m : Nat) (e : Int) (hpos : 0 < m) :
    unpackSign (UnpackedFloat.pack Format.binary64 (.finite .positive m e hpos)) = 0#1 := by
  rw [UnpackedFloat.pack]
  dsimp only
  split
  · exact unpackSign_packComponents _ _ _
  · split <;> exact unpackSign_packComponents _ _ _

/-! ## Two and a half times a number -/

theorem unpack_spread : (2.5 : Float).toModel.unpack =
    .finite .positive 5629499534213120 (-51) (by decide) := rfl

theorem unpack_mul (x : Float) : (x * 2.5).toModel.unpack = (Float.Model.pack
    (UnpackedFloat.mul Format.binary64 x.toModel.unpack (2.5 : Float).toModel.unpack)).unpack := rfl

theorem round_cases (m : Nat) (e : Int) :
    roundWithAccuracy Format.binary64 .positive m e .exact = .zero .positive ∨
      ∃ m' e' hpos, roundWithAccuracy Format.binary64 .positive m e .exact =
        .finite .positive m' e' hpos := by
  rw [roundWithAccuracy]
  dsimp only
  split
  · exact .inl rfl
  · rename_i hne
    exact .inr ⟨_, _, Nat.pos_of_ne_zero hne, rfl⟩

theorem cases_of_zero_le {u : UnpackedFloat} {p : ℤ ×ₗ ℤ ×ₗ ℤ} (hu : place u = some p)
    (hp : toLex (0, toLex (0, 0)) ≤ p) :
    (∃ sign, u = .zero sign) ∨ (∃ m e hpos, u = .finite .positive m e hpos) ∨
      u = .infinity .positive := by
  rcases u with (_ | _) | _ | sign | ⟨_ | _, m, e, hpos⟩
  · cases hu
    exact absurd hp (by decide)
  · exact .inr (.inr rfl)
  · cases hu
  · exact .inl ⟨sign, rfl⟩
  · cases hu
    obtain h | ⟨h, -⟩ := Prod.Lex.toLex_le_toLex.1 hp <;> cases h
  · exact .inr (.inl ⟨m, e, hpos, rfl⟩)

/-- A product that is too small is rounded to zero, never below. -/
theorem not_spread_lt_zero {x : Float} (hx : 0 ≤ x) : ¬x * 2.5 < 0 := by
  intro hlt
  obtain ⟨p, hp, q, hq, hpq⟩ := lt_iff.1 hlt
  obtain ⟨y, hy, z, hz, hyz⟩ := le_iff.1 hx
  cases hy
  cases hq
  refine absurd hpq (not_lt.2 ?_)
  rw [unpack_mul, unpack_spread] at hp
  generalize x.toModel.unpack = u at hp hz
  obtain ⟨sign, rfl⟩ | ⟨m, e, hpos, rfl⟩ | rfl := cases_of_zero_le hz hyz
  · cases sign <;> cases hp <;> exact le_refl _
  · refine zero_le_place ?_ hp
    change unpackSign (UnpackedFloat.pack Format.binary64
      (roundWithAccuracy Format.binary64 .positive _ _ .exact)) = 0#1
    obtain h | ⟨m', e', hpos, h⟩ := round_cases (m * 5629499534213120) (e + -51)
    · rw [h]
      rfl
    · rw [h]
      exact unpackSign_pack m' e' hpos
  · exact zero_le_place rfl hp

/-- With the next exponent five quarters of the mantissa are reached, rounded down, and otherwise the
exponent is higher still. -/
theorem spread_ge {x : Float} {m : Nat} {e : Int} {hpos : 0 < m}
    (hx : x.toModel.unpack = .finite .positive m e hpos) (he : -1074 < e) :
    ∃ p, place (x * 2.5).toModel.unpack = some p ∧
      toLex (1, toLex (e + 1, ((5 * m / 4 : Nat) : ℤ))) ≤ p := by
  obtain ⟨hlow, hhigh⟩ := full_mantissa hx he
  -- The product of the mantissas has 52 or 53 bits too many.
  obtain ⟨k, hk, hlog, hge⟩ : ∃ k, 52 ≤ k ∧ (m * 5629499534213120).log2 = 52 + k ∧
      (k = 52 → m * 5629499534213120 / 2 ^ k = 5 * m / 4) := by
    by_cases hm : m * 5629499534213120 < 2 ^ 105
    · refine ⟨52, Nat.le_refl _, (Nat.log2_eq_iff (by omega)).2 ⟨by omega, by omega⟩, fun _ => by omega⟩
    · refine ⟨53, by omega, (Nat.log2_eq_iff (by omega)).2 ⟨by omega, by omega⟩, fun h => by omega⟩
  obtain ⟨m', e', hpos', hround, hlow', hhigh', hcases⟩ :=
    exists_round (e := e + -51) hlog (by omega)
  rw [unpack_mul, hx, unpack_spread]
  change ∃ p, place (Float.Model.pack (roundWithAccuracy Format.binary64 .positive
    (m * 5629499534213120) (e + -51) .exact)).unpack = some p ∧ _
  rw [hround]
  obtain hpack | hpack := unpack_pack hpos' hlow' hhigh' (show -1074 ≤ e' by omega)
  · refine ⟨toLex (1, toLex (e', m')), by rw [hpack]; rfl,
      Prod.Lex.toLex_le_toLex.2 (.inr ⟨rfl, ?_⟩)⟩
    refine Prod.Lex.toLex_le_toLex.2 ?_
    dsimp only
    obtain ⟨hexp, hmantissa⟩ | hexp := hcases
    · by_cases hk' : k = 52
      · right
        rw [hge hk'] at hmantissa
        omega
      · left
        omega
    · left
      omega
  · exact ⟨toLex (2, toLex (0, 0)), by rw [hpack]; rfl,
      Prod.Lex.toLex_le_toLex.2 (.inl (show (1 : ℤ) < 2 by decide))⟩

/-- From the load of two entries on the fourth rung upwards, two and a half times a lower threshold is not
less than the load of one entry on the second. -/
theorem not_spread_lt {x : Float} (hfinite : x.isFinite = true) (hx : 2 / 359 ≤ x) :
    ¬x * 2.5 < 1 / 79 := by
  intro hlt
  obtain ⟨p, hp, q, hq, hpq⟩ := lt_iff.1 hlt
  obtain ⟨y, hy, z, hz, hyz⟩ := le_iff.1 hx
  have hlow : place (2 / 359 : Float).toModel.unpack =
      some (toLex (1, toLex (-60, 6422961028450401))) := rfl
  have hhigh : place (1 / 79 : Float).toModel.unpack =
      some (toLex (1, toLex (-59, 7296971548144601))) := rfl
  cases hlow.symm.trans hy
  cases hhigh.symm.trans hq
  have hzero : toLex (0, toLex (0, 0)) ≤ z :=
    (Prod.Lex.toLex_le_toLex.2 (.inl Int.one_pos)).trans hyz
  obtain ⟨sign, hu⟩ | ⟨m, e, hpos, hu⟩ | hu := cases_of_zero_le hz hzero
  · rw [hu] at hz
    cases hz
    exact absurd hyz (by decide)
  · rw [hu] at hz
    cases hz
    have hlex : -60 < e ∨ -60 = e ∧ (6422961028450401 : ℤ) ≤ m := by
      simpa [Prod.Lex.toLex_le_toLex] using hyz
    obtain ⟨p', hp', hge⟩ := spread_ge hu (by omega)
    cases hp.symm.trans hp'
    refine absurd (hge.trans_lt hpq) (not_lt.2 ?_)
    refine Prod.Lex.toLex_le_toLex.2 (.inr ⟨rfl, Prod.Lex.toLex_le_toLex.2 ?_⟩)
    dsimp only
    omega
  · change x.toModel.unpack.isFinite = true at hfinite
    rw [hu] at hfinite
    cases hfinite

end MemIndex.Machine
