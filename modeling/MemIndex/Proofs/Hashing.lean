import Mathlib.Logic.Function.Basic
import MemIndex.Hashing

/-!
# What the hash functions tell apart

The mixer of words can be undone, so it tells all words apart. A multiplicative hash cannot be undone,
but each of its steps can once the byte is known, since 33 is odd. So two strings that differ in one byte
have different hashes from this byte on, however many bytes follow.
-/
namespace MemIndex.Hashing

/-! ## Words -/

/-- Folds the high bits of a word into the low ones. -/
def foldOnce (n x : UInt64) : UInt64 := x ^^^ (x >>> n)

/-- The same, with the bits that are twice as high as well. -/
def foldTwice (n x : UInt64) : UInt64 := x ^^^ (x >>> n) ^^^ (x >>> (n + n))

section Shifts

variable {n : UInt64} (hlow : 22 ≤ n.toNat) (hhigh : n.toNat < 32) (x : UInt64)

include hhigh

theorem shiftRight_twice : x >>> n >>> n = x >>> (n + n) := by
  have hdouble : (n + n).toNat = n.toNat + n.toNat := by
    rw [UInt64.toNat_add]
    omega
  apply UInt64.toNat_inj.1
  simp only [UInt64.toNat_shiftRight, hdouble]
  rw [Nat.mod_eq_of_lt (by omega), Nat.mod_eq_of_lt (by omega), Nat.shiftRight_add]

include hlow

theorem shiftRight_thrice : x >>> n >>> n >>> n = 0 := by
  have hbits : 2 ^ 64 ≤ 2 ^ (n.toNat + (n.toNat + n.toNat)) :=
    Nat.pow_le_pow_right (by decide) (by omega)
  apply UInt64.toNat_inj.1
  simp only [UInt64.toNat_shiftRight]
  rw [Nat.mod_eq_of_lt (by omega), ← Nat.shiftRight_add, ← Nat.shiftRight_add]
  exact Nat.shiftRight_eq_zero _ _ (Nat.lt_of_lt_of_le x.toNat_lt hbits)

/-- What was folded in twice is taken out by folding once. -/
theorem foldOnce_foldTwice : foldOnce n (foldTwice n x) = x := by
  -- The second shift meets the first one, and so on; a third leaves nothing of a word.
  simp only [foldOnce, foldTwice, ← shiftRight_twice hhigh, UInt64.shiftRight_xor,
    shiftRight_thrice hlow hhigh, UInt64.xor_zero]
  rw [UInt64.xor_assoc x, UInt64.xor_assoc, UInt64.xor_self, UInt64.xor_zero]

theorem foldTwice_foldOnce : foldTwice n (foldOnce n x) = x := by
  simp only [foldOnce, foldTwice, ← shiftRight_twice hhigh, UInt64.shiftRight_xor,
    shiftRight_thrice hlow hhigh, UInt64.xor_zero]
  rw [UInt64.xor_assoc, UInt64.xor_assoc (x >>> n), UInt64.xor_self, UInt64.xor_zero,
    UInt64.xor_assoc, UInt64.xor_self, UInt64.xor_zero]

end Shifts

theorem mul_mul_cancel {k l : UInt64} (h : k * l = 1) (x : UInt64) : x * k * l = x := by
  rw [UInt64.mul_assoc, h, UInt64.mul_one]

/-- Takes apart what the mixer has put together, in the opposite order. -/
def unmix (y : UInt64) : UInt64 :=
  let y := (y ^^^ (y >>> 30)) * 0xbf58476d1ce4e5b9
  let y := (y ^^^ (y >>> 27)) * 0x94d049bb133111eb
  y ^^^ (y >>> 31)

theorem mix_eq (x : UInt64) : mix x = foldTwice 30 (foldTwice 27 (foldTwice 31 x *
    0x319642b2d24d8ec3) * 0x96de1b173f119089) := rfl

theorem unmix_eq (y : UInt64) : unmix y = foldOnce 31 (foldOnce 27 (foldOnce 30 y *
    0xbf58476d1ce4e5b9) * 0x94d049bb133111eb) := rfl

theorem unmix_mix (x : UInt64) : unmix (mix x) = x := by
  rw [mix_eq, unmix_eq, foldOnce_foldTwice (by decide) (by decide), mul_mul_cancel (by decide),
    foldOnce_foldTwice (by decide) (by decide), mul_mul_cancel (by decide),
    foldOnce_foldTwice (by decide) (by decide)]

theorem mix_unmix (y : UInt64) : mix (unmix y) = y := by
  rw [mix_eq, unmix_eq, foldTwice_foldOnce (by decide) (by decide), mul_mul_cancel (by decide),
    foldTwice_foldOnce (by decide) (by decide), mul_mul_cancel (by decide),
    foldTwice_foldOnce (by decide) (by decide)]

theorem mix_injective : Function.Injective mix := Function.LeftInverse.injective unmix_mix

/-! ## Strings of bytes -/

/-- Times 33 can be undone, for 33 is odd. -/
theorem times33_injective : Function.Injective fun h : UInt64 => h * 33 := by
  intro h h' heq
  have hinverse : (33 : UInt64) * 0x0f83e0f83e0f83e1 = 1 := by decide
  rw [← mul_mul_cancel hinverse h, ← mul_mul_cancel hinverse h']
  exact congrArg (· * 0x0f83e0f83e0f83e1) heq

theorem addStep_injective (byte : UInt8) : Function.Injective fun h => addStep h byte := fun _ _ h =>
  times33_injective ((UInt64.add_left_inj _).1 h)

theorem xorStep_injective (byte : UInt8) : Function.Injective fun h => xorStep h byte := fun _ _ h =>
  times33_injective ((UInt64.xor_left_inj _).1 h)

theorem addStep_byte_injective (h : UInt64) : Function.Injective (addStep h) := fun _ _ hbyte =>
  UInt8.toUInt64_inj.1 ((UInt64.add_right_inj _).1 hbyte)

theorem xorStep_byte_injective (h : UInt64) : Function.Injective (xorStep h) := fun _ _ hbyte =>
  UInt8.toUInt64_inj.1 ((UInt64.xor_right_inj _).1 hbyte)

section Folds

variable {α β : Type} {step : β → α → β} (hstep : ∀ a, Function.Injective fun b => step b a)

include hstep

/-- The same elements lead from different beginnings to different ends. -/
theorem foldl_injective (l : List α) : Function.Injective fun b => l.foldl step b := by
  induction l with
  | nil => exact Function.injective_id
  | cons a rest ih => exact ih.comp (hstep a)

theorem foldl_ne (helement : ∀ b, Function.Injective (step b)) (start : β) (p s : List α) {x y : α}
    (hne : x ≠ y) : (p ++ [x] ++ s).foldl step start ≠ (p ++ [y] ++ s).foldl step start := by
  intro heq
  simp only [List.foldl_append, List.foldl_cons, List.foldl_nil] at heq
  exact hne (helement _ (foldl_injective hstep s heq))

end Folds

/-- Strings of bytes that differ in one byte have different hashes, and so have texts whose bytes in
UTF-8 differ in one. -/
theorem one_byte_tells_apart (p s : List UInt8) {x y : UInt8} (hne : x ≠ y) :
    xorHash (p ++ [x] ++ s) ≠ xorHash (p ++ [y] ++ s) ∧
      addHash (p ++ [x] ++ s) ≠ addHash (p ++ [y] ++ s) ∧
      ∀ a b : String, textBytes a = p ++ [x] ++ s → textBytes b = p ++ [y] ++ s →
        textHash a ≠ textHash b := by
  have hadd : addHash (p ++ [x] ++ s) ≠ addHash (p ++ [y] ++ s) :=
    foldl_ne addStep_injective addStep_byte_injective seed p s hne
  have hxor : xorHash (p ++ [x] ++ s) ≠ xorHash (p ++ [y] ++ s) :=
    foldl_ne xorStep_injective xorStep_byte_injective seed p s hne
  refine ⟨hxor, hadd, fun a b ha hb => ?_⟩
  rwa [textHash, textHash, ha, hb]

/-- Two letters may differ in the second of their two bytes alone. -/
theorem one_byte_tells_apart_accent :
    (0xa9 : UInt8) ≠ 0xa8 ∧ textBytes "née!" = [0x6e, 0xc3] ++ [0xa9] ++ [0x65, 0x21] ∧
      textBytes "nèe!" = [0x6e, 0xc3] ++ [0xa8] ++ [0x65, 0x21] ∧
      xorHash [0x6e, 0xc3, 0xa9, 0x65, 0x21] ≠ xorHash [0x6e, 0xc3, 0xa8, 0x65, 0x21] ∧
      textHash "née!" ≠ textHash "nèe!" := by
  have hne : (0xa9 : UInt8) ≠ 0xa8 := by decide
  have hacute : textBytes "née!" = [0x6e, 0xc3] ++ [0xa9] ++ [0x65, 0x21] := by decide +kernel
  have hgrave : textBytes "nèe!" = [0x6e, 0xc3] ++ [0xa8] ++ [0x65, 0x21] := by decide +kernel
  obtain ⟨hxor, -, htext⟩ := one_byte_tells_apart [0x6e, 0xc3] [0x65, 0x21] hne
  exact ⟨hne, hacute, hgrave, hxor, htext _ _ hacute hgrave⟩

end MemIndex.Hashing
