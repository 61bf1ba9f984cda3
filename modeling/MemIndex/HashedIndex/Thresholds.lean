/-!
# Load thresholds

The load of a table is the number of its entries over the number of its buckets. A table steps up the
ladder when the load reaches one threshold and down when it falls to the other. One step changes the
load by a factor of about two, so the thresholds must lie more than a factor of two and a half apart.

Loads are measured on a scale: machine numbers where a table runs, rational numbers where exactness is
wanted.
-/
namespace MemIndex

/-- Numbers in which loads and thresholds are measured. -/
class LoadScale (ρ : Type) where
  zero : ρ
  /-- So many entries over so many buckets. -/
  ratio : Nat → Nat → ρ
  /-- Two and a half times a number. -/
  spread : ρ → ρ
  atMost : ρ → ρ → Bool
  below : ρ → ρ → Bool
  isFinite : ρ → Bool

instance : LoadScale Float where
  zero := 0
  ratio entries buckets := Float.ofNat entries / Float.ofNat buckets
  spread x := x * 2.5
  atMost x y := decide (x ≤ y)
  below x y := decide (x < y)
  isFinite x := x.isFinite

instance : LoadScale Rat where
  zero := 0
  ratio entries buckets := (entries : Rat) / (buckets : Rat)
  spread x := x * (5 / 2)
  atMost x y := decide (x ≤ y)
  below x y := decide (x < y)
  isFinite _ := true

structure Thresholds (ρ : Type) where
  /-- A load of at least this steps up. -/
  growAt : ρ
  /-- A load of at most this steps down. -/
  shrinkAt : ρ

namespace Thresholds

variable {ρ : Type} [LoadScale ρ]

open LoadScale

def usable (t : Thresholds ρ) : Bool :=
  isFinite t.growAt && isFinite t.shrinkAt && atMost zero t.shrinkAt &&
    below (spread t.shrinkAt) t.growAt

def standard : Thresholds Float := ⟨2, 0.25⟩

/-- Compares the numbers as numbers, so that a zero equals its negative. -/
def isStandard (t : Thresholds Float) : Bool :=
  t.growAt == standard.growAt && t.shrinkAt == standard.shrinkAt

theorem usable_standard : standard.usable = true := by decide +kernel

end Thresholds

end MemIndex
