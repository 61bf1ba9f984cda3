/-!
# The fewest digits that read back

A finite binary number stands for every real number that rounds to it, an interval around its value.
Among the decimal numbers of that interval those on the coarsest grid of powers of ten have the
fewest digits; of these the nearest to the value is taken, and the greater one at equal distance.
On every grid only the two neighbours of the value need a look: if any point of the grid lies in the
interval, one of the neighbours does.
-/
namespace MemIndex

/-- The number `digits * 10 ^ exponent`. -/
structure Decimal where
  digits : Nat
  exponent : Int

namespace Decimal

/-- A power of two, one for a negative exponent. -/
def twoTo (exponent : Int) : Nat := Nat.pow 2 exponent.toNat

/-- A power of ten, one for a negative exponent. -/
def tenTo (exponent : Int) : Nat := Nat.pow 10 exponent.toNat

/-- A positive number with the interval that rounds to it, over one common denominator. -/
structure Interval where
  low : Nat
  value : Nat
  high : Nat
  denominator : Nat
  /-- Whether the ends themselves round to the number. -/
  closed : Bool

namespace Interval

/-- The interval of `mantissa * 2 ^ exponent`. Below a power of two the numbers lie twice as dense,
so the interval reaches half as far down. -/
def ofBinary (mantissa : Nat) (exponent : Int) (denseBelow : Bool) : Interval where
  low := (4 * mantissa - if denseBelow then 1 else 2) * twoTo (exponent - 2)
  value := 4 * mantissa * twoTo (exponent - 2)
  high := (4 * mantissa + 2) * twoTo (exponent - 2)
  denominator := twoTo (2 - exponent)
  closed := mantissa % 2 == 0

/-- Whether `digits * coarse / fine` lies in the interval. -/
def holds (i : Interval) (coarse fine digits : Nat) : Bool :=
  let point := digits * coarse * i.denominator
  if i.closed then decide (i.low * fine ≤ point ∧ point ≤ i.high * fine)
  else decide (i.low * fine < point ∧ point < i.high * fine)

/-- The nearer of the neighbours of the value that lie in the interval, on the grid of multiples of
`10 ^ exponent`. -/
def onGrid? (i : Interval) (exponent : Int) : Option Decimal :=
  let coarse := tenTo exponent
  let fine := tenTo (-exponent)
  let step := coarse * i.denominator
  let below := i.value * fine / step
  let rest := i.value * fine % step
  match i.holds coarse fine below, i.holds coarse fine (below + 1) with
  | true, true => some ⟨if 2 * rest < step then below else below + 1, exponent⟩
  | true, false => some ⟨below, exponent⟩
  | false, true => some ⟨below + 1, exponent⟩
  | false, false => none

/-- The first hit on the grids from `10 ^ exponent` downwards. -/
def search (i : Interval) : Nat → Int → Decimal
  | 0, exponent => ⟨i.value, exponent⟩
  | grids + 1, exponent =>
    match i.onGrid? exponent with
    | some d => d
    | none => i.search grids (exponent - 1)

/-- No finite binary number of 64 bits needs a grid outside `10 ^ 309` to `10 ^ (-340)`. -/
def shortest (i : Interval) : Decimal := i.search 650 309

end Interval

end Decimal

end MemIndex
