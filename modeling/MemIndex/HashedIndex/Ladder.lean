/-!
# The bucket ladder

A table has as many buckets as the rung says on which it stands. The rungs are primes, each about
twice the one below, and a table moves by one rung at a time.
-/
namespace MemIndex.Ladder

def rungs : List Nat :=
  [37, 79, 181, 359, 743, 1511, 3023, 6037, 12073, 24001, 48017, 96001, 192007, 384001, 768013,
    1536011, 3072001, 6144001, 12288011, 24576001, 49152001, 98304053, 196608007, 393216007,
    786432001, 1572864001, 3145728023]

/-- The number of rungs. -/
def height : Nat := rungs.length

/-- None above the top rung. -/
def buckets? (rung : Nat) : Option Nat := rungs[rung]?

/-- The number of buckets on the lowest rung. -/
def bottom : Nat := 37

@[simp] theorem height_eq : height = 27 := rfl

@[simp] theorem buckets?_zero : buckets? 0 = some bottom := rfl

theorem buckets?_isSome {rung : Nat} : (buckets? rung).isSome ↔ rung < height := by
  simp [buckets?, height]

end MemIndex.Ladder
