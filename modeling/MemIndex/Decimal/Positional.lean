import MemIndex.Decimal.Shortest

/-!
# Numbers written out in full

Every finite number is written with the fewest digits that read back and without an exponent, however
many zeros that takes; a whole number has no fractional part, and a zero keeps its sign.
-/
namespace MemIndex.Decimal

def zeros (n : Nat) : List Char := List.replicate n '0'

/-- Puts the point in front of the last `places` digits. -/
def withPoint (digits : List Char) (places : Nat) : List Char :=
  if digits.length ≤ places then
    '0' :: '.' :: (zeros (places - digits.length) ++ digits)
  else
    digits.take (digits.length - places) ++ '.' :: digits.drop (digits.length - places)

def written (d : Decimal) : List Char :=
  let digits := Nat.toDigits 10 d.digits
  if 0 ≤ d.exponent then digits ++ zeros d.exponent.toNat
  else withPoint digits (-d.exponent).toNat

/-- The text of the magnitude with the given biased exponent and fraction. -/
def magnitude (biased fraction : Nat) : List Char :=
  if biased = 0 ∧ fraction = 0 then ['0']
  else if biased = 0 then (Interval.ofBinary fraction (-1074) false).shortest.written
  else
    (Interval.ofBinary (twoTo 52 + fraction) (biased - 1075) (fraction == 0 && biased != 1)).shortest
      |>.written

/-- Reads the fields of a binary number of 64 bits and writes it out. -/
def ofBits (bits : UInt64) : String :=
  let biased := (bits >>> 52 &&& 0x7ff).toNat
  let fraction := (bits &&& 0xfffffffffffff).toNat
  let sign := if bits >>> 63 = 1 then ['-'] else []
  if biased = 0x7ff then
    if fraction = 0 then String.ofList (sign ++ ['i', 'n', 'f']) else "NaN"
  else String.ofList (sign ++ magnitude biased fraction)

def text (x : Float) : String := ofBits x.toBits

end MemIndex.Decimal
