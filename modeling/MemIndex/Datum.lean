import MemIndex.Hashing

/-!
# Kinds of data

Words of 64 bits, texts and byte strings can be keys and values of a hashed index. For each kind there
is a size, the hash that suits it, the bytes fed to a byte-wise hash, a coarser form that several data
share, a relation of covering, and a written form. The data of a numbered series are the keys and
values that bulk operations use.
-/
namespace MemIndex

class Datum (α : Type) extends BEq α where
  size : α → Nat
  hash : α → UInt64
  feed : α → List UInt8
  /-- A form that some different data have in common. -/
  fold : α → α
  /-- Whether the first datum covers the second. -/
  covers : α → α → Bool
  written : α → String
  /-- The key of a number in a series with a common text in front. -/
  seriesKey : String → Nat → α
  /-- The value of a number in a series, from the square of the number. -/
  seriesValue : Nat → α

namespace Datum

def hexDigit (n : Nat) : Char := if n < 10 then Char.ofNat (48 + n) else Char.ofNat (87 + n)

/-- Two lowercase digits for each byte. -/
def hex (bytes : List UInt8) : String :=
  String.ofList (bytes.flatMap fun b => [hexDigit (b.toNat / 16), hexDigit (b.toNat % 16)])

/-- Capital letters for the small letters of ASCII. -/
def capital (byte : UInt8) : UInt8 := if 97 ≤ byte ∧ byte ≤ 122 then byte - 32 else byte

/-- The square of a number, wrapping. -/
def square (n : Nat) : UInt64 := UInt64.ofNat n * UInt64.ofNat n

def seriesText (front : String) (n : Nat) : String := front ++ toString n

instance : Datum UInt64 where
  size x := x.toNat
  hash := Hashing.mix
  feed := Hashing.littleEndian
  fold x := x &&& ~~~1
  covers x y := decide (y ≤ x)
  written x := toString x.toNat
  seriesKey _ n := UInt64.ofNat n
  seriesValue := square

instance : Datum String where
  size s := s.utf8ByteSize
  hash := Hashing.textHash
  feed s := Hashing.textBytes s ++ [0xff]
  fold s := s.map Char.toUpper
  covers s t := (Hashing.textBytes t).isPrefixOf (Hashing.textBytes s)
  written s := s
  seriesKey := seriesText
  seriesValue n := toString (square n).toNat

instance : Datum (List UInt8) where
  size bs := bs.length
  hash := Hashing.xorHash
  feed bs := Hashing.littleEndian (UInt64.ofNat bs.length) ++ bs
  fold bs := bs.map capital
  covers bs cs := cs.isPrefixOf bs
  written := hex
  seriesKey front n := Hashing.textBytes (seriesText front n)
  seriesValue n := Hashing.textBytes (toString (square n).toNat)

end Datum

end MemIndex
