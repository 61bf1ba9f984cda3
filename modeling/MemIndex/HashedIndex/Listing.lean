import MemIndex.Datum

/-!
# Listings in brief

A long listing of keys and values is told by its length and a digest of its written form: every key
and every value is followed by a comma, and a missing value is written `null`.
-/
namespace MemIndex.Listing

def digestStep (d : UInt64) (byte : UInt8) : UInt64 := d * 31 + byte.toUInt64

/-- Continues a digest with a text and a comma. -/
def digestText (d : UInt64) (text : String) : UInt64 :=
  digestStep ((Hashing.textBytes text).foldl digestStep d) 0x2c

def digest {κ ν : Type} [Datum κ] [Datum ν] (pairs : List (κ × Option ν)) : UInt64 :=
  pairs.foldl
    (fun d (key, value) =>
      digestText (digestText d (Datum.written key)) ((value.map Datum.written).getD "null"))
    0

end MemIndex.Listing
