/-!
# Hash functions

All are words of 64 bits, wrapping. The integer mixer and the two multiplicative hashes give the same
values everywhere, so the placement of entries can be reproduced.
-/
namespace MemIndex.Hashing

/-- Folds the high bits of a word into the low ones three times, with two odd multipliers between. -/
def mix (x : UInt64) : UInt64 :=
  let x := (x ^^^ (x >>> 31) ^^^ (x >>> 62)) * 0x319642b2d24d8ec3
  let x := (x ^^^ (x >>> 27) ^^^ (x >>> 54)) * 0x96de1b173f119089
  x ^^^ (x >>> 30) ^^^ (x >>> 60)

/-- The value of the multiplicative hashes on no bytes at all. -/
def seed : UInt64 := 5381

def addStep (h : UInt64) (byte : UInt8) : UInt64 := h * 33 + byte.toUInt64

def xorStep (h : UInt64) (byte : UInt8) : UInt64 := (h * 33) ^^^ byte.toUInt64

/-- Times 33 plus the byte. -/
def addHash (bytes : List UInt8) : UInt64 := bytes.foldl addStep seed

/-- Times 33, then exclusive or with the byte. -/
def xorHash (bytes : List UInt8) : UInt64 := bytes.foldl xorStep seed

/-- The bytes of a text in UTF-8. -/
def textBytes (text : String) : List UInt8 := text.toUTF8.data.toList

def textHash (text : String) : UInt64 := addHash (textBytes text)

/-- A word as eight bytes, the lowest first. -/
def littleEndian (x : UInt64) : List UInt8 :=
  (List.range 8).map fun i => (x >>> UInt64.ofNat (8 * i)).toUInt8

def fnvOffset : UInt64 := 0xcbf29ce484222325

def fnvPrime : UInt64 := 0x100000001b3

/-- Exclusive or with the byte, then times the prime. -/
def fnv (bytes : List UInt8) : UInt64 :=
  bytes.foldl (fun h byte => (h ^^^ byte.toUInt64) * fnvPrime) fnvOffset

end MemIndex.Hashing
