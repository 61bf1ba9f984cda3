/-!
# Ready-made comparators

The natural orders of integers, texts and records of an integer and a text, and others, some of which
are no order at all.
-/
namespace MemIndex.Comparator

/-- By the integer first and by the text second. -/
def lexical (a b : Int × String) : Ordering := (compare a.1 b.1).then (compare a.2 b.2)

def reverse {α : Type u} (cmp : α → α → Ordering) (a b : α) : Ordering := cmp b a

def constant {α : Type u} (answer : Ordering) (_ _ : α) : Ordering := answer

/-- By distance from zero. -/
def magnitude (a b : Int) : Ordering := compare a.natAbs b.natAbs

/-- By the remainder, which is never negative. -/
def remainder (modulus a b : Int) : Ordering := compare (a % modulus) (b % modulus)

/-- Each residue modulo three comes before the next one, around the circle. -/
def cyclic (a b : Int) : Ordering :=
  match (b - a) % 3 with
  | 0 => .eq
  | 1 => .lt
  | _ => .gt

/-- By the number of bytes in UTF-8. -/
def byteLength (a b : String) : Ordering := compare a.utf8ByteSize b.utf8ByteSize

/-- By the number of code points. -/
def length (a b : String) : Ordering := compare a.length b.length

/-- The letters of ASCII count as small. -/
def caseless (a b : String) : Ordering := compare (a.map Char.toLower) (b.map Char.toLower)

def byKey (a b : Int × String) : Ordering := compare a.1 b.1

def byPayload (a b : Int × String) : Ordering := compare a.2 b.2

end MemIndex.Comparator
