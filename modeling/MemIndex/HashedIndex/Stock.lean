import MemIndex.Datum
import MemIndex.HashedIndex.Policy

/-!
# Ready-made hash functions, equalities and policies

They suit every kind of data. Some are unsuitable on purpose, such as a constant hash or an equality
that no key has with itself, and show what an index does with them.
-/
namespace MemIndex

/-- A copy of a text, which asks for as many cells as the text has bytes, and for none at all when it
is empty. -/
def copyText (alloc : Allocator) (text : String) : Except TableError String :=
  if text.utf8ByteSize = 0 ∨ alloc text.utf8ByteSize then .ok text else .error (.alloc .refused)

/-- The copy policies on offer. -/
inductive StockPolicy where
  | borrow
  | duplicate
  | copy
  /-- Keeps the coarser form. -/
  | fold
  /-- Copies what has a size of three at most, and fails otherwise. -/
  | refuse
  /-- The same, with a failed request for room as the reason. -/
  | refuseAlloc

namespace StockPolicy

variable {α : Type} [Datum α]

def copySmall (cause : TableError) (a : α) : Except TableError α :=
  if 3 < Datum.size a then .error cause else .ok a

def policy : StockPolicy → Policy α
  | borrow => .borrow
  | duplicate => .duplicate
  | copy => .copyWith .ok
  | fold => .copyWith fun a => .ok (Datum.fold a)
  | refuse => .copyWith (copySmall .visitorFailed)
  | refuseAlloc => .copyWith (copySmall (.alloc .tooLarge))

end StockPolicy

/-- The hash functions on offer. -/
inductive StockHash where
  | standard
  | size
  /-- The greatest word less the size. -/
  | complement
  | constant (word : UInt64)
  /-- The size modulo a word. -/
  | remainder (modulus : UInt64)
  | fnv

def StockHash.hash {α : Type} [Datum α] : StockHash → α → UInt64
  | standard => Datum.hash
  | size => fun a => UInt64.ofNat (Datum.size a)
  | complement => fun a => ~~~UInt64.ofNat (Datum.size a)
  | constant word => fun _ => word
  | remainder modulus => fun a => UInt64.ofNat (Datum.size a) % modulus
  | fnv => fun a => Hashing.fnv (Datum.feed a)

/-- The equalities on offer. -/
inductive StockEquality where
  | standard
  | folded
  | never
  | always
  | covers
  | size

def StockEquality.same {α : Type} [Datum α] : StockEquality → α → α → Bool
  | standard => fun a b => a == b
  | folded => fun a b => Datum.fold a == Datum.fold b
  | never => fun _ _ => false
  | always => fun _ _ => true
  | covers => Datum.covers
  | size => fun a b => Datum.size a == Datum.size b

end MemIndex
