import MemIndex.HashedIndex.Builder
import MemIndex.HashedIndex.Stock

/-!
# Keyed indexes

For a common kind of key the hash function, the equality and often the policy for keys are settled.
-/
namespace MemIndex

/-- Keys whose index needs no choice but the policy for values, or the policies for both. -/
class KeyKind (κ : Type) extends Datum κ where
  /-- The policy for keys, where it is settled. -/
  keyPolicy? : Option (Policy κ)

/-- Words are duplicated. -/
instance : KeyKind UInt64 where
  keyPolicy? := some .duplicate

/-- Texts are copied into room of their own. -/
instance : KeyKind String where
  keyPolicy? := some (.copyWith (copyText .unlimited))

instance : KeyKind (List UInt8) where
  keyPolicy? := none

namespace HashedIndex

variable {κ ν : Type} [KeyKind κ]

/-- An index with the settled hash function and equality, within the standard thresholds; the given
policy for keys is used where none is settled. -/
def keyed? (alloc : Allocator) (keys : Policy κ) (values : Policy ν) :
    Except (SetupError Float) (HashedIndex κ ν Float) :=
  new? alloc (StockHash.hash .standard) (StockEquality.same .standard)
    (KeyKind.keyPolicy?.getD keys) values

end HashedIndex

end MemIndex
