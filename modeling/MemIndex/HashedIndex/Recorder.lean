import MemIndex.HashedIndex.Sweep

/-!
# A sweep's visitor that writes down what it sees

It ends the sweep on given conditions and has a selection of the entries removed.
-/
namespace MemIndex.HashedIndex

inductive Selection (κ : Type) where
  | none
  | all
  /-- The entries without a value. -/
  | valueless
  | oneOf (keys : List κ)
  /-- The entries whose position has the given remainder. -/
  | positions (modulus remainder : Nat)

namespace Selection

variable {κ ν : Type} [BEq κ]

def selects (index : Nat) (key : κ) (value : Option ν) : Selection κ → Bool
  | none => false
  | all => true
  | valueless => value.isNone
  | oneOf keys => keys.contains key
  | positions modulus remainder => index % modulus == remainder

end Selection

/-- The keys and values in the order in which they were seen. -/
abbrev Seen (κ ν : Type) := Array (κ × Option ν)

/-- The item compared with the conditions is the key, put into another form. -/
def recorder {κ ν ω : Type} [BEq κ] [BEq ω] (halts : Halts ω) (item : κ → ω)
    (selection : Selection κ) : EntryVisitor κ ν (Seen κ ν) :=
  fun key value seen =>
    ⟨halts.verdict seen.size (item key), selection.selects seen.size key value,
      seen.push (key, value)⟩

end MemIndex.HashedIndex
