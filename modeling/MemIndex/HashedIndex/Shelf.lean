import MemIndex.HashedIndex.Policy

/-!
# Shelves

A shelf keeps what a policy stores, in places numbered by the attempts to store. A failed attempt
leaves its place empty, and so does a release.
-/
namespace MemIndex

structure Shelf (α : Type) where
  policy : Policy α
  places : Array (Option (Held α))

namespace Shelf

variable {α : Type}

def empty (policy : Policy α) : Shelf α := ⟨policy, #[]⟩

structure Placed (α : Type) where
  shelf : Shelf α
  result : Except TableError (Held α)
  calls : List (Call α)

def store (shelf : Shelf α) (a : α) : Placed α :=
  let stored := shelf.policy.store a
  ⟨{ shelf with places := shelf.places.push stored.result.toOption }, stored.result, stored.calls⟩

/-- None when the place holds nothing. -/
def release? (shelf : Shelf α) (place : Nat) : Option (Shelf α × List (Call α)) :=
  match shelf.places[place]?.join with
  | some held =>
    some ({ shelf with places := shelf.places.setIfInBounds place none },
      shelf.policy.release held)
  | none => none

end Shelf

end MemIndex
