/-!
# Requests for room

Containers that outgrow their room ask for more, and the request can be refused. An allocator says
which requests are granted; it has no memory of earlier requests, so one allocator describes the
conditions that one operation meets.
-/
namespace MemIndex

/-- Why a request for room came back empty. -/
inductive AllocError where
  | refused
  | tooLarge
  deriving DecidableEq

def AllocError.message : AllocError → String
  | .refused => "memory allocation failed because the memory allocator returned an error"
  | .tooLarge =>
    "memory allocation failed because the computed capacity exceeded the collection's maximum"

/-- Whether a request for that many cells is granted. -/
abbrev Allocator := Nat → Bool

namespace Allocator

def unlimited : Allocator := fun _ => true

/-- Grants what does not exceed the limit, and everything when there is none. -/
def atMost : Option Nat → Allocator
  | none => unlimited
  | some limit => fun cells => decide (cells ≤ limit)

@[simp] theorem unlimited_apply (cells : Nat) : unlimited cells = true := rfl

@[simp] theorem atMost_some (limit cells : Nat) :
    atMost (some limit) cells = decide (cells ≤ limit) := rfl

end Allocator

end MemIndex
