/-!
# Guards against re-entry

A container that runs its caller's code while its links are being rewritten holds its guard
meanwhile. Entering a held guard is a fault of the caller.
-/
namespace MemIndex

structure Guard where
  held : Bool

namespace Guard

inductive Fault where
  | reentered
  deriving DecidableEq

def Fault.message : Fault → String
  | .reentered => "reentrancy detected: callback re-entered its container"

def idle : Guard := ⟨false⟩

def enter (g : Guard) : Except Fault Guard :=
  if g.held then .error .reentered else .ok ⟨true⟩

/-- None when the guard is not held. -/
def leave? (g : Guard) : Option Guard :=
  if g.held then some idle else none

end Guard

end MemIndex
