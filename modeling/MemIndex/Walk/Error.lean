import MemIndex.Alloc

/-!
# Failures of a walk
-/
namespace MemIndex

inductive WalkError where
  | unknownOrder (code : Nat)
  /-- The visitor's verdict was failure, after so many nodes, the failing one counted. -/
  | visitorFailed (visited : Nat)
  | alloc (cause : AllocError)
  deriving DecidableEq

def WalkError.message : WalkError → String
  | unknownOrder code => "unknown traversal order " ++ toString code
  | visitorFailed visited => "visitor reported failure after " ++ toString visited ++ " nodes"
  | alloc cause => "breadth-first queue allocation failed: " ++ cause.message

end MemIndex
