import MemIndex.Alloc
import MemIndex.HashedIndex.Thresholds

/-!
# Failures of a hashed index

What can fail when an index is set up, and what can fail when it is used. That a key is absent is an
answer and no failure.
-/
namespace MemIndex

inductive SetupError (ρ : Type) where
  | missingHash
  | missingCompare
  | unusableThresholds (thresholds : Thresholds ρ)
  | alloc (cause : AllocError)

inductive TableError where
  | alloc (cause : AllocError)
  | visitorFailed
  deriving DecidableEq

def TableError.message : TableError → String
  | alloc cause => "allocation failed: " ++ cause.message
  | visitorFailed => "visitor reported failure"

/-- The argument writes out a threshold. -/
def SetupError.message {ρ : Type} (text : ρ → String) : SetupError ρ → String
  | missingHash => "no hash function configured"
  | missingCompare => "no key comparator configured"
  | unusableThresholds t =>
    "unusable load thresholds: shrink_at=" ++ text t.shrinkAt ++ ", grow_at=" ++ text t.growAt
  | alloc cause => (TableError.alloc cause).message

/-- The thresholds, or the failure if they are not usable. -/
def Thresholds.validate {ρ : Type} [LoadScale ρ] (t : Thresholds ρ) :
    Except (SetupError ρ) (Thresholds ρ) :=
  if t.usable then .ok t else .error (.unusableThresholds t)

end MemIndex
