/-!
# Verdicts of a visitor

A visitor is shown records one by one and says after each whether the walk goes on.
-/
namespace MemIndex

inductive Verdict where
  /-- Show the next record. -/
  | proceed
  /-- End here; the walk has succeeded. -/
  | stop
  /-- End here; the walk has failed. -/
  | fail
  deriving DecidableEq

/-- Conditions on which a visitor ends its walk: at a position of the sequence or at a given item,
each with failure or with success. -/
structure Halts (α : Type u) where
  stopAt : Option Nat
  failAt : Option Nat
  stopItem : Option α
  failItem : Option α

/-- Failure wins over success when a record meets both conditions. -/
def Halts.verdict [BEq α] (halts : Halts α) (index : Nat) (item : α) : Verdict :=
  if halts.failAt == some index || halts.failItem == some item then .fail
  else if halts.stopAt == some index || halts.stopItem == some item then .stop
  else .proceed

end MemIndex
