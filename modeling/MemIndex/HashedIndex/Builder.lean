import MemIndex.HashedIndex.Basic

/-!
# Setting up a hashed index

A hash function and an equality must be given. What is not said otherwise is borrowed, and the load is
kept within the standard thresholds.
-/
namespace MemIndex

structure Builder (κ ν ρ : Type) where
  hash : Option (κ → UInt64)
  same : Option (κ → κ → Bool)
  keys : Policy κ
  values : Policy ν
  thresholds : Thresholds ρ

namespace Builder

variable {κ ν ρ : Type}

def start : Builder κ ν Float := ⟨none, none, .borrow, .borrow, .standard⟩

def withHash (b : Builder κ ν ρ) (hash : κ → UInt64) : Builder κ ν ρ := { b with hash := some hash }

def withSame (b : Builder κ ν ρ) (same : κ → κ → Bool) : Builder κ ν ρ := { b with same := some same }

def withKeys (b : Builder κ ν ρ) (keys : Policy κ) : Builder κ ν ρ := { b with keys }

def withValues (b : Builder κ ν ρ) (values : Policy ν) : Builder κ ν ρ := { b with values }

def withThresholds (b : Builder κ ν ρ) (thresholds : Thresholds ρ) : Builder κ ν ρ :=
  { b with thresholds }

/-- Checks the hash function, the equality and the thresholds, in this order, and then asks for the
buckets of the lowest rung. -/
def build [LoadScale ρ] (alloc : Allocator) (b : Builder κ ν ρ) :
    Except (SetupError ρ) (HashedIndex κ ν ρ) :=
  match b.hash, b.same with
  | none, _ => .error .missingHash
  | _, none => .error .missingCompare
  | some hash, some same =>
    match b.thresholds.validate with
    | .error cause => .error cause
    | .ok thresholds =>
      if alloc Ladder.bottom then
        .ok ⟨hash, same, b.keys, b.values, thresholds, Chains.fresh⟩
      else .error (.alloc .refused)

end Builder

/-- An index within the standard thresholds. -/
def HashedIndex.new? {κ ν : Type} (alloc : Allocator) (hash : κ → UInt64) (same : κ → κ → Bool)
    (keys : Policy κ) (values : Policy ν) : Except (SetupError Float) (HashedIndex κ ν Float) :=
  (((Builder.start.withHash hash).withSame same).withKeys keys).withValues values |>.build alloc

end MemIndex
