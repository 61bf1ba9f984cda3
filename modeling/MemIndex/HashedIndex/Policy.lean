import MemIndex.HashedIndex.Error

/-!
# Who owns what is stored

A policy says what an index keeps when it is handed a value: the caller's value itself, a plain
duplicate, or what a copy function makes of it. A copy made by a function is handed to the matching
free function once, when the index lets go of it; the other two are let go without a call. The calls
of copy and free functions are listed by the operation that makes them.
-/
namespace MemIndex

/-- A stored value, the caller's or the index's own. -/
inductive Held (α : Type) where
  | borrowed (value : α)
  | owned (value : α)
  deriving DecidableEq

def Held.value {α : Type} : Held α → α
  | borrowed a => a
  | owned a => a

inductive Policy (α : Type) where
  | borrow
  | duplicate
  /-- The copy function may fail; the free function has no effect but to be called. -/
  | copyWith (copy : α → Except TableError α)

/-- One call of a copy or free function. -/
inductive Call (α : Type) where
  | copied (source copy : α)
  | refused (source : α)
  | freed (value : α)
  deriving DecidableEq

namespace Policy

variable {α : Type}

def name : Policy α → String
  | borrow => "Borrowed"
  | duplicate => "FixedCopy"
  | copyWith _ => "CopyWith"

def isOwning : Policy α → Bool
  | borrow => false
  | _ => true

structure Stored (α : Type) where
  result : Except TableError (Held α)
  calls : List (Call α)

def store (policy : Policy α) (a : α) : Stored α :=
  match policy with
  | borrow => ⟨.ok (.borrowed a), []⟩
  | duplicate => ⟨.ok (.owned a), []⟩
  | copyWith copy =>
    match copy a with
    | .ok b => ⟨.ok (.owned b), [.copied a b]⟩
    | .error cause => ⟨.error cause, [.refused a]⟩

def release (policy : Policy α) (held : Held α) : List (Call α) :=
  match policy, held with
  | copyWith _, .owned a => [.freed a]
  | _, _ => []

/-- Lets go of a value if there is one. -/
def releaseAll (policy : Policy α) (held : Option (Held α)) : List (Call α) :=
  match held with
  | some held => policy.release held
  | none => []

@[simp] theorem releaseAll_none (policy : Policy α) : policy.releaseAll none = [] := rfl

@[simp] theorem releaseAll_some (policy : Policy α) (held : Held α) :
    policy.releaseAll (some held) = policy.release held := rfl

end Policy

end MemIndex
