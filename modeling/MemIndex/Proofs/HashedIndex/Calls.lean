import Mathlib.Algebra.BigOperators.Group.Multiset.Basic
import MemIndex.Proofs.HashedIndex.Steps

/-!
# Counting the calls of policies

What calls of copy and free functions have made and taken back, counted with multiplicity. A policy that
copies makes one value for each that it stores, and takes back each that it lets go; any other policy
calls nothing.
-/
namespace MemIndex

variable {α : Type}

def Call.copy? : Call α → Option α
  | .copied _ copy => some copy
  | _ => none

def Call.freed? : Call α → Option α
  | .freed value => some value
  | _ => none

/-- The copies that have been made. -/
def copied (calls : List (Call α)) : Multiset α := (calls.filterMap Call.copy? : List α)

/-- The values that the free function has been handed. -/
def freed (calls : List (Call α)) : Multiset α := (calls.filterMap Call.freed? : List α)

@[simp] theorem copied_nil : copied ([] : List (Call α)) = 0 := rfl

@[simp] theorem freed_nil : freed ([] : List (Call α)) = 0 := rfl

@[simp] theorem copied_append (calls calls' : List (Call α)) :
    copied (calls ++ calls') = copied calls + copied calls' := by
  simp [copied]

@[simp] theorem freed_append (calls calls' : List (Call α)) :
    freed (calls ++ calls') = freed calls + freed calls' := by
  simp [freed]

/-- The value in a slot, counted. -/
def inSlot (held : Option (Held α)) : Multiset α := (held.map Held.value).elim 0 ({·})

@[simp] theorem inSlot_none : inSlot (none : Option (Held α)) = 0 := rfl

@[simp] theorem inSlot_some (held : Held α) : inSlot (some held) = {held.value} := rfl

namespace Policy

variable (policy : Policy α)

def copies : Policy α → Bool
  | copyWith _ => true
  | _ => false

/-- Under a policy that copies, the held value is the index's own. -/
def Owns (held : Held α) : Prop := policy.copies = true → ∃ a, held = .owned a

/-- The same for a slot. -/
def OwnsAll (held : Option (Held α)) : Prop := ∀ value, held = some value → policy.Owns value

@[simp] theorem ownsAll_none : policy.OwnsAll none := nofun

variable {policy}

@[simp] theorem ownsAll_some {held : Held α} : policy.OwnsAll (some held) ↔ policy.Owns held :=
  ⟨fun h => h held rfl, fun h _ he => Option.some.inj he ▸ h⟩

theorem owns_owned (a : α) : policy.Owns (.owned a) := fun _ => ⟨a, rfl⟩

theorem owns_store {a : α} {held : Held α} (hs : (policy.store a).result = .ok held) :
    policy.Owns held := by
  intro hcopies
  cases policy with
  | copyWith copy =>
    unfold store at hs
    dsimp only at hs
    split at hs
    · cases hs
      exact ⟨_, rfl⟩
    · cases hs
  | borrow | duplicate => cases hcopies

theorem copied_store_ok (hcopies : policy.copies = true) {a : α} {held : Held α}
    (hs : (policy.store a).result = .ok held) : copied (policy.store a).calls = {held.value} := by
  cases policy with
  | copyWith copy =>
    unfold store at hs ⊢
    dsimp only at hs ⊢
    split at hs
    · cases hs
      rfl
    · cases hs
  | borrow | duplicate => cases hcopies

theorem copied_store_error {a : α} {cause : TableError}
    (hs : (policy.store a).result = .error cause) : copied (policy.store a).calls = 0 := by
  cases policy with
  | copyWith copy =>
    unfold store at hs ⊢
    dsimp only at hs ⊢
    split at hs
    · cases hs
    · rfl
  | borrow | duplicate => rfl

@[simp] theorem freed_store (a : α) : freed (policy.store a).calls = 0 := by
  cases policy with
  | copyWith copy =>
    unfold store
    dsimp only
    split <;> rfl
  | borrow | duplicate => rfl

@[simp] theorem copied_release (held : Held α) : copied (policy.release held) = 0 := by
  cases policy <;> cases held <;> rfl

theorem freed_release (hcopies : policy.copies = true) {held : Held α} (ho : policy.Owns held) :
    freed (policy.release held) = {held.value} := by
  obtain ⟨a, rfl⟩ := ho hcopies
  cases policy with
  | copyWith copy => rfl
  | borrow | duplicate => cases hcopies

@[simp] theorem copied_releaseAll (held : Option (Held α)) : copied (policy.releaseAll held) = 0 := by
  cases held with
  | none => rfl
  | some held => exact copied_release held

theorem freed_releaseAll (hcopies : policy.copies = true) {held : Option (Held α)}
    (ho : policy.OwnsAll held) : freed (policy.releaseAll held) = inSlot held := by
  cases held with
  | none => rfl
  | some held => exact freed_release hcopies (ho held rfl)

theorem store_calls_of_not_copies (hcopies : policy.copies = false) (a : α) :
    (policy.store a).calls = [] := by
  cases policy with
  | copyWith copy => cases hcopies
  | borrow | duplicate => rfl

theorem releaseAll_of_not_copies (hcopies : policy.copies = false) (held : Option (Held α)) :
    policy.releaseAll held = [] := by
  cases policy with
  | copyWith copy => cases hcopies
  | borrow | duplicate => cases held <;> rfl

theorem release_of_not_copies (hcopies : policy.copies = false) (held : Held α) :
    policy.release held = [] :=
  releaseAll_of_not_copies hcopies (some held)

/-! Slots that are let go one after another. -/

theorem copied_flatMap_releaseAll (slots : List (Option (Held α))) :
    copied (slots.flatMap policy.releaseAll) = 0 := by
  induction slots with
  | nil => rfl
  | cons held slots ih => simp [ih]

theorem freed_flatMap_releaseAll (hcopies : policy.copies = true) {slots : List (Option (Held α))}
    (ho : ∀ held ∈ slots, policy.OwnsAll held) :
    freed (slots.flatMap policy.releaseAll) = (slots.map inSlot).sum := by
  induction slots with
  | nil => rfl
  | cons held slots ih =>
    rw [List.forall_mem_cons] at ho
    simp [ih ho.2, freed_releaseAll hcopies ho.1]

theorem flatMap_releaseAll_of_not_copies (hcopies : policy.copies = false)
    (slots : List (Option (Held α))) : slots.flatMap policy.releaseAll = [] :=
  List.flatMap_eq_nil_iff.2 fun held _ => releaseAll_of_not_copies hcopies held

end Policy

namespace HashedIndex

variable {κ ν ρ : Type}

/-! ## Calls among events -/

def Event.keyCall? : Event κ ν → Option (Call κ)
  | .key call => some call
  | _ => none

def Event.valueCall? : Event κ ν → Option (Call ν)
  | .value call => some call
  | _ => none

/-- The calls of the policy for keys. -/
def keyCalls (events : List (Event κ ν)) : List (Call κ) := events.filterMap Event.keyCall?

/-- The calls of the policy for values. -/
def valueCalls (events : List (Event κ ν)) : List (Call ν) := events.filterMap Event.valueCall?

section Events

variable (events events' : List (Event κ ν))

@[simp] theorem keyCalls_nil : keyCalls ([] : List (Event κ ν)) = [] := rfl

@[simp] theorem valueCalls_nil : valueCalls ([] : List (Event κ ν)) = [] := rfl

@[simp] theorem keyCalls_append : keyCalls (events ++ events') = keyCalls events ++ keyCalls events' :=
  List.filterMap_append ..

@[simp] theorem valueCalls_append :
    valueCalls (events ++ events') = valueCalls events ++ valueCalls events' :=
  List.filterMap_append ..

@[simp] theorem keyCalls_keyEvents (calls : List (Call κ)) :
    keyCalls (keyEvents calls : List (Event κ ν)) = calls := by
  simp [keyCalls, keyEvents, List.filterMap_map, Function.comp_def, Event.keyCall?]

@[simp] theorem keyCalls_valueEvents (calls : List (Call ν)) :
    keyCalls (valueEvents calls : List (Event κ ν)) = [] := by
  simp [keyCalls, valueEvents, List.filterMap_map, Function.comp_def, Event.keyCall?]

@[simp] theorem valueCalls_valueEvents (calls : List (Call ν)) :
    valueCalls (valueEvents calls : List (Event κ ν)) = calls := by
  simp [valueCalls, valueEvents, List.filterMap_map, Function.comp_def, Event.valueCall?]

@[simp] theorem valueCalls_keyEvents (calls : List (Call κ)) :
    valueCalls (keyEvents calls : List (Event κ ν)) = [] := by
  simp [valueCalls, keyEvents, List.filterMap_map, Function.comp_def, Event.valueCall?]

/-- Calls of the policies are what counts. -/
@[simp] theorem keyCalls_policyCalls : keyCalls (policyCalls events) = keyCalls events := by
  rw [keyCalls, policyCalls, List.filterMap_filter]
  exact List.filterMap_congr fun event _ => by cases event <;> rfl

@[simp] theorem valueCalls_policyCalls : valueCalls (policyCalls events) = valueCalls events := by
  rw [valueCalls, policyCalls, List.filterMap_filter]
  exact List.filterMap_congr fun event _ => by cases event <;> rfl

end Events

end HashedIndex

end MemIndex
