/-!
# Pools of records behind handles

A pool keeps records in numbered slots and hands out handles. A slot that was freed last is taken
first; a new slot is opened only when none is free. The version of a slot grows by one when its
record leaves and by one when a record comes in again, so a handle names one stay of one record and
resolves during that stay only.

Versions are numbers without a bound and do not wrap. Where versions are machine words, a handle may come
again once the versions of its slot have run round.
-/
namespace MemIndex

/-- A slot, counted from 0, and the version it had when the record came in. -/
structure Handle where
  slot : Nat
  version : Nat
  deriving DecidableEq

/-- One slot of a pool. -/
structure Cell (α : Type u) where
  version : Nat
  record : Option α

structure Pool (α : Type u) where
  cells : Array (Cell α)
  /-- The free slots; the one freed last is at the end. -/
  free : Array Nat

namespace Pool

variable {α : Type u}

def empty : Pool α := ⟨#[], #[]⟩

/-- The number of records. -/
def size (p : Pool α) : Nat := p.cells.size - p.free.size

def get? (p : Pool α) (h : Handle) : Option α :=
  match p.cells[h.slot]? with
  | some cell => if cell.version = h.version then cell.record else none
  | none => none

def contains (p : Pool α) (h : Handle) : Bool := (p.get? h).isSome

/-- The version that the next record in a slot gets. -/
def nextVersion (p : Pool α) (slot : Nat) : Nat :=
  match p.cells[slot]? with
  | some cell => cell.version + 1
  | none => 1

/-- The handle that the next record gets. -/
def nextHandle (p : Pool α) : Handle :=
  match p.free.back? with
  | some slot => ⟨slot, p.nextVersion slot⟩
  | none => ⟨p.cells.size, 1⟩

/-- Takes a record in; it is found under `nextHandle`. -/
def insert (p : Pool α) (a : α) : Pool α :=
  match p.free.back? with
  | some slot =>
    let version := p.nextVersion slot
    ⟨p.cells.setIfInBounds slot ⟨version, some a⟩, p.free.pop⟩
  | none => ⟨p.cells.push ⟨1, some a⟩, p.free⟩

/-- Lets a record go; a handle that does not resolve changes nothing. -/
def erase (p : Pool α) (h : Handle) : Pool α :=
  if p.contains h then
    ⟨p.cells.setIfInBounds h.slot ⟨h.version + 1, none⟩, p.free.push h.slot⟩
  else p

/-- Changes a record in place; a handle that does not resolve changes nothing. -/
def modify (p : Pool α) (h : Handle) (f : α → α) : Pool α :=
  if p.contains h then
    ⟨p.cells.modify h.slot fun cell => ⟨cell.version, cell.record.map f⟩, p.free⟩
  else p

/-- The same; none when the handle does not resolve. -/
def modify? (p : Pool α) (h : Handle) (f : α → α) : Option (Pool α) :=
  if p.contains h then some (p.modify h f) else none

/-- The records with their handles, by ascending slot. -/
def entries (p : Pool α) : List (Handle × α) :=
  p.cells.toList.zipIdx.filterMap fun (cell, slot) =>
    cell.record.map fun a => (⟨slot, cell.version⟩, a)

def handles (p : Pool α) : List Handle := p.entries.map Prod.fst

def records (p : Pool α) : List α := p.entries.map Prod.snd

/-- Lets all records go, by ascending slot. -/
def clear (p : Pool α) : Pool α := p.handles.foldl erase p

@[simp] theorem get?_empty (h : Handle) : (empty : Pool α).get? h = none := by
  simp [get?, empty]

theorem contains_iff {p : Pool α} {h : Handle} : p.contains h ↔ ∃ a, p.get? h = some a := by
  simp [contains, Option.isSome_iff_exists]

theorem erase_of_not_contains {p : Pool α} {h : Handle} (hh : p.contains h = false) :
    p.erase h = p := by
  simp [erase, hh]

end Pool

end MemIndex
