import MemIndex.Alloc

/-!
# The work queue

First in, first out. The queue asks for room only when it is full, for at least four cells and at
least twice what it has, and never gives room back. A refused push leaves the queue as it was.
-/
namespace MemIndex.Walk

structure Queue (α : Type u) where
  /-- Everything pushed so far, the items already taken in front. -/
  pushed : Array α
  taken : Nat
  /-- The number of items for which there is room. -/
  capacity : Nat
  taken_le : taken ≤ pushed.size

namespace Queue

variable {α : Type u}

def empty : Queue α := ⟨#[], 0, 0, Nat.le_refl 0⟩

/-- The waiting items, the oldest first. -/
def items (q : Queue α) : List α := q.pushed.toList.drop q.taken

def size (q : Queue α) : Nat := q.pushed.size - q.taken

/-- The capacity asked for when the queue is full. -/
def wanted (q : Queue α) : Nat := max 4 (2 * q.capacity)

/-- Appends an item when there is room for it. -/
def append (q : Queue α) (a : α) (capacity : Nat) : Queue α where
  pushed := q.pushed.push a
  taken := q.taken
  capacity := capacity
  taken_le := by have := q.taken_le; simp; omega

def push (alloc : Allocator) (q : Queue α) (a : α) : Except AllocError (Queue α) :=
  if q.size < q.capacity then .ok (q.append a q.capacity)
  else if alloc q.wanted then .ok (q.append a q.wanted)
  else .error .refused

/-- The oldest item and the queue without it. -/
def pop? (q : Queue α) : Option (α × Queue α) :=
  if h : q.taken < q.pushed.size then
    some (q.pushed[q.taken], ⟨q.pushed, q.taken + 1, q.capacity, h⟩)
  else none

@[simp] theorem items_empty : (empty : Queue α).items = [] := rfl

@[simp] theorem length_items (q : Queue α) : q.items.length = q.size := by
  simp [items, size]

@[simp] theorem items_append (q : Queue α) (a : α) (capacity : Nat) :
    (q.append a capacity).items = q.items ++ [a] := by
  simp [items, append, List.drop_append_of_le_length, q.taken_le]

@[simp] theorem capacity_append (q : Queue α) (a : α) (capacity : Nat) :
    (q.append a capacity).capacity = capacity := rfl

theorem items_push {alloc : Allocator} {q q' : Queue α} {a : α} (h : q.push alloc a = .ok q') :
    q'.items = q.items ++ [a] := by
  unfold push at h
  split at h
  · cases h; simp
  · split at h <;> cases h; simp

theorem push_unlimited (q : Queue α) (a : α) :
    ∃ q', q.push Allocator.unlimited a = .ok q' ∧ q'.items = q.items ++ [a] := by
  unfold push
  by_cases h : q.size < q.capacity <;> simp [h]

theorem pop?_eq_none {q : Queue α} : q.pop? = none ↔ q.items = [] := by
  simp [pop?, items]

theorem pop?_eq_some {q q' : Queue α} {a : α} (h : q.pop? = some (a, q')) :
    q.items = a :: q'.items ∧ q'.capacity = q.capacity := by
  unfold pop? at h
  split at h
  · rename_i hlt
    cases h
    refine ⟨?_, rfl⟩
    simp only [items]
    rw [List.drop_eq_getElem_cons (by simpa using hlt)]
    simp
  · cases h

end Queue

end MemIndex.Walk
