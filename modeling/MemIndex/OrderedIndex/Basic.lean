import MemIndex.OrderedIndex.Walk

/-!
# Ordered indexes

An ordered index keeps items in the order of a comparator. Items that compare equal may be kept side
by side, in the order in which they came. Each item stands under a handle that stays good until the
item is removed, however the links are rewritten meanwhile.

A path along links that runs in no circle is no longer than there are nodes, so every operation may
follow that many. It answers none when the links run in a circle, or when a handle that it needs does
not resolve.
-/
namespace MemIndex

structure OrderedIndex (α : Type u) where
  cmp : α → α → Ordering
  arena : Arena α
  root : Option Handle

namespace OrderedIndex

variable {α : Type u} {σ : Type v}

def empty (cmp : α → α → Ordering) : OrderedIndex α := ⟨cmp, Pool.empty, none⟩

def size (index : OrderedIndex α) : Nat := index.arena.size

def isEmpty (index : OrderedIndex α) : Bool := index.root.isNone

def get? (index : OrderedIndex α) (h : Handle) : Option α := (index.arena.get? h).map Node.item

def contains (index : OrderedIndex α) (h : Handle) : Bool := index.arena.contains h

structure Inserted (α : Type u) where
  index : OrderedIndex α
  handle : Handle
  calls : Calls α

/-- Links an item in and answers its handle. -/
def insert (index : OrderedIndex α) (item : α) : Option (Inserted α) :=
  let ⟨cmp, arena, root⟩ := index
  let h := arena.nextHandle
  (Arena.insertBelow cmp h arena.size (arena.insert (.single item)) root).map fun grown =>
    ⟨⟨cmp, grown.arena, some grown.root⟩, h, grown.calls⟩

structure Removed (α : Type u) where
  index : OrderedIndex α
  record : Option (Record α)
  calls : Calls α

/-- Takes out an item that compares equal to the probe. -/
def remove (index : OrderedIndex α) (probe : α) : Option (Removed α) :=
  let ⟨cmp, arena, root⟩ := index
  (Arena.removeBelow cmp probe arena.size arena root).map fun shrunk =>
    let removed := shrunk.removed.bind fun h =>
      (shrunk.arena.get? h).map fun node => (⟨h, node.item⟩ : Record α)
    match removed with
    | some record =>
      ⟨⟨cmp, shrunk.arena.erase record.handle, shrunk.root⟩, some record, shrunk.calls⟩
    | none => ⟨⟨cmp, shrunk.arena, shrunk.root⟩, none, shrunk.calls⟩

def find (index : OrderedIndex α) (probe : α) : Option (Arena.Finding α) :=
  Arena.findBelow index.cmp probe index.arena index.size index.root

/-- The last record on a side, if there is a record at all. -/
def extreme (index : OrderedIndex α) (side : Side) : Option (Option (Record α)) :=
  match index.root with
  | none => some none
  | some root => (Arena.extremeBelow side index.arena index.size root).map some

def min (index : OrderedIndex α) : Option (Option (Record α)) := index.extreme .left

def max (index : OrderedIndex α) : Option (Option (Record α)) := index.extreme .right

/-- The tree that the links spell. -/
def tree? (index : OrderedIndex α) : Option (Tree α) :=
  index.arena.treeBelow index.size index.root

def traverse (index : OrderedIndex α) (alloc : Allocator) (order : Walk.Order)
    (visit : Visitor (Record α) σ) (state : σ) : Option (Walk.Report σ) :=
  index.arena.traverse index.root alloc order visit state

end OrderedIndex

end MemIndex
