import MemIndex.Pool

/-!
# Binary trees of records

Trees as links spell them: every node carries its record and the balance that is stored for it. The
height is counted on the tree and stored nowhere.
-/
namespace MemIndex

/-- An item under its handle. -/
structure Record (α : Type u) where
  handle : Handle
  item : α

inductive Tree (α : Type u) where
  | leaf
  | node (left : Tree α) (balance : Int) (record : Record α) (right : Tree α)

namespace Tree

variable {α : Type u}

def height : Tree α → Nat
  | leaf => 0
  | node l _ _ r => max l.height r.height + 1

def size : Tree α → Nat
  | leaf => 0
  | node l _ _ r => l.size + r.size + 1

/-- The records from left to right. -/
def toList : Tree α → List (Record α)
  | leaf => []
  | node l _ x r => l.toList ++ x :: r.toList

/-- The handles from left to right. -/
def handles (t : Tree α) : List Handle := t.toList.map Record.handle

/-- The link that leads to the tree. -/
def link : Tree α → Option Handle
  | leaf => none
  | node _ _ x _ => some x.handle

/-- The tree in brackets, a dot for an empty subtree. -/
def shape (name : Record α → String) : Tree α → String
  | leaf => "."
  | node l _ x r => "(" ++ l.shape name ++ " " ++ name x ++ " " ++ r.shape name ++ ")"

@[simp] theorem length_toList (t : Tree α) : t.toList.length = t.size := by
  induction t with
  | leaf => rfl
  | node l b x r ihl ihr => simp [toList, size, ihl, ihr]; omega

@[simp] theorem length_handles (t : Tree α) : t.handles.length = t.size := by
  simp [handles]

@[simp] theorem handles_leaf : (leaf : Tree α).handles = [] := rfl

@[simp] theorem handles_node (l : Tree α) (b : Int) (x : Record α) (r : Tree α) :
    (node l b x r).handles = l.handles ++ x.handle :: r.handles := by
  simp [handles, toList]

@[simp] theorem link_leaf : (leaf : Tree α).link = none := rfl

@[simp] theorem link_node (l : Tree α) (b : Int) (x : Record α) (r : Tree α) :
    (node l b x r).link = some x.handle := rfl

theorem link_eq_none {t : Tree α} : t.link = none ↔ t.size = 0 := by
  cases t <;> simp [size]

end Tree

end MemIndex
