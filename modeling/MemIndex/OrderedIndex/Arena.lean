import MemIndex.OrderedIndex.Tree

/-!
# Nodes and links

The nodes of a search tree lie in a pool and are linked by their handles. A node keeps its two child
links and its balance, the height of its right subtree less that of its left one; heights and parent
links are not kept. Whoever rewrites the links below a node reports whether the subtree there has
become higher or lower, and the balances on the path are kept right by these reports. The comparator
may be any function; it is called with the new item or the probe first, and every operation lists the
calls it makes.

An operation follows and rewrites the links as they are. Links that run in a circle have no end, so
what follows them takes a budget of nodes. An operation answers none when the budget is used up, or
when a handle that it needs does not resolve.
-/
namespace MemIndex

inductive Side where
  | left
  | right
  deriving DecidableEq

namespace Side

def opposite : Side → Side
  | left => right
  | right => left

/-- What a higher subtree on this side means for the balance. -/
def sign : Side → Int
  | left => -1
  | right => 1

@[simp] theorem opposite_left : left.opposite = right := rfl

@[simp] theorem opposite_right : right.opposite = left := rfl

end Side

structure Node (α : Type u) where
  left : Option Handle
  right : Option Handle
  balance : Int
  item : α

namespace Node

variable {α : Type u}

/-- A node without children. -/
def single (item : α) : Node α := ⟨none, none, 0, item⟩

def child (n : Node α) : Side → Option Handle
  | .left => n.left
  | .right => n.right

def withChild (n : Node α) (side : Side) (link : Option Handle) : Node α :=
  let ⟨left, right, balance, item⟩ := n
  match side with
  | .left => ⟨link, right, balance, item⟩
  | .right => ⟨left, link, balance, item⟩

def withBalance (n : Node α) (balance : Int) : Node α :=
  let ⟨left, right, _, item⟩ := n
  ⟨left, right, balance, item⟩

/-- The node with the links and the balance of another one. -/
def inPlaceOf (n other : Node α) : Node α := ⟨other.left, other.right, other.balance, n.item⟩

end Node

abbrev Arena (α : Type u) := Pool (Node α)

/-- The calls of a comparator, in order, each with its two arguments. -/
abbrev Calls (α : Type u) := List (α × α)

namespace Arena

variable {α : Type u}

def setChild (a : Arena α) (h : Handle) (side : Side) (link : Option Handle) : Option (Arena α) :=
  a.modify? h (·.withChild side link)

def setBalance (a : Arena α) (h : Handle) (balance : Int) : Option (Arena α) :=
  a.modify? h (·.withBalance balance)

/-- Lowers a node toward a side. Its child on the other side rises and is the new root of the subtree.
Both new balances follow from the two old ones alone. -/
def rotate (a : Arena α) (top : Handle) (side : Side) : Option (Arena α × Handle) := do
  let up := side.opposite
  let node ← a.get? top
  match node.child up with
  | none => return (a, top)
  | some pivot =>
    let inner := (← a.get? pivot).child side
    let a ← a.setChild top up inner
    let a ← a.setChild pivot side (some top)
    let s := up.sign
    let b := (← a.get? top).balance
    let c := (← a.get? pivot).balance
    let b' := b - s - max (s * c) 0 * s
    let c' := c - s + min (s * b') 0 * s
    let a ← a.setBalance top b'
    let a ← a.setBalance pivot c'
    return (a, pivot)

/-- Levels a node whose balance has reached two: its higher child is raised, after a grandchild has
been raised in that child where the child leans the other way. -/
def rebalance (a : Arena α) (top : Handle) : Option (Arena α × Handle) := do
  let node ← a.get? top
  let heavy := if 0 < node.balance then Side.right else Side.left
  match node.child heavy with
  | none => return (a, top)
  | some child =>
    if (← a.get? child).balance * heavy.sign < 0 then
      let (a, raised) ← a.rotate child heavy
      let a ← a.setChild top heavy (some raised)
      a.rotate top heavy.opposite
    else a.rotate top heavy.opposite

/-- Folds the gain of one level on a side into a node. Answers the new root of the subtree and whether
the whole subtree has become higher. -/
def grow (a : Arena α) (top : Handle) (side : Side) : Option (Arena α × Handle × Bool) := do
  let balance := (← a.get? top).balance + side.sign
  let a ← a.setBalance top balance
  if balance = 0 then return (a, top, false)
  else if balance = 1 ∨ balance = -1 then return (a, top, true)
  else
    let (a, root) ← a.rebalance top
    return (a, root, false)

/-- Folds the loss of one level on a side into a node. Answers the new root of the subtree and whether
the whole subtree has become lower; levelling a node whose higher child is itself level keeps the
height. -/
def shrink (a : Arena α) (top : Handle) (side : Side) : Option (Arena α × Handle × Bool) := do
  let balance := (← a.get? top).balance - side.sign
  let a ← a.setBalance top balance
  if balance = 0 then return (a, top, true)
  else if balance = 1 ∨ balance = -1 then return (a, top, false)
  else
    match (← a.get? top).child side.opposite with
    | none =>
      let (a, root) ← a.rebalance top
      return (a, root, true)
    | some child =>
      let level := (← a.get? child).balance == 0
      let (a, root) ← a.rebalance top
      return (a, root, !level)

/-- Gives a node another child, whose subtree may have become higher. -/
def joinGrown (a : Arena α) (top : Handle) (side : Side) (child : Handle) (grew : Bool) :
    Option (Arena α × Handle × Bool) := do
  let a ← a.setChild top side (some child)
  if grew then a.grow top side else return (a, top, false)

/-- Gives a node another child, whose subtree may have become lower. -/
def joinShrunk (a : Arena α) (top : Handle) (side : Side) (child : Option Handle) (shrank : Bool) :
    Option (Arena α × Handle × Bool) := do
  let a ← a.setChild top side child
  if shrank then a.shrink top side else return (a, top, false)

/-- Links after an insertion below some link, which now leads to the given root. -/
structure Growth (α : Type u) where
  arena : Arena α
  root : Handle
  grew : Bool
  calls : Calls α

/-- Puts a node that is not linked yet below the last node on its search path; it goes right of its
equals. -/
def insertBelow (cmp : α → α → Ordering) (new : Handle) :
    Nat → Arena α → Option Handle → Option (Growth α)
  | _, a, none => some ⟨a, new, true, []⟩
  | 0, _, some _ => none
  | budget + 1, a, some h => do
    let item := (← a.get? new).item
    let node ← a.get? h
    let side := if cmp item node.item = .lt then Side.left else Side.right
    let below ← insertBelow cmp new budget a (node.child side)
    let (a, root, grew) ← joinGrown below.arena h side below.root below.grew
    return ⟨a, root, grew, (item, node.item) :: below.calls⟩

/-- Links after a node was detached from a subtree. -/
structure Detachment (α : Type u) where
  arena : Arena α
  root : Option Handle
  shrank : Bool
  found : Handle

/-- Detaches the last node on a side of the subtree at a node. -/
def detachExtreme (side : Side) : Nat → Arena α → Handle → Option (Detachment α)
  | 0, _, _ => none
  | budget + 1, a, top => do
    let node ← a.get? top
    match node.child side with
    | none => return ⟨a, node.child side.opposite, true, top⟩
    | some next =>
      let below ← detachExtreme side budget a next
      let (a, root, shrank) ← joinShrunk below.arena top side below.root below.shrank
      return ⟨a, some root, shrank, below.found⟩

/-- Links after a removal below some link, which now leads to the given root. -/
structure Shrinkage (α : Type u) where
  arena : Arena α
  root : Option Handle
  shrank : Bool

/-- Has the last node of the subtree on a side of a node, the one next to it in order, take over the
links and the balance of the node, which is left without any. -/
def replace (budget : Nat) (a : Arena α) (h : Handle) (side : Side) (child : Handle) :
    Option (Shrinkage α) := do
  let d ← detachExtreme side.opposite budget a child
  let node ← d.arena.get? h
  let a ← d.arena.modify? h fun node => .single node.item
  let a : Arena α ← a.modify? d.found (·.inPlaceOf (node.withChild side d.root))
  if d.shrank then
    let (a, root, shrank) ← a.shrink d.found side
    return ⟨a, some root, shrank⟩
  else return ⟨a, some d.found, false⟩

/-- Takes a node out of the links. The node before it below it replaces it, or the node after it where
it has no left child. -/
def unlink (budget : Nat) (a : Arena α) (h : Handle) : Option (Shrinkage α) := do
  let node ← a.get? h
  match node.left, node.right with
  | some left, _ => a.replace budget h .left left
  | none, some right => a.replace budget h .right right
  | none, none => return ⟨a, none, true⟩

structure Removal (α : Type u) extends Shrinkage α where
  removed : Option Handle
  calls : Calls α

/-- Unlinks the first node on the search path that compares equal to the probe. -/
def removeBelow (cmp : α → α → Ordering) (probe : α) :
    Nat → Arena α → Option Handle → Option (Removal α)
  | _, a, none => some ⟨⟨a, none, false⟩, none, []⟩
  | 0, _, some _ => none
  | budget + 1, a, some h => do
    let node ← a.get? h
    let call := (probe, node.item)
    let descend (side : Side) : Option (Removal α) := do
      let below ← removeBelow cmp probe budget a (node.child side)
      let (a, root, shrank) ← joinShrunk below.arena h side below.root below.shrank
      return ⟨⟨a, some root, shrank⟩, below.removed, call :: below.calls⟩
    match cmp probe node.item with
    | .eq => do return ⟨← a.unlink budget h, some h, [call]⟩
    | .lt => descend .left
    | .gt => descend .right

structure Finding (α : Type u) where
  found : Option (Record α)
  calls : Calls α

/-- The first record on the search path that compares equal to the probe. -/
def findBelow (cmp : α → α → Ordering) (probe : α) (a : Arena α) :
    Nat → Option Handle → Option (Finding α)
  | _, none => some ⟨none, []⟩
  | 0, some _ => none
  | budget + 1, some h => do
    let node ← a.get? h
    let call := (probe, node.item)
    let descend (side : Side) : Option (Finding α) := do
      let below ← findBelow cmp probe a budget (node.child side)
      return ⟨below.found, call :: below.calls⟩
    match cmp probe node.item with
    | .eq => return ⟨some ⟨h, node.item⟩, [call]⟩
    | .lt => descend .left
    | .gt => descend .right

/-- The last record on a side below a node. -/
def extremeBelow (side : Side) (a : Arena α) : Nat → Handle → Option (Record α)
  | 0, _ => none
  | budget + 1, h => do
    let node ← a.get? h
    match node.child side with
    | none => return ⟨h, node.item⟩
    | some next => extremeBelow side a budget next

/-- The tree that the links below some link spell. -/
def treeBelow (a : Arena α) : Nat → Option Handle → Option (Tree α)
  | _, none => some .leaf
  | 0, some _ => none
  | budget + 1, some h => do
    let node ← a.get? h
    let left ← treeBelow a budget node.left
    let right ← treeBelow a budget node.right
    return .node left node.balance ⟨h, node.item⟩ right

end Arena

end MemIndex
