import MemIndex.Walk.Recorder

/-!
# Links between numbered nodes

The links are given by a table: entry `i` holds the children of node `i`, and the item of a node is
its number. Nodes may be shared and may lie on a circle.
-/
namespace MemIndex.Walk

structure Numbered where
  root : Option Nat
  children : Array (Option Nat × Option Nat)

namespace Numbered

/-- A number outside the table has no children. -/
def links (table : Numbered) : Links Nat where
  root := table.root
  children node := table.children[node]?.getD (none, none)

/-- More steps than a walk can take in practice; only a walk in circles uses them up. -/
def budget : Nat := Nat.pow 2 60

def traverse (table : Numbered) (alloc : Allocator) (order : Order) (halts : Halts Nat) :
    Option (Report (Seen Nat)) :=
  Walk.traverse table.links alloc order (recorder halts id) budget #[]

end Numbered

end MemIndex.Walk
