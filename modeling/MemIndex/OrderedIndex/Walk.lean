import MemIndex.OrderedIndex.Arena
import MemIndex.Walk.Traverse

/-!
# Walks over the nodes of an arena

The nodes of an arena are a link structure; a link whose handle does not resolve leads nowhere. The
number of nodes bounds the depth and the number of taken nodes of a walk over links without circles
and shared nodes, so it serves as the budget.
-/
namespace MemIndex

namespace Arena

variable {α : Type u} {σ : Type v}

/-- A node under its handle. -/
structure Place (α : Type u) where
  handle : Handle
  node : Node α

def Place.record (p : Place α) : Record α := ⟨p.handle, p.node.item⟩

/-- Where a link leads. -/
def follow (a : Arena α) (link : Option Handle) : Option (Place α) :=
  link.bind fun h => (a.get? h).map fun node => ⟨h, node⟩

def links (a : Arena α) (root : Option Handle) : Links (Place α) where
  root := a.follow root
  children p := (a.follow p.node.left, a.follow p.node.right)

def onRecords (visit : Visitor (Record α) σ) : Visitor (Place α) σ :=
  fun index p state => visit index p.record state

/-- Shows the records below a root to the visitor in the given order; none when the budget did not
suffice. -/
def traverse (a : Arena α) (root : Option Handle) (alloc : Allocator) (order : Walk.Order)
    (visit : Visitor (Record α) σ) (state : σ) : Option (Walk.Report σ) :=
  Walk.traverse (a.links root) alloc order (onRecords visit) a.size state

end Arena

end MemIndex
