import MemIndex.Walk.Traverse

/-!
# A visitor that writes down what it sees

It ends the walk on given conditions, which look at the position and at the item of a node.
-/
namespace MemIndex.Walk

/-- The visited nodes with their positions, in order. -/
abbrev Seen (ι : Type u) := Array (Nat × ι)

def recorder {ι : Type u} {α : Type v} [BEq α] (halts : Halts α) (item : ι → α) :
    Visitor ι (Seen ι) :=
  fun index node seen => (halts.verdict index (item node), seen.push (index, node))

end MemIndex.Walk
