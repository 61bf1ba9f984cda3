import MemIndex.OrderedIndex.Basic
import MemIndex.Walk.Recorder

/-!
# Rosters

A roster keeps an ordered index and numbers its items in the order in which they came in, from 0. The
number of an item never changes and is never given to another one. Every operation lists the calls of
the comparator, and answers none where the index does.
-/
namespace MemIndex

/-- The item that stands for a number. -/
class OfNumber (α : Type u) where
  ofNumber : Int → α

instance : OfNumber Int := ⟨id⟩

instance : OfNumber String := ⟨fun n => toString n⟩

instance : OfNumber (Int × String) := ⟨fun n => (n, "")⟩

/-- The numbers from `first`, so far apart, that have not reached `limit`, upwards or downwards. -/
def progression (first limit step : Int) : List Int :=
  let distance := if 0 < step then limit - first else first - limit
  let stride := step.natAbs
  (List.range ((distance.toNat + stride - 1) / stride)).map fun (i : Nat) => first + i * step

structure Roster (α : Type u) where
  index : OrderedIndex α
  /-- The handles in the order in which they were given out. -/
  issued : Array Handle

namespace Roster

variable {α : Type u}

/-- A roster after an operation, with the result and the calls of the comparator. -/
structure Turn (α : Type u) (β : Type v) where
  roster : Roster α
  result : β
  calls : Calls α

def empty (cmp : α → α → Ordering) : Roster α := ⟨.empty cmp, #[]⟩

def ordinal? (roster : Roster α) (h : Handle) : Option Nat := roster.issued.idxOf? h

/-- An item that has its number in front. -/
abbrev Numbered (α : Type u) := Option Nat × α

def number (roster : Roster α) (record : Record α) : Numbered α :=
  (roster.ordinal? record.handle, record.item)

def insert (roster : Roster α) (item : α) : Option (Turn α Nat) :=
  let ⟨index, issued⟩ := roster
  (index.insert item).map fun r => ⟨⟨r.index, issued.push r.handle⟩, issued.size, r.calls⟩

def remove (roster : Roster α) (probe : α) : Option (Turn α (Option (Numbered α))) :=
  let ⟨index, issued⟩ := roster
  (index.remove probe).map fun r =>
    let roster : Roster α := ⟨r.index, issued⟩
    ⟨roster, r.record.map roster.number, r.calls⟩

/-- Applies an operation to several items in turn. -/
def forAll {β : Type v} (operation : Roster α → α → Option (Turn α β)) :
    List α → Roster α → Option (Turn α (List β))
  | [], roster => some ⟨roster, [], []⟩
  | item :: rest, roster =>
    (operation roster item).bind fun first =>
      (forAll operation rest first.roster).map fun others =>
        ⟨others.roster, first.result :: others.result, first.calls ++ others.calls⟩

def insertAll (roster : Roster α) (items : List α) : Option (Turn α (List Nat)) :=
  forAll insert items roster

def removeAll (roster : Roster α) (probes : List α) :
    Option (Turn α (List (Option (Numbered α)))) :=
  forAll remove probes roster

def find (roster : Roster α) (probe : α) : Option (Turn α (Option (Numbered α))) :=
  (roster.index.find probe).map fun r => ⟨roster, r.found.map roster.number, r.calls⟩

def min (roster : Roster α) : Option (Option (Numbered α)) :=
  roster.index.min.map (·.map roster.number)

def max (roster : Roster α) : Option (Option (Numbered α)) :=
  roster.index.max.map (·.map roster.number)

def root? (roster : Roster α) : Option Nat := roster.index.root.bind roster.ordinal?

/-- Removes with a probe equal to the item at the root. -/
def removeRoot (roster : Roster α) : Option (Turn α (Option (Numbered α))) :=
  match roster.index.root.bind roster.index.get? with
  | some item => roster.remove item
  | none => some ⟨roster, none, []⟩

/-- The item with a number, unless it was removed or the number was never given. -/
def get? (roster : Roster α) (ordinal : Nat) : Option α :=
  roster.issued[ordinal]?.bind roster.index.get?

/-- None when the number was never given. -/
def contains? (roster : Roster α) (ordinal : Nat) : Option Bool :=
  roster.issued[ordinal]?.map roster.index.contains

/-- The items that are still there, by number. -/
def live (roster : Roster α) : List (Nat × α) :=
  roster.issued.toList.zipIdx.filterMap fun (h, ordinal) =>
    (roster.index.get? h).map fun item => (ordinal, item)

/-- The text of a handle; slots are counted from 1 in it. -/
def handleText (h : Handle) : String :=
  "NodeId(" ++ toString (h.slot + 1) ++ "v" ++ toString h.version ++ ")"

def handleTexts (roster : Roster α) : List String := roster.issued.toList.map handleText

/-- The tree in brackets, with the numbers of its items. -/
def shape (roster : Roster α) : Option String :=
  roster.index.tree?.map fun tree =>
    tree.shape fun record =>
      match roster.ordinal? record.handle with
      | some ordinal => toString ordinal
      | none => "?"

def height (roster : Roster α) : Option Nat := roster.index.tree?.map Tree.height

def traverse {ω : Type v} [BEq ω] (roster : Roster α) (alloc : Allocator) (order : Walk.Order)
    (halts : Halts ω) (item : α → ω) : Option (Walk.Report (Walk.Seen (Record α))) :=
  roster.index.traverse alloc order (Walk.recorder halts fun record => item record.item) #[]

end Roster

end MemIndex
