import MemIndex.OrderedIndex.Arena

/-!
# Traces of updates

The updates of linked nodes once more, with a trace of all that they do on the way: which nodes are read,
which balance stands at a node whenever it has been written, which values balances are computed from,
where levelling starts, and where it finds nothing to raise. The trace is kept also of an update that does
not come to an end. Leaving it aside gives the updates back.
-/
namespace MemIndex

/-- What an update does to the nodes of an arena. -/
inductive Act where
  | read (h : Handle)
  /-- The node has been written, and this balance is stored there now. -/
  | written (h : Handle) (balance : Int)
  /-- The handle leads to no node. -/
  | missed (h : Handle)
  /-- A balance or a part of its formula has this value. -/
  | computed (value : Int)
  /-- Levelling starts at a node with this balance. -/
  | levelling (balance : Int)
  /-- A rotation or levelling finds no child to raise, and leaves the node as it is. -/
  | abandoned
  deriving DecidableEq

/-- What an update answers, with all that it did. -/
structure Traced (β : Type u) where
  acts : List Act
  result : Option β

namespace Traced

variable {β γ : Type u}

instance : Monad Traced where
  pure b := ⟨[], some b⟩
  bind m f :=
    match m.result with
    | none => ⟨m.acts, none⟩
    | some b => ⟨m.acts ++ (f b).acts, (f b).result⟩

/-- The budget is used up. -/
def exhausted : Traced β := ⟨[], none⟩

def note (acts : List Act) : Traced PUnit.{u + 1} := ⟨acts, some ⟨⟩⟩

@[simp] theorem result_pure (b : β) : (pure b : Traced β).result = some b := rfl

@[simp] theorem result_note (acts : List Act) : (note acts).result = some ⟨⟩ := rfl

@[simp] theorem result_bind (m : Traced β) (f : β → Traced γ) :
    (m >>= f).result = m.result.bind fun b => (f b).result := by
  obtain ⟨acts, _ | b⟩ := m <;> rfl

@[simp] theorem result_ite (p : Prop) [Decidable p] (m m' : Traced β) :
    (if p then m else m').result = if p then m.result else m'.result :=
  apply_ite result p m m'

end Traced

namespace Arena

open Traced (note exhausted)

variable {α : Type u}

/-! ## Single nodes -/

def readTraced (a : Arena α) (h : Handle) : Traced (Node α) :=
  match a.get? h with
  | some node => ⟨[.read h], some node⟩
  | none => ⟨[.missed h], none⟩

def writeTraced (a : Arena α) (h : Handle) (f : Node α → Node α) : Traced (Arena α) :=
  match a.get? h with
  | some node => ⟨[.written h (f node).balance], some (a.modify h f)⟩
  | none => ⟨[.missed h], none⟩

def setChildTraced (a : Arena α) (h : Handle) (side : Side) (link : Option Handle) :
    Traced (Arena α) :=
  a.writeTraced h (·.withChild side link)

def setBalanceTraced (a : Arena α) (h : Handle) (balance : Int) : Traced (Arena α) :=
  a.writeTraced h (·.withBalance balance)

@[simp] theorem result_readTraced (a : Arena α) (h : Handle) : (a.readTraced h).result = a.get? h := by
  unfold readTraced
  cases a.get? h <;> rfl

@[simp] theorem result_writeTraced (a : Arena α) (h : Handle) (f : Node α → Node α) :
    (a.writeTraced h f).result = a.modify? h f := by
  unfold writeTraced Pool.modify? Pool.contains
  cases a.get? h <;> rfl

@[simp] theorem result_setChildTraced (a : Arena α) (h : Handle) (side : Side)
    (link : Option Handle) : (a.setChildTraced h side link).result = a.setChild h side link :=
  result_writeTraced a h _

@[simp] theorem result_setBalanceTraced (a : Arena α) (h : Handle) (balance : Int) :
    (a.setBalanceTraced h balance).result = a.setBalance h balance :=
  result_writeTraced a h _

/-! ## Rotations -/

def rotateTraced (a : Arena α) (top : Handle) (side : Side) : Traced (Arena α × Handle) := do
  let up := side.opposite
  let node ← a.readTraced top
  match node.child up with
  | none =>
    note [.abandoned]
    return (a, top)
  | some pivot =>
    let inner := (← a.readTraced pivot).child side
    let a ← a.setChildTraced top up inner
    let a ← a.setChildTraced pivot side (some top)
    let s := up.sign
    let b := (← a.readTraced top).balance
    let c := (← a.readTraced pivot).balance
    let b' := b - s - max (s * c) 0 * s
    note [.computed (s * c), .computed (max (s * c) 0 * s), .computed (b - s), .computed b']
    let c' := c - s + min (s * b') 0 * s
    note [.computed (s * b'), .computed (min (s * b') 0 * s), .computed (c - s), .computed c']
    let a ← a.setBalanceTraced top b'
    let a ← a.setBalanceTraced pivot c'
    return (a, pivot)

def rebalanceTraced (a : Arena α) (top : Handle) : Traced (Arena α × Handle) := do
  let node ← a.readTraced top
  note [.levelling node.balance]
  let heavy := if 0 < node.balance then Side.right else Side.left
  match node.child heavy with
  | none =>
    note [.abandoned]
    return (a, top)
  | some child =>
    let lean := (← a.readTraced child).balance * heavy.sign
    note [.computed lean]
    if lean < 0 then
      let (a, raised) ← a.rotateTraced child heavy
      let a ← a.setChildTraced top heavy (some raised)
      a.rotateTraced top heavy.opposite
    else a.rotateTraced top heavy.opposite

@[simp] theorem result_rotateTraced (a : Arena α) (top : Handle) (side : Side) :
    (a.rotateTraced top side).result = a.rotate top side := by
  simp only [rotateTraced, rotate, Traced.result_bind, result_readTraced]
  congr 1
  funext node
  cases node.child side.opposite <;> simp

@[simp] theorem result_rebalanceTraced (a : Arena α) (top : Handle) :
    (a.rebalanceTraced top).result = a.rebalance top := by
  simp only [rebalanceTraced, rebalance, Traced.result_bind, result_readTraced, Traced.result_note]
  congr 1
  funext node
  cases node.child (if 0 < node.balance then Side.right else Side.left) <;> simp

/-! ## One level more or less -/

def growTraced (a : Arena α) (top : Handle) (side : Side) : Traced (Arena α × Handle × Bool) := do
  let balance := (← a.readTraced top).balance + side.sign
  note [.computed balance]
  let a ← a.setBalanceTraced top balance
  if balance = 0 then return (a, top, false)
  else if balance = 1 ∨ balance = -1 then return (a, top, true)
  else
    let (a, root) ← a.rebalanceTraced top
    return (a, root, false)

def shrinkTraced (a : Arena α) (top : Handle) (side : Side) : Traced (Arena α × Handle × Bool) := do
  let balance := (← a.readTraced top).balance - side.sign
  note [.computed balance]
  let a ← a.setBalanceTraced top balance
  if balance = 0 then return (a, top, true)
  else if balance = 1 ∨ balance = -1 then return (a, top, false)
  else
    match (← a.readTraced top).child side.opposite with
    | none =>
      let (a, root) ← a.rebalanceTraced top
      return (a, root, true)
    | some child =>
      let level := (← a.readTraced child).balance == 0
      let (a, root) ← a.rebalanceTraced top
      return (a, root, !level)

def joinGrownTraced (a : Arena α) (top : Handle) (side : Side) (child : Handle) (grew : Bool) :
    Traced (Arena α × Handle × Bool) := do
  let a ← a.setChildTraced top side (some child)
  if grew then a.growTraced top side else return (a, top, false)

def joinShrunkTraced (a : Arena α) (top : Handle) (side : Side) (child : Option Handle)
    (shrank : Bool) : Traced (Arena α × Handle × Bool) := do
  let a ← a.setChildTraced top side child
  if shrank then a.shrinkTraced top side else return (a, top, false)

@[simp] theorem result_growTraced (a : Arena α) (top : Handle) (side : Side) :
    (a.growTraced top side).result = a.grow top side := by
  simp [growTraced, grow]

@[simp] theorem result_shrinkTraced (a : Arena α) (top : Handle) (side : Side) :
    (a.shrinkTraced top side).result = a.shrink top side := by
  simp only [shrinkTraced, shrink, Traced.result_bind, Traced.result_ite, result_readTraced,
    result_setBalanceTraced, Traced.result_note, Traced.result_pure, Option.bind_some]
  refine Option.bind_congr fun node _ => Option.bind_congr fun a₁ _ => ?_
  split
  · rfl
  · split
    · rfl
    · refine Option.bind_congr fun node₁ _ => ?_
      cases node₁.child side.opposite <;> simp

@[simp] theorem result_joinGrownTraced (a : Arena α) (top : Handle) (side : Side) (child : Handle)
    (grew : Bool) : (a.joinGrownTraced top side child grew).result = a.joinGrown top side child grew := by
  simp [joinGrownTraced, joinGrown]

@[simp] theorem result_joinShrunkTraced (a : Arena α) (top : Handle) (side : Side)
    (child : Option Handle) (shrank : Bool) :
    (a.joinShrunkTraced top side child shrank).result = a.joinShrunk top side child shrank := by
  simp [joinShrunkTraced, joinShrunk]

/-! ## Insertion -/

def insertBelowTraced (cmp : α → α → Ordering) (new : Handle) :
    Nat → Arena α → Option Handle → Traced (Growth α)
  | _, a, none => pure ⟨a, new, true, []⟩
  | 0, _, some _ => exhausted
  | budget + 1, a, some h => do
    let item := (← a.readTraced new).item
    let node ← a.readTraced h
    let side := if cmp item node.item = .lt then Side.left else Side.right
    let below ← insertBelowTraced cmp new budget a (node.child side)
    let (a, root, grew) ← joinGrownTraced below.arena h side below.root below.grew
    return ⟨a, root, grew, (item, node.item) :: below.calls⟩

@[simp] theorem result_insertBelowTraced (cmp : α → α → Ordering) (new : Handle) (budget : Nat)
    (a : Arena α) (link : Option Handle) :
    (insertBelowTraced cmp new budget a link).result = insertBelow cmp new budget a link := by
  induction budget generalizing a link with
  | zero => cases link <;> rfl
  | succ budget ih =>
    cases link with
    | none => rfl
    | some h => simp [insertBelowTraced, insertBelow, ih]

/-! ## Removal -/

def detachExtremeTraced (side : Side) : Nat → Arena α → Handle → Traced (Detachment α)
  | 0, _, _ => exhausted
  | budget + 1, a, top => do
    let node ← a.readTraced top
    match node.child side with
    | none => return ⟨a, node.child side.opposite, true, top⟩
    | some next =>
      let below ← detachExtremeTraced side budget a next
      let (a, root, shrank) ← joinShrunkTraced below.arena top side below.root below.shrank
      return ⟨a, some root, shrank, below.found⟩

def replaceTraced (budget : Nat) (a : Arena α) (h : Handle) (side : Side) (child : Handle) :
    Traced (Shrinkage α) := do
  let d ← detachExtremeTraced side.opposite budget a child
  let node ← d.arena.readTraced h
  let a ← d.arena.writeTraced h fun node => .single node.item
  let a : Arena α ← a.writeTraced d.found (·.inPlaceOf (node.withChild side d.root))
  if d.shrank then
    let (a, root, shrank) ← a.shrinkTraced d.found side
    return ⟨a, some root, shrank⟩
  else return ⟨a, some d.found, false⟩

def unlinkTraced (budget : Nat) (a : Arena α) (h : Handle) : Traced (Shrinkage α) := do
  let node ← a.readTraced h
  match node.left, node.right with
  | some left, _ => a.replaceTraced budget h .left left
  | none, some right => a.replaceTraced budget h .right right
  | none, none => return ⟨a, none, true⟩

def removeBelowTraced (cmp : α → α → Ordering) (probe : α) :
    Nat → Arena α → Option Handle → Traced (Removal α)
  | _, a, none => pure ⟨⟨a, none, false⟩, none, []⟩
  | 0, _, some _ => exhausted
  | budget + 1, a, some h => do
    let node ← a.readTraced h
    let call := (probe, node.item)
    let descend (side : Side) : Traced (Removal α) := do
      let below ← removeBelowTraced cmp probe budget a (node.child side)
      let (a, root, shrank) ← joinShrunkTraced below.arena h side below.root below.shrank
      return ⟨⟨a, some root, shrank⟩, below.removed, call :: below.calls⟩
    match cmp probe node.item with
    | .eq => do return ⟨← a.unlinkTraced budget h, some h, [call]⟩
    | .lt => descend .left
    | .gt => descend .right

@[simp] theorem result_detachExtremeTraced (side : Side) (budget : Nat) (a : Arena α)
    (top : Handle) :
    (detachExtremeTraced side budget a top).result = detachExtreme side budget a top := by
  induction budget generalizing top with
  | zero => rfl
  | succ budget ih =>
    simp only [detachExtremeTraced, detachExtreme, Traced.result_bind, result_readTraced]
    congr 1
    funext node
    cases node.child side <;> simp [ih]

@[simp] theorem result_replaceTraced (budget : Nat) (a : Arena α) (h : Handle) (side : Side)
    (child : Handle) :
    (a.replaceTraced budget h side child).result = a.replace budget h side child := by
  simp [replaceTraced, replace]

@[simp] theorem result_unlinkTraced (budget : Nat) (a : Arena α) (h : Handle) :
    (a.unlinkTraced budget h).result = a.unlink budget h := by
  simp only [unlinkTraced, unlink, Traced.result_bind, result_readTraced]
  congr 1
  funext node
  cases node.left <;> cases node.right <;> simp

@[simp] theorem result_removeBelowTraced (cmp : α → α → Ordering) (probe : α) (budget : Nat)
    (a : Arena α) (link : Option Handle) :
    (removeBelowTraced cmp probe budget a link).result = removeBelow cmp probe budget a link := by
  induction budget generalizing link with
  | zero => cases link <;> rfl
  | succ budget ih =>
    cases link with
    | none => rfl
    | some h =>
      simp only [removeBelowTraced, removeBelow, Traced.result_bind, result_readTraced]
      congr 1
      funext node
      cases cmp probe node.item <;> simp [ih]

end Arena

end MemIndex
