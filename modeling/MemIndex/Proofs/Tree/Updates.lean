import Mathlib.Data.List.Nodup
import Mathlib.Tactic.Tauto
import MemIndex.OrderedIndex.Arena

/-!
# Updates on whole trees

What the operations on linked nodes do to the trees that the links spell. Here a subtree is a value, a
side is a parameter, and nothing can dangle or run in a circle; the nodes of an arena are shown to
follow these definitions step by step.
-/
namespace MemIndex.Tree

variable {α : Type u}

/-- One of two subtrees. -/
def pick (side : Side) (left right : Tree α) : Tree α :=
  match side with
  | .left => left
  | .right => right

/-- A node with one subtree on the given side and the other one across. -/
def fork (side : Side) (near : Tree α) (balance : Int) (x : Record α) (far : Tree α) : Tree α :=
  match side with
  | .left => node near balance x far
  | .right => node far balance x near

/-- The stored balance; an empty tree is level. -/
def balance : Tree α → Int
  | leaf => 0
  | node _ b _ _ => b

/-- A node that stores a level balance. -/
def isLevel : Tree α → Bool
  | leaf => false
  | node _ b _ _ => b == 0

/-- The new balance of a node lowered away from a pivot on the side with this sign. -/
def loweredBalance (s b c : Int) : Int := b - s - max (s * c) 0 * s

/-- The new balance of the pivot, once the lowered node has its own. -/
def raisedBalance (s c b' : Int) : Int := c - s + min (s * b') 0 * s

/-- Lowers the root toward a side. -/
def rotate (side : Side) : Tree α → Tree α
  | leaf => leaf
  | node l b x r =>
    match pick side.opposite l r with
    | leaf => node l b x r
    | node m c y n =>
      let b' := loweredBalance side.opposite.sign b c
      fork side (fork side (pick side l r) b' x (pick side m n))
        (raisedBalance side.opposite.sign c b') y (pick side.opposite m n)

/-- Rotates the higher child where it leans the other way, and then the node. -/
def rebalanceToward (heavy : Side) (l : Tree α) (b : Int) (x : Record α) (r : Tree α) : Tree α :=
  let child := pick heavy l r
  let child := if child.balance * heavy.sign < 0 then child.rotate heavy else child
  (fork heavy child b x (pick heavy.opposite l r)).rotate heavy.opposite

def rebalance : Tree α → Tree α
  | leaf => leaf
  | node l b x r => rebalanceToward (if 0 < b then .right else .left) l b x r

/-- A tree after an insertion below its root. -/
structure Grown (α : Type u) where
  tree : Tree α
  grew : Bool

/-- A tree after a removal below its root. -/
structure Shrunk (α : Type u) where
  tree : Tree α
  shrank : Bool

/-- A node whose subtree on a side has just become one higher than its balance says. -/
def grow (side : Side) (higher : Tree α) (b : Int) (x : Record α) (other : Tree α) : Grown α :=
  let b' := b + side.sign
  let t := fork side higher b' x other
  if b' = 0 then ⟨t, false⟩
  else if b' = 1 ∨ b' = -1 then ⟨t, true⟩
  else ⟨t.rebalance, false⟩

/-- A node after an insertion into its subtree on a side. -/
def joinGrown (side : Side) (below : Grown α) (b : Int) (x : Record α) (other : Tree α) : Grown α :=
  if below.grew then grow side below.tree b x other
  else ⟨fork side below.tree b x other, false⟩

/-- A node whose subtree on a side has just become one lower than its balance says. -/
def shrink (side : Side) (lower : Tree α) (b : Int) (x : Record α) (other : Tree α) : Shrunk α :=
  let b' := b - side.sign
  let t := fork side lower b' x other
  if b' = 0 then ⟨t, true⟩
  else if b' = 1 ∨ b' = -1 then ⟨t, false⟩
  else ⟨t.rebalance, !other.isLevel⟩

/-- A node after a removal from its subtree on a side. -/
def joinShrunk (side : Side) (below : Shrunk α) (b : Int) (x : Record α) (other : Tree α) :
    Shrunk α :=
  if below.shrank then shrink side below.tree b x other
  else ⟨fork side below.tree b x other, false⟩

structure Insertion (α : Type u) extends Grown α where
  calls : Calls α

def insert (cmp : α → α → Ordering) (new : Record α) : Tree α → Insertion α
  | leaf => ⟨⟨node leaf 0 new leaf, true⟩, []⟩
  | node l b x r =>
    let call := (new.item, x.item)
    if cmp new.item x.item = .lt then
      let below := l.insert cmp new
      ⟨joinGrown .left below.toGrown b x r, call :: below.calls⟩
    else
      let below := r.insert cmp new
      ⟨joinGrown .right below.toGrown b x l, call :: below.calls⟩

/-- A record taken out of a tree and what remains. -/
structure Detached (α : Type u) extends Shrunk α where
  record : Record α

/-- Takes the last record on a side out. -/
def detach (side : Side) : Tree α → Option (Detached α)
  | leaf => none
  | node l b x r =>
    let other := pick side.opposite l r
    let below :=
      match side with
      | .left => l.detach side
      | .right => r.detach side
    match below with
    | none => some ⟨⟨other, true⟩, x⟩
    | some d => some ⟨joinShrunk side d.toShrunk b x other, d.record⟩

/-- What remains of a node with these subtrees and this balance once its record is gone. -/
def unlink (l : Tree α) (b : Int) (r : Tree α) : Shrunk α :=
  match l.detach .right with
  | some d => joinShrunk .left d.toShrunk b d.record r
  | none =>
    match r.detach .left with
    | some d => joinShrunk .right d.toShrunk b d.record l
    | none => ⟨leaf, true⟩

structure Removal (α : Type u) extends Shrunk α where
  removed : Option (Record α)
  calls : Calls α

def remove (cmp : α → α → Ordering) (probe : α) : Tree α → Removal α
  | leaf => ⟨⟨leaf, false⟩, none, []⟩
  | node l b x r =>
    let call := (probe, x.item)
    match cmp probe x.item with
    | .eq => ⟨unlink l b r, some x, [call]⟩
    | .lt =>
      let below := l.remove cmp probe
      ⟨joinShrunk .left below.toShrunk b x r, below.removed, call :: below.calls⟩
    | .gt =>
      let below := r.remove cmp probe
      ⟨joinShrunk .right below.toShrunk b x l, below.removed, call :: below.calls⟩

def find (cmp : α → α → Ordering) (probe : α) : Tree α → Arena.Finding α
  | leaf => ⟨none, []⟩
  | node l _ x r =>
    let call := (probe, x.item)
    match cmp probe x.item with
    | .eq => ⟨some x, [call]⟩
    | .lt => ⟨(l.find cmp probe).found, call :: (l.find cmp probe).calls⟩
    | .gt => ⟨(r.find cmp probe).found, call :: (r.find cmp probe).calls⟩

/-- The last record on a side. -/
def extreme (side : Side) : Tree α → Option (Record α)
  | leaf => none
  | node l _ x r =>
    let below :=
      match side with
      | .left => l.extreme side
      | .right => r.extreme side
    some (below.getD x)

/-! ## Forks -/

@[simp] theorem pick_left (l r : Tree α) : pick .left l r = l := rfl

@[simp] theorem pick_right (l r : Tree α) : pick .right l r = r := rfl

@[simp] theorem fork_pick (side : Side) (l : Tree α) (b : Int) (x : Record α) (r : Tree α) :
    fork side (pick side l r) b x (pick side.opposite l r) = node l b x r := by
  cases side <;> rfl

@[simp] theorem link_fork (side : Side) (n : Tree α) (b : Int) (x : Record α) (f : Tree α) :
    (fork side n b x f).link = some x.handle := by
  cases side <;> rfl

@[simp] theorem height_fork (side : Side) (n : Tree α) (b : Int) (x : Record α) (f : Tree α) :
    (fork side n b x f).height = max n.height f.height + 1 := by
  cases side <;> simp [fork, height, Nat.max_comm]

@[simp] theorem balance_fork (side : Side) (n : Tree α) (b : Int) (x : Record α) (f : Tree α) :
    (fork side n b x f).balance = b := by
  cases side <;> rfl

@[simp] theorem isLevel_fork (side : Side) (n : Tree α) (b : Int) (x : Record α) (f : Tree α) :
    (fork side n b x f).isLevel = (b == 0) := by
  cases side <;> rfl

theorem mem_handles_fork {side : Side} {n : Tree α} {b : Int} {x : Record α} {f : Tree α}
    {h : Handle} :
    h ∈ (fork side n b x f).handles ↔ h = x.handle ∨ h ∈ n.handles ∨ h ∈ f.handles := by
  cases side <;> simp [fork] <;> tauto

/-- Which handles must differ in a tree without repetitions. -/
structure Apart (n : Tree α) (x : Record α) (f : Tree α) : Prop where
  near : n.handles.Nodup
  far : f.handles.Nodup
  root_near : x.handle ∉ n.handles
  root_far : x.handle ∉ f.handles
  disjoint : ∀ h ∈ n.handles, h ∉ f.handles

theorem nodup_fork {side : Side} {n : Tree α} {b : Int} {x : Record α} {f : Tree α} :
    (fork side n b x f).handles.Nodup ↔ Apart n x f := by
  constructor
  · intro h
    cases side <;>
      simp only [fork, handles_node, List.nodup_append, List.nodup_cons, List.mem_cons] at h
    · exact ⟨h.1, h.2.1.2, fun hm => h.2.2 _ hm _ (.inl rfl) rfl, h.2.1.1,
        fun y hy hf => h.2.2 y hy y (.inr hf) rfl⟩
    · exact ⟨h.2.1.2, h.1, h.2.1.1, fun hm => h.2.2 _ hm _ (.inl rfl) rfl,
        fun y hy hf => h.2.2 y hf y (.inr hy) rfl⟩
  · intro h
    cases side <;>
      simp only [fork, handles_node, List.nodup_append, List.nodup_cons, List.mem_cons]
    · refine ⟨h.near, ⟨h.root_far, h.far⟩, ?_⟩
      rintro y hy z (rfl | hz) rfl
      · exact h.root_near hy
      · exact h.disjoint y hy hz
    · refine ⟨h.far, ⟨h.root_near, h.near⟩, ?_⟩
      rintro y hy z (rfl | hz) rfl
      · exact h.root_far hy
      · exact h.disjoint y hz hy

/-- A tree is empty or a fork on any given side. -/
theorem fork_cases (side : Side) (t : Tree α) :
    t = leaf ∨ ∃ n b x f, t = fork side n b x f := by
  cases t with
  | leaf => exact .inl rfl
  | node l b x r =>
    exact .inr ⟨pick side l r, b, x, pick side.opposite l r, (fork_pick side l b x r).symm⟩

theorem rotate_leaf_far (side : Side) (n : Tree α) (b : Int) (x : Record α) :
    (fork side n b x leaf).rotate side = fork side n b x leaf := by
  cases side <;> rfl

/-- Lowering a node: the pivot keeps its far subtree and hands its near one over. -/
theorem rotate_fork (side : Side) (n : Tree α) (b : Int) (x : Record α) (m : Tree α) (c : Int)
    (y : Record α) (f : Tree α) :
    (fork side n b x (fork side m c y f)).rotate side =
      fork side (fork side n (loweredBalance side.opposite.sign b c) x m)
        (raisedBalance side.opposite.sign c (loweredBalance side.opposite.sign b c)) y f := by
  cases side <;> rfl

/-- A fork seen from the other side. -/
theorem fork_opposite (side : Side) (n : Tree α) (b : Int) (x : Record α) (f : Tree α) :
    fork side n b x f = fork side.opposite f b x n := by
  cases side <;> rfl

/-- Levelling a node with its higher subtree on a side. -/
theorem rebalance_fork {heavy : Side} (n : Tree α) {b : Int} (x : Record α) (f : Tree α)
    (hheavy : (if 0 < b then Side.right else .left) = heavy) :
    (fork heavy n b x f).rebalance =
      (fork heavy (if n.balance * heavy.sign < 0 then n.rotate heavy else n) b x f).rotate
        heavy.opposite := by
  cases heavy <;> simp [fork, rebalance, hheavy, rebalanceToward]

theorem detach_eq_none {side : Side} {t : Tree α} : t.detach side = none ↔ t = leaf := by
  cases t with
  | leaf => simp [detach]
  | node l b x r =>
    unfold detach
    dsimp only
    split <;> simp

end MemIndex.Tree
