import MemIndex.Proofs.Pool
import MemIndex.Proofs.Tree.Updates

/-!
# Trees that links spell

A tree lies in an arena when each of its nodes stands there under its own handle, with the links, the
balance and the item that it has in the tree. Such a tree is what the links spell, and rewriting the
links of some nodes leaves the trees on all other nodes as they are.
-/
namespace MemIndex

namespace Node

variable {α : Type u}

/-- A node with one link on the given side and the other one across. -/
def fork (side : Side) (near : Option Handle) (balance : Int) (item : α) (far : Option Handle) :
    Node α :=
  match side with
  | .left => ⟨near, far, balance, item⟩
  | .right => ⟨far, near, balance, item⟩

section Fork

variable (side : Side) (near : Option Handle) (b : Int) (item : α) (far link : Option Handle)

@[simp] theorem child_fork : (fork side near b item far).child side = near := by
  cases side <;> rfl

@[simp] theorem child_opposite_fork :
    (fork side near b item far).child side.opposite = far := by
  cases side <;> rfl

@[simp] theorem balance_fork : (fork side near b item far).balance = b := by
  cases side <;> rfl

@[simp] theorem item_fork : (fork side near b item far).item = item := by
  cases side <;> rfl

@[simp] theorem withChild_fork :
    (fork side near b item far).withChild side link = fork side link b item far := by
  cases side <;> rfl

@[simp] theorem withChild_opposite_fork :
    (fork side near b item far).withChild side.opposite link = fork side near b item link := by
  cases side <;> rfl

@[simp] theorem withBalance_fork (b' : Int) :
    (fork side near b item far).withBalance b' = fork side near b' item far := by
  cases side <;> rfl

@[simp] theorem inPlaceOf_fork (n : Node α) :
    n.inPlaceOf (fork side near b item far) = fork side near b n.item far := by
  cases side <;> rfl

end Fork

end Node

namespace Tree

variable {α : Type u}

/-- Every node of the tree stands in the arena. -/
def LiesIn (a : Arena α) : Tree α → Prop
  | leaf => True
  | node l b x r => a.get? x.handle = some ⟨l.link, r.link, b, x.item⟩ ∧ l.LiesIn a ∧ r.LiesIn a

theorem LiesIn.congr {a a' : Arena α} {t : Tree α}
    (hkept : ∀ h ∈ t.handles, a'.get? h = a.get? h) (ht : t.LiesIn a) : t.LiesIn a' := by
  induction t with
  | leaf => trivial
  | node l b x r ihl ihr =>
    obtain ⟨hx, hl, hr⟩ := ht
    refine ⟨?_, ihl (fun h hh => hkept h (by simp [hh])) hl,
      ihr (fun h hh => hkept h (by simp [hh])) hr⟩
    rw [hkept x.handle (by simp)]
    exact hx

/-- A tree stays when a record of another node comes in. -/
theorem LiesIn.insert {a : Arena α} {t : Tree α} (ht : t.LiesIn a) (hp : a.Sound) (node : Node α)
    (hh : a.nextHandle ∉ t.handles) : t.LiesIn (a.insert node) := by
  apply ht.congr
  intro x hx
  rw [Pool.lawful.get?_insert hp, if_neg]
  rintro rfl
  exact hh hx

/-- A tree stays when the record of another node goes out. -/
theorem LiesIn.erase {a : Arena α} {t : Tree α} (ht : t.LiesIn a) {h : Handle}
    (hh : h ∉ t.handles) : t.LiesIn (a.erase h) := by
  apply ht.congr
  intro x hx
  rw [Pool.lawful.get?_erase, if_neg]
  rintro rfl
  exact hh hx

theorem liesIn_fork {a : Arena α} {side : Side} {n : Tree α} {b : Int} {x : Record α} {f : Tree α} :
    (fork side n b x f).LiesIn a ↔
      a.get? x.handle = some (.fork side n.link b x.item f.link) ∧ n.LiesIn a ∧ f.LiesIn a := by
  cases side with
  | left => exact Iff.rfl
  | right => exact and_congr_right fun _ => and_comm

theorem LiesIn.item {a : Arena α} {t : Tree α} (ht : t.LiesIn a) {x : Record α}
    (hx : x ∈ t.toList) : (a.get? x.handle).map Node.item = some x.item := by
  induction t with
  | leaf => simp [toList] at hx
  | node l b y r ihl ihr =>
    obtain ⟨hy, hl, hr⟩ := ht
    rw [toList, List.mem_append, List.mem_cons] at hx
    rcases hx with hx | rfl | hx
    · exact ihl hl hx
    · simp [hy]
    · exact ihr hr hx

/-- The links of a tree lie there with it: reading them gives the tree back. -/
theorem LiesIn.treeBelow {a : Arena α} {t : Tree α} (ht : t.LiesIn a) {budget : Nat}
    (hb : t.height ≤ budget) : a.treeBelow budget t.link = some t := by
  induction t generalizing budget with
  | leaf => cases budget <;> rfl
  | node l b x r ihl ihr =>
    obtain ⟨hx, hl, hr⟩ := ht
    cases budget with
    | zero => simp [height] at hb
    | succ budget =>
      simp only [height, Nat.add_le_add_iff_right, Nat.max_le] at hb
      simp [Arena.treeBelow, hx, ihl hl hb.1, ihr hr hb.2]

/-- A search along the links is the search in the tree. -/
theorem LiesIn.findBelow {a : Arena α} {t : Tree α} (cmp : α → α → Ordering) (probe : α)
    (ht : t.LiesIn a) {budget : Nat} (hb : t.height ≤ budget) :
    Arena.findBelow cmp probe a budget t.link = some (t.find cmp probe) := by
  induction t generalizing budget with
  | leaf => cases budget <;> rfl
  | node l b x r ihl ihr =>
    obtain ⟨hx, hl, hr⟩ := ht
    cases budget with
    | zero => simp [height] at hb
    | succ budget =>
      simp only [height, Nat.add_le_add_iff_right, Nat.max_le] at hb
      cases hc : cmp probe x.item with
      | eq => simp [Arena.findBelow, hx, find, hc]
      | lt => simp [Arena.findBelow, hx, find, hc, Node.child, ihl hl hb.1]
      | gt => simp [Arena.findBelow, hx, find, hc, Node.child, ihr hr hb.2]

theorem LiesIn.extremeBelow {a : Arena α} {t : Tree α} (side : Side) (ht : t.LiesIn a)
    {top : Handle} (hl : t.link = some top) {budget : Nat} (hb : t.height ≤ budget) :
    Arena.extremeBelow side a budget top = t.extreme side := by
  induction t generalizing budget top with
  | leaf => cases hl
  | node l b x r ihl ihr =>
    cases hl
    obtain ⟨hx, hl, hr⟩ := ht
    cases budget with
    | zero => simp [height] at hb
    | succ budget =>
      simp only [height, Nat.add_le_add_iff_right, Nat.max_le] at hb
      cases side with
      | left =>
        cases l with
        | leaf => simp [Arena.extremeBelow, hx, Node.child, extreme]
        | node ll lb y lr =>
          have hbelow := ihl hl rfl hb.1
          simp [Arena.extremeBelow, hx, Node.child, hbelow, extreme]
      | right =>
        cases r with
        | leaf => simp [Arena.extremeBelow, hx, Node.child, extreme]
        | node rl rb y rr =>
          have hbelow := ihr hr rfl hb.2
          simp [Arena.extremeBelow, hx, Node.child, hbelow, extreme]

end Tree

namespace Arena

variable {α : Type u}

/-- Only the links and balances of the given nodes have been rewritten. -/
structure Relinked (a a' : Arena α) (hs : List Handle) : Prop where
  slots : Pool.SameSlots a a'
  item : ∀ h, (a'.get? h).map Node.item = (a.get? h).map Node.item
  kept : ∀ h, h ∉ hs → a'.get? h = a.get? h

theorem Relinked.refl (a : Arena α) (hs : List Handle) : Relinked a a hs :=
  ⟨.refl a, fun _ => rfl, fun _ _ => rfl⟩

theorem Relinked.trans {a a' a'' : Arena α} {hs : List Handle} (h : Relinked a a' hs)
    (h' : Relinked a' a'' hs) : Relinked a a'' hs :=
  ⟨Pool.lawful.slots.trans h.slots h'.slots, fun x => (h'.item x).trans (h.item x),
    fun x hx => (h'.kept x hx).trans (h.kept x hx)⟩

theorem Relinked.mono {a a' : Arena α} {hs hs' : List Handle} (h : Relinked a a' hs)
    (hsub : hs ⊆ hs') : Relinked a a' hs' :=
  ⟨h.slots, h.item, fun x hx => h.kept x fun hm => hx (hsub hm)⟩

/-- Trees on other nodes stay. -/
theorem Relinked.liesIn {a a' : Arena α} {hs : List Handle} (h : Relinked a a' hs) {t : Tree α}
    (hdisj : ∀ x ∈ t.handles, x ∉ hs) (ht : t.LiesIn a) : t.LiesIn a' :=
  ht.congr fun x hx => h.kept x (hdisj x hx)

/-- One node has been rewritten. -/
structure Written (a a' : Arena α) (h : Handle) (node : Node α) : Prop where
  slots : Pool.SameSlots a a'
  here : a'.get? h = some node
  other : ∀ h', h' ≠ h → a'.get? h' = a.get? h'

theorem Written.relinked {a a' : Arena α} {h : Handle} {old node : Node α}
    (hw : Written a a' h node) (hold : a.get? h = some old) (hitem : node.item = old.item)
    {hs : List Handle} (hh : h ∈ hs) : Relinked a a' hs where
  slots := hw.slots
  item x := by
    by_cases he : x = h
    · rw [he, hw.here, hold, Option.map_some, Option.map_some, hitem]
    · rw [hw.other x he]
  kept x hx := hw.other x fun he => hx (he ▸ hh)

/-- A tree without the node stays. -/
theorem Written.liesIn {a a' : Arena α} {h : Handle} {node : Node α} (hw : Written a a' h node)
    {t : Tree α} (hh : h ∉ t.handles) (ht : t.LiesIn a) : t.LiesIn a' := by
  apply ht.congr
  intro x hx
  apply hw.other x
  rintro rfl
  exact hh hx

theorem exists_modify? {a : Arena α} {h : Handle} {n : Node α} (hn : a.get? h = some n)
    (f : Node α → Node α) : ∃ a', a.modify? h f = some a' ∧ Written a a' h (f n) := by
  refine ⟨a.modify h f, Pool.modify?_of_get? hn f, Pool.lawful.slots_modify a h f, ?_, ?_⟩
  · rw [Pool.lawful.get?_modify, if_pos rfl, hn, Option.map_some]
  · intro h' hne
    rw [Pool.lawful.get?_modify, if_neg hne]

theorem exists_setChild {a : Arena α} {h : Handle} {n : Node α} (hn : a.get? h = some n)
    (side : Side) (link : Option Handle) :
    ∃ a', a.setChild h side link = some a' ∧ Written a a' h (n.withChild side link) :=
  exists_modify? hn _

theorem exists_setBalance {a : Arena α} {h : Handle} {n : Node α} (hn : a.get? h = some n)
    (balance : Int) :
    ∃ a', a.setBalance h balance = some a' ∧ Written a a' h (n.withBalance balance) :=
  exists_modify? hn _

end Arena

end MemIndex
