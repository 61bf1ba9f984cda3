import MemIndex.Proofs.Arena.Insertion
import MemIndex.Proofs.Arena.Removal
import MemIndex.Proofs.Arena.Traced
import MemIndex.Proofs.Tree.Balance

/-!
# What updates do on the way

Between the moments at which the links spell a balanced tree, an update writes balances of two, turns parts
of the tree round, and takes the links away from a node. In all of that it keeps to nodes of the arena, and
the balances say which way to turn: the heights in the tree that lies there are what bounds every value on
the way.
-/
namespace MemIndex

/-- All handles lead to nodes, no balance passes two, no value on the way to a balance leaves a signed
byte, levelling starts at two only, and there is always a child to raise. -/
def Act.Regular : Act → Prop
  | .read _ => True
  | .written _ balance => -2 ≤ balance ∧ balance ≤ 2
  | .missed _ => False
  | .computed value => -128 ≤ value ∧ value ≤ 127
  | .levelling balance => balance = 2 ∨ balance = -2
  | .abandoned => False

namespace Traced

variable {β γ : Type u}

def Regular (m : Traced β) : Prop := ∀ act ∈ m.acts, act.Regular

@[simp] theorem regular_pure (b : β) : (pure b : Traced β).Regular := fun _ h => by cases h

@[simp] theorem regular_note (acts : List Act) : (note acts).Regular ↔ ∀ act ∈ acts, act.Regular :=
  Iff.rfl

@[simp] theorem regular_bind (m : Traced β) (f : β → Traced γ) :
    (m >>= f).Regular ↔ m.Regular ∧ ∀ b, m.result = some b → (f b).Regular := by
  obtain ⟨acts, _ | b⟩ := m
  · simp [Bind.bind, Regular]
  · simp [Bind.bind, Regular, or_imp, forall_and]

@[simp] theorem regular_ite (p : Prop) [Decidable p] (m m' : Traced β) :
    (if p then m else m').Regular ↔ (p → m.Regular) ∧ (¬p → m'.Regular) := by
  split <;> simp [*]

end Traced

namespace Arena

open MemIndex.Tree (Apart)

variable {α : Type u}

@[simp] theorem regular_readTraced (a : Arena α) (h : Handle) :
    (a.readTraced h).Regular ↔ ∃ node, a.get? h = some node := by
  unfold readTraced
  cases a.get? h <;> simp [Traced.Regular, Act.Regular]

theorem regular_writeTraced (a : Arena α) (h : Handle) (g : Node α → Node α) :
    (a.writeTraced h g).Regular ↔
      ∃ node, a.get? h = some node ∧ (Act.written h (g node).balance).Regular := by
  unfold writeTraced
  cases a.get? h <;> simp [Traced.Regular, Act.Regular]

/-- A write that leaves a tree of which the node is the root, with a balance within two. -/
theorem regular_writeTraced_fork {a a' : Arena α} {g : Node α → Node α} {side : Side} {n f : Tree α}
    {b : Int} {x : Record α} (hrun : a.modify? x.handle g = some a')
    (ht : (Tree.fork side n b x f).LiesIn a') (hlow : -2 ≤ b) (hhigh : b ≤ 2) :
    (a.writeTraced x.handle g).Regular := by
  obtain ⟨hx, -, -⟩ := Tree.liesIn_fork.1 ht
  cases hold : a.get? x.handle with
  | none =>
    rw [Pool.modify?, Pool.contains_eq_false.2 hold] at hrun
    cases hrun
  | some node =>
    rw [Pool.modify?_of_get? hold] at hrun
    cases hrun
    rw [Pool.lawful.get?_modify, if_pos rfl, hold, Option.map_some, Option.some.injEq] at hx
    refine (regular_writeTraced a _ g).2 ⟨node, hold, ?_⟩
    rw [hx, Node.balance_fork]
    exact ⟨hlow, hhigh⟩

/-! ## Rotations -/

/-- Where a node leans by one or two to the side that rises, and its child there no more than the node and
less by two at most, the balances before and after a rotation are within two, and the parts of their
formulas are not far from that. -/
theorem rotation_values {s b c : Int} (hs : s = 1 ∨ s = -1) (hb : s * b = 1 ∨ s * b = 2)
    (hlow : s * b - 2 ≤ s * c) (hhigh : s * c ≤ s * b) :
    let b' := b - s - max (s * c) 0 * s
    let c' := c - s + min (s * b') 0 * s
    (∀ h, ∀ v ∈ [b, c, b', c'], (Act.written h v).Regular) ∧
      ∀ v ∈ [s * c, max (s * c) 0 * s, b - s, b', s * b', min (s * b') 0 * s, c - s, c'],
        (Act.computed v).Regular := by
  intro b' c'
  refine ⟨fun h => ?_, ?_⟩ <;>
    simp only [List.forall_mem_cons, List.not_mem_nil, false_imp_iff, implies_true, and_true, b', c',
      Act.Regular] <;>
    obtain rfl | rfl := hs <;> omega

theorem regular_rotateTraced {a : Arena α} {side : Side} {n m f : Tree α} {b c : Int} {x y : Record α}
    (ht : (Tree.fork side n b x (.fork side m c y f)).LiesIn a)
    (hn : (Tree.fork side n b x (.fork side m c y f)).handles.Nodup)
    (hb : side.opposite.sign * b = 1 ∨ side.opposite.sign * b = 2)
    (hlow : side.opposite.sign * b - 2 ≤ side.opposite.sign * c)
    (hhigh : side.opposite.sign * c ≤ side.opposite.sign * b) :
    (a.rotateTraced x.handle side).Regular := by
  obtain ⟨hx, -, hyl⟩ := Tree.liesIn_fork.1 ht
  obtain ⟨hy, -, -⟩ := Tree.liesIn_fork.1 hyl
  have hne : x.handle ≠ y.handle := fun he =>
    (Tree.nodup_fork.1 hn).root_far (he ▸ Tree.mem_handles_fork.2 (.inl rfl))
  have hset := @Pool.modify?_of_get? (Node α)
  have hs : side.opposite.sign = 1 ∨ side.opposite.sign = -1 := by cases side <;> decide
  obtain ⟨hstored, hparts⟩ := rotation_values hs hb hlow hhigh
  simp only [List.forall_mem_cons, List.not_mem_nil, false_imp_iff, implies_true, and_true]
    at hstored hparts
  simp [rotateTraced, setChildTraced, setBalanceTraced, regular_writeTraced, hx, hy, hset,
    Pool.lawful.get?_modify, hne, hne.symm, hstored, hparts]

/-- Levelling a node that leans by two: both of its rotations find their child. -/
theorem regular_rebalanceTraced {a : Arena α} {heavy : Side} {n f : Tree α} {b : Int} {x : Record α}
    (ht : (Tree.fork heavy n b x f).LiesIn a) (hn : (Tree.fork heavy n b x f).handles.Nodup)
    (hbal : n.Balanced) (hb : b = heavy.sign * 2) (htwo : n.height = f.height + 2) :
    (a.rebalanceTraced x.handle).Regular := by
  have hheavy : (if 0 < b then Side.right else .left) = heavy := by
    cases heavy <;> simp [hb, Side.sign]
  obtain ⟨hx, hnl, -⟩ := Tree.liesIn_fork.1 ht
  obtain rfl | ⟨p, c, y, q, rfl⟩ := n.fork_cases heavy
  · simp [Tree.height] at htwo
  obtain ⟨hy, -, -⟩ := Tree.liesIn_fork.1 hnl
  obtain ⟨hc, hlow, hhigh, hp, hq⟩ := Tree.balanced_fork.1 hbal
  rw [Tree.link_fork] at hx
  have hlevelling : (Act.levelling b).Regular := by
    cases heavy <;> simp [hb, Act.Regular, Side.sign]
  have hproduct : (Act.computed (c * heavy.sign)).Regular := by
    cases heavy <;> simp only [Act.Regular, Side.sign] <;> omega
  by_cases hlean : c * heavy.sign < 0
  -- The child leans inwards and is turned first. The node raised between may lean by two then, so that the
  -- second rotation starts from two balances of two.
  · obtain rfl | ⟨m, e, z, r, rfl⟩ := q.fork_cases heavy
    · cases heavy <;> simp only [Side.sign, Tree.height] at hc hlean <;> omega
    obtain ⟨-, helow, hehigh, -, -⟩ := Tree.balanced_fork.1 hq
    obtain ⟨a₁, raised, a₂, hrun, hset, hlies, hre⟩ :=
      exists_rotate_near ht hn (Tree.link_fork _ _ _ _ _)
    have hn' := nodup_fork_rotate hn
    rw [Tree.rotate_fork, Tree.fork_opposite heavy _ b, Tree.fork_opposite heavy _ _ z] at hlies hn'
    have hfirst : (a.rotateTraced y.handle heavy).Regular := by
      refine regular_rotateTraced hnl (Tree.nodup_fork.1 hn).near ?_ ?_ ?_ <;>
        cases heavy <;> simp only [Side.sign, Side.opposite] at * <;> omega
    have hsecond : (a₂.rotateTraced x.handle heavy.opposite).Regular := by
      refine regular_rotateTraced hlies hn' ?_ ?_ ?_ <;>
        cases heavy <;>
        simp only [Side.sign, Side.opposite, Tree.loweredBalance, Tree.raisedBalance] at * <;> omega
    have hwrite : (a₁.setChildTraced x.handle heavy (some raised)).Regular := by
      refine regular_writeTraced_fork hset hlies ?_ ?_ <;>
        cases heavy <;> simp only [Side.sign] at hb <;> omega
    simp [rebalanceTraced, hx, hheavy, hy, hrun, hset, Int.not_le.2 hlean, hfirst, hsecond,
      hwrite, hlevelling, hproduct]
  · have hrotate : (a.rotateTraced x.handle heavy.opposite).Regular := by
      rw [Tree.fork_opposite heavy _ b, Tree.fork_opposite heavy _ c] at ht hn
      refine regular_rotateTraced ht hn ?_ ?_ ?_ <;>
        cases heavy <;> simp only [Side.sign, Side.opposite] at * <;> omega
    simp [rebalanceTraced, hx, hheavy, hy, hlean, hrotate, hlevelling, hproduct]

/-! ## One level more or less -/

section Judged

variable {a : Arena α} {side : Side} {n : Tree α} {b : Int} {x : Record α} {f : Tree α}
  (ht : (Tree.fork side n b x f).LiesIn a) (hn : (Tree.fork side n b x f).handles.Nodup)
  (hlow : -1 ≤ b) (hhigh : b ≤ 1)

include ht hn hlow hhigh

/-- The node comes to lean to a side by one more, because of the height of its subtree there. -/
theorem exists_leaning (hbal : n.Balanced) (hb : b = side.sign * ((n.height : Int) - 1 - f.height)) :
    ∃ a₁, a.setBalance x.handle (b + side.sign) = some a₁ ∧
      (Tree.fork side n (b + side.sign) x f).LiesIn a₁ ∧
      (a.setBalanceTraced x.handle (b + side.sign)).Regular ∧
      (Act.computed (b + side.sign)).Regular ∧
      (¬b + side.sign = 0 → ¬(b + side.sign = 1 ∨ b + side.sign = -1) →
        (a₁.rebalanceTraced x.handle).Regular) := by
  obtain ⟨a₁, hset, hlies, -⟩ := exists_setBalance_fork ht hn (b + side.sign)
  have hn' : (Tree.fork side n (b + side.sign) x f).handles.Nodup :=
    Tree.nodup_fork.2 (Tree.nodup_fork.1 hn)
  have htwo : -2 ≤ b + side.sign ∧ b + side.sign ≤ 2 := by
    cases side <;> simp only [Side.sign] <;> omega
  refine ⟨a₁, hset, hlies, regular_writeTraced_fork hset hlies htwo.1 htwo.2,
    ⟨by omega, by omega⟩, ?_⟩
  -- Neither level nor leaning by one, so by two, and to this side.
  intro hzero hone
  refine regular_rebalanceTraced hlies hn' hbal ?_ ?_ <;>
    cases side <;> simp only [Side.sign] at * <;> omega

theorem regular_growTraced (hbal : n.Balanced)
    (hb : b = side.sign * ((n.height : Int) - 1 - f.height)) :
    (a.growTraced x.handle side).Regular := by
  obtain ⟨hx, -, -⟩ := Tree.liesIn_fork.1 ht
  obtain ⟨a₁, hset, -, hwrite, hsum, hrebalance⟩ := exists_leaning ht hn hlow hhigh hbal hb
  simpa [growTraced, hx, hset, hwrite, hsum] using hrebalance

/-- A lower subtree makes the node lean to the other side. -/
theorem regular_shrinkTraced (hbal : f.Balanced)
    (hb : b = side.sign * ((n.height : Int) + 1 - f.height)) :
    (a.shrinkTraced x.handle side).Regular := by
  obtain ⟨hx, -, -⟩ := Tree.liesIn_fork.1 ht
  have hsign : b + side.opposite.sign = b - side.sign := by cases side <;> rfl
  have hb' : b = side.opposite.sign * ((f.height : Int) - 1 - n.height) := by
    cases side <;> simp only [Side.sign, Side.opposite] at * <;> omega
  rw [Tree.fork_opposite] at ht hn
  obtain ⟨a₁, hset, hlies, hwrite, hdifference, hrebalance⟩ :=
    exists_leaning ht hn hlow hhigh hbal hb'
  rw [hsign] at hset hlies hwrite hdifference hrebalance
  obtain ⟨hx₁, hfl, -⟩ := Tree.liesIn_fork.1 hlies
  obtain rfl | ⟨p, c, y, q, rfl⟩ := f.fork_cases side
  · simpa [shrinkTraced, hx, hset, hwrite, hdifference, hx₁] using hrebalance
  · obtain ⟨hy, -, -⟩ := Tree.liesIn_fork.1 hfl
    simpa [shrinkTraced, hx, hset, hwrite, hdifference, hx₁, hy] using hrebalance

end Judged

/-! ## A node that gets another subtree -/

section Joined

variable {a a₁ : Arena α} {side : Side} {n : Tree α} {b : Int} {x : Record α} {f : Tree α}
  {touched : List Handle} (ht : (Tree.fork side n b x f).LiesIn a) (hre : Relinked a a₁ touched)
  (hxs : x.handle ∉ touched) (hfs : ∀ h ∈ f.handles, h ∉ touched)
  (hbal : (Tree.fork side n b x f).Balanced)

include ht hre hxs hfs hbal

theorem regular_joinGrownTraced {below : Tree.Grown α} {child : Handle}
    (hlink : below.tree.link = some child) (hlies : below.tree.LiesIn a₁)
    (hapart : Apart below.tree x f) (hbelow : Tree.GrowsFrom n below) :
    (a₁.joinGrownTraced x.handle side child below.grew).Regular := by
  obtain ⟨hb, hlow, hhigh, -, -⟩ := Tree.balanced_fork.1 hbal
  obtain ⟨a₂, hset, hlies₂, -⟩ := exists_setChild_fork ht hre hlies hxs hfs hapart.root_near
    hapart.root_far
  rw [hlink] at hset
  have hwrite : (a₁.setChildTraced x.handle side (some child)).Regular :=
    regular_writeTraced_fork hset hlies₂ (by omega) (by omega)
  have hgrow : below.grew = true → (a₂.growTraced x.handle side).Regular := by
    intro hgrew
    have hheight := hbelow.height
    rw [hgrew, Bool.toNat_true] at hheight
    have hexact : b = side.sign * ((below.tree.height : Int) - 1 - f.height) := by
      rw [hb, hheight]
      congr 1
      omega
    exact regular_growTraced hlies₂ (Tree.nodup_fork.2 hapart) hlow hhigh hbelow.balanced hexact
  simpa [joinGrownTraced, hset, hwrite] using hgrow

theorem regular_joinShrunkTraced {below : Tree.Shrunk α} (hlies : below.tree.LiesIn a₁)
    (hapart : Apart below.tree x f) (hbelow : Tree.ShrinksFrom n below) :
    (a₁.joinShrunkTraced x.handle side below.tree.link below.shrank).Regular := by
  obtain ⟨hb, hlow, hhigh, -, hf⟩ := Tree.balanced_fork.1 hbal
  obtain ⟨a₂, hset, hlies₂, -⟩ := exists_setChild_fork ht hre hlies hxs hfs hapart.root_near
    hapart.root_far
  have hwrite : (a₁.setChildTraced x.handle side below.tree.link).Regular :=
    regular_writeTraced_fork hset hlies₂ (by omega) (by omega)
  have hshrink : below.shrank = true → (a₂.shrinkTraced x.handle side).Regular := by
    intro hshrank
    have hheight := hbelow.height
    rw [hshrank, Bool.toNat_true] at hheight
    have hexact : b = side.sign * ((below.tree.height : Int) + 1 - f.height) := by
      rw [hb, ← hheight]
      rfl
    exact regular_shrinkTraced hlies₂ (Tree.nodup_fork.2 hapart) hlow hhigh hf hexact
  simpa [joinShrunkTraced, hset, hwrite] using hshrink

end Joined

/-! ## Insertion -/

theorem regular_insertBelowTraced_fork {cmp : α → α → Ordering} {new : Record α} {a : Arena α}
    (side : Side) {n : Tree α} {b : Int} {x : Record α} {f : Tree α} {budget : Nat}
    (hside : (if cmp new.item x.item = .lt then Side.left else .right) = side)
    (ht : (Tree.fork side n b x f).LiesIn a) (hn : (Tree.fork side n b x f).handles.Nodup)
    (hbal : (Tree.fork side n b x f).Balanced)
    (hnew : a.get? new.handle = some (.single new.item))
    (hfresh : new.handle ∉ (Tree.fork side n b x f).handles) (hb : n.height ≤ budget)
    (ih : (insertBelowTraced cmp new.handle budget a n.link).Regular) :
    (insertBelowTraced cmp new.handle (budget + 1) a (some x.handle)).Regular := by
  obtain ⟨hx, hnl, -⟩ := Tree.liesIn_fork.1 ht
  have hapart := Tree.nodup_fork.1 hn
  rw [Tree.mem_handles_fork, not_or, not_or] at hfresh
  obtain ⟨hnewx, hnewn, hnewf⟩ := hfresh
  obtain ⟨-, -, -, hbaln, -⟩ := Tree.balanced_fork.1 hbal
  obtain ⟨below, hrun, hbelow⟩ := insertBelow_grew cmp new hnl hapart.near hnew hnewn hb
  have hjoin : (joinGrownTraced below.arena x.handle side below.root below.grew).Regular := by
    rw [hbelow.grew]
    refine regular_joinGrownTraced ht hbelow.relinked ?_ ?_ hbal hbelow.link hbelow.lies
      (hapart.insert hnewx hnewn hnewf) (Tree.growsFrom_insert cmp new hbaln)
    · simp [Ne.symm hnewx, hapart.root_near]
    · exact fun h hf hm => (List.mem_cons.1 hm).elim (fun he => hnewf (he ▸ hf))
        fun hm => hapart.disjoint h hm hf
  simp [insertBelowTraced, hnew, hx, Node.single, hside, ih, hrun, hjoin]

theorem regular_insertBelowTraced (cmp : α → α → Ordering) (new : Record α) {a : Arena α} {t : Tree α}
    {budget : Nat} (ht : t.LiesIn a) (hn : t.handles.Nodup) (hbal : t.Balanced)
    (hnew : a.get? new.handle = some (.single new.item)) (hfresh : new.handle ∉ t.handles)
    (hb : t.height ≤ budget) : (insertBelowTraced cmp new.handle budget a t.link).Regular := by
  induction t generalizing budget with
  | leaf => cases budget <;> exact Traced.regular_pure _
  | node l b x r ihl ihr =>
    cases budget with
    | zero => simp [Tree.height] at hb
    | succ budget =>
      simp only [Tree.height, Nat.add_le_add_iff_right, Nat.max_le] at hb
      have hapart := Tree.nodup_fork.1 (show (Tree.fork .left l b x r).handles.Nodup from hn)
      have hfork : (Tree.fork .left l b x r).Balanced ∧ (Tree.fork .right r b x l).Balanced :=
        ⟨hbal, hbal⟩
      obtain ⟨-, -, -, hball, hbalr⟩ := hbal
      obtain ⟨hl, -, hr⟩ : new.handle ∉ l.handles ∧ new.handle ≠ x.handle ∧
          new.handle ∉ r.handles := by
        simpa [not_or] using hfresh
      -- Nothing is written on the way down, so the hypotheses are about the same arena.
      by_cases hlt : cmp new.item x.item = .lt
      · exact regular_insertBelowTraced_fork .left (if_pos hlt) ht hn hfork.1 hnew hfresh hb.1
          (ihl ht.2.1 hapart.near hball hl hb.1)
      · exact regular_insertBelowTraced_fork .right (if_neg hlt)
          (Tree.liesIn_fork.2 ⟨ht.1, ht.2.2, ht.2.1⟩) hn hfork.2 hnew hfresh hb.2
          (ihr ht.2.2 hapart.far hbalr hr hb.2)

/-! ## Removal -/

theorem regular_detachExtremeTraced_fork {a : Arena α} {side : Side} {n : Tree α} {b : Int}
    {x : Record α} {f : Tree α} {budget : Nat} (ht : (Tree.fork side n b x f).LiesIn a)
    (hn : (Tree.fork side n b x f).handles.Nodup) (hbal : (Tree.fork side n b x f).Balanced)
    (hb : n.height ≤ budget)
    (ih : ∀ next, n.link = some next → (detachExtremeTraced side budget a next).Regular) :
    (detachExtremeTraced side (budget + 1) a x.handle).Regular := by
  obtain ⟨hx, hnl, -⟩ := Tree.liesIn_fork.1 ht
  have hapart := Tree.nodup_fork.1 hn
  obtain ⟨-, -, -, hbaln, -⟩ := Tree.balanced_fork.1 hbal
  cases hl : n.link with
  | none => simp [detachExtremeTraced, hx, hl]
  | some next =>
    obtain ⟨d, below, hd, hrun, hcut⟩ : ∃ d below, n.detach side = some d ∧
        detachExtreme side budget a next = some below ∧ Cut a n d below :=
      detachExtreme_cut hnl hapart.near hl hb
    have hjoin : (joinShrunkTraced below.arena x.handle side below.root below.shrank).Regular := by
      rw [← hcut.link, hcut.shrank]
      exact regular_joinShrunkTraced ht hcut.relinked hapart.root_near
        (fun h hf hm => hapart.disjoint h hm hf) hbal hcut.lies (hapart.detach hd).2
        (Tree.shrinksFrom_detach hbaln hd)
    simp [detachExtremeTraced, hx, hl, ih next hl, hrun, hjoin]

theorem regular_detachExtremeTraced {a : Arena α} {side : Side} {t : Tree α} {budget : Nat}
    {top : Handle} (ht : t.LiesIn a) (hn : t.handles.Nodup) (hbal : t.Balanced)
    (hl : t.link = some top) (hb : t.height ≤ budget) :
    (detachExtremeTraced side budget a top).Regular := by
  induction t generalizing budget top with
  | leaf => cases hl
  | node l b x r ihl ihr =>
    cases hl
    cases budget with
    | zero => simp [Tree.height] at hb
    | succ budget =>
      simp only [Tree.height, Nat.add_le_add_iff_right, Nat.max_le] at hb
      have hapart := Tree.nodup_fork.1 (show (Tree.fork .left l b x r).handles.Nodup from hn)
      have hfork : (Tree.fork .left l b x r).Balanced ∧ (Tree.fork .right r b x l).Balanced :=
        ⟨hbal, hbal⟩
      obtain ⟨-, -, -, hball, hbalr⟩ := hbal
      cases side with
      | left =>
        have hlies : (Tree.fork .left l b x r).LiesIn a := ht
        exact regular_detachExtremeTraced_fork hlies hn hfork.1 hb.1 fun next hnext =>
          ihl ht.2.1 hapart.near hball hnext hb.1
      | right =>
        have hlies : (Tree.fork .right r b x l).LiesIn a := ht
        exact regular_detachExtremeTraced_fork hlies hn hfork.2 hb.2 fun next hnext =>
          ihr ht.2.2 hapart.far hbalr hnext hb.2

/-- While the neighbour of a node takes over its links, the node itself is level and has none. -/
theorem regular_replaceTraced {a : Arena α} {side : Side} {n : Tree α} {b : Int} {x : Record α}
    {f : Tree α} {budget : Nat} {child : Handle} (ht : (Tree.fork side n b x f).LiesIn a)
    (hn : (Tree.fork side n b x f).handles.Nodup) (hbal : (Tree.fork side n b x f).Balanced)
    (hl : n.link = some child) (hb : n.height ≤ budget) :
    (a.replaceTraced budget x.handle side child).Regular := by
  have hapart := Tree.nodup_fork.1 hn
  obtain ⟨hexact, hlow, hhigh, hbaln, hbalf⟩ := Tree.balanced_fork.1 hbal
  have hdetach : (detachExtremeTraced side.opposite budget a child).Regular :=
    regular_detachExtremeTraced (Tree.liesIn_fork.1 ht).2.1 hapart.near hbaln hl hb
  obtain ⟨d, cut, hd, hrun, hcut⟩ : ∃ d cut, n.detach side.opposite = some d ∧
      detachExtreme side.opposite budget a child = some cut ∧ Cut a n d cut :=
    detachExtreme_cut (Tree.liesIn_fork.1 ht).2.1 hapart.near hl hb
  -- In between, the node has given its links away and its neighbour holds them, at the same balance.
  obtain ⟨hheir, -⟩ := hapart.detach hd
  obtain ⟨node, a₁, a₂, hx, hm₁, hm₂, hlies, -⟩ := exists_heir ht hapart hd hcut
  have hleft : (cut.arena.writeTraced x.handle fun node => .single node.item).Regular :=
    (regular_writeTraced ..).2 ⟨node, hx, by simp [Act.Regular, Node.single]⟩
  have hheld : (writeTraced a₁ cut.found (·.inPlaceOf (node.withChild side cut.root))).Regular := by
    rw [hcut.found] at hm₂ ⊢
    exact regular_writeTraced_fork hm₂ hlies (by omega) (by omega)
  have hshrink : cut.shrank = true → (shrinkTraced a₂ cut.found side).Regular := by
    intro hshrank
    rw [hcut.shrank] at hshrank
    have hheight := (Tree.shrinksFrom_detach hbaln hd).height
    rw [hshrank, Bool.toNat_true] at hheight
    have hcounted : b = side.sign * ((d.tree.height : Int) + 1 - f.height) := by
      rw [hexact, ← hheight]
      rfl
    rw [hcut.found]
    exact regular_shrinkTraced hlies (Tree.nodup_fork.2 hheir) hlow hhigh hbalf hcounted
  simpa [replaceTraced, hdetach, hrun, hx, hleft, hm₁, hheld, hm₂] using hshrink

theorem regular_unlinkTraced {a : Arena α} {l : Tree α} {b : Int} {x : Record α} {r : Tree α}
    {budget : Nat} (ht : (Tree.node l b x r).LiesIn a) (hn : (Tree.node l b x r).handles.Nodup)
    (hbal : (Tree.node l b x r).Balanced) (hl : l.height ≤ budget) (hr : r.height ≤ budget) :
    (a.unlinkTraced budget x.handle).Regular := by
  have hx := ht.1
  have hleft : (Tree.fork .left l b x r).LiesIn a := ht
  have hright : (Tree.fork .right r b x l).LiesIn a := ht
  cases l with
  | node ll lb y lr =>
    have hreplace : (a.replaceTraced budget x.handle .left y.handle).Regular :=
      regular_replaceTraced hleft hn hbal rfl hl
    simp [unlinkTraced, hx, hreplace]
  | leaf =>
    cases r with
    | node rl rb y rr =>
      have hreplace : (a.replaceTraced budget x.handle .right y.handle).Regular :=
        regular_replaceTraced hright hn hbal rfl hr
      simp [unlinkTraced, hx, hreplace]
    | leaf => simp [unlinkTraced, hx]

theorem regular_removeBelowTraced_fork {cmp : α → α → Ordering} {probe : α} {a : Arena α}
    (side : Side) {n : Tree α} {b : Int} {x : Record α} {f : Tree α} {budget : Nat}
    (hside : cmp probe x.item = match side with | .left => .lt | .right => .gt)
    (ht : (Tree.fork side n b x f).LiesIn a) (hn : (Tree.fork side n b x f).handles.Nodup)
    (hbal : (Tree.fork side n b x f).Balanced) (hb : n.height ≤ budget)
    (ih : (removeBelowTraced cmp probe budget a n.link).Regular) :
    (removeBelowTraced cmp probe (budget + 1) a (some x.handle)).Regular := by
  obtain ⟨hx, hnl, -⟩ := Tree.liesIn_fork.1 ht
  have hapart := Tree.nodup_fork.1 hn
  obtain ⟨-, -, -, hbaln, -⟩ := Tree.balanced_fork.1 hbal
  obtain ⟨below, hrun, hbelow⟩ := removeBelow_took cmp probe hnl hapart.near hb
  have hjoin : (joinShrunkTraced below.arena x.handle side below.root below.shrank).Regular := by
    rw [← hbelow.link, hbelow.shrank]
    exact regular_joinShrunkTraced ht hbelow.relinked hapart.root_near
      (fun h hf hm => hapart.disjoint h hm hf) hbal hbelow.lies (hapart.remove cmp probe)
      (Tree.shrinksFrom_remove cmp probe hbaln)
  cases side <;> simp [removeBelowTraced, hx, Node.fork, Node.child, hside, ih, hrun, hjoin] at *

theorem regular_removeBelowTraced (cmp : α → α → Ordering) (probe : α) {a : Arena α} {t : Tree α}
    {budget : Nat} (ht : t.LiesIn a) (hn : t.handles.Nodup) (hbal : t.Balanced)
    (hb : t.height ≤ budget) : (removeBelowTraced cmp probe budget a t.link).Regular := by
  induction t generalizing budget with
  | leaf => cases budget <;> exact Traced.regular_pure _
  | node l b x r ihl ihr =>
    cases budget with
    | zero => simp [Tree.height] at hb
    | succ budget =>
      simp only [Tree.height, Nat.add_le_add_iff_right, Nat.max_le] at hb
      have hapart := Tree.nodup_fork.1 (show (Tree.fork .left l b x r).handles.Nodup from hn)
      have hfork : (Tree.fork .left l b x r).Balanced ∧ (Tree.fork .right r b x l).Balanced :=
        ⟨hbal, hbal⟩
      obtain ⟨-, -, -, hball, hbalr⟩ := id hbal
      cases hc : cmp probe x.item with
      | lt =>
        exact regular_removeBelowTraced_fork .left hc ht hn hfork.1 hb.1
          (ihl ht.2.1 hapart.near hball hb.1)
      | gt =>
        exact regular_removeBelowTraced_fork .right hc (Tree.liesIn_fork.2 ⟨ht.1, ht.2.2, ht.2.1⟩)
          hn hfork.2 hb.2 (ihr ht.2.2 hapart.far hbalr hb.2)
      | eq =>
        have hx := ht.1
        have hunlink := regular_unlinkTraced ht hn hbal hb.1 hb.2
        simp [removeBelowTraced, hx, hc, hunlink]

end Arena

end MemIndex
