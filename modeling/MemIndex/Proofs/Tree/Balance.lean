import MemIndex.Proofs.Tree.Updates

/-!
# Heights and balances

No height is stored. A balance is right when it is the difference of the heights below its node, and
every update keeps the balances right by the reports of subtrees that have become higher or lower. The
reports are exact: each of them says by how much the height of the result differs from the height
before. None of this depends on the comparator.
-/
namespace MemIndex.Tree

variable {α : Type u}

theorem height_le_size (t : Tree α) : t.height ≤ t.size := by
  induction t with
  | leaf => exact Nat.le_refl 0
  | node l b x r ihl ihr =>
    simp only [height, size]
    omega

/-- The balance stored at the root is the height to its right less the height to its left. -/
def RootExact : Tree α → Prop
  | leaf => True
  | node l b _ r => b = (r.height : Int) - l.height

/-- Every stored balance is the height to the right of its node less the height to its left. -/
def Exact : Tree α → Prop
  | leaf => True
  | node l b _ r => b = (r.height : Int) - l.height ∧ l.Exact ∧ r.Exact

/-- Every stored balance is exact, and none passes one. -/
def Balanced : Tree α → Prop
  | leaf => True
  | node l b _ r =>
    b = (r.height : Int) - l.height ∧ -1 ≤ b ∧ b ≤ 1 ∧ l.Balanced ∧ r.Balanced

instance decidableRootExact : (t : Tree α) → Decidable t.RootExact
  | leaf => .isTrue trivial
  | node l b _ r => inferInstanceAs (Decidable (b = (r.height : Int) - l.height))

instance decidableBalanced : (t : Tree α) → Decidable t.Balanced
  | leaf => .isTrue trivial
  | node l b _ r =>
    have := decidableBalanced l
    have := decidableBalanced r
    inferInstanceAs (Decidable (b = (r.height : Int) - l.height ∧ -1 ≤ b ∧ b ≤ 1 ∧ l.Balanced ∧
      r.Balanced))

theorem Balanced.exact {t : Tree α} (ht : t.Balanced) : t.Exact := by
  induction t with
  | leaf => trivial
  | node l b x r ihl ihr =>
    obtain ⟨hb, -, -, hl, hr⟩ := ht
    exact ⟨hb, ihl hl, ihr hr⟩

section Forks

variable {side : Side} {n : Tree α} {b : Int} {x : Record α} {f : Tree α}

theorem rootExact_fork :
    (fork side n b x f).RootExact ↔ b = side.sign * ((n.height : Int) - f.height) := by
  cases side <;> simp only [fork, RootExact, Side.sign] <;> omega

theorem exact_fork :
    (fork side n b x f).Exact ↔
      b = side.sign * ((n.height : Int) - f.height) ∧ n.Exact ∧ f.Exact := by
  rw [← rootExact_fork (x := x)]
  cases side with
  | left => exact Iff.rfl
  | right => exact and_congr_right fun _ => and_comm

theorem balanced_fork :
    (fork side n b x f).Balanced ↔
      b = side.sign * ((n.height : Int) - f.height) ∧ -1 ≤ b ∧ b ≤ 1 ∧ n.Balanced ∧ f.Balanced := by
  rw [← rootExact_fork (x := x)]
  cases side with
  | left => exact Iff.rfl
  | right => exact and_congr_right fun _ => and_congr_right fun _ => and_congr_right fun _ => and_comm

end Forks

/-! ## Rotations -/

section Formulas

variable {side : Side} {n m f : Tree α} {b c : Int} {x y : Record α}
  (hx : (fork side n b x (fork side m c y f)).RootExact) (hy : (fork side m c y f).RootExact)

include hx hy

/-- Two exact balances are enough to tell the balance of the lowered node, however high the subtrees
are. -/
theorem rootExact_lowered :
    (fork side n (loweredBalance side.opposite.sign b c) x m).RootExact := by
  rw [rootExact_fork, height_fork] at hx
  rw [rootExact_fork] at hy ⊢
  cases side <;> simp only [Side.sign, Side.opposite, loweredBalance] at * <;> omega

theorem rootExact_raised :
    (fork side (fork side n (loweredBalance side.opposite.sign b c) x m)
      (raisedBalance side.opposite.sign c (loweredBalance side.opposite.sign b c)) y f).RootExact := by
  have hlowered := rootExact_lowered hx hy
  generalize loweredBalance side.opposite.sign b c = b' at hlowered ⊢
  rw [rootExact_fork] at hy hlowered ⊢
  rw [height_fork]
  cases side <;> simp only [Side.sign, Side.opposite, raisedBalance] at * <;> omega

end Formulas

/-- The new balances of a rotation are exact, however far the old ones lean. -/
theorem exact_rotate (side : Side) {t : Tree α} (ht : t.Exact) : (t.rotate side).Exact := by
  obtain rfl | ⟨n, b, x, far, rfl⟩ := t.fork_cases side
  · trivial
  · obtain rfl | ⟨m, c, y, f, rfl⟩ := far.fork_cases side
    · rwa [rotate_leaf_far]
    · obtain ⟨hb, hn, hfar⟩ := exact_fork.1 ht
      obtain ⟨hc, hm, hf⟩ := exact_fork.1 hfar
      have hx : (fork side n b x (fork side m c y f)).RootExact := rootExact_fork.2 hb
      have hy : (fork side m c y f).RootExact := rootExact_fork.2 hc
      have hlowered := rootExact_fork.1 (rootExact_lowered hx hy)
      rw [rotate_fork]
      exact exact_fork.2 ⟨rootExact_fork.1 (rootExact_raised hx hy),
        exact_fork.2 ⟨hlowered, hn, hm⟩, hf⟩

/-- The outer grandchild is the higher one, or neither is: lowering the node is enough. -/
theorem balanced_rotate_outer {side : Side} {n m f : Tree α} {b c : Int} {x y : Record α}
    (ht : (fork side n b x (fork side m c y f)).Exact) (hn : n.Balanced) (hm : m.Balanced)
    (hf : f.Balanced) (hfn : f.height = n.height + 1) (hmf : m.height ≤ f.height)
    (hfm : f.height ≤ m.height + 1) :
    ((fork side n b x (fork side m c y f)).rotate side).Balanced ∧
      ((fork side n b x (fork side m c y f)).rotate side).height = m.height + 2 := by
  have hafter := exact_rotate side ht
  rw [rotate_fork] at hafter ⊢
  simp only [exact_fork, height_fork] at hafter
  obtain ⟨hc', ⟨hb', -⟩, -⟩ := hafter
  simp only [balanced_fork, height_fork]
  refine ⟨⟨hc', ?_, ?_, ⟨hb', ?_, ?_, hn, hm⟩, hf⟩, ?_⟩
  all_goals
    cases side <;> simp only [Side.sign] at hc' hb' ⊢ <;> omega

/-- The inner grandchild is the higher one: it rises over its parent first and then over the node. -/
theorem balanced_rotate_inner {heavy : Side} {n p q f : Tree α} {b c e : Int} {x y z : Record α}
    (ht : (fork heavy.opposite n b x
      ((fork heavy f c y (fork heavy q e z p)).rotate heavy)).Exact)
    (hn : n.Balanced) (hp : p.Balanced) (hq : q.Balanced) (hf : f.Balanced)
    (hfn : f.height = n.height) (hhigh : max p.height q.height = n.height)
    (hnp : n.height ≤ p.height + 1) (hnq : n.height ≤ q.height + 1) :
    ((fork heavy.opposite n b x
      ((fork heavy f c y (fork heavy q e z p)).rotate heavy)).rotate heavy.opposite).Balanced ∧
    ((fork heavy.opposite n b x
      ((fork heavy f c y (fork heavy q e z p)).rotate heavy)).rotate heavy.opposite).height =
      n.height + 2 := by
  have hafter := exact_rotate heavy.opposite ht
  rw [rotate_fork, fork_opposite heavy, rotate_fork] at hafter ⊢
  simp only [exact_fork, height_fork] at hafter
  obtain ⟨he', ⟨hb', -⟩, ⟨hc', -⟩⟩ := hafter
  simp only [balanced_fork, height_fork]
  refine ⟨⟨he', ?_, ?_, ⟨hb', ?_, ?_, hn, hp⟩, ⟨hc', ?_, ?_, hf, hq⟩⟩, ?_⟩
  all_goals
    cases heavy <;> simp only [Side.sign, Side.opposite] at he' hb' hc' ⊢ <;> omega

section Levelling

variable {heavy : Side} {p q f : Tree α} {b c : Int} {x y : Record α}
  (hn : (fork heavy p c y q).Balanced) (hf : f.Balanced)
  (hdiff : b = heavy.sign * (((fork heavy p c y q).height : Int) - f.height))
  (htwo : (fork heavy p c y q).height = f.height + 2)

include hn hf hdiff htwo

/-- The higher subtree leans away from its own side: it is turned first, and its inner child rises. -/
theorem balanced_raise_inner (hlean : c * heavy.sign < 0) :
    ((fork heavy ((fork heavy p c y q).rotate heavy) b x f).rotate heavy.opposite).Balanced ∧
      ((fork heavy ((fork heavy p c y q).rotate heavy) b x f).rotate heavy.opposite).height =
        (fork heavy p c y q).height := by
  have hexact := exact_rotate heavy hn.exact
  obtain ⟨hc, hlow, hup, hp, hq⟩ := balanced_fork.1 hn
  rw [height_fork] at htwo hdiff
  obtain rfl | ⟨m, e, z, r, rfl⟩ := q.fork_cases heavy
  · cases heavy <;> simp only [Side.sign, height] at hc hlean <;> omega
  obtain ⟨he, helow, hehigh, hm, hr⟩ := balanced_fork.1 hq
  simp only [height_fork] at hc htwo hdiff
  have hpf : p.height = f.height := by
    cases heavy <;> simp only [Side.sign] at hc he hlean <;> omega
  have hhigh : max r.height m.height = f.height := by
    cases heavy <;> simp only [Side.sign] at hc he hlean <;> omega
  have hnear : f.height ≤ r.height + 1 ∧ f.height ≤ m.height + 1 := by
    cases heavy <;> simp only [Side.sign] at hc he hlean <;> omega
  have hwhole : (fork heavy ((fork heavy p c y (fork heavy m e z r)).rotate heavy) b x f).Exact := by
    rw [exact_fork]
    constructor
    · rw [rotate_fork, height_fork, height_fork]
      cases heavy <;> simp only [Side.sign] at hdiff ⊢ <;> omega
    · exact ⟨hexact, hf.exact⟩
  rw [fork_opposite heavy] at hwhole ⊢
  obtain ⟨hbal, hheight⟩ :=
    balanced_rotate_inner hwhole hf hr hm hp hpf hhigh hnear.1 hnear.2
  constructor
  · exact hbal
  · rw [hheight, height_fork, height_fork]
    omega

/-- The higher subtree leans to its own side or is level: it rises, and a level one stays as high. -/
theorem balanced_raise_outer (hlean : ¬c * heavy.sign < 0) :
    ((fork heavy (fork heavy p c y q) b x f).rotate heavy.opposite).Balanced ∧
      ((fork heavy (fork heavy p c y q) b x f).rotate heavy.opposite).height =
        (fork heavy p c y q).height + (c == 0).toNat := by
  have hwhole : (fork heavy (fork heavy p c y q) b x f).Exact :=
    exact_fork.2 ⟨hdiff, hn.exact, hf.exact⟩
  obtain ⟨hc, hlow, hhigh, hp, hq⟩ := balanced_fork.1 hn
  rw [height_fork] at htwo
  have hpf : p.height = f.height + 1 := by
    cases heavy <;> simp only [Side.sign] at hc hlean <;> omega
  have hpq : q.height ≤ p.height ∧ p.height ≤ q.height + 1 := by
    cases heavy <;> simp only [Side.sign] at hc hlean <;> omega
  rw [fork_opposite heavy p, fork_opposite heavy] at hwhole ⊢
  obtain ⟨hbal, hheight⟩ := balanced_rotate_outer hwhole hf hq hp hpf hpq.1 hpq.2
  constructor
  · exact hbal
  · rw [hheight, height_fork]
    by_cases hzero : c = 0
    · have hlevel : q.height = p.height := by
        cases heavy <;> simp only [Side.sign] at hc <;> omega
      rw [beq_iff_eq.2 hzero, Bool.toNat_true]
      omega
    · have hhigher : p.height = q.height + 1 := by
        cases heavy <;> simp only [Side.sign] at hc hlean <;> omega
      rw [beq_eq_false_iff_ne.2 hzero, Bool.toNat_false]
      omega

end Levelling

/-- Levelling a node that leans by two. The height before is that of its higher subtree and one. -/
theorem balanced_rebalance {heavy : Side} {n f : Tree α} {b : Int} (x : Record α)
    (hn : n.Balanced) (hf : f.Balanced) (hb : b = heavy.sign * 2)
    (htwo : n.height = f.height + 2) :
    (fork heavy n b x f).rebalance.Balanced ∧
      (fork heavy n b x f).rebalance.height = n.height + n.isLevel.toNat := by
  have hheavy : (if 0 < b then Side.right else .left) = heavy := by
    cases heavy <;> simp [hb, Side.sign]
  have hdiff : b = heavy.sign * ((n.height : Int) - f.height) := by
    rw [hb, htwo]
    cases heavy <;> simp only [Side.sign] <;> omega
  rw [rebalance_fork n x f hheavy]
  obtain rfl | ⟨p, c, y, q, rfl⟩ := n.fork_cases heavy
  · simp [height] at htwo
  rw [isLevel_fork, balance_fork]
  by_cases hlean : c * heavy.sign < 0
  · have hzero : c ≠ 0 := by
      rintro rfl
      simp at hlean
    rw [if_pos hlean, beq_eq_false_iff_ne.2 hzero, Bool.toNat_false]
    exact balanced_raise_inner hn hf hdiff htwo hlean
  · rw [if_neg hlean]
    exact balanced_raise_outer hn hf hdiff htwo hlean

/-! ## Reports of growth and loss -/

/-- An insertion kept the balances right and reports what it did to the height. A subtree that has
grown leans to one side, unless it is the new node alone. -/
structure GrowsFrom (t : Tree α) (after : Grown α) : Prop where
  balanced : after.tree.Balanced
  height : after.tree.height = t.height + after.grew.toNat
  leaning : after.grew = true → after.tree.isLevel = true → after.tree.height = 1

/-- A removal kept the balances right and reports what it did to the height. -/
structure ShrinksFrom (t : Tree α) (after : Shrunk α) : Prop where
  balanced : after.tree.Balanced
  height : after.tree.height + after.shrank.toNat = t.height

section Joins

variable {side : Side} {n f : Tree α} {b : Int} {x : Record α}
  (ht : (fork side n b x f).Balanced)

include ht

theorem growsFrom_grow {higher : Tree α} (hhigher : higher.Balanced)
    (hheight : higher.height = n.height + 1)
    (hleaning : higher.isLevel = true → higher.height = 1) :
    GrowsFrom (fork side n b x f) (grow side higher b x f) := by
  obtain ⟨hb, hlow, hhigh, hn, hf⟩ := balanced_fork.1 ht
  unfold grow
  dsimp only
  have hexact : b + side.sign = side.sign * ((higher.height : Int) - f.height) := by
    cases side <;> simp only [Side.sign] at hb ⊢ <;> omega
  by_cases hzero : b + side.sign = 0
  · rw [if_pos hzero]
    refine ⟨balanced_fork.2 ⟨hexact, by omega, by omega, hhigher, hf⟩, ?_, fun h => by cases h⟩
    rw [height_fork, height_fork, Bool.toNat_false]
    cases side <;> simp only [Side.sign] at hb hzero <;> omega
  · rw [if_neg hzero]
    by_cases hone : b + side.sign = 1 ∨ b + side.sign = -1
    · rw [if_pos hone]
      refine ⟨balanced_fork.2 ⟨hexact, by omega, by omega, hhigher, hf⟩, ?_, fun _ h => ?_⟩
      · rw [height_fork, height_fork, Bool.toNat_true]
        cases side <;> simp only [Side.sign] at hb hzero hone <;> omega
      · rw [isLevel_fork, beq_iff_eq] at h
        exact absurd h hzero
    · rw [if_neg hone]
      have htwo : b + side.sign = side.sign * 2 := by
        cases side <;> simp only [Side.sign] at hb hzero hone ⊢ <;> omega
      have hdiff : higher.height = f.height + 2 := by
        cases side <;> simp only [Side.sign] at hexact htwo <;> omega
      obtain ⟨hbal, hh⟩ := balanced_rebalance x hhigher hf htwo hdiff
      have hlevel : higher.isLevel = false :=
        Bool.eq_false_iff.2 fun h => by have := hleaning h; omega
      rw [hlevel] at hh
      refine ⟨hbal, ?_, fun h => by cases h⟩
      rw [hh, height_fork, Bool.toNat_false]
      omega

theorem growsFrom_joinGrown {below : Grown α} (hbelow : GrowsFrom n below) :
    GrowsFrom (fork side n b x f) (joinGrown side below b x f) := by
  obtain ⟨hb, hlow, hhigh, hn, hf⟩ := balanced_fork.1 ht
  unfold joinGrown
  have hheight := hbelow.height
  cases hgrew : below.grew with
  | true =>
    rw [hgrew, Bool.toNat_true] at hheight
    exact growsFrom_grow ht hbelow.balanced hheight (hbelow.leaning hgrew)
  | false =>
    rw [hgrew, Bool.toNat_false, Nat.add_zero] at hheight
    refine ⟨balanced_fork.2 ⟨hheight ▸ hb, hlow, hhigh, hbelow.balanced, hf⟩, ?_,
      fun h => by cases h⟩
    simp [hheight]

theorem shrinksFrom_shrink {lower : Tree α} (hlower : lower.Balanced)
    (hheight : lower.height + 1 = n.height) :
    ShrinksFrom (fork side n b x f) (shrink side lower b x f) := by
  obtain ⟨hb, hlow, hhigh, hn, hf⟩ := balanced_fork.1 ht
  unfold shrink
  dsimp only
  have hexact : b - side.sign = side.sign * ((lower.height : Int) - f.height) := by
    cases side <;> simp only [Side.sign] at hb ⊢ <;> omega
  by_cases hzero : b - side.sign = 0
  · rw [if_pos hzero]
    refine ⟨balanced_fork.2 ⟨hexact, by omega, by omega, hlower, hf⟩, ?_⟩
    rw [height_fork, height_fork, Bool.toNat_true]
    cases side <;> simp only [Side.sign] at hb hzero <;> omega
  · rw [if_neg hzero]
    by_cases hone : b - side.sign = 1 ∨ b - side.sign = -1
    · rw [if_pos hone]
      refine ⟨balanced_fork.2 ⟨hexact, by omega, by omega, hlower, hf⟩, ?_⟩
      rw [height_fork, height_fork, Bool.toNat_false]
      cases side <;> simp only [Side.sign] at hb hzero hone <;> omega
    · rw [if_neg hone]
      have htwo : b - side.sign = side.opposite.sign * 2 := by
        cases side <;> simp only [Side.sign, Side.opposite] at hb hzero hone ⊢ <;> omega
      have hdiff : f.height = lower.height + 2 := by
        cases side <;> simp only [Side.sign, Side.opposite] at hexact htwo <;> omega
      obtain ⟨hbal, hh⟩ := balanced_rebalance x hf hlower htwo hdiff
      rw [← fork_opposite side lower] at hbal hh
      refine ⟨hbal, ?_⟩
      rw [hh, height_fork]
      cases f.isLevel <;> simp <;> omega

theorem shrinksFrom_joinShrunk {below : Shrunk α} (hbelow : ShrinksFrom n below) :
    ShrinksFrom (fork side n b x f) (joinShrunk side below b x f) := by
  obtain ⟨hb, hlow, hhigh, hn, hf⟩ := balanced_fork.1 ht
  unfold joinShrunk
  have hheight := hbelow.height
  cases hshrank : below.shrank with
  | true =>
    rw [hshrank, Bool.toNat_true] at hheight
    exact shrinksFrom_shrink ht hbelow.balanced hheight
  | false =>
    rw [hshrank, Bool.toNat_false, Nat.add_zero] at hheight
    refine ⟨balanced_fork.2 ⟨hheight ▸ hb, hlow, hhigh, hbelow.balanced, hf⟩, ?_⟩
    simp [hheight]

end Joins

/-! ## Insertion and removal -/

theorem growsFrom_insert (cmp : α → α → Ordering) (new : Record α) {t : Tree α}
    (ht : t.Balanced) : GrowsFrom t (t.insert cmp new).toGrown := by
  induction t with
  | leaf => exact ⟨⟨rfl, by decide, by decide, trivial, trivial⟩, rfl, fun _ _ => rfl⟩
  | node l b x r ihl ihr =>
    have hfork : (fork .left l b x r).Balanced ∧ (fork .right r b x l).Balanced := ⟨ht, ht⟩
    obtain ⟨-, -, -, hl, hr⟩ := ht
    unfold insert
    dsimp only
    split
    · exact growsFrom_joinGrown hfork.1 (ihl hl)
    · exact growsFrom_joinGrown hfork.2 (ihr hr)

theorem shrinksFrom_detach {side : Side} {t : Tree α} (ht : t.Balanced) {d : Detached α}
    (hd : t.detach side = some d) : ShrinksFrom t d.toShrunk := by
  induction t generalizing d with
  | leaf => cases hd
  | node l b x r ihl ihr =>
    have hfork : (fork .left l b x r).Balanced ∧ (fork .right r b x l).Balanced := ⟨ht, ht⟩
    obtain ⟨hb, hlow, hhigh, hl, hr⟩ := ht
    cases side with
    | left =>
      simp only [detach] at hd
      split at hd
      · rename_i hleaf
        cases hd
        rw [detach_eq_none.1 hleaf]
        exact ⟨hr, by simp [height]⟩
      · rename_i below hbelow
        cases hd
        exact shrinksFrom_joinShrunk hfork.1 (ihl hl hbelow)
    | right =>
      simp only [detach] at hd
      split at hd
      · rename_i hleaf
        cases hd
        rw [detach_eq_none.1 hleaf]
        exact ⟨hl, by simp [height]⟩
      · rename_i below hbelow
        cases hd
        exact shrinksFrom_joinShrunk hfork.2 (ihr hr hbelow)

/-- The heights do not depend on which record stands at the root. -/
theorem shrinksFrom_unlink {l : Tree α} {b : Int} {x : Record α} {r : Tree α}
    (ht : (node l b x r).Balanced) : ShrinksFrom (node l b x r) (unlink l b r) := by
  have hfork : ∀ y, (fork .left l b y r).Balanced ∧ (fork .right r b y l).Balanced :=
    fun _ => ⟨ht, ht⟩
  obtain ⟨-, -, -, hl, hr⟩ := ht
  unfold unlink
  split
  · rename_i d hd
    have hjoin := shrinksFrom_joinShrunk (hfork d.record).1 (shrinksFrom_detach hl hd)
    exact ⟨hjoin.balanced, hjoin.height⟩
  · split
    · rename_i d hd
      have hjoin := shrinksFrom_joinShrunk (hfork d.record).2 (shrinksFrom_detach hr hd)
      exact ⟨hjoin.balanced, hjoin.height⟩
    · rename_i hleafl _ hleafr
      rw [detach_eq_none.1 hleafl, detach_eq_none.1 hleafr]
      exact ⟨trivial, rfl⟩

theorem shrinksFrom_remove (cmp : α → α → Ordering) (probe : α) {t : Tree α} (ht : t.Balanced) :
    ShrinksFrom t (t.remove cmp probe).toShrunk := by
  induction t with
  | leaf => exact ⟨trivial, rfl⟩
  | node l b x r ihl ihr =>
    have hfork : (fork .left l b x r).Balanced ∧ (fork .right r b x l).Balanced := ⟨ht, ht⟩
    obtain ⟨-, -, -, hl, hr⟩ := id ht
    unfold remove
    dsimp only
    split
    · exact shrinksFrom_unlink ht
    · exact shrinksFrom_joinShrunk hfork.1 (ihl hl)
    · exact shrinksFrom_joinShrunk hfork.2 (ihr hr)

end MemIndex.Tree
