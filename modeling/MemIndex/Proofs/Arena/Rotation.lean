import MemIndex.Proofs.Arena.Spelled
import MemIndex.Proofs.Tree.InOrder

/-!
# Rotations of linked nodes

Rotating and levelling the nodes of an arena does to the tree that they spell what the same update does
to the tree as a value. No node but those of the tree is touched.
-/
namespace MemIndex.Arena

open MemIndex.Tree (Apart)

variable {α : Type u}

/-- An operation on linked nodes has turned the tree at a handle into another one. -/
structure Turned (a : Arena α) (before after : Tree α) (result : Arena α × Handle) : Prop where
  link : after.link = some result.2
  lies : after.LiesIn result.1
  relinked : Relinked a result.1 before.handles

/-- The four writes of a rotation, which touch the node and its raised child only. -/
theorem exists_rotate {a : Arena α} {side : Side} {near mid far : Option Handle} {b c : Int}
    {x y : Record α} (hx : a.get? x.handle = some (Node.fork side near b x.item (some y.handle)))
    (hy : a.get? y.handle = some (Node.fork side mid c y.item far)) (hne : x.handle ≠ y.handle) :
    ∃ a', a.rotate x.handle side = some (a', y.handle) ∧
      a'.get? x.handle = some (Node.fork side near
        (Tree.loweredBalance side.opposite.sign b c) x.item mid) ∧
      a'.get? y.handle = some (Node.fork side (some x.handle)
        (Tree.raisedBalance side.opposite.sign c (Tree.loweredBalance side.opposite.sign b c))
        y.item far) ∧
      Relinked a a' [x.handle, y.handle] := by
  -- After each write, what stands at both nodes.
  obtain ⟨a₁, hs₁, hw₁⟩ := exists_setChild hx side.opposite mid
  have hy₁ := (hw₁.other y.handle hne.symm).trans hy
  obtain ⟨a₂, hs₂, hw₂⟩ := exists_setChild hy₁ side (some x.handle)
  have hx₂ := (hw₂.other x.handle hne).trans hw₁.here
  rw [Node.withChild_opposite_fork] at hx₂
  have hy₂ := hw₂.here
  rw [Node.withChild_fork] at hy₂
  obtain ⟨a₃, hs₃, hw₃⟩ := exists_setBalance hx₂ (Tree.loweredBalance side.opposite.sign b c)
  have hy₃ := (hw₃.other y.handle hne.symm).trans hy₂
  obtain ⟨a₄, hs₄, hw₄⟩ := exists_setBalance hy₃
    (Tree.raisedBalance side.opposite.sign c (Tree.loweredBalance side.opposite.sign b c))
  have hx₄ := (hw₄.other x.handle hne).trans hw₃.here
  have hy₄ := hw₄.here
  rw [Node.withBalance_fork] at hx₄ hy₄
  have hrun : a.rotate x.handle side = some (a₄, y.handle) := by
    simp only [rotate, hx, hy, Option.bind_eq_bind, Option.bind_some, Node.child_opposite_fork,
      Node.child_fork, hs₁, hs₂, hx₂, hy₂, Node.balance_fork]
    unfold Tree.raisedBalance at hs₄
    unfold Tree.loweredBalance at hs₃ hs₄
    rw [hs₃, Option.bind_some, hs₄]
    rfl
  have hfirst : Relinked a a₂ [x.handle, y.handle] :=
    (hw₁.relinked hx (by simp) (by simp)).trans (hw₂.relinked hy₁ (by simp) (by simp))
  have hsecond : Relinked a₂ a₄ [x.handle, y.handle] :=
    (hw₃.relinked hx₂ (by simp) (by simp)).trans (hw₄.relinked hy₃ (by simp) (by simp))
  exact ⟨a₄, hrun, hx₄, hy₄, hfirst.trans hsecond⟩

/-- Lowering a node rewrites the node and its raised child alone. -/
theorem exists_rotate_fork {a : Arena α} {side : Side} {n : Tree α} {b : Int} {x : Record α}
    {m : Tree α} {c : Int} {y : Record α} {f : Tree α}
    (ht : (Tree.fork side n b x (Tree.fork side m c y f)).LiesIn a)
    (hn : (Tree.fork side n b x (Tree.fork side m c y f)).handles.Nodup) :
    ∃ a', a.rotate x.handle side = some (a', y.handle) ∧
      ((Tree.fork side n b x (.fork side m c y f)).rotate side).LiesIn a' ∧
      Relinked a a' [x.handle, y.handle] := by
  obtain ⟨hx, hnl, hyl⟩ := Tree.liesIn_fork.1 ht
  obtain ⟨hy, hml, hfl⟩ := Tree.liesIn_fork.1 hyl
  have hout := Tree.nodup_fork.1 hn
  have hin := Tree.nodup_fork.1 hout.far
  have hyf : y.handle ∈ (Tree.fork side m c y f).handles := Tree.mem_handles_fork.2 (.inl rfl)
  have hne : x.handle ≠ y.handle := fun he => hout.root_far (he ▸ hyf)
  rw [Tree.link_fork] at hx
  obtain ⟨a', hrun, hx', hy', hre⟩ := exists_rotate hx hy hne
  have hstays : ∀ {t : Tree α}, t.LiesIn a → x.handle ∉ t.handles → y.handle ∉ t.handles →
      t.LiesIn a' := by
    intro t ht hxt hyt
    apply hre.liesIn ?_ ht
    intro h hh hm
    rcases List.mem_pair.1 hm with rfl | rfl
    · exact hxt hh
    · exact hyt hh
  have hxm : x.handle ∉ m.handles := fun hm => hout.root_far (Tree.mem_handles_fork.2 (.inr (.inl hm)))
  have hxf : x.handle ∉ f.handles := fun hm => hout.root_far (Tree.mem_handles_fork.2 (.inr (.inr hm)))
  have hyn : y.handle ∉ n.handles := fun hm => hout.disjoint _ hm hyf
  refine ⟨a', hrun, ?_, hre⟩
  rw [Tree.rotate_fork, Tree.liesIn_fork, Tree.liesIn_fork, Tree.link_fork]
  exact ⟨hy', ⟨hx', hstays hnl hout.root_near hyn, hstays hml hxm hin.root_near⟩,
    hstays hfl hxf hin.root_far⟩

theorem rotate_fork {a : Arena α} {side : Side} {n : Tree α} {b : Int} {x : Record α} {m : Tree α}
    {c : Int} {y : Record α} {f : Tree α}
    (ht : (Tree.fork side n b x (Tree.fork side m c y f)).LiesIn a)
    (hn : (Tree.fork side n b x (Tree.fork side m c y f)).handles.Nodup) :
    ∃ a', a.rotate x.handle side = some (a', y.handle) ∧
      Turned a (.fork side n b x (.fork side m c y f))
        ((Tree.fork side n b x (.fork side m c y f)).rotate side) (a', y.handle) := by
  obtain ⟨a', hrun, hlies, hre⟩ := exists_rotate_fork ht hn
  have htouched : [x.handle, y.handle] ⊆
      (Tree.fork side n b x (Tree.fork side m c y f)).handles := by
    intro h hm
    rcases List.mem_pair.1 hm with rfl | rfl
    · exact Tree.mem_handles_fork.2 (.inl rfl)
    · exact Tree.mem_handles_fork.2 (.inr (.inr (Tree.mem_handles_fork.2 (.inl rfl))))
  exact ⟨a', hrun, by rw [Tree.rotate_fork, Tree.link_fork], hlies, hre.mono htouched⟩

/-- A node without a child to raise stays where it is. -/
theorem rotate_leaf {a : Arena α} {side : Side} {n : Tree α} {b : Int} {x : Record α}
    (ht : (Tree.fork side n b x .leaf).LiesIn a) :
    a.rotate x.handle side = some (a, x.handle) := by
  obtain ⟨hx, -, -⟩ := Tree.liesIn_fork.1 ht
  simp [rotate, hx]

theorem rotate_turned {a : Arena α} {t : Tree α} (side : Side) (ht : t.LiesIn a)
    (hn : t.handles.Nodup) {top : Handle} (hl : t.link = some top) :
    ∃ result, a.rotate top side = some result ∧ Turned a t (t.rotate side) result := by
  obtain rfl | ⟨n, b, x, far, rfl⟩ := t.fork_cases side
  · cases hl
  · rw [Tree.link_fork] at hl
    cases hl
    obtain rfl | ⟨m, c, y, f, rfl⟩ := far.fork_cases side
    · refine ⟨_, rotate_leaf ht, ?_, ?_, .refl _ _⟩
      · rw [Tree.rotate_leaf_far, Tree.link_fork]
      · rwa [Tree.rotate_leaf_far]
    · obtain ⟨a', hrun, hturned⟩ := rotate_fork ht hn
      exact ⟨_, hrun, hturned⟩

theorem handles_rotate (side : Side) (t : Tree α) : (t.rotate side).handles = t.handles := by
  rw [Tree.handles, Tree.toList_rotate, Tree.handles]

/-- A node gets another subtree on a side, where the nodes rewritten below it are none of the others. -/
theorem exists_setChild_fork {a a₁ : Arena α} {side : Side} {n n' : Tree α} {b : Int} {x : Record α}
    {f : Tree α} {hs : List Handle} (ht : (Tree.fork side n b x f).LiesIn a)
    (hre : Relinked a a₁ hs) (hn' : n'.LiesIn a₁) (hxs : x.handle ∉ hs)
    (hfs : ∀ h ∈ f.handles, h ∉ hs) (hxn : x.handle ∉ n'.handles) (hxf : x.handle ∉ f.handles) :
    ∃ a₂, a₁.setChild x.handle side n'.link = some a₂ ∧ (Tree.fork side n' b x f).LiesIn a₂ ∧
      Relinked a a₂ (x.handle :: hs) := by
  obtain ⟨hx, -, hfl⟩ := Tree.liesIn_fork.1 ht
  have hx₁ := (hre.kept x.handle hxs).trans hx
  obtain ⟨a₂, hs₂, hw⟩ := exists_setChild hx₁ side n'.link
  have hhere := hw.here
  rw [Node.withChild_fork] at hhere
  have hlies : (Tree.fork side n' b x f).LiesIn a₂ :=
    Tree.liesIn_fork.2 ⟨hhere, hw.liesIn hxn hn', hw.liesIn hxf (hre.liesIn hfs hfl)⟩
  exact ⟨a₂, hs₂, hlies,
    (hre.mono (List.subset_cons_self _ _)).trans (hw.relinked hx₁ (by simp) (by simp))⟩

/-- The subtree on a side is turned and linked again, the first half of a double rotation. -/
theorem exists_rotate_near {a : Arena α} {side : Side} {n : Tree α} {b : Int} {x : Record α}
    {f : Tree α} (ht : (Tree.fork side n b x f).LiesIn a)
    (hn : (Tree.fork side n b x f).handles.Nodup) {top : Handle} (hl : n.link = some top) :
    ∃ a₁ raised a₂, a.rotate top side = some (a₁, raised) ∧
      a₁.setChild x.handle side (some raised) = some a₂ ∧
      (Tree.fork side (n.rotate side) b x f).LiesIn a₂ ∧
      Relinked a a₂ (Tree.fork side n b x f).handles := by
  obtain ⟨-, hnl, -⟩ := Tree.liesIn_fork.1 ht
  have hapart := Tree.nodup_fork.1 hn
  obtain ⟨⟨a₁, raised⟩, hrun, hturned⟩ := rotate_turned side hnl hapart.near hl
  have hxn : x.handle ∉ (n.rotate side).handles := by
    rw [handles_rotate]
    exact hapart.root_near
  obtain ⟨a₂, hset, hlies, hre⟩ := exists_setChild_fork ht hturned.relinked hturned.lies
    hapart.root_near (fun h hf hm => hapart.disjoint h hm hf) hxn hapart.root_far
  rw [hturned.link] at hset
  have hsub : x.handle :: n.handles ⊆ (Tree.fork side n b x f).handles := fun h hm =>
    Tree.mem_handles_fork.2 ((List.mem_cons.1 hm).imp_right .inl)
  exact ⟨a₁, raised, a₂, hrun, hset, hlies, hre.mono hsub⟩

theorem mem_handles_fork_rotate {side : Side} {n : Tree α} {b : Int} {x : Record α} {f : Tree α}
    {h : Handle} : h ∈ (Tree.fork side (n.rotate side) b x f).handles ↔
      h ∈ (Tree.fork side n b x f).handles := by
  rw [Tree.mem_handles_fork, Tree.mem_handles_fork, handles_rotate]

theorem nodup_fork_rotate {side : Side} {n : Tree α} {b : Int} {x : Record α} {f : Tree α}
    (hn : (Tree.fork side n b x f).handles.Nodup) :
    (Tree.fork side (n.rotate side) b x f).handles.Nodup := by
  have hapart := Tree.nodup_fork.1 hn
  have hh := handles_rotate side n
  exact Tree.nodup_fork.2 ⟨hh ▸ hapart.near, hapart.far, hh ▸ hapart.root_near, hapart.root_far,
    fun h hm => hapart.disjoint h (hh ▸ hm)⟩

theorem rebalanceToward_turned {a : Arena α} {heavy : Side} {n : Tree α} {b : Int} {x : Record α}
    {f : Tree α} (ht : (Tree.fork heavy n b x f).LiesIn a)
    (hn : (Tree.fork heavy n b x f).handles.Nodup)
    (hheavy : (if 0 < b then Side.right else .left) = heavy) :
    ∃ result, a.rebalance x.handle = some result ∧
      Turned a (.fork heavy n b x f) (Tree.fork heavy n b x f).rebalance result := by
  obtain ⟨hx, hnl, -⟩ := Tree.liesIn_fork.1 ht
  have htree := Tree.rebalance_fork n x f hheavy
  cases n with
  | leaf =>
    have hstay : (Tree.fork heavy .leaf b x f).rebalance = .fork heavy .leaf b x f := by
      rw [htree]
      simp only [Tree.balance, Int.zero_mul, Int.lt_irrefl, if_false]
      cases heavy <;> rfl
    refine ⟨(a, x.handle), by simp [rebalance, hx, hheavy], ?_, ?_, .refl _ _⟩
    · rw [hstay, Tree.link_fork]
    · rwa [hstay]
  | node l c y r =>
    have hy : a.get? y.handle = some ⟨l.link, r.link, c, y.item⟩ := hnl.1
    by_cases hlean : c * heavy.sign < 0
    · obtain ⟨a₁, raised, a₂, hrun, hset, hlies, hre⟩ := exists_rotate_near ht hn rfl
      obtain ⟨result, hrun', hturned⟩ := rotate_turned heavy.opposite hlies (nodup_fork_rotate hn)
        (Tree.link_fork _ _ _ _ _)
      have hre' := hturned.relinked.mono fun h hm => mem_handles_fork_rotate.1 hm
      refine ⟨result, by simp [rebalance, hx, hheavy, hy, hlean, hrun, hset, hrun'], ?_⟩
      rw [htree]
      simp only [Tree.balance, hlean, if_true]
      exact ⟨hturned.link, hturned.lies, hre.trans hre'⟩
    · obtain ⟨result, hrun, hturned⟩ :=
        rotate_turned heavy.opposite ht hn (Tree.link_fork _ _ _ _ _)
      refine ⟨result, by simp [rebalance, hx, hheavy, hy, hlean, hrun], ?_⟩
      rw [htree]
      simpa only [Tree.balance, hlean, if_false] using hturned

theorem rebalance_turned {a : Arena α} {t : Tree α} (ht : t.LiesIn a) (hn : t.handles.Nodup)
    {top : Handle} (hl : t.link = some top) :
    ∃ result, a.rebalance top = some result ∧ Turned a t t.rebalance result := by
  cases t with
  | leaf => cases hl
  | node l b x r =>
    cases hl
    rw [← Tree.fork_pick (if 0 < b then Side.right else .left) l b x r] at ht hn ⊢
    exact rebalanceToward_turned ht hn rfl

/-! ## One level more or less -/

theorem exists_setBalance_fork {a : Arena α} {side : Side} {n : Tree α} {b : Int} {x : Record α}
    {f : Tree α} (ht : (Tree.fork side n b x f).LiesIn a)
    (hn : (Tree.fork side n b x f).handles.Nodup) (b' : Int) :
    ∃ a', a.setBalance x.handle b' = some a' ∧ (Tree.fork side n b' x f).LiesIn a' ∧
      Relinked a a' [x.handle] := by
  obtain ⟨hx, hnl, hfl⟩ := Tree.liesIn_fork.1 ht
  have hapart := Tree.nodup_fork.1 hn
  obtain ⟨a', hs, hw⟩ := exists_setBalance hx b'
  have hhere := hw.here
  rw [Node.withBalance_fork] at hhere
  have hlies : (Tree.fork side n b' x f).LiesIn a' :=
    Tree.liesIn_fork.2 ⟨hhere, hw.liesIn hapart.root_near hnl, hw.liesIn hapart.root_far hfl⟩
  exact ⟨a', hs, hlies, hw.relinked hx (by simp) (by simp)⟩

/-- Links below which a subtree now has another shape; only these nodes were touched on the way. -/
structure Resized (a : Arena α) (touched : List Handle) (after : Tree α) (changed : Bool)
    (result : Arena α × Handle × Bool) : Prop where
  link : after.link = some result.2.1
  lies : after.LiesIn result.1
  relinked : Relinked a result.1 touched
  changed : result.2.2 = changed

section Judged

variable {a : Arena α} {side : Side} {n : Tree α} {b : Int} {x : Record α} {f : Tree α}
  (ht : (Tree.fork side n b x f).LiesIn a) (hn : (Tree.fork side n b x f).handles.Nodup)

include ht hn

/-- Storing a balance and levelling where it is called for. -/
theorem rebalance_after_setBalance (b' : Int) :
    ∃ a₁ result, a.setBalance x.handle b' = some a₁ ∧ a₁.rebalance x.handle = some result ∧
      (Tree.fork side n b' x f).LiesIn a₁ ∧
      Relinked a a₁ (Tree.fork side n b x f).handles ∧
      Turned a (.fork side n b x f) (Tree.fork side n b' x f).rebalance result := by
  obtain ⟨a₁, hset, hlies, hre⟩ := exists_setBalance_fork ht hn b'
  have hn' : (Tree.fork side n b' x f).handles.Nodup := Tree.nodup_fork.2 (Tree.nodup_fork.1 hn)
  obtain ⟨result, hrun, hturned⟩ := rebalance_turned hlies hn' (Tree.link_fork _ _ _ _ _)
  have hre' : Relinked a a₁ (Tree.fork side n b x f).handles := hre.mono fun h hm =>
    Tree.mem_handles_fork.2 (.inl (List.mem_singleton.1 hm))
  refine ⟨a₁, result, hset, hrun, hlies, hre', hturned.link, hturned.lies, hre'.trans ?_⟩
  exact hturned.relinked.mono fun h hm => Tree.mem_handles_fork.2 (Tree.mem_handles_fork.1 hm)

theorem grow_resized :
    ∃ result, a.grow x.handle side = some result ∧
      Resized a (Tree.fork side n b x f).handles (Tree.grow side n b x f).tree
        (Tree.grow side n b x f).grew result := by
  obtain ⟨hx, -, -⟩ := Tree.liesIn_fork.1 ht
  obtain ⟨a₁, ⟨a₂, root⟩, hset, hrun, hlies, hre, hturned⟩ :=
    rebalance_after_setBalance ht hn (b + side.sign)
  unfold Tree.grow
  by_cases hzero : b + side.sign = 0
  · rw [hzero] at hset hlies
    refine ⟨(a₁, x.handle, false), by simp [grow, hx, hset, hzero], ?_⟩
    simp only [hzero, if_true]
    exact ⟨Tree.link_fork _ _ _ _ _, hlies, hre, rfl⟩
  · by_cases hone : b + side.sign = 1 ∨ b + side.sign = -1
    · refine ⟨(a₁, x.handle, true), by simp [grow, hx, hset, hzero, hone], ?_⟩
      simp only [hzero, hone, if_true, if_false]
      exact ⟨Tree.link_fork _ _ _ _ _, hlies, hre, rfl⟩
    · refine ⟨(a₂, root, false), by simp [grow, hx, hset, hzero, hone, hrun], ?_⟩
      simp only [hzero, hone, if_false]
      exact ⟨hturned.link, hturned.lies, hturned.relinked, rfl⟩

theorem shrink_resized :
    ∃ result, a.shrink x.handle side = some result ∧
      Resized a (Tree.fork side n b x f).handles (Tree.shrink side n b x f).tree
        (Tree.shrink side n b x f).shrank result := by
  obtain ⟨hx, -, -⟩ := Tree.liesIn_fork.1 ht
  obtain ⟨a₁, ⟨a₂, root⟩, hset, hrun, hlies, hre, hturned⟩ :=
    rebalance_after_setBalance ht hn (b - side.sign)
  unfold Tree.shrink
  by_cases hzero : b - side.sign = 0
  · rw [hzero] at hset hlies
    refine ⟨(a₁, x.handle, true), by simp [shrink, hx, hset, hzero], ?_⟩
    simp only [hzero, if_true]
    exact ⟨Tree.link_fork _ _ _ _ _, hlies, hre, rfl⟩
  · by_cases hone : b - side.sign = 1 ∨ b - side.sign = -1
    · refine ⟨(a₁, x.handle, false), by simp [shrink, hx, hset, hzero, hone], ?_⟩
      simp only [hzero, hone, if_true, if_false]
      exact ⟨Tree.link_fork _ _ _ _ _, hlies, hre, rfl⟩
    · refine ⟨(a₂, root, !f.isLevel), ?_, ?_⟩
      · obtain ⟨hx₁, -, hfl⟩ := Tree.liesIn_fork.1 hlies
        cases f with
        | leaf => simp [shrink, hx, hset, hzero, hone, hx₁, hrun, Tree.isLevel]
        | node l c y r =>
          have hy : a₁.get? y.handle = some ⟨l.link, r.link, c, y.item⟩ := hfl.1
          simp [shrink, hx, hset, hzero, hone, hx₁, hy, hrun, Tree.isLevel]
      · simp only [hzero, hone, if_false]
        exact ⟨hturned.link, hturned.lies, hturned.relinked, rfl⟩

end Judged

/-! ## A node that gets another subtree -/

section Joined

variable {a a₁ : Arena α} {side : Side} {n : Tree α} {b : Int} {x : Record α} {f : Tree α}
  {touched : List Handle} (ht : (Tree.fork side n b x f).LiesIn a) (hre : Relinked a a₁ touched)
  (hxs : x.handle ∉ touched) (hfs : ∀ h ∈ f.handles, h ∉ touched)

include ht hre hxs hfs

theorem joinGrown_resized {below : Tree.Grown α} {child : Handle}
    (hlink : below.tree.link = some child) (hlies : below.tree.LiesIn a₁)
    (hapart : Apart below.tree x f) :
    ∃ result, a₁.joinGrown x.handle side child below.grew = some result ∧
      Resized a (touched ++ (Tree.fork side below.tree b x f).handles)
        (Tree.joinGrown side below b x f).tree (Tree.joinGrown side below b x f).grew result := by
  obtain ⟨a₂, hset, hlies₂, hre₂⟩ := exists_setChild_fork ht hre hlies hxs hfs hapart.root_near
    hapart.root_far
  rw [hlink] at hset
  have hre₂' : Relinked a a₂ (touched ++ (Tree.fork side below.tree b x f).handles) :=
    hre₂.mono fun h hm => by
      rw [List.mem_append, Tree.mem_handles_fork]
      exact (List.mem_cons.1 hm).elim (fun he => .inr (.inl he)) .inl
  cases hgrew : below.grew with
  | false =>
    refine ⟨(a₂, x.handle, false), by simp [joinGrown, hset], ?_⟩
    simp only [Tree.joinGrown, hgrew, Bool.false_eq_true, if_false]
    exact ⟨Tree.link_fork _ _ _ _ _, hlies₂, hre₂', rfl⟩
  | true =>
    obtain ⟨result, hgrow, hres⟩ := grow_resized hlies₂ (Tree.nodup_fork.2 hapart)
    refine ⟨result, by simp [joinGrown, hset, hgrow], ?_⟩
    simp only [Tree.joinGrown, hgrew, if_true]
    exact ⟨hres.link, hres.lies,
      hre₂'.trans (hres.relinked.mono (List.subset_append_right _ _)), hres.changed⟩

theorem joinShrunk_resized {below : Tree.Shrunk α} (hlies : below.tree.LiesIn a₁)
    (hapart : Apart below.tree x f) :
    ∃ result, a₁.joinShrunk x.handle side below.tree.link below.shrank = some result ∧
      Resized a (touched ++ (Tree.fork side below.tree b x f).handles)
        (Tree.joinShrunk side below b x f).tree (Tree.joinShrunk side below b x f).shrank
        result := by
  obtain ⟨a₂, hset, hlies₂, hre₂⟩ := exists_setChild_fork ht hre hlies hxs hfs hapart.root_near
    hapart.root_far
  have hre₂' : Relinked a a₂ (touched ++ (Tree.fork side below.tree b x f).handles) :=
    hre₂.mono fun h hm => by
      rw [List.mem_append, Tree.mem_handles_fork]
      exact (List.mem_cons.1 hm).elim (fun he => .inr (.inl he)) .inl
  cases hshrank : below.shrank with
  | false =>
    refine ⟨(a₂, x.handle, false), by simp [joinShrunk, hset], ?_⟩
    simp only [Tree.joinShrunk, hshrank, Bool.false_eq_true, if_false]
    exact ⟨Tree.link_fork _ _ _ _ _, hlies₂, hre₂', rfl⟩
  | true =>
    obtain ⟨result, hshrink, hres⟩ := shrink_resized hlies₂ (Tree.nodup_fork.2 hapart)
    refine ⟨result, by simp [joinShrunk, hset, hshrink], ?_⟩
    simp only [Tree.joinShrunk, hshrank, if_true]
    exact ⟨hres.link, hres.lies,
      hre₂'.trans (hres.relinked.mono (List.subset_append_right _ _)), hres.changed⟩

end Joined

end MemIndex.Arena
