import MemIndex.Proofs.Arena.Rotation

/-!
# Removal among linked nodes

Detaching an extreme node, replacing a node by its neighbour and unlinking along a search path do to
the tree below a link what the same updates do to the tree as a value. A node that is unlinked keeps
its item and its slot.
-/
namespace MemIndex

namespace Tree

variable {α : Type u}

theorem detach_fork (side : Side) (n : Tree α) (b : Int) (x : Record α) (f : Tree α) :
    (fork side n b x f).detach side =
      match n.detach side with
      | none => some ⟨⟨f, true⟩, x⟩
      | some d => some ⟨joinShrunk side d.toShrunk b x f, d.record⟩ := by
  cases side <;> rfl

theorem perm_detach {side : Side} {t : Tree α} {d : Detached α} (hd : t.detach side = some d) :
    t.toList.Perm (d.record :: d.tree.toList) := by
  cases side with
  | left => rw [toList_detach_left hd]
  | right =>
    rw [toList_detach_right hd]
    exact List.perm_append_singleton d.record d.tree.toList

theorem record_mem_of_detach {side : Side} {t : Tree α} {d : Detached α}
    (hd : t.detach side = some d) : d.record ∈ t.toList :=
  (perm_detach hd).mem_iff.2 (List.mem_cons_self ..)

theorem handles_detach {side : Side} {t : Tree α} {d : Detached α} (hd : t.detach side = some d) :
    t.handles.Perm (d.record.handle :: d.tree.handles) :=
  (perm_detach hd).map Record.handle

/-- The detached record may stand where the root stood. -/
theorem Apart.detach {side : Side} {n : Tree α} {x : Record α} {f : Tree α} {d : Detached α}
    (h : Apart n x f) (hd : n.detach side = some d) :
    Apart d.tree d.record f ∧ Apart d.tree x f := by
  have hperm := handles_detach hd
  have hnodup := List.nodup_cons.1 (hperm.nodup_iff.1 h.near)
  have hsub : ∀ y ∈ d.tree.handles, y ∈ n.handles := fun y hy =>
    hperm.mem_iff.2 (List.mem_cons_of_mem _ hy)
  have hrec : d.record.handle ∈ n.handles := hperm.mem_iff.2 (List.mem_cons_self ..)
  exact ⟨⟨hnodup.2, h.far, hnodup.1, h.disjoint _ hrec, fun y hy => h.disjoint y (hsub y hy)⟩,
    ⟨hnodup.2, h.far, fun hm => h.root_near (hsub _ hm), h.root_far,
      fun y hy => h.disjoint y (hsub y hy)⟩⟩

theorem unlink_left {l : Tree α} {d : Detached α} (hd : l.detach .right = some d) (b : Int)
    (r : Tree α) : unlink l b r = joinShrunk .left d.toShrunk b d.record r := by
  simp [unlink, hd]

theorem unlink_right {r : Tree α} {d : Detached α} (hd : r.detach .left = some d) (b : Int) :
    unlink leaf b r = joinShrunk .right d.toShrunk b d.record leaf := by
  simp [unlink, detach, hd]

theorem remove_fork {cmp : α → α → Ordering} {probe : α} {side : Side} {n : Tree α} {b : Int}
    {x : Record α} {f : Tree α}
    (hside : cmp probe x.item = match side with | .left => .lt | .right => .gt) :
    (fork side n b x f).remove cmp probe =
      ⟨joinShrunk side (n.remove cmp probe).toShrunk b x f, (n.remove cmp probe).removed,
        (probe, x.item) :: (n.remove cmp probe).calls⟩ := by
  cases side <;> simp [fork, remove, hside]

theorem sublist_remove (cmp : α → α → Ordering) (probe : α) (t : Tree α) :
    (t.remove cmp probe).tree.toList.Sublist t.toList := by
  cases hr : (t.remove cmp probe).removed with
  | none => rw [remove_none hr]
  | some y =>
    obtain ⟨before, after, ht, hi⟩ := toList_remove_some hr
    rw [hi, ht]
    exact (List.Sublist.refl before).append (List.sublist_cons_self y after)

theorem handles_remove_sublist (cmp : α → α → Ordering) (probe : α) (t : Tree α) :
    (t.remove cmp probe).tree.handles.Sublist t.handles :=
  (sublist_remove cmp probe t).map Record.handle

/-- The subtree with a record taken out may stand where it stood before. -/
theorem Apart.remove {n : Tree α} {x : Record α} {f : Tree α} (h : Apart n x f)
    (cmp : α → α → Ordering) (probe : α) : Apart (n.remove cmp probe).tree x f :=
  have hsub := handles_remove_sublist cmp probe n
  ⟨h.near.sublist hsub, h.far, fun hm => h.root_near (hsub.subset hm), h.root_far,
    fun y hm => h.disjoint y (hsub.subset hm)⟩

theorem handles_remove_some {cmp : α → α → Ordering} {probe : α} {t : Tree α} {x : Record α}
    (hr : (t.remove cmp probe).removed = some x) :
    t.handles.Perm (x.handle :: (t.remove cmp probe).tree.handles) := by
  obtain ⟨before, after, ht, hi⟩ := toList_remove_some hr
  simp only [handles, ht, hi, List.map_append, List.map_cons]
  exact List.perm_middle

end Tree

namespace Arena

open MemIndex.Tree (Apart)

variable {α : Type u}

/-- Detaching among linked nodes has turned one tree into another and a record. -/
structure Cut (a : Arena α) (before : Tree α) (after : Tree.Detached α)
    (result : Detachment α) : Prop where
  link : after.tree.link = result.root
  lies : after.tree.LiesIn result.arena
  relinked : Relinked a result.arena before.handles
  shrank : result.shrank = after.shrank
  found : result.found = after.record.handle

theorem detachExtreme_fork {a : Arena α} {side : Side} {n : Tree α} {b : Int} {x : Record α}
    {f : Tree α} {budget : Nat} (ht : (Tree.fork side n b x f).LiesIn a)
    (hn : (Tree.fork side n b x f).handles.Nodup)
    (ih : ∀ next, n.link = some next → ∃ d result, n.detach side = some d ∧
      detachExtreme side budget a next = some result ∧ Cut a n d result) :
    ∃ d result, (Tree.fork side n b x f).detach side = some d ∧
      detachExtreme side (budget + 1) a x.handle = some result ∧
      Cut a (.fork side n b x f) d result := by
  obtain ⟨hx, -, hfl⟩ := Tree.liesIn_fork.1 ht
  have hapart := Tree.nodup_fork.1 hn
  rw [Tree.detach_fork]
  cases hl : n.link with
  | none =>
    have hleaf : n.detach side = none := by
      cases n with
      | leaf => rfl
      | node => cases hl
    refine ⟨⟨⟨f, true⟩, x⟩, ⟨a, f.link, true, x.handle⟩, by rw [hleaf], ?_, rfl, hfl, .refl _ _,
      rfl, rfl⟩
    simp [detachExtreme, hx, hl]
  | some next =>
    obtain ⟨d, below, hd, hrun, hcut⟩ := ih next hl
    obtain ⟨-, hx'⟩ := hapart.detach hd
    obtain ⟨⟨a', root, shrank⟩, hjoin, hres⟩ := joinShrunk_resized ht hcut.relinked
      hapart.root_near (fun h hf hm => hapart.disjoint h hm hf) hcut.lies hx'
    refine ⟨⟨Tree.joinShrunk side d.toShrunk b x f, d.record⟩,
      ⟨a', some root, shrank, below.found⟩, by rw [hd], ?_, hres.link, hres.lies,
      hres.relinked.mono fun h hm => ?_, hres.changed, hcut.found⟩
    · rw [hcut.link, ← hcut.shrank] at hjoin
      simp [detachExtreme, hx, hl, hrun, hjoin]
    · rw [List.mem_append, Tree.mem_handles_fork] at hm
      rw [Tree.mem_handles_fork]
      have hsub : h ∈ d.tree.handles → h ∈ n.handles := fun hm =>
        (Tree.handles_detach hd).mem_iff.2 (List.mem_cons_of_mem _ hm)
      tauto

theorem detachExtreme_cut {a : Arena α} {side : Side} {t : Tree α} {budget : Nat} {top : Handle}
    (ht : t.LiesIn a) (hn : t.handles.Nodup) (hl : t.link = some top) (hb : t.height ≤ budget) :
    ∃ d result, t.detach side = some d ∧ detachExtreme side budget a top = some result ∧
      Cut a t d result := by
  induction t generalizing budget top with
  | leaf => cases hl
  | node l b x r ihl ihr =>
    cases hl
    cases budget with
    | zero => simp [Tree.height] at hb
    | succ budget =>
      simp only [Tree.height, Nat.add_le_add_iff_right, Nat.max_le] at hb
      have hapart := Tree.nodup_fork.1 (show (Tree.fork .left l b x r).handles.Nodup from hn)
      cases side with
      | left =>
        have hfork : (Tree.fork .left l b x r).LiesIn a := ht
        exact detachExtreme_fork hfork hn fun next hnext => ihl ht.2.1 hapart.near hnext hb.1
      | right =>
        have hfork : (Tree.fork .right r b x l).LiesIn a := ht
        exact detachExtreme_fork hfork hn fun next hnext => ihr ht.2.2 hapart.far hnext hb.2

/-- A removal among linked nodes has turned one tree into another. -/
structure Shrank (a : Arena α) (before : Tree α) (after : Tree.Shrunk α)
    (result : Shrinkage α) : Prop where
  link : after.tree.link = result.root
  lies : after.tree.LiesIn result.arena
  relinked : Relinked a result.arena before.handles
  shrank : result.shrank = after.shrank

/-- The neighbour of a node gets its links and its balance. -/
theorem exists_heir {a : Arena α} {side : Side} {n : Tree α} {b : Int} {x : Record α}
    {f : Tree α} {d : Tree.Detached α} {cut : Detachment α}
    (ht : (Tree.fork side n b x f).LiesIn a) (hapart : Apart n x f)
    (hd : n.detach side.opposite = some d) (hcut : Cut a n d cut) :
    ∃ node a₁ a₂, cut.arena.get? x.handle = some node ∧
      cut.arena.modify? x.handle (fun node => .single node.item) = some a₁ ∧
      a₁.modify? cut.found (·.inPlaceOf (node.withChild side cut.root)) = some a₂ ∧
      (Tree.fork side d.tree b d.record f).LiesIn a₂ ∧
      Relinked a a₂ (Tree.fork side n b x f).handles := by
  obtain ⟨hx, hnl, hfl⟩ := Tree.liesIn_fork.1 ht
  have hfound : d.record.handle ∈ n.handles :=
    (Tree.handles_detach hd).mem_iff.2 (List.mem_cons_self ..)
  obtain ⟨hheir, htop⟩ := hapart.detach hd
  have hne : d.record.handle ≠ x.handle := fun he => hapart.root_near (he ▸ hfound)
  have hx₀ := (hcut.relinked.kept x.handle hapart.root_near).trans hx
  -- The heir still has its own item, wherever its links led to meanwhile.
  obtain ⟨heir, hh₀, hitem⟩ : ∃ heir, cut.arena.get? d.record.handle = some heir ∧
      heir.item = d.record.item := by
    have hitem := (hcut.relinked.item d.record.handle).trans
      (hnl.item (Tree.record_mem_of_detach hd))
    exact Option.map_eq_some_iff.1 hitem
  obtain ⟨a₁, hm₁, hw₁⟩ := exists_modify? hx₀ fun node => .single node.item
  have hh₁ := (hw₁.other _ hne).trans hh₀
  obtain ⟨a₂, hm₂, hw₂⟩ := exists_modify? hh₁
    (·.inPlaceOf ((Node.fork side n.link b x.item f.link).withChild side cut.root))
  have hh₂ := hw₂.here
  rw [Node.withChild_fork, Node.inPlaceOf_fork, hitem, ← hcut.link] at hh₂
  have hkept : ∀ h, h ≠ x.handle → h ≠ d.record.handle → a₂.get? h = cut.arena.get? h :=
    fun h hhx hhd => (hw₂.other h hhd).trans (hw₁.other h hhx)
  refine ⟨_, a₁, a₂, hx₀, hm₁, hcut.found ▸ hm₂, ?_, ?_⟩
  · refine Tree.liesIn_fork.2 ⟨hh₂, hcut.lies.congr fun h hm => hkept h ?_ ?_,
      (hcut.relinked.liesIn (fun h hf hm => hapart.disjoint h hm hf) hfl).congr
        fun h hm => hkept h ?_ ?_⟩
    · rintro rfl; exact htop.root_near hm
    · rintro rfl; exact hheir.root_near hm
    · rintro rfl; exact hapart.root_far hm
    · rintro rfl; exact hheir.root_far hm
  · have hsub : n.handles ⊆ (Tree.fork side n b x f).handles := fun h hm =>
      Tree.mem_handles_fork.2 (.inr (.inl hm))
    exact (hcut.relinked.mono hsub).trans <| (hw₁.relinked hx₀ rfl (Tree.mem_handles_fork.2 (.inl rfl))).trans <|
      hw₂.relinked hh₁ rfl (Tree.mem_handles_fork.2 (.inr (.inl hfound)))

/-- The neighbour of a node takes over its place. -/
theorem replace_shrank {a : Arena α} {side : Side} {n : Tree α} {b : Int} {x : Record α}
    {f : Tree α} {budget : Nat} {child : Handle} (ht : (Tree.fork side n b x f).LiesIn a)
    (hn : (Tree.fork side n b x f).handles.Nodup) (hl : n.link = some child)
    (hb : n.height ≤ budget) :
    ∃ d result, n.detach side.opposite = some d ∧
      a.replace budget x.handle side child = some result ∧
      Shrank a (.fork side n b x f) (Tree.joinShrunk side d.toShrunk b d.record f) result := by
  have hapart := Tree.nodup_fork.1 hn
  obtain ⟨d, cut, hd, hrun, hcut⟩ :=
    detachExtreme_cut (Tree.liesIn_fork.1 ht).2.1 hapart.near hl hb
  obtain ⟨hheir, -⟩ := hapart.detach hd
  obtain ⟨node, a₁, a₂, hx, hm₁, hm₂, hlies, hre⟩ := exists_heir ht hapart hd hcut
  refine ⟨d, ?_⟩
  cases hshrank : d.shrank with
  | false =>
    refine ⟨⟨a₂, some cut.found, false⟩, hd, ?_, ?_⟩
    · simp [replace, hrun, hx, hm₁, hm₂, hcut.shrank, hshrank]
    · simp only [Tree.joinShrunk, hshrank, Bool.false_eq_true, if_false]
      exact ⟨by rw [Tree.link_fork, hcut.found], hlies, hre, rfl⟩
  | true =>
    obtain ⟨⟨a₃, root, shrank⟩, hshrink, hres⟩ := shrink_resized hlies (Tree.nodup_fork.2 hheir)
    rw [← hcut.found] at hshrink
    refine ⟨⟨a₃, some root, shrank⟩, hd, ?_, ?_⟩
    · simp [replace, hrun, hx, hm₁, hm₂, hcut.shrank, hshrank, hshrink]
    · simp only [Tree.joinShrunk, hshrank, if_true]
      refine ⟨hres.link, hres.lies, hre.trans (hres.relinked.mono fun h hm => ?_), hres.changed⟩
      have hsub : h = d.record.handle ∨ h ∈ d.tree.handles → h ∈ n.handles := fun hm =>
        (Tree.handles_detach hd).mem_iff.2 (List.mem_cons.2 hm)
      rw [Tree.mem_handles_fork] at hm ⊢
      tauto

theorem unlink_shrank {a : Arena α} {l : Tree α} {b : Int} {x : Record α} {r : Tree α}
    {budget : Nat} (ht : (Tree.node l b x r).LiesIn a) (hn : (Tree.node l b x r).handles.Nodup)
    (hl : l.height ≤ budget) (hr : r.height ≤ budget) :
    ∃ result, a.unlink budget x.handle = some result ∧
      Shrank a (.node l b x r) (Tree.unlink l b r) result := by
  have hx := ht.1
  cases l with
  | node ll lb y lr =>
    have ht' : (Tree.fork .left (.node ll lb y lr) b x r).LiesIn a := ht
    obtain ⟨d, result, hd, hrun, hshrank⟩ :=
      replace_shrank ht' hn rfl hl
    refine ⟨result, by simp [unlink, hx, hrun], ?_⟩
    rwa [Tree.unlink_left hd]
  | leaf =>
    cases r with
    | node rl rb y rr =>
      have ht' : (Tree.fork .right (.node rl rb y rr) b x .leaf).LiesIn a := ⟨hx, ht.2.1, ht.2.2⟩
      obtain ⟨d, result, hd, hrun, hshrank⟩ :=
        replace_shrank ht' hn rfl hr
      refine ⟨result, by simp [unlink, hx, hrun], ?_⟩
      rwa [Tree.unlink_right hd]
    | leaf =>
      refine ⟨⟨a, none, true⟩, by simp [unlink, hx], ?_⟩
      exact ⟨rfl, trivial, .refl _ _, rfl⟩

/-- Unlinking along a search path has turned one tree into another. -/
structure Took (a : Arena α) (before : Tree α) (after : Tree.Removal α)
    (result : Removal α) : Prop extends Shrank a before after.toShrunk result.toShrinkage where
  removed : result.removed = after.removed.map Record.handle
  calls : result.calls = after.calls

theorem removeBelow_fork {cmp : α → α → Ordering} {probe : α} {a : Arena α} (side : Side)
    {n : Tree α} {b : Int} {x : Record α} {f : Tree α} {budget : Nat}
    (hside : cmp probe x.item = match side with | .left => .lt | .right => .gt)
    (ht : (Tree.fork side n b x f).LiesIn a) (hn : (Tree.fork side n b x f).handles.Nodup)
    (ih : ∃ result, removeBelow cmp probe budget a n.link = some result ∧
      Took a n (n.remove cmp probe) result) :
    ∃ result, removeBelow cmp probe (budget + 1) a (some x.handle) = some result ∧
      Took a (.fork side n b x f) ((Tree.fork side n b x f).remove cmp probe) result := by
  obtain ⟨hx, -, hfl⟩ := Tree.liesIn_fork.1 ht
  have hapart := Tree.nodup_fork.1 hn
  obtain ⟨below, hrun, hbelow⟩ := ih
  have hsub := Tree.handles_remove_sublist cmp probe n
  obtain ⟨⟨a', root, shrank⟩, hjoin, hres⟩ := joinShrunk_resized ht hbelow.relinked
    hapart.root_near (fun h hf hm => hapart.disjoint h hm hf) hbelow.lies (hapart.remove cmp probe)
  rw [hbelow.link, ← hbelow.shrank] at hjoin
  rw [Tree.remove_fork hside]
  refine ⟨⟨⟨a', some root, shrank⟩, below.removed, (probe, x.item) :: below.calls⟩, ?_,
    ⟨hres.link, hres.lies, hres.relinked.mono fun h hm => ?_, hres.changed⟩, hbelow.removed,
    by rw [hbelow.calls]⟩
  · cases side <;> simp [removeBelow, hx, Node.fork, Node.child, hside, hrun, hjoin] at *
  · have hin : h ∈ (n.remove cmp probe).tree.handles → h ∈ n.handles := fun hm => hsub.subset hm
    rw [List.mem_append, Tree.mem_handles_fork] at hm
    rw [Tree.mem_handles_fork]
    tauto

/-- Unlinking follows the removal from the tree, within a budget of the tree's height. -/
theorem removeBelow_took (cmp : α → α → Ordering) (probe : α) {a : Arena α} {t : Tree α}
    {budget : Nat} (ht : t.LiesIn a) (hn : t.handles.Nodup) (hb : t.height ≤ budget) :
    ∃ result, removeBelow cmp probe budget a t.link = some result ∧
      Took a t (t.remove cmp probe) result := by
  induction t generalizing budget with
  | leaf =>
    refine ⟨⟨⟨a, none, false⟩, none, []⟩, by cases budget <;> rfl, ⟨rfl, trivial, .refl _ _, rfl⟩,
      rfl, rfl⟩
  | node l b x r ihl ihr =>
    cases budget with
    | zero => simp [Tree.height] at hb
    | succ budget =>
      simp only [Tree.height, Nat.add_le_add_iff_right, Nat.max_le] at hb
      have hapart := Tree.nodup_fork.1 (show (Tree.fork .left l b x r).handles.Nodup from hn)
      cases hc : cmp probe x.item with
      | lt => exact removeBelow_fork .left hc ht hn (ihl ht.2.1 hapart.near hb.1)
      | gt =>
        exact removeBelow_fork .right hc (Tree.liesIn_fork.2 ⟨ht.1, ht.2.2, ht.2.1⟩) hn
          (ihr ht.2.2 hapart.far hb.2)
      | eq =>
        obtain ⟨below, hrun, hshrank⟩ := unlink_shrank ht hn hb.1 hb.2
        have hx := ht.1
        refine ⟨⟨below, some x.handle, [(probe, x.item)]⟩, ?_, ?_⟩
        · simp [removeBelow, hx, hc, hrun]
        · simp only [Tree.remove, hc]
          exact ⟨hshrank, rfl, rfl⟩

/-- The node of the record that is taken out stays until its slot is freed. -/
theorem Took.exists_removed {cmp : α → α → Ordering} {probe : α} {a : Arena α} {t : Tree α}
    {shrunk : Removal α} {x : Record α} (htook : Took a t (t.remove cmp probe) shrunk)
    (ht : t.LiesIn a) (hr : (t.remove cmp probe).removed = some x) :
    ∃ node, shrunk.arena.get? x.handle = some node ∧ node.item = x.item := by
  obtain ⟨before, after, hlist, -⟩ := Tree.toList_remove_some hr
  have hitem := (htook.relinked.item x.handle).trans (ht.item (by simp [hlist]))
  exact Option.map_eq_some_iff.1 hitem

end Arena

end MemIndex
