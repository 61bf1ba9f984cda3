import MemIndex.Proofs.Arena.Insertion
import MemIndex.Proofs.Arena.Removal
import MemIndex.Proofs.Tree.Balance

/-!
# Heights among linked nodes

No node knows its height. What rewrites the links below a link reports whether the tree there has become
one level higher or lower, and the report is exact on every balanced tree. A rotation needs no such
report: two exact balances give the two new ones, whatever the heights are.
-/
namespace MemIndex

namespace Tree

variable {α : Type u} {side : Side} {n : Tree α} {b : Int} {x : Record α} {f : Tree α}

/-- A tree that has lost a level which the balance of its root still counts. -/
theorem shrinksFrom_shrink_lost (hn : n.Balanced) (hf : f.Balanced)
    (hb : b = side.sign * ((n.height : Int) + 1 - f.height)) (hlow : -1 ≤ b) (hhigh : b ≤ 1) :
    (shrink side n b x f).tree.Balanced ∧
      (shrink side n b x f).tree.height + (shrink side n b x f).shrank.toNat =
        max (n.height + 1) f.height + 1 := by
  -- Nothing is known of the tree before the loss but its height, so any tree of this height will do.
  have hbefore : (node n 0 x n).Balanced := ⟨by omega, by decide, by decide, hn, hn⟩
  have hheight : (node n 0 x n).height = n.height + 1 := by simp [height]
  have hfork : (fork side (node n 0 x n) b x f).Balanced := by
    rw [balanced_fork, hheight]
    exact ⟨hb, hlow, hhigh, hbefore, hf⟩
  have hlost := shrinksFrom_shrink hfork hn hheight.symm
  refine ⟨hlost.balanced, ?_⟩
  rw [hlost.height, height_fork, hheight]

/-- The higher child of the root is level: it rises and stays as high as it was. -/
theorem shrank_of_level (hb : b = side.opposite.sign) (hlevel : f.isLevel = true) :
    (shrink side n b x f).shrank = false := by
  subst hb
  cases side <;> simp [shrink, Side.sign, hlevel]

end Tree

namespace Arena

variable {α : Type u}

/-- The link leads to the tree, on nodes that are all different. -/
structure Spells (a : Arena α) (link : Option Handle) (t : Tree α) : Prop where
  root : t.link = link
  lies : t.LiesIn a
  nodup : t.handles.Nodup

/-- The link leads to a balanced tree, which is one level higher than before, or as high, as reported. -/
def ReportsGrowth (a : Arena α) (link : Option Handle) (before : Nat) (grew : Bool) : Prop :=
  ∃ t, a.Spells link t ∧ t.Balanced ∧ t.height = before + grew.toNat

/-- The link leads to a balanced tree, which is one level lower than before, or as high, as reported. -/
def ReportsLoss (a : Arena α) (link : Option Handle) (before : Nat) (shrank : Bool) : Prop :=
  ∃ t, a.Spells link t ∧ t.Balanced ∧ t.height + shrank.toNat = before

theorem reportsLoss_of_shrinksFrom {a : Arena α} {link : Option Handle} {before : Tree α}
    {after : Tree.Shrunk α} {shrank : Bool} (hspells : a.Spells link after.tree)
    (hshrinks : Tree.ShrinksFrom before after) (hflag : shrank = after.shrank) :
    ReportsLoss a link before.height shrank := by
  refine ⟨after.tree, hspells, hshrinks.balanced, ?_⟩
  rw [hflag]
  exact hshrinks.height

section Reports

variable {a : Arena α} {link : Option Handle} {t : Tree α} {budget : Nat} (ht : a.Spells link t)
  (hb : t.Balanced) (hbudget : t.height ≤ budget)

include ht hb hbudget

theorem exists_insertBelow (cmp : α → α → Ordering) {new : Handle} {item : α}
    (hnew : a.get? new = some (.single item)) (hfresh : new ∉ t.handles) :
    ∃ r, insertBelow cmp new budget a link = some r ∧
      ReportsGrowth r.arena (some r.root) t.height r.grew := by
  obtain ⟨r, hrun, hgrew⟩ := insertBelow_grew cmp ⟨new, item⟩ ht.lies ht.nodup hnew hfresh hbudget
  have hgrows := Tree.growsFrom_insert cmp ⟨new, item⟩ hb
  rw [ht.root] at hrun
  refine ⟨r, hrun, _, ⟨hgrew.link, hgrew.lies, ?_⟩, hgrows.balanced, ?_⟩
  · exact Tree.nodup_handles_insert ht.nodup hfresh
  · rw [hgrew.grew]
    exact hgrows.height

theorem exists_detachExtreme (side : Side) {top : Handle} (htop : link = some top) :
    ∃ r, detachExtreme side budget a top = some r ∧
      ReportsLoss r.arena r.root t.height r.shrank := by
  obtain ⟨d, r, hd, hrun, hcut⟩ : ∃ d r, t.detach side = some d ∧
      detachExtreme side budget a top = some r ∧ Cut a t d r :=
    detachExtreme_cut ht.lies ht.nodup (ht.root.trans htop) hbudget
  have hnodup : d.tree.handles.Nodup :=
    (List.nodup_cons.1 ((Tree.handles_detach hd).nodup_iff.1 ht.nodup)).2
  exact ⟨r, hrun, reportsLoss_of_shrinksFrom ⟨hcut.link, hcut.lies, hnodup⟩
    (Tree.shrinksFrom_detach hb hd) hcut.shrank⟩

theorem exists_unlink {top : Handle} (htop : link = some top) :
    ∃ r, unlink budget a top = some r ∧ ReportsLoss r.arena r.root t.height r.shrank := by
  cases t with
  | leaf => cases ht.root.trans htop
  | node l bal x r =>
    cases ht.root.trans htop
    have hbelow : max l.height r.height ≤ budget := Nat.le_of_succ_le hbudget
    obtain ⟨hl, hr⟩ := Nat.max_le.1 hbelow
    obtain ⟨after, hrun, hshrank⟩ := unlink_shrank ht.lies ht.nodup hl hr
    have hsub : (l.toList ++ r.toList).Sublist (Tree.node l bal x r).toList :=
      (List.Sublist.refl l.toList).append (List.sublist_cons_self x r.toList)
    have hnodup : (Tree.unlink l bal r).tree.handles.Nodup := by
      rw [Tree.handles, Tree.toList_unlink]
      exact ht.nodup.sublist (hsub.map Record.handle)
    exact ⟨after, hrun, reportsLoss_of_shrinksFrom ⟨hshrank.link, hshrank.lies, hnodup⟩
      (Tree.shrinksFrom_unlink hb) hshrank.shrank⟩

theorem exists_removeBelow (cmp : α → α → Ordering) (probe : α) :
    ∃ r, removeBelow cmp probe budget a link = some r ∧
      ReportsLoss r.arena r.root t.height r.shrank := by
  obtain ⟨r, hrun, htook⟩ := removeBelow_took cmp probe ht.lies ht.nodup hbudget
  rw [ht.root] at hrun
  have hnodup : (t.remove cmp probe).tree.handles.Nodup :=
    ht.nodup.sublist (Tree.handles_remove_sublist cmp probe t)
  exact ⟨r, hrun, reportsLoss_of_shrinksFrom ⟨htook.link, htook.lies, hnodup⟩
    (Tree.shrinksFrom_remove cmp probe hb) htook.shrank⟩

end Reports

theorem exists_shrink {a : Arena α} {side : Side} {n : Tree α} {b : Int} {x : Record α} {f : Tree α}
    (ht : a.Spells (some x.handle) (.fork side n b x f)) (hn : n.Balanced) (hf : f.Balanced)
    (hb : b = side.sign * ((n.height : Int) + 1 - f.height)) (hlow : -1 ≤ b) (hhigh : b ≤ 1) :
    ∃ a' root shrank, a.shrink x.handle side = some (a', root, shrank) ∧
      ReportsLoss a' (some root) (max (n.height + 1) f.height + 1) shrank ∧
      (b = side.opposite.sign → f.isLevel = true → shrank = false) := by
  obtain ⟨⟨a', root, shrank⟩, hrun, hres⟩ := shrink_resized ht.lies ht.nodup
  obtain ⟨hbalanced, hheight⟩ := Tree.shrinksFrom_shrink_lost (x := x) hn hf hb hlow hhigh
  obtain rfl : shrank = (Tree.shrink side n b x f).shrank := hres.changed
  refine ⟨a', root, _, hrun, ⟨_, ⟨hres.link, hres.lies, ?_⟩, hbalanced, hheight⟩,
    Tree.shrank_of_level⟩
  rw [Tree.handles, Tree.toList_shrink]
  exact ht.nodup

/-- The reports of all updates are exact. On a balanced tree with a budget of its height, and under any
comparator, an insertion of a node without children, the detachment of the last node on a side, the
unlinking of the root and a removal end, leave a balanced tree, and report by how much it is higher or
lower than before. Where a subtree has just lost a level that the balance of its parent still counts,
shrinking the parent does the same; a level child on the other side rises and keeps the height. -/
theorem updates_report_heights (a : Arena α) (cmp : α → α → Ordering) (side : Side) :
    (∀ {link : Option Handle} {t : Tree α} {budget : Nat}, a.Spells link t → t.Balanced →
      t.height ≤ budget →
      (∀ {new : Handle} {item : α}, a.get? new = some (.single item) → new ∉ t.handles →
        ∃ r, insertBelow cmp new budget a link = some r ∧
          ReportsGrowth r.arena (some r.root) t.height r.grew) ∧
      (∀ {top : Handle}, link = some top → ∃ r, detachExtreme side budget a top = some r ∧
        ReportsLoss r.arena r.root t.height r.shrank) ∧
      (∀ {top : Handle}, link = some top → ∃ r, unlink budget a top = some r ∧
        ReportsLoss r.arena r.root t.height r.shrank) ∧
      ∀ probe, ∃ r, removeBelow cmp probe budget a link = some r ∧
        ReportsLoss r.arena r.root t.height r.shrank) ∧
    ∀ (n : Tree α) (b : Int) (x : Record α) (f : Tree α),
      a.Spells (some x.handle) (.fork side n b x f) → n.Balanced → f.Balanced →
      b = side.sign * ((n.height : Int) + 1 - f.height) → -1 ≤ b → b ≤ 1 →
      ∃ a' root shrank, a.shrink x.handle side = some (a', root, shrank) ∧
        ReportsLoss a' (some root) (max (n.height + 1) f.height + 1) shrank ∧
        (b = side.opposite.sign → f.isLevel = true → shrank = false) := by
  refine ⟨fun ht hb hbudget => ⟨fun hnew hfresh => ?_, fun htop => ?_, fun htop => ?_,
    fun probe => ?_⟩, fun _ _ _ _ => exists_shrink⟩
  · exact exists_insertBelow ht hb hbudget cmp hnew hfresh
  · exact exists_detachExtreme ht hb hbudget side htop
  · exact exists_unlink ht hb hbudget htop
  · exact exists_removeBelow ht hb hbudget cmp probe

/-- An insertion that turns twice and keeps the height, below a node that leans to the left, and a level
child that rises beside a subtree that is gone. -/
theorem updates_report_heights_turned :
    let h (slot : Nat) : Handle := ⟨slot, 1⟩
    let a : Arena Nat := ⟨#[⟨1, some ⟨some (h 1), none, -1, 30⟩⟩, ⟨1, some (.single 20)⟩,
      ⟨1, some (.single 25)⟩, ⟨1, some ⟨none, some (h 4), 1, 40⟩⟩,
      ⟨1, some ⟨some (h 5), some (h 6), 0, 60⟩⟩, ⟨1, some (.single 50)⟩,
      ⟨1, some (.single 70)⟩], #[]⟩
    let single (slot item : Nat) : Tree Nat := .node .leaf 0 ⟨h slot, item⟩ .leaf
    let t : Tree Nat := .node (single 1 20) (-1) ⟨h 0, 30⟩ .leaf
    let f : Tree Nat := .node (single 5 50) 0 ⟨h 4, 60⟩ (single 6 70)
    a.Spells (some (h 0)) t ∧ t.Balanced ∧ t.height ≤ 2 ∧
    a.get? (h 2) = some (.single 25) ∧ h 2 ∉ t.handles ∧
    (∃ r, insertBelow compare (h 2) 2 a (some (h 0)) = some r ∧
      ReportsGrowth r.arena (some r.root) 2 r.grew ∧ r.grew = false) ∧
    (∃ r, detachExtreme .left 2 a (h 0) = some r ∧ ReportsLoss r.arena r.root 2 r.shrank) ∧
    (∃ r, unlink 2 a (h 0) = some r ∧ ReportsLoss r.arena r.root 2 r.shrank) ∧
    (∃ r, removeBelow compare 20 2 a (some (h 0)) = some r ∧
      ReportsLoss r.arena r.root 2 r.shrank) ∧
    a.Spells (some (h 3)) (.fork .left .leaf 1 ⟨h 3, 40⟩ f) ∧ f.Balanced ∧
    ∃ a' root, a.shrink (h 3) .left = some (a', root, false) ∧
      ReportsLoss a' (some root) 3 false := by
  intro h a single t f
  have ht : a.Spells (some (h 0)) t := ⟨rfl, ⟨rfl, ⟨rfl, trivial, trivial⟩, trivial⟩, by decide⟩
  have hb : t.Balanced := by decide
  have hbudget : t.height ≤ 2 := by decide
  have hnew : a.get? (h 2) = some (.single 25) := rfl
  have hfresh : h 2 ∉ t.handles := by decide
  have hs : a.Spells (some (h 3)) (.fork .left .leaf 1 ⟨h 3, 40⟩ f) :=
    ⟨rfl, ⟨rfl, trivial, rfl, ⟨rfl, trivial, trivial⟩, rfl, trivial, trivial⟩, by decide⟩
  have hf : f.Balanced := by decide
  obtain ⟨hbelow, hparent⟩ := updates_report_heights a compare .left
  obtain ⟨hinsert, hdetach, hunlink, hremove⟩ := hbelow ht hb hbudget
  obtain ⟨r, hrun, hgrowth⟩ := hinsert hnew hfresh
  have hgrew : (insertBelow compare (h 2) 2 a (some (h 0))).map (·.grew) = some false := by
    decide +kernel
  rw [hrun, Option.map_some, Option.some.injEq] at hgrew
  obtain ⟨a', root, shrank, hshrink, hloss, hlevel⟩ :=
    hparent .leaf 1 ⟨h 3, 40⟩ f hs trivial hf (by decide) (by decide) (by decide)
  obtain rfl := hlevel rfl rfl
  exact ⟨ht, hb, hbudget, hnew, hfresh, ⟨r, hrun, hgrowth, hgrew⟩, hdetach rfl, hunlink rfl,
    hremove 20, hs, hf, a', root, hshrink, hloss⟩

/-! ## Rotations -/

/-- Where the balances of a node and of its child are exact, lowering the node toward the other side makes
the child the root and gives both of them exact balances again, whatever the subtrees are like. The order
of the records stays, and no other node is touched. -/
theorem rotate_keeps_balances {a : Arena α} {side : Side} {n m f : Tree α} {b c : Int}
    {x y : Record α} (ht : a.Spells (some x.handle) (.fork side n b x (.fork side m c y f)))
    (hx : (Tree.fork side n b x (.fork side m c y f)).RootExact)
    (hy : (Tree.fork side m c y f).RootExact) :
    ∃ a' b' c', a.rotate x.handle side = some (a', y.handle) ∧
      a'.Spells (some y.handle) (.fork side (.fork side n b' x m) c' y f) ∧
      (Tree.fork side n b' x m).RootExact ∧
      (Tree.fork side (.fork side n b' x m) c' y f).RootExact ∧
      (Tree.fork side (.fork side n b' x m) c' y f).toList =
        (Tree.fork side n b x (.fork side m c y f)).toList ∧
      ∀ h, h ≠ x.handle → h ≠ y.handle → a'.get? h = a.get? h := by
  obtain ⟨a', hrun, hlies, hre⟩ := exists_rotate_fork ht.lies ht.nodup
  have horder := Tree.toList_rotate side (.fork side n b x (.fork side m c y f))
  rw [Tree.rotate_fork] at hlies horder
  refine ⟨a', _, _, hrun, ⟨Tree.link_fork _ _ _ _ _, hlies, ?_⟩, Tree.rootExact_lowered hx hy,
    Tree.rootExact_raised hx hy, horder, fun h hhx hhy => hre.kept h ?_⟩
  · rw [Tree.handles, horder]
    exact ht.nodup
  · simp [hhx, hhy]

/-- Four nodes in a row, the balances of the last two of which are no heights' difference. -/
theorem rotate_keeps_balances_row :
    let h (slot : Nat) : Handle := ⟨slot, 1⟩
    let a : Arena Nat := ⟨#[⟨1, some ⟨none, some (h 1), 3, 10⟩⟩,
      ⟨1, some ⟨none, some (h 2), 2, 20⟩⟩, ⟨1, some ⟨none, some (h 3), -7, 30⟩⟩,
      ⟨1, some ⟨none, none, 5, 40⟩⟩], #[]⟩
    let rest : Tree Nat := .node .leaf (-7) ⟨h 2, 30⟩ (.node .leaf 5 ⟨h 3, 40⟩ .leaf)
    let before : Tree Nat := .fork .left .leaf 3 ⟨h 0, 10⟩ (.fork .left .leaf 2 ⟨h 1, 20⟩ rest)
    let after (b c : Int) : Tree Nat :=
      .fork .left (.fork .left .leaf b ⟨h 0, 10⟩ .leaf) c ⟨h 1, 20⟩ rest
    a.Spells (some (h 0)) before ∧ before.RootExact ∧
    (Tree.fork .left .leaf 2 ⟨h 1, 20⟩ rest).RootExact ∧
    ∃ a', a.rotate (h 0) .left = some (a', h 1) ∧ a'.Spells (some (h 1)) (after 0 1) ∧
      (after 0 1).toList = before.toList ∧ a'.get? (h 3) = a.get? (h 3) := by
  intro h a rest before after
  have ht : a.Spells (some (h 0)) before :=
    ⟨rfl, ⟨rfl, trivial, rfl, trivial, rfl, trivial, rfl, trivial, trivial⟩, by decide⟩
  have hx : before.RootExact := by decide
  have hy : (Tree.fork .left .leaf 2 ⟨h 1, 20⟩ rest).RootExact := by decide
  obtain ⟨a', b', c', hrun, hspells, hlowered, hraised, horder, hother⟩ :=
    rotate_keeps_balances ht hx hy
  obtain rfl : b' = 0 := hlowered
  obtain rfl : c' = 1 := hraised
  exact ⟨ht, hx, hy, a', hrun, hspells, horder, hother _ (by decide) (by decide)⟩

end Arena

end MemIndex
