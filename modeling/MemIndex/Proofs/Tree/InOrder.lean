import MemIndex.Proofs.Tree.Updates

/-!
# The order of records under updates

What each update does to the records as they are listed from left to right. Levelling changes nothing,
an insertion adds one record in one place, a removal takes one out of its place, and the order of all
others stays. The comparator may be any function.
-/
namespace MemIndex.Tree

variable {α : Type u}

/-! ## Levelling -/

theorem toList_rotate (side : Side) (t : Tree α) : (t.rotate side).toList = t.toList := by
  obtain rfl | ⟨n, b, x, far, rfl⟩ := t.fork_cases side
  · rfl
  · obtain rfl | ⟨m, c, y, f, rfl⟩ := far.fork_cases side
    · rw [rotate_leaf_far]
    · rw [rotate_fork]
      cases side <;> simp [fork, toList]

theorem toList_fork_congr (side : Side) {n n' : Tree α} (hn : n.toList = n'.toList) (b b' : Int)
    (x : Record α) (f : Tree α) : (fork side n b x f).toList = (fork side n' b' x f).toList := by
  cases side <;> simp [fork, toList, hn]

theorem toList_rebalanceToward (heavy : Side) (l : Tree α) (b : Int) (x : Record α) (r : Tree α) :
    (rebalanceToward heavy l b x r).toList = (node l b x r).toList := by
  unfold rebalanceToward
  rw [toList_rotate]
  have hchild : (if (pick heavy l r).balance * heavy.sign < 0 then (pick heavy l r).rotate heavy
      else pick heavy l r).toList = (pick heavy l r).toList := by
    split
    · exact toList_rotate heavy _
    · rfl
  rw [toList_fork_congr heavy hchild b b, fork_pick]

theorem toList_rebalance (t : Tree α) : t.rebalance.toList = t.toList := by
  cases t with
  | leaf => rfl
  | node l b x r => exact toList_rebalanceToward _ l b x r

theorem toList_grow (side : Side) (higher : Tree α) (b : Int) (x : Record α) (other : Tree α) :
    (grow side higher b x other).tree.toList = (fork side higher b x other).toList := by
  unfold grow
  dsimp only
  have hlevel := toList_fork_congr side (rfl : higher.toList = _) (b + side.sign) b x other
  split
  · exact hlevel
  · split
    · exact hlevel
    · rw [toList_rebalance, hlevel]

theorem toList_joinGrown (side : Side) (below : Grown α) (b : Int) (x : Record α) (other : Tree α) :
    (joinGrown side below b x other).tree.toList = (fork side below.tree b x other).toList := by
  unfold joinGrown
  split
  · exact toList_grow side below.tree b x other
  · rfl

theorem toList_shrink (side : Side) (lower : Tree α) (b : Int) (x : Record α) (other : Tree α) :
    (shrink side lower b x other).tree.toList = (fork side lower b x other).toList := by
  unfold shrink
  dsimp only
  have hlevel := toList_fork_congr side (rfl : lower.toList = _) (b - side.sign) b x other
  split
  · exact hlevel
  · split
    · exact hlevel
    · rw [toList_rebalance, hlevel]

theorem toList_joinShrunk (side : Side) (below : Shrunk α) (b : Int) (x : Record α)
    (other : Tree α) :
    (joinShrunk side below b x other).tree.toList = (fork side below.tree b x other).toList := by
  unfold joinShrunk
  split
  · exact toList_shrink side below.tree b x other
  · rfl

/-! ## Insertion and removal -/

/-- An insertion puts the new record somewhere between the others. -/
theorem toList_insert (cmp : α → α → Ordering) (new : Record α) (t : Tree α) :
    ∃ before after, t.toList = before ++ after ∧
      (t.insert cmp new).tree.toList = before ++ new :: after := by
  induction t with
  | leaf => exact ⟨[], [], rfl, rfl⟩
  | node l b x r ihl ihr =>
    unfold insert
    dsimp only
    split
    · obtain ⟨before, after, hl, hi⟩ := ihl
      refine ⟨before, after ++ x :: r.toList, by simp [toList, hl], ?_⟩
      rw [toList_joinGrown]
      simp [fork, toList, hi]
    · obtain ⟨before, after, hr, hi⟩ := ihr
      refine ⟨l.toList ++ x :: before, after, by simp [toList, hr], ?_⟩
      rw [toList_joinGrown]
      simp [fork, toList, hi]

theorem toList_detach_left {t : Tree α} {d : Detached α} (hd : t.detach .left = some d) :
    t.toList = d.record :: d.tree.toList := by
  induction t generalizing d with
  | leaf => cases hd
  | node l b x r ihl _ =>
    simp only [detach] at hd
    split at hd
    · rename_i hl
      cases hd
      rw [detach_eq_none.1 hl]
      rfl
    · rename_i below hl
      cases hd
      rw [toList_joinShrunk, Side.opposite_left]
      simp [fork, toList, ihl hl]

theorem toList_detach_right {t : Tree α} {d : Detached α} (hd : t.detach .right = some d) :
    t.toList = d.tree.toList ++ [d.record] := by
  induction t generalizing d with
  | leaf => cases hd
  | node l b x r _ ihr =>
    simp only [detach] at hd
    split at hd
    · rename_i hr
      cases hd
      rw [detach_eq_none.1 hr]
      rfl
    · rename_i below hr
      cases hd
      rw [toList_joinShrunk, Side.opposite_right]
      simp [fork, toList, ihr hr]

theorem toList_unlink (l : Tree α) (b : Int) (r : Tree α) :
    (unlink l b r).tree.toList = l.toList ++ r.toList := by
  unfold unlink
  split
  · rename_i d hd
    rw [toList_joinShrunk, toList_detach_right hd]
    simp [fork, toList]
  · rename_i hl
    rw [detach_eq_none.1 hl]
    split
    · rename_i d hd
      rw [toList_joinShrunk, toList_detach_left hd]
      simp [fork, toList]
    · rename_i hr
      rw [detach_eq_none.1 hr]
      rfl

/-- A removal that finds nothing leaves the tree as it is. -/
theorem remove_none {cmp : α → α → Ordering} {probe : α} {t : Tree α}
    (hr : (t.remove cmp probe).removed = none) : (t.remove cmp probe).toShrunk = ⟨t, false⟩ := by
  induction t with
  | leaf => rfl
  | node l b x r ihl ihr =>
    unfold remove at hr ⊢
    dsimp only at hr ⊢
    split at hr
    · cases hr
    · rw [ihl hr]
      rfl
    · rw [ihr hr]
      rfl

/-- A removal takes the removed record out of its place. -/
theorem toList_remove_some {cmp : α → α → Ordering} {probe : α} {t : Tree α} {x : Record α}
    (hr : (t.remove cmp probe).removed = some x) :
    ∃ before after, t.toList = before ++ x :: after ∧
      (t.remove cmp probe).tree.toList = before ++ after := by
  induction t with
  | leaf => cases hr
  | node l b y r ihl ihr =>
    unfold remove at hr ⊢
    dsimp only at hr ⊢
    split at hr
    · cases hr
      exact ⟨l.toList, r.toList, rfl, toList_unlink l b r⟩
    · obtain ⟨before, after, hl, hi⟩ := ihl hr
      refine ⟨before, after ++ y :: r.toList, by simp [toList, hl], ?_⟩
      rw [toList_joinShrunk]
      simp [fork, toList, hi]
    · obtain ⟨before, after, hl, hi⟩ := ihr hr
      refine ⟨l.toList ++ y :: before, after, by simp [toList, hl], ?_⟩
      rw [toList_joinShrunk]
      simp [fork, toList, hi]

/-- What a search finds is what a removal takes out. -/
theorem found_eq_removed (cmp : α → α → Ordering) (probe : α) (t : Tree α) :
    (t.find cmp probe).found = (t.remove cmp probe).removed := by
  induction t with
  | leaf => rfl
  | node l b x r ihl ihr =>
    unfold find remove
    dsimp only
    split
    · rfl
    · exact ihl
    · exact ihr

theorem extreme_left (t : Tree α) : t.extreme .left = t.toList.head? := by
  induction t with
  | leaf => rfl
  | node l b x r ihl _ =>
    simp only [extreme, ihl, toList]
    cases l.toList <;> rfl

theorem extreme_right (t : Tree α) : t.extreme .right = t.toList.getLast? := by
  induction t with
  | leaf => rfl
  | node l b x r _ ihr =>
    simp [extreme, ihr, toList, List.getLast?_append, List.getLast?_cons]

end MemIndex.Tree
