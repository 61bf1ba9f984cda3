import MemIndex.Proofs.OrderedIndex.Runs
import MemIndex.Proofs.Tree.Search

/-!
# The index as a stable sorted multiset

Under a comparator that is a total preorder, the records of an index stand in the order that a stable
sort of their arrivals gives, and every operation answers by that order. The arrivals are read off the
operations and their answers alone.
-/
namespace MemIndex.OrderedIndex

variable {α : Type u}

/-- The records that are held after an operation, in the order in which they came. -/
def arrivals (live : List (Record α)) : Op α → Answer α → List (Record α)
  | .insert item, .handle h => live ++ [⟨h, item⟩]
  | .remove _, .record (some x) => live.filter fun y => y.handle ≠ x.handle
  | _, _ => live

/-- The records that are held after a run, given those that are held before. -/
def arrivedFrom (live : List (Record α)) (ops : List (Op α)) (answers : List (Answer α)) :
    List (Record α) :=
  (ops.zip answers).foldl (fun live (op, answer) => arrivals live op answer) live

def arrived (ops : List (Op α)) (answers : List (Answer α)) : List (Record α) :=
  arrivedFrom [] ops answers

/-- The listed records are the ones that arrived, sorted, with equal ones in their order of arrival. -/
structure StableSort (cmp : α → α → Ordering) (live listed : List (Record α)) : Prop where
  perm : listed.Perm live
  sorted : Sorted cmp listed
  stable : ∀ item, (listed.filter fun x => cmp item x.item == .eq) =
    live.filter fun x => cmp item x.item == .eq

/-- The one that came first among the least records. -/
def earliestLeast (cmp : α → α → Ordering) (live : List (Record α)) : Option (Record α) :=
  live.find? fun x => live.all fun y => (cmp x.item y.item).isLE

/-- The one that came last among the greatest records. -/
def latestGreatest (cmp : α → α → Ordering) (live : List (Record α)) : Option (Record α) :=
  live.reverse.find? fun x => live.all fun y => (cmp y.item x.item).isLE

/-- What an operation may answer, and how it leaves the records listed. -/
inductive Serves (cmp : α → α → Ordering) (live listed : List (Record α)) :
    Op α → Answer α → List (Record α) → Prop
  | insert {item : α} {h : Handle} {before after : List (Record α)} (split : listed = before ++ after)
    (fresh : ∀ x ∈ listed, x.handle ≠ h)
    (notGreater : ∀ x ∈ before, (cmp x.item item).isLE = true)
    (greater : ∀ x ∈ after, cmp x.item item = .gt) :
    Serves cmp live listed (.insert item) (.handle h) (before ++ ⟨h, item⟩ :: after)
  | remove {probe : α} {x : Record α} {before after : List (Record α)}
    (split : listed = before ++ x :: after) (eq : cmp probe x.item = .eq) :
    Serves cmp live listed (.remove probe) (.record (some x)) (before ++ after)
  | removeNothing {probe : α} (other : ∀ x ∈ listed, cmp probe x.item ≠ .eq) :
    Serves cmp live listed (.remove probe) (.record none) listed
  | find {probe : α} {x : Record α} (mem : x ∈ listed) (eq : cmp probe x.item = .eq) :
    Serves cmp live listed (.find probe) (.record (some x)) listed
  | findNothing {probe : α} (other : ∀ x ∈ listed, cmp probe x.item ≠ .eq) :
    Serves cmp live listed (.find probe) (.record none) listed
  | min : Serves cmp live listed .min (.record (earliestLeast cmp live)) listed
  | max : Serves cmp live listed .max (.record (latestGreatest cmp live)) listed

/-! ## The ends -/

theorem StableSort.reverse {cmp : α → α → Ordering} [Std.OrientedCmp cmp]
    {live listed : List (Record α)} (h : StableSort cmp live listed) :
    StableSort (fun x y => cmp y x) live.reverse listed.reverse where
  perm := (List.reverse_perm _).trans (h.perm.trans (List.reverse_perm _).symm)
  sorted := List.pairwise_reverse.2 h.sorted
  stable item := by
    have hswap : (fun x : Record α => cmp x.item item == .eq) = fun x => cmp item x.item == .eq := by
      funext x
      rw [Bool.eq_iff_iff, beq_iff_eq, beq_iff_eq, Std.OrientedCmp.eq_comm]
    rw [hswap, List.filter_reverse, List.filter_reverse, h.stable item]

/-- The first listed record is the one that came first among the least. -/
theorem StableSort.head? {cmp : α → α → Ordering} [Std.TransCmp cmp] {live listed : List (Record α)}
    (h : StableSort cmp live listed) : listed.head? = earliestLeast cmp live := by
  cases hl : listed with
  | nil =>
    have hlive : live = [] := List.nil_perm.1 (hl ▸ h.perm)
    simp [hlive, earliestLeast]
  | cons z rest =>
    have hz : z ∈ live := h.perm.mem_iff.1 (by simp [hl])
    have hbound : ∀ x ∈ live, (cmp z.item x.item).isLE = true := by
      intro x hx
      have hsorted := List.pairwise_cons.1 (hl ▸ h.sorted)
      have hx' : x ∈ z :: rest := hl ▸ h.perm.mem_iff.2 hx
      rcases List.mem_cons.1 hx' with rfl | hx'
      · exact Std.ReflCmp.isLE_rfl
      · exact hsorted.1 x hx'
    -- The least records are those that compare equal to the first one.
    have hleast : (live.filter fun x => live.all fun y => (cmp x.item y.item).isLE) =
        live.filter fun x => cmp z.item x.item == .eq := by
      apply List.filter_congr
      intro x hx
      rw [Bool.eq_iff_iff, List.all_eq_true, beq_iff_eq]
      constructor
      · intro hleast
        exact Std.OrientedCmp.isLE_antisymm (hbound x hx) (hleast z hz)
      · intro heq y hy
        have hxz : (cmp x.item z.item).isLE = true := by rw [Std.OrientedCmp.eq_symm heq]; rfl
        exact Std.TransCmp.isLE_trans hxz (hbound y hy)
    have hrefl : (cmp z.item z.item == .eq) = true :=
      beq_iff_eq.2 Std.ReflCmp.compare_self
    rw [earliestLeast, ← List.head?_filter, hleast, ← h.stable z.item, hl, List.filter_cons, hrefl]
    rfl

theorem StableSort.getLast? {cmp : α → α → Ordering} [Std.TransCmp cmp]
    {live listed : List (Record α)} (h : StableSort cmp live listed) :
    listed.getLast? = latestGreatest cmp live := by
  rw [← List.head?_reverse, h.reverse.head?, earliestLeast, latestGreatest]
  simp only [List.all_reverse]

/-! ## Insertion and removal -/

theorem StableSort.insert {cmp : α → α → Ordering} [Std.TransCmp cmp]
    {live before after : List (Record α)} (h : StableSort cmp live (before ++ after)) (new : Record α)
    (hbefore : ∀ x ∈ before, (cmp x.item new.item).isLE = true)
    (hafter : ∀ x ∈ after, cmp x.item new.item = .gt) :
    StableSort cmp (live ++ [new]) (before ++ new :: after) where
  perm := List.perm_middle.trans <| (h.perm.cons new).trans (List.perm_append_singleton new live).symm
  sorted := by
    have hsorted := List.pairwise_append.1 h.sorted
    refine List.pairwise_append.2 ⟨hsorted.1, List.pairwise_cons.2 ⟨fun x hx => ?_, hsorted.2.1⟩, ?_⟩
    · rw [Std.OrientedCmp.lt_of_gt (hafter x hx)]
      rfl
    · intro x hx y hy
      rcases List.mem_cons.1 hy with rfl | hy
      · exact hbefore x hx
      · exact hsorted.2.2 x hx y hy
  stable item := by
    have hstable := h.stable item
    rw [List.filter_append] at hstable
    rw [List.filter_append, List.filter_append, List.filter_cons, ← hstable]
    cases heq : cmp item new.item == .eq with
    | false => simp [heq]
    | true =>
      -- Whatever compares equal to the new record stands before it.
      have hnone : (after.filter fun x => cmp item x.item == .eq) = [] := by
        apply List.filter_eq_nil_iff.2
        intro x hx hx'
        have hxn := Std.TransCmp.eq_trans (Std.OrientedCmp.eq_symm (beq_iff_eq.1 hx')) (beq_iff_eq.1 heq)
        rw [hafter x hx] at hxn
        cases hxn
      simp [heq, hnone]

theorem StableSort.remove {cmp : α → α → Ordering} {live before after : List (Record α)}
    {x : Record α} (h : StableSort cmp live (before ++ x :: after))
    (hn : ((before ++ x :: after).map Record.handle).Nodup) :
    StableSort cmp (live.filter fun y => y.handle ≠ x.handle) (before ++ after) := by
  have hkeep : ((before ++ x :: after).filter fun y => y.handle ≠ x.handle) = before ++ after := by
    rw [List.map_append, List.map_cons, List.nodup_middle, List.nodup_cons, ← List.map_append] at hn
    have hother : ∀ y ∈ before ++ after, decide (y.handle ≠ x.handle) = true := fun y hy =>
      decide_eq_true fun he => hn.1 (he ▸ List.mem_map_of_mem hy)
    rw [List.filter_append, List.filter_cons, if_neg (by simp), ← List.filter_append,
      List.filter_eq_self.2 hother]
  rw [← hkeep]
  refine ⟨h.perm.filter _, h.sorted.filter _, fun item => ?_⟩
  rw [List.filter_comm, h.stable item, List.filter_comm]

/-! ## Runs -/

section Step

variable {cmp : α → α → Ordering} [Std.TransCmp cmp] {t t' : Tree α} {live : List (Record α)}
  {op : Op α} {answer : Answer α}

theorem Served.serves (hs : Served cmp t op answer t') (h : StableSort cmp live t.toList) :
    Serves cmp live t.toList op answer t'.toList := by
  cases hs with
  | insert item hfresh =>
    rename_i handle
    obtain ⟨before, after, hsplit, hi, hbefore, hafter⟩ :=
      Tree.toList_insert_sorted ⟨handle, item⟩ h.sorted
    rw [hi]
    exact .insert hsplit (fun x hx he => hfresh (he ▸ List.mem_map_of_mem hx)) hbefore hafter
  | remove probe =>
    cases hr : (t.remove cmp probe).removed with
    | none =>
      rw [Tree.remove_none hr]
      rw [← Tree.found_eq_removed] at hr
      exact .removeNothing (Tree.not_eq_of_not_found h.sorted hr)
    | some x =>
      obtain ⟨before, after, hsplit, hi⟩ := Tree.toList_remove_some hr
      rw [hi]
      rw [← Tree.found_eq_removed] at hr
      exact .remove hsplit (Tree.mem_of_found hr).2
  | find probe =>
    cases hf : (t.find cmp probe).found with
    | none => exact .findNothing (Tree.not_eq_of_not_found h.sorted hf)
    | some x => exact .find (Tree.mem_of_found hf).1 (Tree.mem_of_found hf).2
  | min =>
    rw [Tree.extreme_left, h.head?]
    exact .min
  | max =>
    rw [Tree.extreme_right, h.getLast?]
    exact .max

theorem Served.stableSort (hs : Served cmp t op answer t') (h : StableSort cmp live t.toList)
    (hn : t.handles.Nodup) : StableSort cmp (arrivals live op answer) t'.toList := by
  cases hs with
  | insert item hfresh =>
    rename_i handle
    obtain ⟨before, after, hsplit, hi, hbefore, hafter⟩ :=
      Tree.toList_insert_sorted ⟨handle, item⟩ h.sorted
    rw [hi]
    exact (hsplit ▸ h).insert ⟨handle, item⟩ hbefore hafter
  | remove probe =>
    cases hr : (t.remove cmp probe).removed with
    | none =>
      rw [Tree.remove_none hr]
      exact h
    | some x =>
      obtain ⟨before, after, hsplit, hi⟩ := Tree.toList_remove_some hr
      rw [hi]
      rw [Tree.handles, hsplit] at hn
      exact (hsplit ▸ h).remove hn
  | find | min | max => exact h

end Step

theorem Linked.run_stableSort {cmp : α → α → Ordering} [Std.TransCmp cmp] {index : OrderedIndex α}
    {t : Tree α} {live : List (Record α)} (hl : index.Linked t) (hcmp : index.cmp = cmp)
    (h : StableSort cmp live t.toList) (ops : List (Op α)) :
    ∃ index' answers t', index.run ops = some (index', answers) ∧ index'.cmp = cmp ∧
      index'.Linked t' ∧ StableSort cmp (arrivedFrom live ops answers) t'.toList := by
  induction ops generalizing index t live with
  | nil => exact ⟨index, [], t, rfl, hcmp, hl, h⟩
  | cons op ops ih =>
    obtain ⟨index₁, answer, t₁, hop, hcmp₁, hserved, hl₁⟩ := hl.perform op
    rw [hcmp] at hcmp₁ hserved
    have h₁ := hserved.stableSort h hl.nodup
    obtain ⟨index₂, answers, t₂, hops, hcmp₂, hl₂, h₂⟩ := ih hl₁ hcmp₁ h₁
    exact ⟨index₂, answer :: answers, t₂, by simp [OrderedIndex.run, hop, hops], hcmp₂, hl₂, h₂⟩

/-- Under a total preorder the index lists the records as a stable sort of their arrivals, and the next
operation, whatever it is, answers and changes the list accordingly. -/
theorem run_stable_sorted_multiset (cmp : α → α → Ordering) [Std.TransCmp cmp] (ops : List (Op α)) :
    ∃ index answers listed, (empty cmp).run ops = some (index, answers) ∧
      index.tree?.map Tree.toList = some listed ∧
      StableSort cmp (arrived ops answers) listed ∧
      ∀ op, ∃ index' answer listed',
        (empty cmp).run (ops ++ [op]) = some (index', answers ++ [answer]) ∧
        index'.tree?.map Tree.toList = some listed' ∧
        Serves cmp (arrived ops answers) listed op answer listed' := by
  have hcmp : (empty cmp).cmp = cmp := rfl
  have hempty : StableSort cmp [] (Tree.leaf : Tree α).toList :=
    ⟨.refl _, List.Pairwise.nil, fun _ => rfl⟩
  obtain ⟨index, answers, t, hrun, hcmp, hl, h⟩ := (linked_empty cmp).run_stableSort hcmp hempty ops
  refine ⟨index, answers, t.toList, hrun, by rw [hl.tree?_eq]; rfl, h, fun op => ?_⟩
  obtain ⟨index', answer, t', hop, -, hserved, hl'⟩ := hl.perform op
  rw [hcmp] at hserved
  exact ⟨index', answer, t'.toList, run_concat hrun hop, by rw [hl'.tree?_eq]; rfl,
    hserved.serves h⟩

/-- Numbers are compared by their tens, and equal tens stay in order. -/
theorem run_stable_sorted_multiset_tens :
    ∃ index answers listed,
      (empty (compareOn fun n : Nat => n / 10)).run
        [.insert 25, .insert 17, .insert 12, .insert 28, .remove 20] = some (index, answers) ∧
      StableSort (compareOn fun n : Nat => n / 10) (arrived
        [.insert 25, .insert 17, .insert 12, .insert 28, .remove 20] answers) listed ∧
      listed.map Record.item = [17, 12, 28] := by
  obtain ⟨index, answers, listed, hrun, hlisted, hsort, -⟩ :=
    run_stable_sorted_multiset (compareOn fun n : Nat => n / 10)
      [.insert 25, .insert 17, .insert 12, .insert 28, .remove 20]
  refine ⟨index, answers, listed, hrun, hsort, ?_⟩
  have hitems : (((empty (compareOn fun n : Nat => n / 10)).run
      [.insert 25, .insert 17, .insert 12, .insert 28, .remove 20]).bind fun r =>
        r.1.tree?.map fun t => t.toList.map Record.item) = some [17, 12, 28] := by
    decide +kernel
  obtain ⟨t, ht, rfl⟩ := Option.map_eq_some_iff.1 hlisted
  simpa [hrun, ht] using hitems

end MemIndex.OrderedIndex
