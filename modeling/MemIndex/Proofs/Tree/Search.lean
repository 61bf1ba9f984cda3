import MemIndex.Proofs.Tree.InOrder

/-!
# Searching a sorted tree

Rotations may leave equal records on either side of each other, so a sorted tree is sorted only in the
weak sense: no record is greater than one to its right. This is enough for a search to miss nothing and
for an insertion to come right behind the last record that is not greater.
-/
namespace MemIndex

variable {α : Type u}

/-- No record is greater than one behind it. -/
def Sorted (cmp : α → α → Ordering) (l : List (Record α)) : Prop :=
  l.Pairwise fun x y => (cmp x.item y.item).isLE = true

namespace Tree

variable {cmp : α → α → Ordering}

theorem sorted_node {l : Tree α} {b : Int} {x : Record α} {r : Tree α} :
    Sorted cmp (node l b x r).toList ↔
      Sorted cmp l.toList ∧ Sorted cmp r.toList ∧
        (∀ y ∈ l.toList, (cmp y.item x.item).isLE = true) ∧
        (∀ y ∈ r.toList, (cmp x.item y.item).isLE = true) ∧
        ∀ y ∈ l.toList, ∀ z ∈ r.toList, (cmp y.item z.item).isLE = true := by
  simp only [Sorted, toList, List.pairwise_append, List.pairwise_cons, List.mem_cons, forall_eq_or_imp]
  constructor
  · rintro ⟨hl, ⟨hxr, hr⟩, hlx⟩
    exact ⟨hl, hr, fun y hy => (hlx y hy).1, hxr, fun y hy => (hlx y hy).2⟩
  · rintro ⟨hl, hr, hlx, hxr, hlr⟩
    exact ⟨hl, ⟨hxr, hr⟩, fun y hy => ⟨hlx y hy, hlr y hy⟩⟩

/-- What a search finds is there and compares equal, under any comparator. -/
theorem mem_of_found {probe : α} {t : Tree α} {x : Record α}
    (hx : (t.find cmp probe).found = some x) : x ∈ t.toList ∧ cmp probe x.item = .eq := by
  induction t with
  | leaf => cases hx
  | node l b y r ihl ihr =>
    cases hc : cmp probe y.item with
    | eq =>
      simp only [find, hc, Option.some.injEq] at hx
      subst hx
      exact ⟨by simp [toList], hc⟩
    | lt =>
      simp only [find, hc] at hx
      exact ⟨by simp [toList, (ihl hx).1], (ihl hx).2⟩
    | gt =>
      simp only [find, hc] at hx
      exact ⟨by simp [toList, (ihr hx).1], (ihr hx).2⟩

variable [Std.TransCmp cmp]

/-- A search in a sorted tree misses no record that compares equal. -/
theorem not_eq_of_not_found {probe : α} {t : Tree α} (ht : Sorted cmp t.toList)
    (hfound : (t.find cmp probe).found = none) : ∀ x ∈ t.toList, cmp probe x.item ≠ .eq := by
  induction t with
  | leaf => simp [toList]
  | node l b y r ihl ihr =>
    obtain ⟨hl, hr, hly, hyr, -⟩ := sorted_node.1 ht
    intro x hx
    rw [toList, List.mem_append, List.mem_cons] at hx
    cases hc : cmp probe y.item with
    | eq => simp [find, hc] at hfound
    | lt =>
      simp only [find, hc] at hfound
      rcases hx with hx | rfl | hx
      · exact ihl hl hfound x hx
      · simp [hc]
      · simp [Std.TransCmp.lt_of_lt_of_isLE hc (hyr x hx)]
    | gt =>
      simp only [find, hc] at hfound
      rcases hx with hx | rfl | hx
      · have hlt := Std.TransCmp.lt_of_isLE_of_lt (hly x hx) (Std.OrientedCmp.lt_of_gt hc)
        simp [Std.OrientedCmp.gt_of_lt hlt]
      · simp [hc]
      · exact ihr hr hfound x hx

/-- An insertion into a sorted tree comes behind all records that are not greater, and before the
others. -/
theorem toList_insert_sorted (new : Record α) {t : Tree α} (ht : Sorted cmp t.toList) :
    ∃ before after, t.toList = before ++ after ∧
      (t.insert cmp new).tree.toList = before ++ new :: after ∧
      (∀ x ∈ before, (cmp x.item new.item).isLE = true) ∧
      ∀ x ∈ after, cmp x.item new.item = .gt := by
  induction t with
  | leaf => exact ⟨[], [], rfl, rfl, by simp, by simp⟩
  | node l b y r ihl ihr =>
    obtain ⟨hl, hr, hly, hyr, -⟩ := sorted_node.1 ht
    unfold insert
    dsimp only
    split
    · rename_i hlt
      obtain ⟨before, after, hsplit, hi, hbefore, hafter⟩ := ihl hl
      refine ⟨before, after ++ y :: r.toList, by simp [toList, hsplit], ?_, hbefore, ?_⟩
      · rw [toList_joinGrown]
        simp [fork, toList, hi]
      · intro x hx
        rw [List.mem_append, List.mem_cons] at hx
        rcases hx with hx | rfl | hx
        · exact hafter x hx
        · exact Std.OrientedCmp.gt_of_lt hlt
        · exact Std.OrientedCmp.gt_of_lt (Std.TransCmp.lt_of_lt_of_isLE hlt (hyr x hx))
    · rename_i hnlt
      have hle : (cmp y.item new.item).isLE = true := by
        rw [← Std.OrientedCmp.isGE_eq_isLE]
        cases hc : cmp new.item y.item <;> simp_all
      obtain ⟨before, after, hsplit, hi, hbefore, hafter⟩ := ihr hr
      refine ⟨l.toList ++ y :: before, after, by simp [toList, hsplit], ?_, ?_, hafter⟩
      · rw [toList_joinGrown]
        simp [fork, toList, hi]
      · intro x hx
        rw [List.mem_append, List.mem_cons] at hx
        rcases hx with hx | rfl | hx
        · exact Std.TransCmp.isLE_trans (hly x hx) hle
        · exact hle
        · exact hbefore x hx

end Tree

end MemIndex
