import Mathlib.Data.List.Flatten
import Mathlib.Data.List.Perm.Basic
import MemIndex.Proofs.Walk.Levels

/-!
# Links unfolded into trees

Links without circles below some link unfold into a finite tree, in which a shared node stands once for
each path to it. The orders of a walk are listings of this tree: each of the six depth-first orders by
its three steps, the breadth-first one depth by depth. Every listing has the same nodes, and the place of
the body among the steps decides whether a node comes before or behind the nodes under it.
-/
namespace MemIndex

namespace Walk

/-- A tree of nodes, as links unfold into it. -/
inductive Unfolding (ι : Type u) where
  | leaf
  | node (left : Unfolding ι) (top : ι) (right : Unfolding ι)

namespace Unfolding

variable {ι : Type u} {κ : Type v}

def height : Unfolding ι → Nat
  | leaf => 0
  | node l _ r => max l.height r.height + 1

/-- The nodes from left to right. -/
def nodes : Unfolding ι → List ι
  | leaf => []
  | node l x r => l.nodes ++ x :: r.nodes

/-- The nodes in the order in which these steps come to them. -/
def listing (steps : List Step) : Unfolding ι → List ι
  | leaf => []
  | node l x r => steps.flatMap fun
    | .left => l.listing steps
    | .body => [x]
    | .right => r.listing steps

/-- The nodes so far below the root, from left to right. -/
def atDepth : Unfolding ι → Nat → List ι
  | leaf, _ => []
  | node _ x _, 0 => [x]
  | node l _ r, depth + 1 => l.atDepth depth ++ r.atDepth depth

/-- The nodes depth by depth. -/
def byDepth (u : Unfolding ι) : List ι := (List.range u.height).flatMap u.atDepth

/-- The second node stands in the tree somewhere below the first. -/
def Under : Unfolding ι → ι → ι → Prop
  | leaf, _, _ => False
  | node l z r, x, y => (x = z ∧ (y ∈ l.nodes ∨ y ∈ r.nodes)) ∨ l.Under x y ∨ r.Under x y

def map (f : ι → κ) : Unfolding ι → Unfolding κ
  | leaf => leaf
  | node l x r => node (l.map f) (f x) (r.map f)

theorem height_le_length (u : Unfolding ι) : u.height ≤ u.nodes.length := by
  induction u with
  | leaf => exact Nat.le_refl 0
  | node l x r ihl ihr =>
    simp only [height, nodes, List.length_append, List.length_cons]
    omega

/-! ## Depths -/

theorem atDepth_of_height_le (u : Unfolding ι) {depth : Nat} (h : u.height ≤ depth) :
    u.atDepth depth = [] := by
  induction u generalizing depth with
  | leaf => rfl
  | node l x r ihl ihr =>
    cases depth with
    | zero => simp [height] at h
    | succ depth =>
      simp only [height, Nat.add_le_add_iff_right, Nat.max_le] at h
      rw [atDepth, ihl h.1, ihr h.2, List.append_nil]

theorem perm_depths (u : Unfolding ι) {count : Nat} (h : u.height ≤ count) :
    ((List.range count).flatMap u.atDepth).Perm u.nodes := by
  induction u generalizing count with
  | leaf =>
    have hnone : (List.range count).flatMap (leaf : Unfolding ι).atDepth = [] :=
      List.flatMap_eq_nil_iff.2 fun _ _ => rfl
    rw [hnone]
    exact .refl _
  | node l x r ihl ihr =>
    cases count with
    | zero => simp [height] at h
    | succ count =>
      simp only [height, Nat.add_le_add_iff_right, Nat.max_le] at h
      have hbelow : ((List.range count).flatMap
          (fun depth => l.atDepth depth ++ r.atDepth depth)).Perm (l.nodes ++ r.nodes) :=
        (List.flatMap_append_perm _ _ _).symm.trans ((ihl h.1).append (ihr h.2))
      rw [List.range_succ_eq_map, List.flatMap_cons, List.flatMap_map]
      exact (hbelow.cons x).trans List.perm_middle.symm

/-- Some node stands at some depth. -/
theorem exists_depth {u : Unfolding ι} {y : ι} (hy : y ∈ u.nodes) :
    ∃ depth < u.height, y ∈ u.atDepth depth := by
  have hlisted := (u.perm_depths (Nat.le_refl _)).mem_iff.2 hy
  obtain ⟨depth, hdepth, hmem⟩ := List.mem_flatMap.1 hlisted
  exact ⟨depth, List.mem_range.1 hdepth, hmem⟩

theorem Under.depths {u : Unfolding ι} {x y : ι} (h : u.Under x y) :
    ∃ i j, i < j ∧ j < u.height ∧ x ∈ u.atDepth i ∧ y ∈ u.atDepth j := by
  induction u with
  | leaf => cases h
  | node l z r ihl ihr =>
    simp only [height]
    rcases h with ⟨rfl, hy | hy⟩ | h | h
    · obtain ⟨j, hj, hmem⟩ := exists_depth hy
      exact ⟨0, j + 1, by omega, by omega, by simp [atDepth], by simp [atDepth, hmem]⟩
    · obtain ⟨j, hj, hmem⟩ := exists_depth hy
      exact ⟨0, j + 1, by omega, by omega, by simp [atDepth], by simp [atDepth, hmem]⟩
    · obtain ⟨i, j, hij, hj, hx, hy⟩ := ihl h
      exact ⟨i + 1, j + 1, by omega, by omega, by simp [atDepth, hx], by simp [atDepth, hy]⟩
    · obtain ⟨i, j, hij, hj, hx, hy⟩ := ihr h
      exact ⟨i + 1, j + 1, by omega, by omega, by simp [atDepth, hx], by simp [atDepth, hy]⟩

theorem Under.sublist_byDepth {u : Unfolding ι} {x y : ι} (h : u.Under x y) :
    [x, y].Sublist u.byDepth := by
  obtain ⟨i, j, hij, hj, hx, hy⟩ := h.depths
  have hdepths : [i, j].Sublist (List.range u.height) := by
    have hsplit := List.range'_append_1 (s := 0) (m := j) (n := u.height - j)
    rw [Nat.zero_add, Nat.add_sub_cancel' (Nat.le_of_lt hj), ← List.range_eq_range',
      ← List.range_eq_range'] at hsplit
    rw [← hsplit]
    exact (List.singleton_sublist.2 (List.mem_range.2 hij)).append
      (List.singleton_sublist.2 (List.mem_range'_1.2 ⟨Nat.le_refl j, by omega⟩))
  have hpair : [x, y].Sublist ([i, j].flatMap u.atDepth) := by
    simp only [List.flatMap_cons, List.flatMap_nil, List.append_nil]
    exact (List.singleton_sublist.2 hx).append (List.singleton_sublist.2 hy)
  exact hpair.trans (hdepths.flatMap _)

/-! ## Listings by steps -/

/-- Steps taken backwards list the nodes backwards. -/
theorem listing_reverse (steps : List Step) (u : Unfolding ι) :
    u.listing steps.reverse = (u.listing steps).reverse := by
  induction u with
  | leaf => rfl
  | node l x r ihl ihr =>
    rw [listing, listing, List.reverse_flatMap]
    congr 1
    funext step
    cases step with
    | left => exact ihl
    | body => rfl
    | right => exact ihr

/-- Steps that take both sides and the body list every node. -/
theorem perm_listing {steps : List Step} (hsteps : steps.Perm [.left, .body, .right])
    (u : Unfolding ι) : (u.listing steps).Perm u.nodes := by
  induction u with
  | leaf => exact .refl _
  | node l x r ihl ihr =>
    rw [listing, nodes]
    refine (hsteps.flatMap_right _).trans ?_
    simp only [List.flatMap_cons, List.flatMap_nil, List.append_nil, List.singleton_append]
    exact ihl.append (ihr.cons x)

theorem listing_left_body_right (u : Unfolding ι) : u.listing [.left, .body, .right] = u.nodes := by
  induction u with
  | leaf => rfl
  | node l x r ihl ihr => simp [listing, nodes, ihl, ihr]

/-- Steps that begin with the body list the top first, and behind it what both sides list. -/
theorem listing_body_first {steps : List Step} (hsteps : (.body :: steps).Perm [.left, .body, .right])
    (l : Unfolding ι) (x : ι) (r : Unfolding ι) :
    ∃ below, (node l x r).listing (.body :: steps) = x :: below ∧
      (l.listing (.body :: steps)).Sublist below ∧ (r.listing (.body :: steps)).Sublist below := by
  have hleft : Step.left ∈ steps := by simpa using hsteps.mem_iff (a := Step.left)
  have hright : Step.right ∈ steps := by simpa using hsteps.mem_iff (a := Step.right)
  rw [listing, List.flatMap_cons, List.singleton_append, List.flatMap_def]
  exact ⟨_, rfl, List.sublist_flatten_of_mem (List.mem_map.2 ⟨.left, hleft, rfl⟩),
    List.sublist_flatten_of_mem (List.mem_map.2 ⟨.right, hright, rfl⟩)⟩

/-- So they list a node before the nodes under it. -/
theorem Under.sublist_listing {steps : List Step}
    (hsteps : (.body :: steps).Perm [.left, .body, .right]) {u : Unfolding ι} {x y : ι}
    (h : u.Under x y) : [x, y].Sublist (u.listing (.body :: steps)) := by
  induction u with
  | leaf => cases h
  | node l z r ihl ihr =>
    obtain ⟨below, hlisting, hl, hr⟩ := listing_body_first hsteps l z r
    rw [hlisting]
    rcases h with ⟨rfl, hy | hy⟩ | h | h
    · have hlisted := (perm_listing hsteps l).mem_iff.2 hy
      exact (List.singleton_sublist.2 (hl.subset hlisted)).cons_cons x
    · have hlisted := (perm_listing hsteps r).mem_iff.2 hy
      exact (List.singleton_sublist.2 (hr.subset hlisted)).cons_cons x
    · exact ((ihl h).trans hl).cons z
    · exact ((ihr h).trans hr).cons z

/-! ## Other nodes in the same places -/

section Map

variable (f : ι → κ) (u : Unfolding ι)

theorem nodes_map : (u.map f).nodes = u.nodes.map f := by
  induction u with
  | leaf => rfl
  | node l x r ihl ihr => simp [map, nodes, ihl, ihr]

theorem height_map : (u.map f).height = u.height := by
  induction u with
  | leaf => rfl
  | node l x r ihl ihr => simp [map, height, ihl, ihr]

theorem listing_map (steps : List Step) : (u.map f).listing steps = (u.listing steps).map f := by
  induction u with
  | leaf => rfl
  | node l x r ihl ihr =>
    rw [map, listing, listing, List.map_flatMap]
    congr 1
    funext step
    cases step with
    | left => exact ihl
    | body => rfl
    | right => exact ihr

theorem atDepth_map (depth : Nat) : (u.map f).atDepth depth = (u.atDepth depth).map f := by
  induction u generalizing depth with
  | leaf => rfl
  | node l x r ihl ihr =>
    cases depth with
    | zero => rfl
    | succ depth => simp [map, atDepth, ihl, ihr]

theorem byDepth_map : (u.map f).byDepth = u.byDepth.map f := by
  rw [byDepth, byDepth, height_map, List.map_flatMap]
  congr 1
  funext depth
  exact atDepth_map f u depth

end Map

end Unfolding

/-! ## Orders -/

namespace Order

variable {ι : Type u} {κ : Type v}

/-- The nodes of a tree in an order. -/
def listing (order : Order) (u : Unfolding ι) : List ι :=
  match order.steps? with
  | some steps => u.listing steps
  | none => u.byDepth

theorem perm_steps {order : Order} {steps : List Step} (h : order.steps? = some steps) :
    steps.Perm [.left, .body, .right] := by
  cases order <;> cases h <;> decide

/-- Every order lists every node. -/
theorem perm_listing (order : Order) (u : Unfolding ι) : (order.listing u).Perm u.nodes := by
  unfold listing
  split
  · rename_i steps hsteps
    exact Unfolding.perm_listing (perm_steps hsteps) u
  · exact u.perm_depths (Nat.le_refl _)

theorem listing_map (order : Order) (f : ι → κ) (u : Unfolding ι) :
    order.listing (u.map f) = (order.listing u).map f := by
  unfold listing
  split
  · exact Unfolding.listing_map f u _
  · exact Unfolding.byDepth_map f u

/-- The orders that come to a node before the nodes under it. -/
def isTopDown : Order → Bool
  | preOrder | postOrderReverse | breadthFirst => true
  | _ => false

/-- The orders that come to a node behind the nodes under it. -/
def isBottomUp : Order → Bool
  | postOrder | preOrderReverse => true
  | _ => false

theorem sublist_of_isTopDown {order : Order} (h : order.isTopDown = true) {u : Unfolding ι} {x y : ι}
    (hu : u.Under x y) : [x, y].Sublist (order.listing u) := by
  cases order with
  | preOrder | postOrderReverse => exact hu.sublist_listing (by decide)
  | breadthFirst => exact hu.sublist_byDepth
  | inOrder | postOrder | inOrderReverse | preOrderReverse => cases h

theorem sublist_of_isBottomUp {order : Order} (h : order.isBottomUp = true) {u : Unfolding ι} {x y : ι}
    (hu : u.Under x y) : [y, x].Sublist (order.listing u) := by
  cases order with
  | postOrder =>
    have hbefore : [x, y].Sublist (u.listing [.body, .right, .left]) := hu.sublist_listing (by decide)
    exact (List.reverse_sublist.2 hbefore).trans (by rw [← Unfolding.listing_reverse]; exact .refl _)
  | preOrderReverse =>
    have hbefore : [x, y].Sublist (u.listing [.body, .left, .right]) := hu.sublist_listing (by decide)
    exact (List.reverse_sublist.2 hbefore).trans (by rw [← Unfolding.listing_reverse]; exact .refl _)
  | inOrder | preOrder | inOrderReverse | postOrderReverse | breadthFirst => cases h

/-- From above, from below, and depth by depth. -/
example : [preOrder, postOrder, breadthFirst].map
    (·.listing (.node (.node .leaf 1 (.node .leaf 2 .leaf)) 3 (.node .leaf 4 .leaf))) =
      [[3, 1, 2, 4], [2, 1, 4, 3], [3, 1, 4, 2]] := by
  decide

theorem listing_inOrder (u : Unfolding ι) : inOrder.listing u = u.nodes :=
  u.listing_left_body_right

theorem listing_inOrderReverse (u : Unfolding ι) : inOrderReverse.listing u = u.nodes.reverse := by
  rw [← u.listing_left_body_right, ← Unfolding.listing_reverse]
  rfl

end Order

end Walk

/-! ## Walks -/

/-- The links from some link on unfold into the tree. -/
def Links.Unfolds {ι : Type u} (links : Links ι) : Option ι → Walk.Unfolding ι → Prop
  | link, .leaf => link = none
  | link, .node l x r =>
    link = some x ∧ links.Unfolds (links.children x).1 l ∧ links.Unfolds (links.children x).2 r

namespace Walk

variable {ι : Type u} {σ : Type v} {links : Links ι}

/-- Legs that each show a list show the lists in turn. -/
theorem inTurn_visitAll {visit : Visitor ι σ} {steps : List Step} {leg : Step → Leg σ}
    {shown : Step → List ι} (hlegs : ∀ step p, leg step p = some (visitAll visit (shown step) p))
    (p : Progress σ) :
    inTurn (steps.map leg) p = some (visitAll visit (steps.flatMap shown) p) := by
  induction steps generalizing p with
  | nil => rfl
  | cons step rest ih =>
    rw [List.map_cons, List.flatMap_cons, inTurn, hlegs, visitAll_append]
    rcases visitAll visit (shown step) p with ⟨_ | _ | _, p'⟩
    · exact ih p'
    · rfl
    · rfl

theorem depthFirst_unfolds (steps : List Step) (visit : Visitor ι σ) {link : Option ι}
    {u : Unfolding ι} (hu : links.Unfolds link u) {budget : Nat} (hb : u.height ≤ budget)
    (p : Progress σ) :
    depthFirst links steps visit budget link p = some (visitAll visit (u.listing steps) p) := by
  induction u generalizing link budget p with
  | leaf =>
    cases hu
    cases budget <;> rfl
  | node l x r ihl ihr =>
    obtain ⟨rfl, hl, hr⟩ := hu
    cases budget with
    | zero => simp [Unfolding.height] at hb
    | succ budget =>
      simp only [Unfolding.height, Nat.add_le_add_iff_right, Nat.max_le] at hb
      rw [depthFirst, Unfolding.listing]
      apply inTurn_visitAll
      intro step p
      cases step with
      | left => exact ihl hl hb.1 p
      | body => rw [visitAll_singleton]
      | right => exact ihr hr hb.2 p

/-- Where a link leads is the top of its tree. -/
theorem toList_unfolds {link : Option ι} {u : Unfolding ι} (hu : links.Unfolds link u) :
    link.toList = u.atDepth 0 := by
  cases u with
  | leaf => rw [hu]; rfl
  | node l x r => rw [hu.1]; rfl

theorem flatMap_atDepth {link : Option ι} {u : Unfolding ι} (hu : links.Unfolds link u) (depth : Nat) :
    (u.atDepth depth).flatMap links.below = u.atDepth (depth + 1) := by
  induction u generalizing link depth with
  | leaf => rfl
  | node l x r ihl ihr =>
    obtain ⟨-, hl, hr⟩ := hu
    cases depth with
    | zero => simp [Unfolding.atDepth, Links.below, toList_unfolds hl, toList_unfolds hr]
    | succ depth => simp [Unfolding.atDepth, ihl hl, ihr hr]

/-- A level holds what stands so far below the root. -/
theorem level_unfolds {u : Unfolding ι} (hu : links.Unfolds links.root u) (depth : Nat) :
    links.level depth = u.atDepth depth := by
  induction depth with
  | zero => exact toList_unfolds hu
  | succ depth ih => rw [Links.level, ih, flatMap_atDepth hu]

/-- A walk over links that unfold into a tree shows the nodes of the tree in its order. Only in the
breadth-first order can a refused request for room keep it from that. -/
theorem traverse_unfolds {u : Unfolding ι} (hu : links.Unfolds links.root u) (alloc : Allocator)
    (order : Order) (visit : Visitor ι σ) {budget : Nat} (hb : u.nodes.length ≤ budget) (state : σ) :
    (order = .breadthFirst ∧ ∃ cause state', (∃ cells, alloc cells = false) ∧
      traverse links alloc order visit budget state = some ⟨.error (.alloc cause), state'⟩) ∨
    traverse links alloc order visit budget state = some (along visit (order.listing u) state) := by
  cases hsteps : order.steps? with
  | some steps =>
    right
    have hwalk := depthFirst_unfolds steps visit hu (Nat.le_trans u.height_le_length hb) ⟨0, state⟩
    simp [traverse, Order.listing, hsteps, hwalk, along]
  | none =>
    have horder : order = .breadthFirst := by cases order <;> cases hsteps; rfl
    subst horder
    have hlevels : links.levels u.height = u.byDepth := by
      rw [Links.levels, Unfolding.byDepth]
      congr 1
      funext depth
      exact level_unfolds hu depth
    have hlast : links.level u.height = [] := by
      rw [level_unfolds hu, u.atDepth_of_height_le (Nat.le_refl _)]
    have hshown : u.byDepth.length ≤ budget := by
      rwa [Unfolding.byDepth, (u.perm_depths (Nat.le_refl _)).length_eq]
    obtain ⟨cause, state', hrefuses, hrun⟩ | hrun :=
      traverse_levels links alloc visit state (.inl hlast)
    · rw [hlevels] at hrun
      exact .inl ⟨rfl, cause, state', hrefuses, hrun budget hshown⟩
    · rw [hlevels] at hrun
      exact .inr (hrun budget hshown)

end Walk

end MemIndex
