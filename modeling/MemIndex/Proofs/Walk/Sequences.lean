import MemIndex.Proofs.Walk.Unfolding

/-!
# Sequences of the depth-first orders

In the pre-order a node stands before both of its sides, in the in-order between them, in the post-order
behind them; a reverse order is its forward sequence from the other end. One engine serves all six orders,
by the three steps of each. It shows the sequence of the order up to the verdict that ends the walk, from
however deep in the tree that verdict comes.
-/
namespace MemIndex

namespace Walk

variable {ι : Type u}

namespace Unfolding

/-- A node before its sides. -/
def preOrder : Unfolding ι → List ι
  | leaf => []
  | node l x r => x :: (l.preOrder ++ r.preOrder)

/-- A node behind its sides. -/
def postOrder : Unfolding ι → List ι
  | leaf => []
  | node l x r => l.postOrder ++ r.postOrder ++ [x]

theorem listing_body_left_right (u : Unfolding ι) :
    u.listing [.body, .left, .right] = u.preOrder := by
  induction u with
  | leaf => rfl
  | node l x r ihl ihr => simp [listing, preOrder, ihl, ihr]

theorem listing_left_right_body (u : Unfolding ι) :
    u.listing [.left, .right, .body] = u.postOrder := by
  induction u with
  | leaf => rfl
  | node l x r ihl ihr => simp [listing, postOrder, ihl, ihr]

end Unfolding

namespace Order

/-- The sequence that an order is named for. -/
def sequence (u : Unfolding ι) : Order → List ι
  | inOrder => u.nodes
  | preOrder => u.preOrder
  | postOrder => u.postOrder
  | inOrderReverse => u.nodes.reverse
  | preOrderReverse => u.preOrder.reverse
  | postOrderReverse => u.postOrder.reverse
  | breadthFirst => u.byDepth

/-- The steps of every order list its sequence. -/
theorem listing_eq_sequence (order : Order) (u : Unfolding ι) :
    order.listing u = order.sequence u := by
  cases order with
  | inOrder => exact u.listing_left_body_right
  | preOrder => exact u.listing_body_left_right
  | postOrder => exact u.listing_left_right_body
  | inOrderReverse => exact listing_inOrderReverse u
  | preOrderReverse =>
    rw [sequence, ← u.listing_body_left_right, ← Unfolding.listing_reverse]
    rfl
  | postOrderReverse =>
    rw [sequence, ← u.listing_left_right_body, ← Unfolding.listing_reverse]
    rfl
  | breadthFirst => rfl

end Order

end Walk

/-! ## Links without circles -/

namespace Links

variable {ι : Type u} {links : Links ι}

/-- Every path along the links from the root comes to an end. Nodes may be shared by paths. -/
def Ends (links : Links ι) : Prop :=
  ∀ top ∈ links.root, Acc (fun child parent => child ∈ links.below parent) top

theorem exists_unfolds_of_acc {top : ι}
    (htop : Acc (fun child parent => child ∈ links.below parent) top) :
    ∃ u, links.Unfolds (some top) u := by
  induction htop with
  | intro node _ ih =>
    have hside : ∀ link : Option ι, link.toList ⊆ links.below node → ∃ u, links.Unfolds link u := by
      rintro (_ | child) hbelow
      · exact ⟨.leaf, rfl⟩
      · exact ih child (hbelow (by simp))
    obtain ⟨l, hl⟩ := hside (links.children node).1 (List.subset_append_left _ _)
    obtain ⟨r, hr⟩ := hside (links.children node).2 (List.subset_append_right _ _)
    exact ⟨.node l node r, rfl, hl, hr⟩

/-- They unfold into a tree. -/
theorem Ends.exists_unfolds (h : links.Ends) : ∃ u, links.Unfolds links.root u := by
  cases hroot : links.root with
  | none => exact ⟨.leaf, rfl⟩
  | some top => exact exists_unfolds_of_acc (h top hroot)

/-- There is only one tree into which they unfold. -/
theorem Unfolds.unique {link : Option ι} {u u' : Walk.Unfolding ι} (hu : links.Unfolds link u)
    (hu' : links.Unfolds link u') : u = u' := by
  induction u generalizing link u' with
  | leaf =>
    cases u' with
    | leaf => rfl
    | node l' x' r' => cases hu.symm.trans hu'.1
  | node l x r ihl ihr =>
    cases u' with
    | leaf => cases hu.1.symm.trans hu'
    | node l' x' r' =>
      obtain ⟨hx, hl, hr⟩ := hu
      obtain ⟨hx', hl', hr'⟩ := hu'
      obtain rfl : x = x' := Option.some.inj (hx.symm.trans hx')
      rw [ihl hl hl', ihr hr hr']

end Links

/-! ## Walks -/

namespace Walk

variable {ι : Type u} {σ : Type v}

/-- The notes of a walk that shows a sequence: what is shown are the first nodes of the sequence, and it is
all of them where no verdict ends the walk. -/
structure InSequence (sequence : List ι) (notes : List (Note ι)) : Prop where
  shown : notes.map Note.node <+: sequence
  whole : (∀ note ∈ notes, note.verdict = .proceed) → notes.map Note.node = sequence

theorem inSequence_notes (visit : Visitor ι σ) (sequence : List ι) (p : Progress σ) :
    InSequence sequence (notes visit sequence p) where
  shown := node_notes_prefix visit sequence p
  whole hproceed := by
    apply node_notes visit sequence p
    rw [verdict_visitAll]
    cases hlast : (notes visit sequence p).getLast? with
    | none => rfl
    | some note => exact hproceed note (List.mem_of_getLast? hlast)

theorem traverse_depthFirst {links : Links ι} {u : Unfolding ι} (hu : links.Unfolds links.root u)
    {order : Order} (horder : order ≠ .breadthFirst) (alloc : Allocator) (visit : Visitor ι σ)
    (state : σ) {budget : Nat} (hb : u.height ≤ budget) :
    traverse links alloc order visit budget state = some (along visit (order.sequence u) state) := by
  rw [← order.listing_eq_sequence]
  cases hsteps : order.steps? with
  | none => cases order <;> first | exact absurd rfl horder | cases hsteps
  | some steps =>
    have hwalk := depthFirst_unfolds steps visit hu hb ⟨0, state⟩
    simp [traverse, Order.listing, hsteps, hwalk, along]

/-- Links without circles unfold into a tree, in which a shared node stands once for each path to it. Over
such links every depth-first walk shows the sequence of its order, numbers the nodes from 0, ends right
behind the first verdict that ends it, wherever in the tree that is, and counts what it has shown. The
height of the tree is depth enough for it, and no request for room is made. The same holds of the visitor
without the notes, and its result is the same. -/
theorem traverse_shows_sequence {links : Links ι} (hends : links.Ends) :
    ∃ u, links.Unfolds links.root u ∧
      ∀ (order : Order) (alloc : Allocator) (visit : Visitor ι σ) (state : σ), order ≠ .breadthFirst →
        ∃ report : Report (σ × List (Note ι)),
          (∀ budget, u.height ≤ budget →
            traverse links alloc order (noting visit) budget (state, []) = some report ∧
            traverse links alloc order visit budget state =
              some ⟨report.result, report.state.1⟩) ∧
          Reported report.result report.state.2 ∧
          InSequence (order.sequence u) report.state.2 := by
  obtain ⟨u, hu⟩ := hends.exists_unfolds
  refine ⟨u, hu, fun order alloc visit state horder => ?_⟩
  have hnoted : ∀ budget, u.height ≤ budget →
      traverse links alloc order (noting visit) budget (state, []) =
        some ⟨(along visit (order.sequence u) state).result,
          (along visit (order.sequence u) state).state,
          notes visit (order.sequence u) ⟨0, state⟩⟩ := by
    intro budget hb
    rw [traverse_depthFirst hu horder alloc (noting visit) (state, []) hb, along_noting]
  exact ⟨_, fun budget hb => ⟨hnoted budget hb, traverse_of_noting (hnoted budget hb)⟩,
    reported_along visit (order.sequence u) state, inSequence_notes visit (order.sequence u) ⟨0, state⟩⟩

/-- The fourth node is shared: the post-order comes to it below either side of the root, and to the fifth
node before it. The visitor fails where it is shown the fourth node again, deep in the right side. -/
theorem traverse_shows_sequence_shared :
    let links := Numbered.links
      ⟨some 0, #[(some 1, some 2), (some 3, none), (none, some 3), (none, some 4), (none, none)]⟩
    let visit : Visitor Nat Nat := fun index _ seen =>
      (if index = 4 then .fail else .proceed, seen + 1)
    links.Ends ∧
    ∃ u, links.Unfolds links.root u ∧ Order.postOrder.sequence u = [4, 3, 1, 4, 3, 2, 0] ∧
      ∃ report : Report (Nat × List (Note Nat)),
        traverse links .unlimited .postOrder (noting visit) 4 (0, []) = some report ∧
        Reported report.result report.state.2 ∧
        InSequence [4, 3, 1, 4, 3, 2, 0] report.state.2 ∧
        report.state.2.map Note.node = [4, 3, 1, 4, 3] := by
  intro links visit
  have hlisted : ∀ parent < 5, ∀ child ∈ links.below parent, 5 - child < 5 - parent := by decide
  have hrises : ∀ parent child, child ∈ links.below parent → 5 - child < 5 - parent := by
    intro parent child hchild
    obtain hparent | hparent := Nat.lt_or_ge parent 5
    · exact hlisted parent hparent child hchild
    · simp [links, Numbered.links, Links.below, hparent] at hchild
  have hends : links.Ends := fun top _ =>
    Subrelation.accessible (fun h => hrises _ _ h) ((measure fun node => 5 - node).wf.apply top)
  let four : Unfolding Nat := .node .leaf 3 (.node .leaf 4 .leaf)
  have hall : links.Unfolds links.root (.node (.node four 1 .leaf) 0 (.node .leaf 2 four)) := by
    simp [links, four, Numbered.links, Links.Unfolds]
  obtain ⟨u, hu, hwalks⟩ := traverse_shows_sequence hends
  obtain rfl := hu.unique hall
  obtain ⟨report, hrun, hreported, hshown⟩ :=
    hwalks .postOrder .unlimited visit 0 (by decide)
  have hfour := (hrun 4 (by decide)).1
  have hknown : (traverse links .unlimited .postOrder (noting visit) 4 (0, [])).map
      (fun r => r.state.2.map Note.node) = some [4, 3, 1, 4, 3] := by decide +kernel
  rw [hfour, Option.map_some, Option.some.injEq] at hknown
  exact ⟨hends, _, hall, by decide, report, hfour, hreported, hshown, hknown⟩

end Walk

end MemIndex
