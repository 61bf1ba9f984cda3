import MemIndex.Proofs.OrderedIndex.Multiset
import MemIndex.Proofs.Walk.Unfolding

/-!
# Tours of an ordered index

A tour is a walk over the records of an index with a visitor that goes on whatever it is shown. The links
unfold into the tree that they spell, so every order shows each record that is held, and shows it once;
the orders differ in where a record stands among the records below it.
-/
namespace MemIndex

namespace Tree

open Walk

variable {α : Type u}

/-- The records of the tree in their places. -/
def unfolding : Tree α → Unfolding (Record α)
  | leaf => .leaf
  | node l _ x r => .node l.unfolding x r.unfolding

/-- The same with the nodes of an arena that spell the tree. -/
def places : Tree α → Unfolding (Arena.Place α)
  | leaf => .leaf
  | node l b x r => .node l.places ⟨x.handle, ⟨l.link, r.link, b, x.item⟩⟩ r.places

theorem nodes_unfolding (t : Tree α) : t.unfolding.nodes = t.toList := by
  induction t with
  | leaf => rfl
  | node l b x r ihl ihr => rw [unfolding, Unfolding.nodes, toList, ihl, ihr]

theorem map_places (t : Tree α) : t.places.map Arena.Place.record = t.unfolding := by
  induction t with
  | leaf => rfl
  | node l b x r ihl ihr => rw [places, Unfolding.map, unfolding, ihl, ihr]; rfl

theorem length_nodes_places (t : Tree α) : t.places.nodes.length = t.size := by
  rw [← List.length_map (f := Arena.Place.record), ← Unfolding.nodes_map, map_places,
    nodes_unfolding, length_toList]

/-- The links of an arena in which a tree lies unfold into this tree. -/
theorem LiesIn.unfolds {a : Arena α} {t : Tree α} (ht : t.LiesIn a) (root : Option Handle) :
    (a.links root).Unfolds (a.follow t.link) t.places := by
  induction t with
  | leaf => rfl
  | node l b x r ihl ihr =>
    obtain ⟨hx, hl, hr⟩ := ht
    refine ⟨?_, ihl hl, ihr hr⟩
    rw [link_node, Arena.follow, Option.bind_some, hx, Option.map_some]

end Tree

namespace Walk

variable {α : Type u} {σ : Type v}

theorem visitAll_onRecords (visit : Visitor (Record α) σ) (nodes : List (Arena.Place α))
    (p : Progress σ) :
    visitAll (Arena.onRecords visit) nodes p = visitAll visit (nodes.map Arena.Place.record) p := by
  induction nodes generalizing p with
  | nil => rfl
  | cons node rest ih =>
    have hone : visitNode (Arena.onRecords visit) node p = visitNode visit node.record p := rfl
    rw [List.map_cons, visitAll_cons, visitAll_cons, hone, ih]

end Walk

namespace OrderedIndex

open Walk

variable {α : Type u} {σ : Type v}

/-- The links of the index unfold into the places of its tree. -/
theorem Linked.unfolds {index : OrderedIndex α} {t : Tree α} (h : index.Linked t) :
    (index.arena.links index.root).Unfolds (index.arena.links index.root).root t.places := by
  have hroot := h.lies.unfolds index.root
  rwa [h.root] at hroot

/-- A walk shows the records of the tree in its order. Only in the breadth-first order can a refused
request for room keep it from that. -/
theorem Linked.traverse {index : OrderedIndex α} {t : Tree α} (h : index.Linked t)
    (alloc : Allocator) (order : Order) (visit : Visitor (Record α) σ) (state : σ) :
    (order = .breadthFirst ∧ ∃ cause state', (∃ cells, alloc cells = false) ∧
      index.traverse alloc order visit state = some ⟨.error (.alloc cause), state'⟩) ∨
    index.traverse alloc order visit state = some (along visit (order.listing t.unfolding) state) := by
  have hbudget : t.places.nodes.length ≤ index.arena.size := by
    rw [t.length_nodes_places, ← h.size_eq]
    exact Nat.le_refl _
  have hwalk := traverse_unfolds h.unfolds alloc order (Arena.onRecords visit) hbudget state
  rwa [along, visitAll_onRecords, ← Order.listing_map, Tree.map_places] at hwalk

/-- What a tour of the index counts and shows. -/
structure Toured (index : OrderedIndex α) (t : Tree α) (order : Order)
    (result : Except WalkError Nat) (notes : List (Note (Record α))) : Prop where
  result : result = .ok index.size
  numbered : notes.map Note.index = List.range index.size
  once : (notes.map fun note => note.node.handle).Nodup
  held : ∀ x, x ∈ notes.map Note.node ↔ index.get? x.handle = some x.item
  topDown : order.isTopDown = true → ∀ x y, t.unfolding.Under x y →
    [x, y].Sublist (notes.map Note.node)
  bottomUp : order.isBottomUp = true → ∀ x y, t.unfolding.Under x y →
    [y, x].Sublist (notes.map Note.node)
  sorted : Std.TransCmp index.cmp → order = .inOrder → Sorted index.cmp (notes.map Note.node)
  reverse : Std.TransCmp index.cmp → order = .inOrderReverse →
    Sorted index.cmp (notes.map Note.node).reverse

/-- Whoever lists the records of the index in an order, and numbers them, has toured it. -/
theorem Linked.toured {index : OrderedIndex α} {t : Tree α} (h : index.Linked t)
    (hsorted : Std.TransCmp index.cmp → Sorted index.cmp t.toList) {order : Order}
    {result : Except WalkError Nat} {notes : List (Note (Record α))}
    (hnodes : notes.map Note.node = order.listing t.unfolding)
    (hnumbered : notes.map Note.index = List.range notes.length)
    (hresult : result = .ok notes.length) : Toured index t order result notes := by
  have hperm : (notes.map Note.node).Perm t.toList := by
    rw [hnodes, ← t.nodes_unfolding]
    exact order.perm_listing t.unfolding
  have hlength : notes.length = index.size := by
    rw [h.size_eq, ← t.length_toList, ← hperm.length_eq, List.length_map]
  have hhandles := hperm.map Record.handle
  rw [List.map_map] at hhandles
  rw [hlength] at hnumbered hresult
  constructor
  · exact hresult
  · exact hnumbered
  · exact hhandles.nodup_iff.2 h.nodup
  · intro x
    rw [hperm.mem_iff, h.perm_records.mem_iff, mem_records]
  · intro horder x y hu
    rw [hnodes]
    exact Order.sublist_of_isTopDown horder hu
  · intro horder x y hu
    rw [hnodes]
    exact Order.sublist_of_isBottomUp horder hu
  · rintro hcmp rfl
    rw [hnodes, Order.listing_inOrder, t.nodes_unfolding]
    exact hsorted hcmp
  · rintro hcmp rfl
    rw [hnodes, Order.listing_inOrderReverse, List.reverse_reverse, t.nodes_unfolding]
    exact hsorted hcmp

/-- Under a total preorder the links of a run spell a sorted tree. -/
theorem Linked.run_sorted {index : OrderedIndex α} {t : Tree α} (h : index.Linked t)
    (hsorted : Std.TransCmp index.cmp → Sorted index.cmp t.toList) (ops : List (Op α)) :
    ∃ index' answers t', index.run ops = some (index', answers) ∧ index'.cmp = index.cmp ∧
      index'.Linked t' ∧ (Std.TransCmp index'.cmp → Sorted index'.cmp t'.toList) := by
  induction ops generalizing index t with
  | nil => exact ⟨index, [], t, rfl, rfl, h, hsorted⟩
  | cons op ops ih =>
    obtain ⟨index₁, answer, t₁, hop, hcmp₁, hserved, h₁⟩ := h.perform op
    have hsorted₁ : Std.TransCmp index₁.cmp → Sorted index₁.cmp t₁.toList := by
      rw [hcmp₁]
      intro hcmp
      have hstable : StableSort index.cmp t.toList t.toList :=
        ⟨.refl _, hsorted hcmp, fun _ => rfl⟩
      exact (hserved.stableSort hstable h.nodup).sorted
    obtain ⟨index₂, answers, t₂, hops, hcmp₂, h₂, hsorted₂⟩ := ih h₁ hsorted₁
    exact ⟨index₂, answer :: answers, t₂, by simp [OrderedIndex.run, hop, hops],
      hcmp₂.trans hcmp₁, h₂, hsorted₂⟩

/-- Under any comparator, after any run, a tour in any order ends. Unless the breadth-first queue is
refused room, it counts all records and shows each of them once, under its own handle and with its own
item, numbered from 0: in the pre-order and breadth-first orders before all records below it, in the
post-order behind all of them, and in the in-order sorted where the comparator is a total preorder. -/
theorem run_tours_records (cmp : α → α → Ordering) (ops : List (Op α)) :
    ∃ index answers t, (empty cmp).run ops = some (index, answers) ∧ index.cmp = cmp ∧
      index.tree? = some t ∧
      ∀ (order : Order) (alloc : Allocator) (step : Nat → Record α → σ → σ) (state : σ),
        ∃ report : Report (σ × List (Note (Record α))),
          index.traverse alloc order (noting (proceeding step)) (state, []) = some report ∧
          index.traverse alloc order (proceeding step) state =
            some ⟨report.result, report.state.1⟩ ∧
          ((∃ cause, report.result = .error (.alloc cause)) →
            order = .breadthFirst ∧ ∃ cells, alloc cells = false) ∧
          ((∀ cause, report.result ≠ .error (.alloc cause)) →
            Toured index t order report.result report.state.2) := by
  have hempty : Std.TransCmp cmp → Sorted cmp (Tree.leaf : Tree α).toList :=
    fun _ => List.Pairwise.nil
  obtain ⟨index, answers, t, hrun, hcmp, h, hsorted⟩ := (linked_empty cmp).run_sorted hempty ops
  refine ⟨index, answers, t, hrun, hcmp, h.tree?_eq, fun order alloc step state => ?_⟩
  have hplain : ∀ {report}, index.traverse alloc order (noting (proceeding step)) (state, []) =
      some report → index.traverse alloc order (proceeding step) state =
        some ⟨report.result, report.state.1⟩ := by
    intro report hnoted
    have hrefines : Refines Prod.fst (Arena.onRecords (noting (proceeding step)))
        (Arena.onRecords (proceeding step)) := fun _ _ _ => rfl
    have hboth := hrefines.traverse (index.arena.links index.root) alloc order index.arena.size
      (state, [])
    rw [OrderedIndex.traverse, Arena.traverse] at hnoted
    rw [hnoted] at hboth
    exact hboth
  obtain ⟨horder, cause, state', hrefuses, hnoted⟩ | hnoted :=
    h.traverse alloc order (noting (proceeding step)) (state, [])
  · exact ⟨_, hnoted, hplain hnoted, fun _ => ⟨horder, hrefuses⟩,
      fun hgranted => absurd rfl (hgranted cause)⟩
  · rw [along_noting] at hnoted
    have hgo := visitAll_proceeding step (order.listing t.unfolding) ⟨0, state⟩
    have hnodes := node_notes (proceeding step) _ _ hgo
    have hreported := reported_along (proceeding step) (order.listing t.unfolding) state
    have hresult := result_along_proceeding step (order.listing t.unfolding) state
    refine ⟨_, hnoted, hplain hnoted, fun ⟨cause, hcause⟩ => ?_, fun _ => ?_⟩
    · rw [hresult] at hcause
      cases hcause
    · exact h.toured hsorted hnodes hreported.numbered hresult

end OrderedIndex

end MemIndex
