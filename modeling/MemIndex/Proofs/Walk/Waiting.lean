import MemIndex.Proofs.Walk.Refusals
import MemIndex.Proofs.Walk.Unfolding

/-!
# How many nodes wait

The nodes that wait in a breadth-first walk over a finite tree are the tops of trees that have no node in
common, and none of the nodes that have been taken stands in one of them. Each taken node has brought in at
most one node more than it has taken away. So there are not more waiting nodes than taken ones, but for one,
and not more than there are nodes left: never more than half of the tree, rounded up, wait at once.
-/
namespace MemIndex

namespace Links

variable {ι : Type u}

/-- The nodes are the tops of trees with so many nodes in all. -/
inductive Weighs (links : Links ι) : List ι → Nat → Prop
  | nil : Weighs links [] 0
  | cons {top : ι} {u : Walk.Unfolding ι} {rest : List ι} {count : Nat}
    (unfolds : links.Unfolds (some top) u) (others : Weighs links rest count) :
    Weighs links (top :: rest) (u.nodes.length + count)

namespace Weighs

variable {links : Links ι} {nodes more : List ι} {count others : Nat}

theorem append (h : links.Weighs nodes count) (h' : links.Weighs more others) :
    links.Weighs (nodes ++ more) (count + others) := by
  induction h with
  | nil => rwa [List.nil_append, Nat.zero_add]
  | cons unfolds _ ih =>
    rw [List.cons_append, Nat.add_assoc]
    exact .cons unfolds ih

theorem ofLink {link : Option ι} {u : Walk.Unfolding ι} (hu : links.Unfolds link u) :
    links.Weighs link.toList u.nodes.length := by
  cases link with
  | none =>
    cases u with
    | leaf => exact .nil
    | node l x r => cases hu.1
  | some top => exact .cons hu .nil

/-- The top of a tree can be taken away: what is left are the trees below it. -/
theorem exists_below {top : ι} (h : links.Weighs (top :: nodes) count) :
    ∃ below rest, count = below + rest + 1 ∧ links.Weighs (links.below top) below ∧
      links.Weighs nodes rest := by
  cases h with
  | @cons _ u _ rest unfolds others =>
    cases u with
    | leaf => cases unfolds
    | node l x r =>
      obtain ⟨hx, hl, hr⟩ := unfolds
      obtain rfl := Option.some.inj hx
      refine ⟨_, rest, ?_, (ofLink hl).append (ofLink hr), others⟩
      simp only [Walk.Unfolding.nodes, List.length_append, List.length_cons]
      omega

theorem length_le (h : links.Weighs nodes count) : nodes.length ≤ count := by
  induction nodes generalizing count with
  | nil => exact Nat.zero_le count
  | cons top nodes ih =>
    obtain ⟨below, rest, hcount, -, hrest⟩ := h.exists_below
    have := ih hrest
    rw [List.length_cons]
    omega

end Weighs

theorem length_below_le (links : Links ι) (node : ι) : (links.below node).length ≤ 2 := by
  rw [below, List.length_append]
  rcases links.children node with ⟨_ | _, _ | _⟩ <;> simp

/-- What is left of a tree of so many nodes after some have been taken, by the nodes that wait. -/
def Remains (links : Links ι) (total : Nat) (waiting : List ι) : Prop :=
  ∃ taken left, links.Weighs waiting left ∧ left + taken = total ∧ waiting.length ≤ taken + 1

namespace Remains

variable {links : Links ι} {total : Nat}

theorem length_le {waiting : List ι} (h : links.Remains total waiting) :
    waiting.length ≤ (total + 1) / 2 := by
  obtain ⟨taken, left, hleft, htotal, hfew⟩ := h
  have hmany := hleft.length_le
  omega

theorem root {u : Walk.Unfolding ι} (hu : links.Unfolds links.root u) :
    links.Remains u.nodes.length links.root.toList := by
  refine ⟨0, _, .ofLink hu, Nat.add_zero _, ?_⟩
  cases links.root with
  | none => exact Nat.zero_le _
  | some top => exact Nat.le_refl _

theorem step {node : ι} {rest : List ι} (h : links.Remains total (node :: rest)) :
    links.Remains total (rest ++ links.below node) := by
  obtain ⟨taken, left, hleft, htotal, hfew⟩ := h
  obtain ⟨below, others, hcount, hbelow, hothers⟩ := hleft.exists_below
  have htwo := links.length_below_le node
  rw [List.length_cons] at hfew
  refine ⟨taken + 1, others + below, hothers.append hbelow, by omega, ?_⟩
  rw [List.length_append]
  omega

end Remains

end Links

namespace Walk

variable {ι : Type u} {σ : Type v} {links : Links ι}

theorem waiting_enqueueLogged (alloc : Allocator) (nodes : List ι) (q : Queue ι) :
    ∀ m ∈ (enqueueLogged alloc nodes q).log, m.waiting ≤ q.size + nodes.length := by
  induction nodes generalizing q with
  | nil => simp [enqueueLogged]
  | cons node rest ih =>
    rw [enqueueLogged, List.length_cons]
    cases hpush : q.push alloc node with
    | error cause =>
      simp only [List.mem_singleton, forall_eq]
      omega
    | ok q' =>
      have hsize := Queue.size_push hpush
      intro m hm
      obtain rfl | hm := List.mem_cons.1 hm
      · dsimp only
        omega
      · have hrest := ih q' m hm
        omega

/-- In a round no more nodes wait than behind it. -/
theorem waiting_round {total : Nat} {node : ι} {q : Queue ι} (alloc : Allocator)
    (h : links.Remains total (q.items ++ links.below node)) :
    q.size ≤ (total + 1) / 2 ∧
      ∀ m ∈ (enqueueLogged alloc (links.below node) q).log, m.waiting ≤ (total + 1) / 2 := by
  have hlength := h.length_le
  rw [List.length_append, Queue.length_items] at hlength
  refine ⟨by omega, fun m hm => ?_⟩
  have hm' := waiting_enqueueLogged alloc _ q m hm
  omega

theorem waiting_breadthFirstLogged {total : Nat} (alloc : Allocator) (visit : Visitor ι σ)
    (budget : Nat) {q : Queue ι} (h : links.Remains total q.items) (p : Progress σ) :
    ∀ m ∈ (breadthFirstLogged links alloc visit budget q p).log, m.waiting ≤ (total + 1) / 2 := by
  induction budget generalizing q p with
  | zero =>
    cases hq : q.items with
    | nil => simp [breadthFirstLogged_done _ _ _ _ _ hq]
    | cons node rest => simp [breadthFirstLogged_zero _ _ _ _ hq]
  | succ budget ih =>
    cases hq : q.items with
    | nil => simp [breadthFirstLogged_done _ _ _ _ _ hq]
    | cons node rest =>
      obtain ⟨q', hpop, hrest⟩ := Queue.exists_pop? hq
      rw [hq, ← hrest] at h
      have hnext := h.step
      obtain ⟨hpopped, hbelow⟩ := waiting_round alloc hnext
      cases hqueued : (enqueueLogged alloc (links.below node) q').result with
      | error cause =>
        rw [breadthFirstLogged_failed _ _ _ _ _ hpop hqueued]
        intro m hm
        obtain rfl | hm := List.mem_cons.1 hm
        · exact hpopped
        · exact hbelow m hm
      | ok q'' =>
        rw [result_enqueueLogged] at hqueued
        rw [← items_enqueue hqueued] at hnext
        have hlength := hnext.length_le
        rw [Queue.length_items] at hlength
        rw [breadthFirstLogged_passed _ _ _ _ _ hpop (by rw [result_enqueueLogged, hqueued]), round]
        intro m hm
        simp only [Logged.log_after, List.mem_append, List.mem_cons, List.not_mem_nil, or_false] at hm
        obtain ((rfl | hm) | rfl) | hm := hm
        · exact hpopped
        · exact hbelow m hm
        · exact hlength
        · split at hm
          · exact ih hnext _ m hm
          · cases hm

/-- At every moment of a walk over a finite tree, whatever is refused to it, at most half of the nodes
wait, rounded up. -/
theorem waiting_traverseLogged {u : Unfolding ι} (hu : links.Unfolds links.root u) (alloc : Allocator)
    (visit : Visitor ι σ) (budget : Nat) (state : σ) :
    ∀ m ∈ (traverseLogged links alloc visit budget state).log,
      m.waiting ≤ (u.nodes.length + 1) / 2 := by
  have hstart := Links.Remains.root hu
  have hlength := hstart.length_le
  have hroot : ∀ m ∈ (enqueueLogged alloc links.root.toList Queue.empty).log,
      m.waiting ≤ (u.nodes.length + 1) / 2 := by
    intro m hm
    have hm' := waiting_enqueueLogged alloc _ Queue.empty m hm
    rw [← Queue.length_items, Queue.items_empty, List.length_nil] at hm'
    omega
  cases hqueued : (enqueueLogged alloc links.root.toList Queue.empty).result with
  | error cause =>
    rw [traverseLogged_failed _ _ _ _ _ hqueued]
    exact hroot
  | ok q =>
    have hitems : q.items = links.root.toList := by
      rw [result_enqueueLogged] at hqueued
      rw [items_enqueue hqueued, Queue.items_empty, List.nil_append]
    rw [traverseLogged_passed _ _ _ _ _ hqueued]
    intro m hm
    obtain hm | hm := List.mem_append.1 hm
    · exact hroot m hm
    · exact waiting_breadthFirstLogged alloc visit budget (hitems ▸ hstart) _ m hm

/-- So a limit with room for half of the nodes is no limit. -/
theorem traverse_roomy {u : Unfolding ι} (hu : links.Unfolds links.root u) {limit j : Nat}
    (hlimit : 4 * 2 ^ j ≤ limit) (hroom : (u.nodes.length + 1) / 2 ≤ 4 * 2 ^ j) (visit : Visitor ι σ)
    (budget : Nat) (state : σ) :
    traverse links (.atMost (some limit)) .breadthFirst visit budget state =
      traverse links .unlimited .breadthFirst visit budget state := by
  rw [← result_traverseLogged, ← result_traverseLogged]
  cases limited_traverseLogged links visit limit budget state with
  | fitting low same => rw [same]
  | @refused before child parted failed unseen =>
    obtain ⟨later, hlater⟩ := parted.queued
    have hover := waiting_traverseLogged hu .unlimited visit budget state
      ⟨.queued child, Queue.room limit + 1⟩ (by rw [hlater]; simp)
    have henough := Queue.le_room hlimit
    dsimp only at hover
    omega

/-- What follows for the breadth-first walks over links with so many nodes: at most half of the nodes wait
at any moment, and under a limit that allows a capacity of half of them no walk fails for want of room. -/
structure HalfWaits.{w, z} {ι : Type w} (links : Links ι) (total : Nat) : Prop where
  waiting : ∀ {σ : Type z} (alloc : Allocator) (visit : Visitor ι σ) (budget : Nat) (state : σ),
    let walk := traverseLogged links alloc visit budget state
    Chronicle links alloc visit budget state walk ∧ ∀ m ∈ walk.log, m.waiting ≤ (total + 1) / 2
  roomy : ∀ {σ : Type z} {limit j : Nat}, 4 * 2 ^ j ≤ limit → (total + 1) / 2 ≤ 4 * 2 ^ j →
    ∀ (visit : Visitor ι σ) (budget : Nat) (state : σ),
      (total ≤ budget →
        (traverse links (.atMost (some limit)) .breadthFirst visit budget state).isSome) ∧
      ∀ report, traverse links (.atMost (some limit)) .breadthFirst visit budget state = some report →
        ∀ cause, report.result ≠ .error (.alloc cause)

theorem halfWaits {u : Unfolding ι} (hu : links.Unfolds links.root u) :
    HalfWaits links u.nodes.length where
  waiting alloc visit budget state :=
    ⟨chronicle_traverseLogged .., waiting_traverseLogged hu alloc visit budget state⟩
  roomy hlimit hroom visit budget state := by
    rw [traverse_roomy hu hlimit hroom]
    refine ⟨fun hb => ?_, fun report hrun cause hcause => ?_⟩
    · obtain ⟨-, -, -, ⟨cells, hrefused⟩, -⟩ | hrun :=
        traverse_unfolds hu .unlimited .breadthFirst visit hb state
      · cases hrefused
      · rw [hrun]
        rfl
    · obtain ⟨cells, hrefused⟩ := refused_of_traverse hrun hcause
      cases hrefused

end Walk

end MemIndex
