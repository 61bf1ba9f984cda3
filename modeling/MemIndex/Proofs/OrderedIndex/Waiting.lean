import MemIndex.Proofs.OrderedIndex.Tours
import MemIndex.Proofs.Walk.Waiting

/-!
# Breadth-first walks over an ordered index

The links of an index unfold into the tree of its records, so at most half of the records wait at any
moment of a breadth-first walk, rounded up, and a limit that allows a queue for so many never ends one.
-/
namespace MemIndex.OrderedIndex

open Walk

/-- Over any links that unfold into a finite tree, and over the links of an ordered index after any run
under any comparator, at most half of the nodes wait at any moment of a breadth-first walk, rounded up:
whatever the visitor says and whatever is refused. A limit that allows a doubled capacity of so many cells
never makes a walk fail for want of room. -/
theorem half_of_nodes_wait.{v, w, z} :
    (∀ {ι : Type v} (links : Links ι) (u : Unfolding ι), links.Unfolds links.root u →
      HalfWaits.{v, z} links u.nodes.length) ∧
    ∀ {α : Type w} (cmp : α → α → Ordering) (ops : List (Op α)), ∃ index answers,
      (empty cmp).run ops = some (index, answers) ∧
      HalfWaits.{w, z} (index.arena.links index.root) index.size ∧
      ∀ {σ : Type z} {limit j : Nat}, 4 * 2 ^ j ≤ limit → (index.size + 1) / 2 ≤ 4 * 2 ^ j →
        ∀ (visit : Visitor (Record α) σ) (state : σ), ∃ report,
          index.traverse (.atMost (some limit)) .breadthFirst visit state = some report ∧
          ∀ cause, report.result ≠ .error (.alloc cause) := by
  refine ⟨fun links u hu => halfWaits hu, fun cmp ops => ?_⟩
  obtain ⟨index, answers, t, hrun, h⟩ := (linked_empty cmp).run ops
  have hsize : t.places.nodes.length = index.size := by rw [t.length_nodes_places, h.size_eq]
  have hhalf : HalfWaits.{w, z} (index.arena.links index.root) index.size := hsize ▸ halfWaits h.unfolds
  refine ⟨index, answers, hrun, hhalf, fun hlimit hroom visit state => ?_⟩
  obtain ⟨hends, hroomy⟩ :=
    hhalf.roomy hlimit hroom (Arena.onRecords visit) index.arena.size state
  obtain ⟨report, hreport⟩ := Option.isSome_iff_exists.1 (hends (Nat.le_refl _))
  exact ⟨report, hreport, hroomy report hreport⟩

/-- In a tree of seven nodes without a gap, half of them do wait at one moment, and a limit of four cells
is enough. -/
theorem half_of_nodes_wait_seven :
    let links := Numbered.links ⟨some 0, #[(some 1, some 2), (some 3, some 4), (some 5, some 6)]⟩
    let visit : Visitor Nat Nat := fun _ _ seen => (.proceed, seen + 1)
    let walk := traverseLogged links (.atMost (some 4)) visit 7 0
    ∃ u, links.Unfolds links.root u ∧ u.nodes.length = 7 ∧
      (∀ m ∈ walk.log, m.waiting ≤ 4) ∧ (∃ m ∈ walk.log, m.waiting = 4) ∧
      (Walk.traverse links (.atMost (some 4)) .breadthFirst visit 7 0).isSome ∧
      ∀ report, Walk.traverse links (.atMost (some 4)) .breadthFirst visit 7 0 = some report →
        ∀ cause, report.result ≠ .error (.alloc cause) := by
  intro links visit walk
  let below (x l r : Nat) : Unfolding Nat := .node (.node .leaf l .leaf) x (.node .leaf r .leaf)
  have hall : links.Unfolds links.root (.node (below 1 3 4) 0 (below 2 5 6)) := by
    simp [links, below, Numbered.links, Links.Unfolds]
  obtain ⟨htrees, -⟩ := half_of_nodes_wait.{0, 0, 0}
  have hhalf : HalfWaits links 7 := htrees links _ hall
  have hlimit : 4 * 2 ^ 0 ≤ 4 := by decide
  obtain ⟨-, hwaiting⟩ := hhalf.waiting (.atMost (some 4)) visit 7 0
  obtain ⟨hends, hroomy⟩ := hhalf.roomy hlimit (by decide) visit 7 0
  exact ⟨_, hall, rfl, hwaiting, by decide +kernel, hends (by decide), hroomy⟩

end MemIndex.OrderedIndex
