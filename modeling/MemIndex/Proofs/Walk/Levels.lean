import MemIndex.Proofs.Walk.Engines
import MemIndex.Walk.Numbered

/-!
# Levels of links

The root makes up the first level, and the children of a level, taken in order, make up the next. Nothing
is left out that was met before: a shared node stands in a level once for each link to it, and links that
run in a circle have no last level. A breadth-first walk shows level after level, whatever the links are,
since its queue holds what is left of a level and behind it the children of what has gone.
-/
namespace MemIndex

namespace Links

variable {ι : Type u}

def level (links : Links ι) : Nat → List ι
  | 0 => links.root.toList
  | depth + 1 => (level links depth).flatMap links.below

/-- So many levels from some level on, one after another. -/
def levelsFrom (links : Links ι) (depth count : Nat) : List ι :=
  (List.range' depth count).flatMap links.level

/-- The first levels, one after another. -/
def levels (links : Links ι) (count : Nat) : List ι := (List.range count).flatMap links.level

theorem levels_eq (links : Links ι) (count : Nat) : links.levels count = links.levelsFrom 0 count := by
  rw [levels, levelsFrom, List.range_eq_range']

theorem levelsFrom_succ (links : Links ι) (depth count : Nat) :
    links.levelsFrom depth (count + 1) = links.level depth ++ links.levelsFrom (depth + 1) count := by
  rw [levelsFrom, List.range'_succ, List.flatMap_cons, levelsFrom]

end Links

namespace Walk

variable {ι : Type u} {σ : Type v}

/-- How a breadth-first walk fares with the first nodes of its queue: a request for room is refused, a
verdict ends the walk, or it goes on with another queue. -/
inductive Stretch (links : Links ι) (alloc : Allocator) (visit : Visitor ι σ) (q : Queue ι)
    (p : Progress σ) (nodes after : List ι) : Prop
  | refused (cause : AllocError) (p' : Progress σ) (refuses : ∃ cells, alloc cells = false)
    (run : ∀ budget, nodes.length ≤ budget →
      breadthFirst links alloc visit budget q p = some (.error cause, p'))
  | ended (verdict : (visitAll visit nodes p).1 ≠ .proceed)
    (run : ∀ budget, nodes.length ≤ budget → breadthFirst links alloc visit budget q p =
      some (.ok (visitAll visit nodes p).1, (visitAll visit nodes p).2))
  | passed {q' : Queue ι} (verdict : (visitAll visit nodes p).1 = .proceed) (items : q'.items = after)
    (run : ∀ budget, breadthFirst links alloc visit (nodes.length + budget) q p =
      breadthFirst links alloc visit budget q' (visitAll visit nodes p).2)

section Stretches

variable {links : Links ι} {alloc : Allocator} {visit : Visitor ι σ}

theorem Stretch.nil (q : Queue ι) (p : Progress σ) :
    Stretch links alloc visit q p [] q.items :=
  .passed rfl rfl fun budget => by rw [List.length_nil, Nat.zero_add, visitAll_nil]

theorem Stretch.single {q : Queue ι} {node : ι} {rest : List ι} (hq : q.items = node :: rest)
    (p : Progress σ) : Stretch links alloc visit q p [node] (rest ++ links.below node) := by
  obtain ⟨q', hpop, hrest⟩ := Queue.exists_pop? hq
  have htaken := breadthFirst_taken links alloc visit hpop p
  rw [← visitAll_singleton] at htaken
  cases hqueued : enqueue alloc (links.below node) q' with
  | error cause =>
    refine .refused cause p (refused_of_enqueue hqueued) fun budget hb => ?_
    obtain ⟨budget, rfl⟩ := Nat.exists_eq_add_of_le' hb
    rw [List.length_singleton, htaken, hqueued]
  | ok q'' =>
    by_cases hgo : (visitAll visit [node] p).1 = .proceed
    · refine .passed hgo (by rw [items_enqueue hqueued, hrest]) fun budget => ?_
      rw [List.length_singleton, Nat.add_comm, htaken, hqueued]
      exact if_pos hgo
    · refine .ended hgo fun budget hb => ?_
      obtain ⟨budget, rfl⟩ := Nat.exists_eq_add_of_le' hb
      rw [List.length_singleton, htaken, hqueued]
      exact if_neg hgo

theorem Stretch.append {q : Queue ι} {p : Progress σ} {nodes nodes' mid after : List ι}
    (h : Stretch links alloc visit q p nodes mid)
    (h' : ∀ q', q'.items = mid →
      Stretch links alloc visit q' (visitAll visit nodes p).2 nodes' after) :
    Stretch links alloc visit q p (nodes ++ nodes') after := by
  have hlength : (nodes ++ nodes').length = nodes.length + nodes'.length := List.length_append
  cases h with
  | refused cause p' refuses run =>
    exact .refused cause p' refuses fun budget hb => run budget (by omega)
  | ended verdict run =>
    have hsame := visitAll_append_of_ended verdict nodes'
    rw [← hsame] at verdict run
    exact .ended verdict fun budget hb => run budget (by omega)
  | @passed q' verdict items run =>
    have hrest := visitAll_append_of_proceed verdict nodes'
    cases h' q' items with
    | refused cause p' refuses run' =>
      refine .refused cause p' refuses fun budget hb => ?_
      obtain ⟨budget, rfl⟩ := Nat.exists_eq_add_of_le (Nat.le_of_add_right_le (hlength ▸ hb))
      rw [run]
      exact run' budget (by omega)
    | ended verdict' run' =>
      rw [← hrest] at verdict' run'
      refine .ended verdict' fun budget hb => ?_
      obtain ⟨budget, rfl⟩ := Nat.exists_eq_add_of_le (Nat.le_of_add_right_le (hlength ▸ hb))
      rw [run]
      exact run' budget (by omega)
    | passed verdict' items' run' =>
      rw [← hrest] at verdict' run'
      refine .passed verdict' items' fun budget => ?_
      rw [hlength, Nat.add_assoc, run]
      exact run' budget

/-- What is left of a level goes by, and the children of what goes by come in behind the others. -/
theorem stretch_queued {q : Queue ι} {nodes later : List ι} (hq : q.items = nodes ++ later)
    (p : Progress σ) : Stretch links alloc visit q p nodes (later ++ nodes.flatMap links.below) := by
  induction nodes generalizing q later p with
  | nil =>
    have hnil : Stretch links alloc visit q p [] q.items := Stretch.nil q p
    rw [hq] at hnil
    simpa using hnil
  | cons node rest ih =>
    rw [List.cons_append] at hq
    have hone : Stretch links alloc visit q p [node] (rest ++ later ++ links.below node) :=
      Stretch.single hq p
    rw [List.append_assoc] at hone
    have hrest := hone.append fun q' hq' => ih hq' _
    rwa [List.append_assoc, ← List.flatMap_cons] at hrest

theorem stretch_levels {q : Queue ι} {depth : Nat} (hq : q.items = links.level depth) (count : Nat)
    (p : Progress σ) :
    Stretch links alloc visit q p (links.levelsFrom depth count) (links.level (depth + count)) := by
  induction count generalizing q depth p with
  | zero =>
    have hnil : Stretch links alloc visit q p [] q.items := Stretch.nil q p
    rwa [hq] at hnil
  | succ count ih =>
    have hlevel : Stretch links alloc visit q p (links.level depth) (links.level (depth + 1)) := by
      have hall : q.items = links.level depth ++ [] := by rw [hq, List.append_nil]
      have hqueued : Stretch links alloc visit q p (links.level depth)
          ([] ++ links.level (depth + 1)) := stretch_queued hall p
      rwa [List.nil_append] at hqueued
    rw [Links.levelsFrom_succ, Nat.add_comm count, ← Nat.add_assoc]
    exact hlevel.append fun q' hq' => ih hq' _

end Stretches

/-- A breadth-first walk along levels that come to an end, or at which a verdict ends it, reports as if
the visitor had gone along these levels. Only a refused request for room can keep it from that. -/
theorem traverse_levels (links : Links ι) (alloc : Allocator) (visit : Visitor ι σ) (state : σ)
    {count : Nat} (hends : links.level count = [] ∨
      (visitAll visit (links.levels count) ⟨0, state⟩).1 ≠ .proceed) :
    (∃ cause state', (∃ cells, alloc cells = false) ∧
      ∀ budget, (links.levels count).length ≤ budget →
        traverse links alloc .breadthFirst visit budget state =
          some ⟨.error (.alloc cause), state'⟩) ∨
    ∀ budget, (links.levels count).length ≤ budget →
      traverse links alloc .breadthFirst visit budget state =
        some (along visit (links.levels count) state) := by
  cases hroot : enqueue alloc links.root.toList Queue.empty with
  | error cause =>
    left
    refine ⟨cause, state, refused_of_enqueue hroot, fun budget _ => ?_⟩
    simp [traverse, Order.steps?, hroot]
  | ok q =>
    have hq : q.items = links.level 0 := by
      rw [items_enqueue hroot, Queue.items_empty, List.nil_append, Links.level]
    have hlevels : Stretch links alloc visit q ⟨0, state⟩ (links.levelsFrom 0 count)
        (links.level (0 + count)) := stretch_levels hq count _
    rw [← Links.levels_eq, Nat.zero_add] at hlevels
    cases hlevels with
    | refused cause p' refuses run =>
      left
      refine ⟨cause, p'.state, refuses, fun budget hb => ?_⟩
      simp [traverse, Order.steps?, hroot, run budget hb]
    | ended verdict run =>
      right
      intro budget hb
      simp [traverse, Order.steps?, hroot, run budget hb, along]
    | passed verdict items run =>
      right
      intro budget hb
      have hempty := hends.resolve_right (not_not_intro verdict)
      obtain ⟨budget, rfl⟩ := Nat.exists_eq_add_of_le hb
      rw [hempty] at items
      have hdone := breadthFirst_done links alloc visit items
        (visitAll visit (links.levels count) ⟨0, state⟩).2 budget
      simp [traverse, Order.steps?, hroot, run, hdone, along, verdict]

/-! ## With notes -/

/-- The notes of a walk that shows levels: what is shown are the first nodes of the levels, and it is all
of them where no verdict ends the walk. -/
structure InLevels (links : Links ι) (notes : List (Note ι)) : Prop where
  shown : ∃ depth, notes.map Note.node <+: links.levels depth
  whole : (∀ note ∈ notes, note.verdict = .proceed) →
    ∃ depth, links.level depth = [] ∧ notes.map Note.node = links.levels depth

theorem inLevels_notes {links : Links ι} {visit : Visitor ι σ} {state : σ} {depth : Nat}
    (hends : links.level depth = [] ∨
      (visitAll visit (links.levels depth) ⟨0, state⟩).1 ≠ .proceed) :
    InLevels links (notes visit (links.levels depth) ⟨0, state⟩) where
  shown := ⟨depth, node_notes_prefix visit _ _⟩
  whole hproceed := by
    have hgo : (visitAll visit (links.levels depth) ⟨0, state⟩).1 = .proceed := by
      rw [verdict_visitAll]
      cases hlast : (notes visit (links.levels depth) ⟨0, state⟩).getLast? with
      | none => rfl
      | some note => exact hproceed note (List.mem_of_getLast? hlast)
    exact ⟨depth, hends.resolve_right (not_not_intro hgo), node_notes visit _ _ hgo⟩

/-- Over any links, also shared ones and such as run in a circle, a breadth-first walk ends if the levels
come to an end or the visitor ends it somewhere along them. Unless a request for room is refused, it then
shows the levels one after another, numbers the nodes from 0, ends right behind the first verdict that
ends it, or with the last level, and counts what it has shown. The same budget serves the visitor
without the notes, and its result is the same. -/
theorem traverse_shows_levels (links : Links ι) (alloc : Allocator) (visit : Visitor ι σ) (state : σ)
    {depth : Nat} (hends : links.level depth = [] ∨
      (visitAll visit (links.levels depth) ⟨0, state⟩).1 ≠ .proceed) :
    ∃ report : Report (σ × List (Note ι)),
      (∀ budget, (links.levels depth).length ≤ budget →
        traverse links alloc .breadthFirst (noting visit) budget (state, []) = some report ∧
        traverse links alloc .breadthFirst visit budget state =
          some ⟨report.result, report.state.1⟩) ∧
      ((∃ cause, report.result = .error (.alloc cause)) → ∃ cells, alloc cells = false) ∧
      ((∀ cause, report.result ≠ .error (.alloc cause)) →
        Reported report.result report.state.2 ∧ InLevels links report.state.2) := by
  have hnoted := visitAll_noting visit (links.levels depth) ⟨0, state⟩ []
  have hends' : links.level depth = [] ∨
      (visitAll (noting visit) (links.levels depth) ⟨0, state, []⟩).1 ≠ .proceed := by
    rw [hnoted]
    exact hends
  obtain ⟨cause, state', hrefuses, hrun⟩ | hrun :=
    traverse_levels links alloc (noting visit) (state, []) hends'
  · exact ⟨_, fun budget hb => ⟨hrun budget hb, traverse_of_noting (hrun budget hb)⟩, fun _ => hrefuses,
      fun hgranted => absurd rfl (hgranted cause)⟩
  · rw [along_noting] at hrun
    refine ⟨_, fun budget hb => ⟨hrun budget hb, traverse_of_noting (hrun budget hb)⟩,
      fun ⟨cause, hcause⟩ => ?_, fun _ => ?_⟩
    · exact absurd hcause (along_ne_alloc visit _ state cause)
    · exact ⟨reported_along visit (links.levels depth) state, inLevels_notes hends⟩

/-- The second node is both children of the first and has it as its own child, so the levels have no end;
the visitor ends the walk at the fifth node, in the middle of a level. -/
theorem traverse_shows_levels_circle :
    let links := Numbered.links ⟨some 0, #[(some 1, some 1), (some 0, some 2), (none, none)]⟩
    let visit : Visitor Nat Nat := fun index _ seen =>
      (if index = 4 then .stop else .proceed, seen + 1)
    (visitAll visit (links.levels 3) ⟨0, 0⟩).1 ≠ .proceed ∧
    ∃ report : Report (Nat × List (Note Nat)),
      traverse links .unlimited .breadthFirst (noting visit) 7 (0, []) = some report ∧
      Reported report.result report.state.2 ∧ InLevels links report.state.2 ∧
      report.result = .ok 5 ∧ report.state.2.map Note.node = [0, 1, 1, 0, 2] := by
  intro links visit
  have hends : (visitAll visit (links.levels 3) ⟨0, 0⟩).1 ≠ .proceed := by decide
  obtain ⟨report, hrun, -, hshown⟩ :=
    traverse_shows_levels links .unlimited visit 0 (.inr hends)
  have hseven := (hrun 7 (by decide)).1
  have hknown : (traverse links .unlimited .breadthFirst (noting visit) 7 (0, [])).map
      (fun r => (r.result.toOption, r.state.2.map Note.node)) =
        some (some 5, [0, 1, 1, 0, 2]) := by decide +kernel
  rw [hseven, Option.map_some, Option.some.injEq, Prod.mk.injEq] at hknown
  cases hresult : report.result with
  | error cause => simp [hresult, Except.toOption] at hknown
  | ok visited =>
    have hgranted : ∀ cause, report.result ≠ .error (.alloc cause) := by simp [hresult]
    obtain ⟨hreported, hlevels⟩ := hshown hgranted
    have hfive : visited = 5 := by simpa [hresult, Except.toOption] using hknown.1
    exact ⟨hends, report, hseven, hreported, hlevels, by rw [hresult, hfive], hknown.2⟩

end Walk

end MemIndex
