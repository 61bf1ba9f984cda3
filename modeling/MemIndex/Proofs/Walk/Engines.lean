import MemIndex.Proofs.Walk.Notes

/-!
# The engines of a walk

The breadth-first engine takes one node after another from its queue. What a visitor keeps on the side
changes nothing of a walk, in any order: a visitor that does more refines one that does less.
-/
namespace MemIndex.Walk

variable {ι : Type u} {σ : Type v}

namespace Queue

theorem size_congr {q q' : Queue ι} (h : q'.items = q.items) : q'.size = q.size := by
  rw [← length_items, h, length_items]

theorem size_push {alloc : Allocator} {q q' : Queue ι} {node : ι} (h : q.push alloc node = .ok q') :
    q'.size = q.size + 1 := by
  rw [← length_items, items_push h, List.length_append, length_items, List.length_singleton]

theorem exists_pop? {q : Queue ι} {node : ι} {rest : List ι} (hq : q.items = node :: rest) :
    ∃ q', q.pop? = some (node, q') ∧ q'.items = rest := by
  cases hp : q.pop? with
  | none =>
    rw [pop?_eq_none.1 hp] at hq
    cases hq
  | some taken =>
    obtain ⟨first, q'⟩ := taken
    rw [(pop?_eq_some hp).1] at hq
    cases hq
    exact ⟨q', rfl, rfl⟩

theorem refused_of_push {alloc : Allocator} {q : Queue ι} {node : ι} {cause : AllocError}
    (hpush : q.push alloc node = .error cause) : ∃ cells, alloc cells = false := by
  unfold push at hpush
  split at hpush
  · cases hpush
  · split at hpush
    · cases hpush
    · rename_i hrefused
      exact ⟨q.wanted, by simpa using hrefused⟩

end Queue

theorem refused_of_enqueue {alloc : Allocator} {nodes : List ι} {q : Queue ι} {cause : AllocError}
    (herror : enqueue alloc nodes q = .error cause) : ∃ cells, alloc cells = false := by
  induction nodes generalizing q with
  | nil => cases herror
  | cons node rest ih =>
    unfold enqueue at herror
    split at herror
    · exact ih herror
    · rename_i hpush
      exact Queue.refused_of_push hpush

/-- One node of a breadth-first walk: it is taken from the queue, its children are queued, and it is
shown. -/
theorem breadthFirst_taken (links : Links ι) (alloc : Allocator) (visit : Visitor ι σ) {q q' : Queue ι}
    {node : ι} (hpop : q.pop? = some (node, q')) (p : Progress σ) (budget : Nat) :
    breadthFirst links alloc visit (budget + 1) q p =
      match enqueue alloc (links.below node) q' with
      | .error cause => some (.error cause, p)
      | .ok q =>
        if (visitNode visit node p).1 = .proceed then
          breadthFirst links alloc visit budget q (visitNode visit node p).2
        else some (.ok (visitNode visit node p).1, (visitNode visit node p).2) := by
  rw [breadthFirst.eq_def]
  simp only [hpop]
  cases enqueue alloc (links.below node) q' with
  | error cause => rfl
  | ok q => rcases visitNode visit node p with ⟨_ | _ | _, p'⟩ <;> rfl

theorem breadthFirst_done (links : Links ι) (alloc : Allocator) (visit : Visitor ι σ) {q : Queue ι}
    (hq : q.items = []) (p : Progress σ) (budget : Nat) :
    breadthFirst links alloc visit budget q p = some (.ok .proceed, p) := by
  rw [breadthFirst.eq_def]
  simp only [Queue.pop?_eq_none.2 hq]

theorem breadthFirst_zero (links : Links ι) (alloc : Allocator) (visit : Visitor ι σ) {q : Queue ι}
    {node : ι} {rest : List ι} (hq : q.items = node :: rest) (p : Progress σ) :
    breadthFirst links alloc visit 0 q p = none := by
  obtain ⟨q', hpop, -⟩ := Queue.exists_pop? hq
  rw [breadthFirst.eq_def]
  simp only [hpop]

/-- A walk ends in a failure of the queue only where a request for room is refused. -/
theorem refused_of_breadthFirst {links : Links ι} {alloc : Allocator} {visit : Visitor ι σ} {budget : Nat}
    {q : Queue ι} {p p' : Progress σ} {cause : AllocError}
    (herror : breadthFirst links alloc visit budget q p = some (.error cause, p')) :
    ∃ cells, alloc cells = false := by
  induction budget generalizing q p with
  | zero =>
    cases hitems : q.items with
    | nil => rw [breadthFirst_done links alloc visit hitems] at herror; cases herror
    | cons node rest => rw [breadthFirst_zero links alloc visit hitems] at herror; cases herror
  | succ budget ih =>
    cases hitems : q.items with
    | nil => rw [breadthFirst_done links alloc visit hitems] at herror; cases herror
    | cons node rest =>
      obtain ⟨q', hpop, -⟩ := Queue.exists_pop? hitems
      rw [breadthFirst_taken links alloc visit hpop] at herror
      cases hqueued : enqueue alloc (links.below node) q' with
      | error cause => exact refused_of_enqueue hqueued
      | ok q'' =>
        rw [hqueued] at herror
        dsimp only at herror
        split at herror
        · exact ih herror
        · cases herror

/-- The report on how the engine has ended. -/
def Report.ofEnded : Except AllocError Verdict × Progress σ → Report σ
  | (.ok verdict, p) => Report.ofVerdict verdict p
  | (.error cause, p) => ⟨.error (.alloc cause), p.state⟩

theorem traverse_breadthFirst (links : Links ι) (alloc : Allocator) (visit : Visitor ι σ) (budget : Nat)
    (state : σ) :
    traverse links alloc .breadthFirst visit budget state =
      match enqueue alloc links.root.toList Queue.empty with
      | .error cause => some ⟨.error (.alloc cause), state⟩
      | .ok q => (breadthFirst links alloc visit budget q ⟨0, state⟩).map Report.ofEnded := by
  rw [traverse]
  simp only [Order.steps?]
  cases enqueue alloc links.root.toList Queue.empty with
  | error cause => rfl
  | ok q =>
    dsimp only
    congr 1
    funext ended
    rcases ended with ⟨_ | _, p⟩ <;> rfl

/-- A walk fails for want of room only where a request for it is refused. -/
theorem refused_of_traverse {links : Links ι} {alloc : Allocator} {visit : Visitor ι σ} {budget : Nat}
    {state : σ} {report : Report σ} {cause : AllocError}
    (hrun : traverse links alloc .breadthFirst visit budget state = some report)
    (hcause : report.result = .error (.alloc cause)) : ∃ cells, alloc cells = false := by
  rw [traverse_breadthFirst] at hrun
  cases hroot : enqueue alloc links.root.toList Queue.empty with
  | error cause => exact refused_of_enqueue hroot
  | ok q =>
    rw [hroot] at hrun
    obtain ⟨⟨ended, p⟩, hended, hreport⟩ := Option.map_eq_some_iff.1 hrun
    cases ended with
    | error cause => exact refused_of_breadthFirst hended
    | ok verdict =>
      rw [← hreport, Report.ofEnded, result_ofVerdict] at hcause
      split at hcause <;> cases hcause

/-! ## Visitors with more state -/

/-- The first visitor gives the verdicts of the second one and keeps its state, with more beside it. -/
def Refines {τ : Type w} (forget : τ → σ) (visit : Visitor ι τ) (plain : Visitor ι σ) : Prop :=
  ∀ index node state, plain index node (forget state) =
    ((visit index node state).1, forget (visit index node state).2)

theorem refines_noting (visit : Visitor ι σ) : Refines Prod.fst (noting visit) visit :=
  fun _ _ _ => rfl

/-- The same progress, with the rest of the state forgotten. -/
def Progress.map {τ : Type w} (forget : τ → σ) (p : Progress τ) : Progress σ :=
  ⟨p.visited, forget p.state⟩

def Report.map {τ : Type w} (forget : τ → σ) (report : Report τ) : Report σ :=
  ⟨report.result, forget report.state⟩

section Refinement

variable {τ : Type w} {forget : τ → σ}

theorem inTurn_map {steps : List Step} {leg : Step → Leg τ} {plain : Step → Leg σ}
    (hlegs : ∀ step p, plain step (p.map forget) =
      (leg step p).map (Prod.map id (Progress.map forget))) (p : Progress τ) :
    inTurn (steps.map plain) (p.map forget) =
      (inTurn (steps.map leg) p).map (Prod.map id (Progress.map forget)) := by
  induction steps generalizing p with
  | nil => rfl
  | cons step rest ih =>
    rw [List.map_cons, List.map_cons, inTurn, inTurn, hlegs]
    rcases leg step p with _ | ⟨_ | _ | _, p'⟩
    · rfl
    · exact ih p'
    · rfl
    · rfl

variable {visit : Visitor ι τ} {plain : Visitor ι σ} (hvisit : Refines forget visit plain)

include hvisit

theorem Refines.visitNode (node : ι) (p : Progress τ) :
    visitNode plain node (p.map forget) =
      Prod.map id (Progress.map forget) (visitNode visit node p) := by
  simp only [Walk.visitNode, Progress.map, hvisit p.visited node p.state, Prod.map_apply, id_eq]

theorem Refines.depthFirst (links : Links ι) (steps : List Step) (budget : Nat) (link : Option ι)
    (p : Progress τ) :
    depthFirst links steps plain budget link (p.map forget) =
      (depthFirst links steps visit budget link p).map (Prod.map id (Progress.map forget)) := by
  induction budget generalizing link p with
  | zero => cases link <;> rfl
  | succ budget ih =>
    cases link with
    | none => rfl
    | some node =>
      rw [Walk.depthFirst, Walk.depthFirst]
      apply inTurn_map
      intro step p
      cases step with
      | left => exact ih _ p
      | body => exact congrArg some (hvisit.visitNode node p)
      | right => exact ih _ p

theorem Refines.breadthFirst (links : Links ι) (alloc : Allocator) (budget : Nat) (q : Queue ι)
    (p : Progress τ) :
    breadthFirst links alloc plain budget q (p.map forget) =
      (breadthFirst links alloc visit budget q p).map (Prod.map id (Progress.map forget)) := by
  induction budget generalizing q p with
  | zero =>
    rw [breadthFirst.eq_def, breadthFirst.eq_def]
    cases hpop : q.pop? <;> simp [hpop]
  | succ budget ih =>
    cases hitems : q.items with
    | nil => rw [breadthFirst_done links alloc _ hitems, breadthFirst_done links alloc _ hitems]; rfl
    | cons node rest =>
      obtain ⟨q', hpop, -⟩ := Queue.exists_pop? hitems
      rw [breadthFirst_taken links alloc _ hpop, breadthFirst_taken links alloc _ hpop,
        hvisit.visitNode]
      cases enqueue alloc (links.below node) q' with
      | error cause => rfl
      | ok q =>
        dsimp only [Prod.map_fst, Prod.map_snd, id_eq]
        split
        · exact ih q _
        · rfl

/-- What a visitor keeps beside its state changes nothing of a walk. -/
theorem Refines.traverse (links : Links ι) (alloc : Allocator) (order : Order) (budget : Nat)
    (state : τ) :
    traverse links alloc order plain budget (forget state) =
      (traverse links alloc order visit budget state).map (Report.map forget) := by
  have hstart : (⟨0, forget state⟩ : Progress σ) = Progress.map forget ⟨0, state⟩ := rfl
  unfold Walk.traverse
  cases order.steps? with
  | some steps =>
    simp only [hstart, hvisit.depthFirst, Option.map_map]
    congr 1
    funext ended
    rcases ended with ⟨_ | _ | _, p⟩ <;> rfl
  | none =>
    cases enqueue alloc links.root.toList Queue.empty with
    | error cause => rfl
    | ok q =>
      simp only [hstart, hvisit.breadthFirst, Option.map_map]
      congr 1
      funext ended
      rcases ended with ⟨_ | _ | _ | _, p⟩ <;> rfl

end Refinement

/-- A walk with notes tells what the walk without them reports. -/
theorem traverse_of_noting {links : Links ι} {alloc : Allocator} {order : Order} {visit : Visitor ι σ}
    {budget : Nat} {state : σ} {report : Report (σ × List (Note ι))}
    (hnoted : traverse links alloc order (noting visit) budget (state, []) = some report) :
    traverse links alloc order visit budget state = some ⟨report.result, report.state.1⟩ := by
  have hplain := (refines_noting visit).traverse links alloc order budget (state, [])
  rwa [hnoted] at hplain

end MemIndex.Walk
