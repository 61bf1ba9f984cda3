import MemIndex.Proofs.Walk.Chronicle
import MemIndex.Proofs.Walk.Room
import MemIndex.Walk.Numbered

/-!
# Breadth-first walks under a limit

A walk under a limit is the walk without one for as long as no more nodes wait than there is room for. It
comes to its end with it, or up to the first child for which there is no room: there it fails, and the
node that has this child has been taken from the queue but is not shown. So what the visitor would have
said on that node plays no part.
-/
namespace MemIndex.Walk

variable {ι : Type u} {σ : Type v} {room limit : Nat}

/-- Two logs that are the same until the one queues a node more than there is room for, and the other is
refused it. -/
structure Parted (room : Nat) (free bound before : List (Moment ι)) (child : ι) : Prop where
  low : ∀ m ∈ before, m.waiting ≤ room
  queued : ∃ later, free = before ++ ⟨.queued child, room + 1⟩ :: later
  refused : bound = before ++ [⟨.refused child, room⟩]

namespace Parted

variable {free bound before : List (Moment ι)} {child : ι}

theorem after (h : Parted room free bound before child) {earlier : List (Moment ι)}
    (hlow : ∀ m ∈ earlier, m.waiting ≤ room) :
    Parted room (earlier ++ free) (earlier ++ bound) (earlier ++ before) child := by
  obtain ⟨later, hlater⟩ := h.queued
  refine ⟨fun m hm => ?_, ⟨later, ?_⟩, ?_⟩
  · exact (List.mem_append.1 hm).elim (hlow m) (h.low m)
  · rw [hlater, List.append_assoc]
  · rw [h.refused, List.append_assoc]

theorem followed (h : Parted room free bound before child) (later : List (Moment ι)) :
    Parted room (free ++ later) bound before child := by
  obtain ⟨rest, hrest⟩ := h.queued
  exact ⟨h.low, ⟨rest ++ later, by rw [hrest, List.append_assoc, List.cons_append]⟩, h.refused⟩

/-- They part at the first moment with more nodes than there is room for. -/
theorem takeWhile_eq (h : Parted room free bound before child) :
    free.takeWhile (fun m => decide (m.waiting ≤ room)) = before := by
  obtain ⟨later, hlater⟩ := h.queued
  have hlow : ∀ m ∈ before, decide (m.waiting ≤ room) = true := fun m hm => decide_eq_true (h.low m hm)
  have hnext : decide (room + 1 ≤ room) = false := decide_eq_false (Nat.not_succ_le_self room)
  rw [hlater, List.takeWhile_append_of_pos hlow, List.takeWhile_cons, hnext]
  exact List.append_nil before

end Parted

/-! ## Queueing -/

/-- How queueing some nodes without a limit and under one compare. -/
inductive Queued (limit : Nat) (nodes : List ι) (free bound : Logged ι (Except AllocError (Queue ι))) :
    Prop
  | fitting {q q' : Queue ι} (low : ∀ m ∈ free.log, m.waiting ≤ Queue.room limit)
    (same : bound.log = free.log) (freed : free.result = .ok q) (bounded : bound.result = .ok q')
    (items : q'.items = q.items) (grown : q'.Grown limit)
  | refused {before : List (Moment ι)} {child : ι} (below : child ∈ nodes)
    (parted : Parted (Queue.room limit) free.log bound.log before child) (freed : ∃ q, free.result = .ok q)
    (silent : taken before = [] ∧ shown before = []) (failed : bound.result = .error .refused)

theorem exists_enqueueLogged_unlimited (nodes : List ι) (q : Queue ι) :
    ∃ q', (enqueueLogged .unlimited nodes q).result = .ok q' := by
  induction nodes generalizing q with
  | nil => exact ⟨q, rfl⟩
  | cons node rest ih =>
    obtain ⟨q', hpush, -⟩ := q.push_unlimited node
    rw [enqueueLogged, hpush]
    exact ih q'

theorem queued_enqueueLogged (nodes : List ι) {q q' : Queue ι} (hitems : q'.items = q.items)
    (hgrown : q'.Grown limit) :
    Queued limit nodes (enqueueLogged .unlimited nodes q)
      (enqueueLogged (.atMost (some limit)) nodes q') := by
  induction nodes generalizing q q' with
  | nil => exact .fitting (by simp [enqueueLogged]) rfl rfl rfl hitems hgrown
  | cons node rest ih =>
    have hsize := Queue.size_congr hitems
    have hfull := hgrown.size_le
    obtain ⟨next, hnext, hnextItems⟩ := q.push_unlimited node
    have hnextSize := Queue.size_push hnext
    rw [enqueueLogged, enqueueLogged, hnext]
    obtain hroom | hroom := Nat.lt_or_ge q'.size (Queue.room limit)
    · obtain ⟨next', hnext', hnextItems', hnextGrown⟩ := hgrown.push hroom node
      have hsame : next'.items = next.items := by rw [hnextItems', hnextItems, hitems]
      have hsameSize := Queue.size_congr hsame
      have hlow : ∀ m ∈ ([⟨.queued node, next.size⟩] : List (Moment ι)),
          m.waiting ≤ Queue.room limit := by
        simp only [List.mem_singleton, forall_eq]
        omega
      rw [hnext']
      simp only [hsameSize]
      cases ih hsame hnextGrown with
      | fitting low same freed bounded items grown =>
        refine .fitting (fun m hm => ?_) ?_ freed bounded items grown
        · exact (List.mem_append.1 hm).elim (hlow m) (low m)
        · rw [Logged.log_after, Logged.log_after, same]
      | refused below parted freed silent failed =>
        exact .refused (List.mem_cons_of_mem node below) (parted.after hlow) freed silent failed
    · rw [hgrown.push_refused hroom node]
      have hexact : q'.size = Queue.room limit := Nat.le_antisymm hfull hroom
      have hparted : Parted (Queue.room limit)
          ((enqueueLogged .unlimited rest next).after [⟨.queued node, next.size⟩]).log
          [⟨.refused node, q'.size⟩] [] node := by
        refine ⟨by simp, ⟨(enqueueLogged .unlimited rest next).log, ?_⟩, ?_⟩
        · rw [Logged.log_after, hnextSize, ← hsize, hexact]
          rfl
        · rw [hexact]
          rfl
      exact .refused List.mem_cons_self hparted (exists_enqueueLogged_unlimited rest next) ⟨rfl, rfl⟩ rfl

/-! ## Engines -/

/-- How the engines compare from some point of the walk on. -/
inductive Confined (links : Links ι) (visit : Visitor ι σ) (room : Nat) (p : Progress σ)
    (free bound : Logged ι (Option (Except AllocError Verdict × Progress σ))) : Prop
  | fitting (low : ∀ m ∈ free.log, m.waiting ≤ room) (same : bound = free)
  | refused {before : List (Moment ι)} {child parent : ι}
    (parted : Parted room free.log bound.log before child) (below : child ∈ links.below parent)
    (unseen : taken before = (shown before).map Note.node ++ [parent])
    (failed : bound.result =
      some (.error .refused, (visitAll visit ((shown before).map Note.node) p).2))

/-- A round in which a node is taken, shown and not the last goes before. -/
theorem Confined.after {links : Links ι} {visit : Visitor ι σ} {p : Progress σ} {node : ι}
    {free bound : Logged ι (Option (Except AllocError Verdict × Progress σ))}
    (h : Confined links visit room (visitNode visit node p).2 free bound)
    (hgo : (visitNode visit node p).1 = .proceed) {earlier : List (Moment ι)}
    (hlow : ∀ m ∈ earlier, m.waiting ≤ room) (htaken : taken earlier = [node])
    (hshown : (shown earlier).map Note.node = [node]) :
    Confined links visit room p (free.after earlier) (bound.after earlier) := by
  cases h with
  | fitting low same =>
    refine .fitting (fun m hm => ?_) (by rw [same])
    exact (List.mem_append.1 hm).elim (hlow m) (low m)
  | @refused before child parent parted below unseen failed =>
    have hseen : (shown (earlier ++ before)).map Note.node =
        node :: (shown before).map Note.node := by
      rw [shown_append, List.map_append, hshown]
      rfl
    refine .refused (parted.after hlow) below ?_ ?_
    · rw [hseen, taken_append, htaken, unseen]
      rfl
    · rw [hseen, visitAll_cons, if_pos hgo]
      exact failed

section Rounds

variable {links : Links ι} {node : ι} {popped popped' : Queue ι} (hpopped : popped'.items = popped.items)
  (hgrown : popped'.Grown limit)

include hpopped hgrown

/-- A round in which nothing is refused is the same in both walks, and no more nodes wait than there is room
for. -/
theorem round_fitting {next next' : Queue ι}
    (low : ∀ m ∈ (enqueueLogged .unlimited (links.below node) popped).log, m.waiting ≤ Queue.room limit)
    (same : (enqueueLogged (.atMost (some limit)) (links.below node) popped').log =
      (enqueueLogged .unlimited (links.below node) popped).log)
    (items : next'.items = next.items) (grown : next'.Grown limit) (note : Note ι) :
    round links (.atMost (some limit)) node popped' next' note =
        round links .unlimited node popped next note ∧
      ∀ m ∈ round links .unlimited node popped next note, m.waiting ≤ Queue.room limit := by
  have hsize := Queue.size_congr hpopped
  have hnextSize := Queue.size_congr items
  constructor
  · rw [round, round, hsize, hnextSize, same]
  · intro m hm
    rw [round, List.mem_append, List.mem_cons, List.mem_singleton] at hm
    obtain (rfl | hm) | rfl := hm
    · exact hsize ▸ hgrown.size_le
    · exact low m hm
    · exact hnextSize ▸ grown.size_le

/-- One round of both engines, and what they do from the next queues on. -/
theorem confined_round {q q' : Queue ι} {visit : Visitor ι σ} {budget : Nat} {p : Progress σ}
    (hpop : q.pop? = some (node, popped)) (hpop' : q'.pop? = some (node, popped'))
    (hlater : ∀ next next' : Queue ι, next'.items = next.items → next'.Grown limit →
      Confined links visit (Queue.room limit) (visitNode visit node p).2
        (breadthFirstLogged links .unlimited visit budget next (visitNode visit node p).2)
        (breadthFirstLogged links (.atMost (some limit)) visit budget next' (visitNode visit node p).2)) :
    Confined links visit (Queue.room limit) p
      (breadthFirstLogged links .unlimited visit (budget + 1) q p)
      (breadthFirstLogged links (.atMost (some limit)) visit (budget + 1) q' p) := by
  cases queued_enqueueLogged (links.below node) hpopped hgrown with
  | @fitting next next' low same freed bounded items grown =>
    obtain ⟨hround, hlow⟩ := round_fitting hpopped hgrown low same items grown
      ⟨p.visited, node, (visitNode visit node p).1⟩
    rw [breadthFirstLogged_passed _ _ _ _ _ hpop freed,
      breadthFirstLogged_passed _ _ _ _ _ hpop' bounded, hround]
    by_cases hgo : (visitNode visit node p).1 = .proceed
    · rw [if_pos hgo, if_pos hgo]
      exact (hlater next next' items grown).after hgo hlow (taken_round ..) (by rw [shown_round]; rfl)
    · rw [if_neg hgo, if_neg hgo]
      refine .fitting ?_ rfl
      rw [Logged.log_after, List.append_nil]
      exact hlow
  | @refused before child below parted freed silent failed =>
    obtain ⟨next, hnext⟩ := freed
    have hsize := Queue.size_congr hpopped
    have htakenLow : ∀ m ∈ ([⟨.taken node, popped.size⟩] : List (Moment ι)),
        m.waiting ≤ Queue.room limit := by
      rw [List.forall_mem_singleton]
      exact hsize ▸ hgrown.size_le
    have hparted : Parted _ _ _ (⟨.taken node, popped.size⟩ :: before) child :=
      (parted.after htakenLow).followed
        [⟨.shown ⟨p.visited, node, (visitNode visit node p).1⟩, next.size⟩]
    rw [breadthFirstLogged_passed _ _ _ _ _ hpop hnext,
      breadthFirstLogged_failed _ _ _ _ _ hpop' failed, hsize]
    refine .refused (hparted.followed _) below ?_ ?_
    · simp [silent.1, silent.2]
    · simp [silent.2]

end Rounds

theorem confined_breadthFirstLogged (links : Links ι) (visit : Visitor ι σ) (budget : Nat)
    {q q' : Queue ι} (hitems : q'.items = q.items) (hgrown : q'.Grown limit) (p : Progress σ) :
    Confined links visit (Queue.room limit) p
      (breadthFirstLogged links .unlimited visit budget q p)
      (breadthFirstLogged links (.atMost (some limit)) visit budget q' p) := by
  induction budget generalizing q q' p with
  | zero =>
    cases hq : q.items with
    | nil =>
      rw [breadthFirstLogged_done _ _ _ _ _ hq, breadthFirstLogged_done _ _ _ _ _ (hitems.trans hq)]
      exact .fitting (by simp) rfl
    | cons node rest =>
      rw [breadthFirstLogged_zero _ _ _ _ hq, breadthFirstLogged_zero _ _ _ _ (hitems.trans hq)]
      exact .fitting (by simp) rfl
  | succ budget ih =>
    cases hq : q.items with
    | nil =>
      rw [breadthFirstLogged_done _ _ _ _ _ hq, breadthFirstLogged_done _ _ _ _ _ (hitems.trans hq)]
      exact .fitting (by simp) rfl
    | cons node rest =>
      obtain ⟨popped, hpop, hrest⟩ := Queue.exists_pop? hq
      obtain ⟨popped', hpop', hrest'⟩ := Queue.exists_pop? (hitems.trans hq)
      exact confined_round (hrest'.trans hrest.symm) (hgrown.pop hpop') hpop hpop'
        fun next next' items grown => ih items grown _

/-! ## Walks -/

/-- How the walks compare as a whole. -/
inductive Limited (links : Links ι) (visit : Visitor ι σ) (room : Nat) (state : σ)
    (free bound : Logged ι (Option (Report σ))) : Prop
  | fitting (low : ∀ m ∈ free.log, m.waiting ≤ room) (same : bound = free)
  | refused {before : List (Moment ι)} {child : ι}
    (parted : Parted room free.log bound.log before child)
    (failed : bound.result = some ⟨.error (.alloc .refused),
      (visitAll visit ((shown before).map Note.node) ⟨0, state⟩).2.state⟩)
    (unseen : (links.root = some child ∧ before = []) ∨ ∃ parent, child ∈ links.below parent ∧
      taken before = (shown before).map Note.node ++ [parent])

theorem limited_traverseLogged (links : Links ι) (visit : Visitor ι σ) (limit budget : Nat) (state : σ) :
    Limited links visit (Queue.room limit) state (traverseLogged links .unlimited visit budget state)
      (traverseLogged links (.atMost (some limit)) visit budget state) := by
  have hempty : (Queue.empty : Queue ι).Grown limit := Queue.grown_empty limit
  cases queued_enqueueLogged links.root.toList rfl hempty with
  | @fitting q q' low same freed bounded items grown =>
    rw [traverseLogged_passed _ _ _ _ _ freed, traverseLogged_passed _ _ _ _ _ bounded, same]
    cases confined_breadthFirstLogged links visit budget items grown ⟨0, state⟩ with
    | fitting lowBelow sameBelow =>
      refine .fitting (fun m hm => ?_) (by rw [sameBelow])
      exact (List.mem_append.1 hm).elim (low m) (lowBelow m)
    | @refused before child parent parted below unseen failed =>
      have hsilent := shown_enqueueLogged .unlimited links.root.toList (Queue.empty : Queue ι)
      have hnothing := taken_enqueueLogged .unlimited links.root.toList (Queue.empty : Queue ι)
      refine .refused (parted.after low) ?_ (.inr ⟨parent, below, ?_⟩)
      · rw [failed, shown_append, hsilent]
        rfl
      · rw [taken_append, shown_append, hnothing, hsilent]
        exact unseen
  | @refused before child below parted freed silent failed =>
    obtain ⟨q, hq⟩ := freed
    have hlink : links.root = some child := Option.mem_toList.1 below
    have hfirst : before = [] := by
      obtain ⟨later, hlater⟩ := parted.queued
      obtain ⟨q', hpush, -⟩ := (Queue.empty : Queue ι).push_unlimited child
      rw [hlink, Option.toList_some, enqueueLogged, hpush] at hlater
      cases before with
      | nil => rfl
      | cons first rest => simp [enqueueLogged] at hlater
    rw [traverseLogged_passed _ _ _ _ _ hq, traverseLogged_failed _ _ _ _ _ failed]
    refine .refused (parted.followed _) ?_ (.inl ⟨hlink, hfirst⟩)
    rw [silent.2]
    rfl

/-- Over any links and for any visitor, a breadth-first walk under a limit is compared with the one without
a limit by their logs. The room is none below a limit of four, and otherwise the largest doubled capacity
within the limit. As long as no more nodes wait, both walks are the same. As soon as more would wait, the
walk under the limit fails: up to there it has done what the other walk has, the visitor has been shown
just what it was shown by then, and the child that is refused is the root or the child of a node that has
been taken but not shown, whatever the visitor would have said on it. -/
theorem traverse_under_limit (links : Links ι) (visit : Visitor ι σ) (limit budget : Nat) (state : σ) :
    let room := Queue.room limit
    let free := traverseLogged links .unlimited visit budget state
    let bound := traverseLogged links (.atMost (some limit)) visit budget state
    let before := free.log.takeWhile fun m => decide (m.waiting ≤ room)
    Chronicle links .unlimited visit budget state free ∧
    Chronicle links (.atMost (some limit)) visit budget state bound ∧
    (limit < 4 → room = 0) ∧
    (4 ≤ limit → IsGreatest {cells | ∃ j, cells = 4 * 2 ^ j ∧ cells ≤ limit} room) ∧
    ((∀ m ∈ free.log, m.waiting ≤ room) → bound = free) ∧
    ((∃ m ∈ free.log, room < m.waiting) → ∃ child,
      Parted room free.log bound.log before child ∧
      shown bound.log = shown before ∧
      bound.result = some ⟨.error (.alloc .refused),
        (visitAll visit ((shown before).map Note.node) ⟨0, state⟩).2.state⟩ ∧
      ((links.root = some child ∧ before = []) ∨
        ∃ parent, child ∈ links.below parent ∧
          taken before = (shown before).map Note.node ++ [parent])) := by
  intro room free bound before
  refine ⟨chronicle_traverseLogged .., chronicle_traverseLogged .., Queue.room_of_lt,
    Queue.isGreatest_room, ?_⟩
  cases limited_traverseLogged links visit limit budget state with
  | fitting low same =>
    refine ⟨fun _ => same, fun ⟨m, hm, hover⟩ => ?_⟩
    exact absurd (low m hm) (Nat.not_le.2 hover)
  | @refused first child parted failed unseen =>
    have hfirst : before = first := parted.takeWhile_eq
    rw [hfirst]
    refine ⟨fun hlow => ?_, fun _ => ⟨child, parted, ?_, failed, unseen⟩⟩
    · obtain ⟨later, hlater⟩ := parted.queued
      have hover := hlow ⟨.queued child, room + 1⟩ (by rw [hlater]; simp [room])
      exact absurd hover (Nat.not_succ_le_self room)
    · simp [bound, parted.refused]

/-- There is room for four nodes, and the second child of the fourth would be the fifth to wait. The visitor
would have ended the walk with success on that fourth node. -/
theorem traverse_under_limit_stop :
    let links := Numbered.links
      ⟨some 0, #[(some 1, some 2), (some 3, some 4), (some 5, some 6), (some 7, some 8)]⟩
    let visit : Visitor Nat Nat := fun _ node seen => (if node = 3 then .stop else .proceed, seen + 1)
    let free := traverseLogged links .unlimited visit 9 0
    let bound := traverseLogged links (.atMost (some 4)) visit 9 0
    (∃ m ∈ free.log, Queue.room 4 < m.waiting) ∧
    (shown free.log).map Note.node = [0, 1, 2, 3] ∧
    (∃ child before, Parted (Queue.room 4) free.log bound.log before child ∧
      taken before = [0, 1, 2, 3] ∧ shown bound.log = shown before ∧
      (shown before).map Note.node = [0, 1, 2]) ∧
    bound.result = some ⟨.error (.alloc .refused), 3⟩ := by
  intro links visit free bound
  have hover : ∃ m ∈ free.log, Queue.room 4 < m.waiting := by decide +kernel
  obtain ⟨-, -, -, -, -, hrefused⟩ := traverse_under_limit links visit 4 9 0
  obtain ⟨child, hparted, hshown, hfailed, -⟩ := hrefused hover
  have hseen : (shown (free.log.takeWhile fun m => decide (m.waiting ≤ Queue.room 4))).map Note.node =
      [0, 1, 2] := by decide +kernel
  have htaken : taken (free.log.takeWhile fun m => decide (m.waiting ≤ Queue.room 4)) =
      [0, 1, 2, 3] := by decide +kernel
  refine ⟨hover, by decide +kernel, ⟨child, _, hparted, htaken, hshown, hseen⟩, ?_⟩
  rw [hfailed, hseen]
  rfl

end MemIndex.Walk
