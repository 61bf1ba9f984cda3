import MemIndex.Proofs.Walk.Engines

/-!
# The chronicle of a breadth-first walk

The breadth-first engine once more, with a log of what happens in it: which node is taken from the queue,
which child is queued or refused, what the visitor is shown, and each time how many nodes wait afterwards.
The log is kept also of a walk that does not come to an end. Leaving it aside gives the engine back, and
what it says about the visitor is what a visitor with notes has noted.
-/
namespace MemIndex.Walk

variable {ι : Type u} {σ : Type v}

/-- What happens in a breadth-first walk. -/
inductive Happening (ι : Type u) where
  | taken (node : ι)
  | queued (node : ι)
  | refused (node : ι)
  | shown (note : Note ι)

structure Moment (ι : Type u) where
  happening : Happening ι
  /-- The number of nodes in the queue afterwards. -/
  waiting : Nat

/-- A result with the log of the way to it. -/
structure Logged (ι : Type u) (β : Type w) where
  result : β
  log : List (Moment ι)

namespace Logged

variable {β : Type w}

/-- The same with something before it. -/
def after (earlier : List (Moment ι)) (l : Logged ι β) : Logged ι β := ⟨l.result, earlier ++ l.log⟩

@[simp] theorem result_after (earlier : List (Moment ι)) (l : Logged ι β) :
    (l.after earlier).result = l.result := rfl

@[simp] theorem log_after (earlier : List (Moment ι)) (l : Logged ι β) :
    (l.after earlier).log = earlier ++ l.log := rfl

end Logged

def Happening.taken? : Happening ι → Option ι
  | .taken node => some node
  | _ => none

def Happening.shown? : Happening ι → Option (Note ι)
  | .shown note => some note
  | _ => none

/-- The nodes taken from the queue, in order. -/
def taken (log : List (Moment ι)) : List ι := log.filterMap (·.happening.taken?)

/-- What the visitor has been shown, in order. -/
def shown (log : List (Moment ι)) : List (Note ι) := log.filterMap (·.happening.shown?)

section Readings

variable (node : ι) (note : Note ι) (waiting : Nat) (log later : List (Moment ι))

@[simp] theorem taken_nil : taken ([] : List (Moment ι)) = [] := rfl

@[simp] theorem shown_nil : shown ([] : List (Moment ι)) = [] := rfl

@[simp] theorem taken_append : taken (log ++ later) = taken log ++ taken later :=
  List.filterMap_append

@[simp] theorem shown_append : shown (log ++ later) = shown log ++ shown later :=
  List.filterMap_append

@[simp] theorem taken_cons_taken : taken (⟨.taken node, waiting⟩ :: log) = node :: taken log := rfl

@[simp] theorem taken_cons_queued : taken (⟨.queued node, waiting⟩ :: log) = taken log := rfl

@[simp] theorem taken_cons_refused : taken (⟨.refused node, waiting⟩ :: log) = taken log := rfl

@[simp] theorem taken_cons_shown : taken (⟨.shown note, waiting⟩ :: log) = taken log := rfl

@[simp] theorem shown_cons_taken : shown (⟨.taken node, waiting⟩ :: log) = shown log := rfl

@[simp] theorem shown_cons_queued : shown (⟨.queued node, waiting⟩ :: log) = shown log := rfl

@[simp] theorem shown_cons_refused : shown (⟨.refused node, waiting⟩ :: log) = shown log := rfl

@[simp] theorem shown_cons_shown : shown (⟨.shown note, waiting⟩ :: log) = note :: shown log := rfl

end Readings

/-! ## The engine with a log -/

def enqueueLogged (alloc : Allocator) :
    List ι → Queue ι → Logged ι (Except AllocError (Queue ι))
  | [], q => ⟨.ok q, []⟩
  | node :: rest, q =>
    match q.push alloc node with
    | .ok q => (enqueueLogged alloc rest q).after [⟨.queued node, q.size⟩]
    | .error cause => ⟨.error cause, [⟨.refused node, q.size⟩]⟩

def breadthFirstLogged (links : Links ι) (alloc : Allocator) (visit : Visitor ι σ) :
    Nat → Queue ι → Progress σ → Logged ι (Option (Except AllocError Verdict × Progress σ))
  | budget, q, p =>
    match q.pop?, budget with
    | none, _ => ⟨some (.ok .proceed, p), []⟩
    | some _, 0 => ⟨none, []⟩
    | some (node, q), budget + 1 =>
      let queued := enqueueLogged alloc (links.below node) q
      .after (⟨.taken node, q.size⟩ :: queued.log) <|
        match queued.result with
        | .error cause => ⟨some (.error cause, p), []⟩
        | .ok q =>
          let answer := visitNode visit node p
          .after [⟨.shown ⟨p.visited, node, answer.1⟩, q.size⟩] <|
            if answer.1 = .proceed then breadthFirstLogged links alloc visit budget q answer.2
            else ⟨some (.ok answer.1, answer.2), []⟩

/-- A breadth-first walk with its log. -/
def traverseLogged (links : Links ι) (alloc : Allocator) (visit : Visitor ι σ) (budget : Nat)
    (state : σ) : Logged ι (Option (Report σ)) :=
  let queued := enqueueLogged alloc links.root.toList Queue.empty
  .after queued.log <|
    match queued.result with
    | .error cause => ⟨some ⟨.error (.alloc cause), state⟩, []⟩
    | .ok q =>
      let walk := breadthFirstLogged links alloc visit budget q ⟨0, state⟩
      ⟨walk.result.map Report.ofEnded, walk.log⟩

theorem result_enqueueLogged (alloc : Allocator) (nodes : List ι) (q : Queue ι) :
    (enqueueLogged alloc nodes q).result = enqueue alloc nodes q := by
  induction nodes generalizing q with
  | nil => rfl
  | cons node rest ih =>
    rw [enqueueLogged, enqueue]
    cases q.push alloc node with
    | error cause => rfl
    | ok q => exact ih q

/-- Queueing shows nothing. -/
theorem shown_enqueueLogged (alloc : Allocator) (nodes : List ι) (q : Queue ι) :
    shown (enqueueLogged alloc nodes q).log = [] := by
  induction nodes generalizing q with
  | nil => rfl
  | cons node rest ih =>
    rw [enqueueLogged]
    cases q.push alloc node with
    | error cause => rfl
    | ok q => exact ih q

theorem taken_enqueueLogged (alloc : Allocator) (nodes : List ι) (q : Queue ι) :
    taken (enqueueLogged alloc nodes q).log = [] := by
  induction nodes generalizing q with
  | nil => rfl
  | cons node rest ih =>
    rw [enqueueLogged]
    cases q.push alloc node with
    | error cause => rfl
    | ok q => exact ih q

/-- What happens with a node whose children are all queued: it is taken, they are queued, it is shown. -/
def round (links : Links ι) (alloc : Allocator) (node : ι) (q q' : Queue ι) (note : Note ι) :
    List (Moment ι) :=
  ⟨.taken node, q.size⟩ :: (enqueueLogged alloc (links.below node) q).log ++ [⟨.shown note, q'.size⟩]

@[simp] theorem taken_round (links : Links ι) (alloc : Allocator) (node : ι) (q q' : Queue ι)
    (note : Note ι) : taken (round links alloc node q q' note) = [node] := by
  simp [round, taken_enqueueLogged]

@[simp] theorem shown_round (links : Links ι) (alloc : Allocator) (node : ι) (q q' : Queue ι)
    (note : Note ι) : shown (round links alloc node q q' note) = [note] := by
  simp [round, shown_enqueueLogged]

section Rounds

variable (links : Links ι) (alloc : Allocator) (visit : Visitor ι σ) {q : Queue ι} (p : Progress σ)
  (budget : Nat)

theorem breadthFirstLogged_done (hq : q.items = []) :
    breadthFirstLogged links alloc visit budget q p = ⟨some (.ok .proceed, p), []⟩ := by
  rw [breadthFirstLogged.eq_def]
  simp only [Queue.pop?_eq_none.2 hq]

theorem breadthFirstLogged_zero {node : ι} {rest : List ι} (hq : q.items = node :: rest) :
    breadthFirstLogged links alloc visit 0 q p = ⟨none, []⟩ := by
  obtain ⟨q', hpop, -⟩ := Queue.exists_pop? hq
  rw [breadthFirstLogged.eq_def]
  simp only [hpop]

/-- A node with a child that is refused. -/
theorem breadthFirstLogged_failed {q' : Queue ι} {node : ι} {cause : AllocError}
    (hpop : q.pop? = some (node, q'))
    (hqueued : (enqueueLogged alloc (links.below node) q').result = .error cause) :
    breadthFirstLogged links alloc visit (budget + 1) q p =
      ⟨some (.error cause, p),
        ⟨.taken node, q'.size⟩ :: (enqueueLogged alloc (links.below node) q').log⟩ := by
  rw [breadthFirstLogged.eq_def]
  simp [hpop, hqueued, Logged.after]

/-- A node with all its children queued. -/
theorem breadthFirstLogged_passed {q' q'' : Queue ι} {node : ι} (hpop : q.pop? = some (node, q'))
    (hqueued : (enqueueLogged alloc (links.below node) q').result = .ok q'') :
    breadthFirstLogged links alloc visit (budget + 1) q p =
      .after (round links alloc node q' q'' ⟨p.visited, node, (visitNode visit node p).1⟩)
        (if (visitNode visit node p).1 = .proceed then
          breadthFirstLogged links alloc visit budget q'' (visitNode visit node p).2
        else ⟨some (.ok (visitNode visit node p).1, (visitNode visit node p).2), []⟩) := by
  rw [breadthFirstLogged.eq_def]
  simp [hpop, hqueued, Logged.after, round]

theorem traverseLogged_failed {cause : AllocError} (state : σ)
    (hroot : (enqueueLogged alloc links.root.toList Queue.empty).result = .error cause) :
    traverseLogged links alloc visit budget state =
      ⟨some ⟨.error (.alloc cause), state⟩, (enqueueLogged alloc links.root.toList Queue.empty).log⟩ := by
  simp [traverseLogged, hroot, Logged.after]

theorem traverseLogged_passed (state : σ)
    (hroot : (enqueueLogged alloc links.root.toList Queue.empty).result = .ok q) :
    traverseLogged links alloc visit budget state =
      ⟨(breadthFirstLogged links alloc visit budget q ⟨0, state⟩).result.map Report.ofEnded,
        (enqueueLogged alloc links.root.toList Queue.empty).log ++
          (breadthFirstLogged links alloc visit budget q ⟨0, state⟩).log⟩ := by
  simp [traverseLogged, hroot, Logged.after]

end Rounds

/-! ## Leaving the log aside -/

section Results

variable (links : Links ι) (alloc : Allocator) (visit : Visitor ι σ)

theorem result_breadthFirstLogged (budget : Nat) (q : Queue ι) (p : Progress σ) :
    (breadthFirstLogged links alloc visit budget q p).result =
      breadthFirst links alloc visit budget q p := by
  induction budget generalizing q p with
  | zero =>
    cases hitems : q.items with
    | nil => rw [breadthFirstLogged_done links alloc visit p _ hitems, breadthFirst_done _ _ _ hitems]
    | cons node rest =>
      rw [breadthFirstLogged_zero links alloc visit p hitems, breadthFirst_zero _ _ _ hitems]
  | succ budget ih =>
    cases hitems : q.items with
    | nil => rw [breadthFirstLogged_done links alloc visit p _ hitems, breadthFirst_done _ _ _ hitems]
    | cons node rest =>
      obtain ⟨q', hpop, -⟩ := Queue.exists_pop? hitems
      rw [breadthFirst_taken _ _ _ hpop, ← result_enqueueLogged]
      cases hqueued : (enqueueLogged alloc (links.below node) q').result with
      | error cause => rw [breadthFirstLogged_failed links alloc visit p budget hpop hqueued]
      | ok q =>
        rw [breadthFirstLogged_passed links alloc visit p budget hpop hqueued, Logged.result_after]
        dsimp only
        split
        · exact ih q _
        · rfl

theorem result_traverseLogged (budget : Nat) (state : σ) :
    (traverseLogged links alloc visit budget state).result =
      traverse links alloc .breadthFirst visit budget state := by
  rw [traverse_breadthFirst, ← result_enqueueLogged]
  cases hroot : (enqueueLogged alloc links.root.toList Queue.empty).result with
  | error cause => rw [traverseLogged_failed links alloc visit budget state hroot]
  | ok q =>
    rw [traverseLogged_passed links alloc visit budget state hroot]
    exact congrArg (Option.map Report.ofEnded) (result_breadthFirstLogged links alloc visit _ q _)

/-- What the log says about the visitor is what it notes when it takes notes. -/
theorem breadthFirst_noting (budget : Nat) (q : Queue ι) (p : Progress σ) (before : List (Note ι)) :
    breadthFirst links alloc (noting visit) budget q ⟨p.visited, p.state, before⟩ =
      (breadthFirstLogged links alloc visit budget q p).result.map fun ended =>
        (ended.1, ⟨ended.2.visited, ended.2.state,
          before ++ shown (breadthFirstLogged links alloc visit budget q p).log⟩) := by
  induction budget generalizing q p before with
  | zero =>
    cases hitems : q.items with
    | nil =>
      rw [breadthFirstLogged_done links alloc visit p _ hitems, breadthFirst_done _ _ _ hitems]
      simp
    | cons node rest =>
      rw [breadthFirstLogged_zero links alloc visit p hitems, breadthFirst_zero _ _ _ hitems]
      rfl
  | succ budget ih =>
    cases hitems : q.items with
    | nil =>
      rw [breadthFirstLogged_done links alloc visit p _ hitems, breadthFirst_done _ _ _ hitems]
      simp
    | cons node rest =>
      obtain ⟨q', hpop, -⟩ := Queue.exists_pop? hitems
      rw [breadthFirst_taken _ _ _ hpop, ← result_enqueueLogged, visitNode_noting]
      cases hqueued : (enqueueLogged alloc (links.below node) q').result with
      | error cause =>
        rw [breadthFirstLogged_failed links alloc visit p budget hpop hqueued]
        simp [shown_enqueueLogged]
      | ok q =>
        rw [breadthFirstLogged_passed links alloc visit p budget hpop hqueued]
        by_cases hgo : (visitNode visit node p).1 = .proceed
        · simp [hgo, ih]
        · simp [hgo]

/-- A walk with notes reports the result of the log, and has noted what the log has shown. -/
theorem traverse_noting (budget : Nat) (state : σ) :
    traverse links alloc .breadthFirst (noting visit) budget (state, []) =
      (traverseLogged links alloc visit budget state).result.map fun report =>
        ⟨report.result, report.state, shown (traverseLogged links alloc visit budget state).log⟩ := by
  rw [traverse_breadthFirst, ← result_enqueueLogged]
  cases hroot : (enqueueLogged alloc links.root.toList Queue.empty).result with
  | error cause =>
    rw [traverseLogged_failed links alloc visit budget state hroot, shown_enqueueLogged]
    rfl
  | ok q =>
    rw [traverseLogged_passed links alloc visit budget state hroot, shown_append, shown_enqueueLogged]
    simp only [breadthFirst_noting links alloc visit budget q ⟨0, state⟩ [], Option.map_map]
    congr 1
    funext ended
    rcases ended with ⟨_ | _ | _ | _, p⟩ <;> rfl

end Results

/-- A log that is one of the walk: its result is what the walk reports, and what it shows is what a visitor
that takes notes has noted in the end. -/
structure Chronicle (links : Links ι) (alloc : Allocator) (visit : Visitor ι σ) (budget : Nat) (state : σ)
    (walk : Logged ι (Option (Report σ))) : Prop where
  reports : traverse links alloc .breadthFirst visit budget state = walk.result
  notes : traverse links alloc .breadthFirst (noting visit) budget (state, []) =
    walk.result.map fun report => ⟨report.result, report.state, shown walk.log⟩

theorem chronicle_traverseLogged (links : Links ι) (alloc : Allocator) (visit : Visitor ι σ)
    (budget : Nat) (state : σ) :
    Chronicle links alloc visit budget state (traverseLogged links alloc visit budget state) where
  reports := (result_traverseLogged links alloc visit budget state).symm
  notes := traverse_noting links alloc visit budget state

end MemIndex.Walk
