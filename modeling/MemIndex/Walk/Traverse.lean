import MemIndex.Verdict
import MemIndex.Walk.Error
import MemIndex.Walk.Order
import MemIndex.Walk.Queue

/-!
# Walks over binary links

A link structure has a root and gives every node an optional left and right child. It may share
nodes or run in circles: a walk follows the links as they are and keeps no record of where it has
been. A walk over circling links need not end, so the engines take a budget, of depth for the
depth-first orders and of taken nodes for the breadth-first one, and answer none when it is used up.

The visitor gets the position in the sequence, the node and its own state.
-/
namespace MemIndex

/-- A read-only view of binary links. -/
structure Links (ι : Type u) where
  root : Option ι
  /-- The left and the right child. -/
  children : ι → Option ι × Option ι

/-- The children that exist, left before right. -/
def Links.below (links : Links ι) (node : ι) : List ι :=
  (links.children node).1.toList ++ (links.children node).2.toList

abbrev Visitor (ι : Type u) (σ : Type v) := Nat → ι → σ → Verdict × σ

namespace Walk

variable {ι : Type u} {σ : Type v}

/-- How far a walk has come: the number of visited nodes and the visitor's state. -/
structure Progress (σ : Type v) where
  visited : Nat
  state : σ

def visitNode (visit : Visitor ι σ) (node : ι) (p : Progress σ) : Verdict × Progress σ :=
  let answer := visit p.visited node p.state
  (answer.1, ⟨p.visited + 1, answer.2⟩)

/-- Goes through the nodes of a list until a verdict ends the walk. -/
def visitAll (visit : Visitor ι σ) : List ι → Progress σ → Verdict × Progress σ
  | [], p => (.proceed, p)
  | node :: rest, p =>
    match visitNode visit node p with
    | (.proceed, p) => visitAll visit rest p
    | ended => ended

@[simp] theorem visitAll_nil (visit : Visitor ι σ) (p : Progress σ) :
    visitAll visit [] p = (.proceed, p) := rfl

theorem visitAll_append (visit : Visitor ι σ) (xs ys : List ι) (p : Progress σ) :
    visitAll visit (xs ++ ys) p =
      match visitAll visit xs p with
      | (.proceed, p) => visitAll visit ys p
      | ended => ended := by
  induction xs generalizing p with
  | nil => rfl
  | cons x xs ih =>
    simp only [List.cons_append, visitAll]
    rcases visitNode visit x p with ⟨_ | _ | _, q⟩
    · exact ih q
    · rfl
    · rfl

/-- One part of a depth-first walk; none when the budget did not suffice. -/
abbrev Leg (σ : Type v) := Progress σ → Option (Verdict × Progress σ)

/-- Walks the legs in turn until a verdict ends the walk. -/
def inTurn : List (Leg σ) → Leg σ
  | [], p => some (.proceed, p)
  | leg :: rest, p =>
    match leg p with
    | some (.proceed, p) => inTurn rest p
    | ended => ended

def depthFirst (links : Links ι) (steps : List Step) (visit : Visitor ι σ) :
    Nat → Option ι → Leg σ
  | _, none => fun p => some (.proceed, p)
  | 0, some _ => fun _ => none
  | budget + 1, some node =>
    let leg : Step → Leg σ
      | .left => depthFirst links steps visit budget (links.children node).1
      | .body => fun p => some (visitNode visit node p)
      | .right => depthFirst links steps visit budget (links.children node).2
    inTurn (steps.map leg)

/-- Queues the given nodes in turn, up to the first refusal. -/
def enqueue (alloc : Allocator) : List ι → Queue ι → Except AllocError (Queue ι)
  | [], q => .ok q
  | node :: rest, q =>
    match q.push alloc node with
    | .ok q => enqueue alloc rest q
    | .error cause => .error cause

theorem items_enqueue {alloc : Allocator} {nodes : List ι} {q q' : Queue ι}
    (h : enqueue alloc nodes q = .ok q') : q'.items = q.items ++ nodes := by
  induction nodes generalizing q with
  | nil => cases h; simp
  | cons node rest ih =>
    unfold enqueue at h
    split at h
    · rename_i q₁ h₁
      rw [ih h, Queue.items_push h₁]
      simp
    · cases h

/-- Takes the oldest queued node, queues its children and then shows it to the visitor, so that a
refused child keeps its parent from being visited. -/
def breadthFirst (links : Links ι) (alloc : Allocator) (visit : Visitor ι σ) :
    Nat → Queue ι → Progress σ → Option (Except AllocError Verdict × Progress σ)
  | budget, q, p =>
    match q.pop?, budget with
    | none, _ => some (.ok .proceed, p)
    | some _, 0 => none
    | some (node, q), budget + 1 =>
      match enqueue alloc (links.below node) q with
      | .error cause => some (.error cause, p)
      | .ok q =>
        match visitNode visit node p with
        | (.proceed, p) => breadthFirst links alloc visit budget q p
        | (verdict, p) => some (.ok verdict, p)

/-- What is left of a walk: the number of visited nodes or the failure, and the visitor's state. -/
structure Report (σ : Type v) where
  result : Except WalkError Nat
  state : σ

def Report.ofVerdict (verdict : Verdict) (p : Progress σ) : Report σ :=
  match verdict with
  | .fail => ⟨.error (.visitorFailed p.visited), p.state⟩
  | _ => ⟨.ok p.visited, p.state⟩

/-- Walks the links in the given order; none when the budget did not suffice. -/
def traverse (links : Links ι) (alloc : Allocator) (order : Order) (visit : Visitor ι σ)
    (budget : Nat) (state : σ) : Option (Report σ) :=
  match order.steps? with
  | some steps =>
    (depthFirst links steps visit budget links.root ⟨0, state⟩).map fun ended =>
      Report.ofVerdict ended.1 ended.2
  | none =>
    match enqueue alloc links.root.toList Queue.empty with
    | .error cause => some ⟨.error (.alloc cause), state⟩
    | .ok q =>
      (breadthFirst links alloc visit budget q ⟨0, state⟩).map fun ended =>
        match ended.1 with
        | .ok verdict => Report.ofVerdict verdict ended.2
        | .error cause => ⟨.error (.alloc cause), ended.2.state⟩

end Walk

end MemIndex
