import MemIndex.Proofs.Walk.Engines
import MemIndex.Proofs.Walk.Room

/-!
# Runs of the work queue

A run pushes and pops in any order, and goes on after a push that was refused. What was let in is at every
moment what has been taken out, followed by what waits. Whether a push is refused is decided by the
capacity, which depends on how full the queue has been before; under a limit it comes down to the number of
items that wait now.
-/
namespace MemIndex.Walk.Queue

variable {α : Type u}

inductive Op (α : Type u) where
  | push (item : α)
  | pop

/-- What comes of an operation. -/
inductive Outcome (α : Type u) where
  | queued (item : α)
  | refused (item : α) (cause : AllocError)
  | taken (item : α)
  /-- There was nothing to take. -/
  | vacant

/-- The queue after an operation, which is the same queue where the operation came to nothing. -/
def perform (alloc : Allocator) (q : Queue α) : Op α → Queue α × Outcome α
  | .push a =>
    match q.push alloc a with
    | .ok q' => (q', .queued a)
    | .error cause => (q, .refused a cause)
  | .pop =>
    match q.pop? with
    | some (a, q') => (q', .taken a)
    | none => (q, .vacant)

def run (alloc : Allocator) (q : Queue α) : List (Op α) → Queue α × List (Outcome α)
  | [] => (q, [])
  | op :: ops =>
    let (q, outcome) := q.perform alloc op
    let (q, outcomes) := run alloc q ops
    (q, outcome :: outcomes)

def Outcome.queued? : Outcome α → Option α
  | .queued a => some a
  | _ => none

def Outcome.taken? : Outcome α → Option α
  | .taken a => some a
  | _ => none

/-- The items that were let in, in order. -/
def letIn (outcomes : List (Outcome α)) : List α := outcomes.filterMap Outcome.queued?

/-- The items that were taken out, in order. -/
def takenOut (outcomes : List (Outcome α)) : List α := outcomes.filterMap Outcome.taken?

theorem letIn_cons (outcome : Outcome α) (rest : List (Outcome α)) :
    letIn (outcome :: rest) = outcome.queued?.toList ++ letIn rest := by
  cases outcome <;> rfl

theorem takenOut_cons (outcome : Outcome α) (rest : List (Outcome α)) :
    takenOut (outcome :: rest) = outcome.taken?.toList ++ takenOut rest := by
  cases outcome <;> rfl

section Operations

variable {alloc : Allocator} {q q' : Queue α} {a : α}

theorem perform_push_ok (h : q.push alloc a = .ok q') :
    q.perform alloc (.push a) = (q', .queued a) := by
  simp [perform, h]

theorem perform_push_error {cause : AllocError} (h : q.push alloc a = .error cause) :
    q.perform alloc (.push a) = (q, .refused a cause) := by
  simp [perform, h]

theorem perform_pop_some (h : q.pop? = some (a, q')) : q.perform alloc .pop = (q', .taken a) := by
  simp [perform, h]

theorem perform_pop_none (h : q.pop? = none) : q.perform alloc .pop = (q, .vacant) := by
  simp [perform, h]

end Operations

/-! ## The order of the items -/

/-- An operation lets an item in at the back, takes one out in front, or does neither. -/
theorem items_perform (alloc : Allocator) (q : Queue α) (op : Op α) :
    q.items ++ (q.perform alloc op).2.queued?.toList =
      (q.perform alloc op).2.taken?.toList ++ (q.perform alloc op).1.items := by
  cases op with
  | push a =>
    cases hpush : q.push alloc a with
    | ok q' =>
      rw [perform_push_ok hpush]
      exact (items_push hpush).symm
    | error cause =>
      rw [perform_push_error hpush]
      exact List.append_nil q.items
  | pop =>
    cases hpop : q.pop? with
    | none =>
      rw [perform_pop_none hpop]
      exact List.append_nil q.items
    | some next =>
      obtain ⟨a, q'⟩ := next
      rw [perform_pop_some hpop, (pop?_eq_some hpop).1]
      exact List.append_nil (a :: q'.items)

/-- Whatever is refused, what waited before a run and what it let in is, in this order, what it took out
and what still waits. -/
theorem items_run (alloc : Allocator) (q : Queue α) (ops : List (Op α)) :
    q.items ++ letIn (q.run alloc ops).2 =
      takenOut (q.run alloc ops).2 ++ (q.run alloc ops).1.items := by
  induction ops generalizing q with
  | nil => exact List.append_nil q.items
  | cons op ops ih =>
    simp only [run]
    rw [letIn_cons, takenOut_cons, ← List.append_assoc, items_perform, List.append_assoc, ih,
      List.append_assoc]

/-! ## Refusals under a limit -/

namespace Grown

variable {limit : Nat} {q : Queue α} (h : q.Grown limit)

include h

theorem perform_push_queued (hroom : q.size < room limit) (a : α) :
    ∃ q', q.perform (.atMost (some limit)) (.push a) = (q', .queued a) ∧ q'.Grown limit := by
  obtain ⟨q', hpush, -, hgrown⟩ := h.push hroom a
  exact ⟨q', perform_push_ok hpush, hgrown⟩

theorem perform_push_refused (hroom : q.size = room limit) (a : α) :
    q.perform (.atMost (some limit)) (.push a) = (q, .refused a .refused) :=
  perform_push_error (h.push_refused (Nat.le_of_eq hroom.symm) a)

theorem perform (op : Op α) : (q.perform (.atMost (some limit)) op).1.Grown limit := by
  cases op with
  | push a =>
    obtain hless | hfull := Nat.lt_or_eq_of_le h.size_le
    · obtain ⟨q', hrun, hgrown⟩ := h.perform_push_queued hless a
      rw [hrun]
      exact hgrown
    · rw [h.perform_push_refused hfull a]
      exact h
  | pop =>
    cases hpop : q.pop? with
    | none =>
      rw [perform_pop_none hpop]
      exact h
    | some next =>
      rw [perform_pop_some hpop]
      exact h.pop hpop

theorem run (ops : List (Op α)) : (q.run (.atMost (some limit)) ops).1.Grown limit := by
  induction ops generalizing q with
  | nil => exact h
  | cons op ops ih => exact ih (h.perform op)

/-- A push is refused just when as many items wait as the limit has room for. -/
theorem outcome_push (a : α) :
    (q.perform (.atMost (some limit)) (.push a)).2 =
      if q.size = room limit then .refused a .refused else .queued a := by
  obtain hless | hfull := Nat.lt_or_eq_of_le h.size_le
  · obtain ⟨q', hrun, -⟩ := h.perform_push_queued hless a
    rw [hrun, if_neg (Nat.ne_of_lt hless)]
  · rw [h.perform_push_refused hfull a, if_pos hfull]

end Grown

theorem outcome_pop (alloc : Allocator) (q : Queue α) :
    (q.perform alloc .pop).2 = .vacant ↔ q.items = [] := by
  rw [← pop?_eq_none]
  cases hpop : q.pop? with
  | none => simp [perform_pop_none hpop]
  | some next => simp [perform_pop_some hpop]

/-- An item that was taken out has made room for another one. -/
theorem size_perform_pop {alloc : Allocator} {q : Queue α} {a : α}
    (h : (q.perform alloc .pop).2 = .taken a) : (q.perform alloc .pop).1.size + 1 = q.size := by
  cases hpop : q.pop? with
  | none =>
    rw [perform_pop_none hpop] at h
    cases h
  | some next =>
    rw [perform_pop_some hpop, ← length_items, ← length_items, (pop?_eq_some hpop).1,
      List.length_cons]

/-- After any run of pushes and pops on a fresh queue under a limit, the items that were let in are those
taken out followed by those that wait, and a pop finds nothing just when there are as many of the one as
of the other. The room is none below a limit of four, and otherwise the largest doubled capacity within
the limit. A push is refused just when so many items wait, and leaves the queue as it is; a push right
after a pop that took an item out is let in. -/
theorem run_first_in_first_out (limit : Nat) (ops : List (Op α)) :
    let alloc : Allocator := .atMost (some limit)
    let q := ((empty : Queue α).run alloc ops).1
    let outcomes := ((empty : Queue α).run alloc ops).2
    letIn outcomes = takenOut outcomes ++ q.items ∧
    ((q.perform alloc .pop).2 = .vacant ↔
      (letIn outcomes).length = (takenOut outcomes).length) ∧
    (limit < 4 → room limit = 0) ∧
    (4 ≤ limit → IsGreatest {cells | ∃ j, cells = 4 * 2 ^ j ∧ cells ≤ limit} (room limit)) ∧
    ∀ a,
      (q.perform alloc (.push a)).2 =
        (if q.size = room limit then .refused a .refused else .queued a) ∧
      (∀ cause, (q.perform alloc (.push a)).2 = .refused a cause →
        (q.perform alloc (.push a)).1 = q) ∧
      ∀ b, (q.perform alloc .pop).2 = .taken b →
        ((q.perform alloc .pop).1.perform alloc (.push a)).2 = .queued a := by
  intro alloc q outcomes
  have hgrown : q.Grown limit := (grown_empty limit).run ops
  have horder : letIn outcomes = takenOut outcomes ++ q.items := items_run alloc empty ops
  refine ⟨horder, ?_, room_of_lt, isGreatest_room, fun a => ⟨hgrown.outcome_push a, ?_, ?_⟩⟩
  · rw [outcome_pop, horder, List.length_append, ← List.length_eq_zero_iff]
    omega
  · intro cause hrefused
    cases hpush : q.push alloc a with
    | ok q' =>
      rw [perform_push_ok hpush] at hrefused
      cases hrefused
    | error cause => rw [perform_push_error hpush]
  · intro b htaken
    have hsize := size_perform_pop htaken
    have hless : (q.perform alloc .pop).1.size < room limit := by
      have hroom := hgrown.size_le
      omega
    rw [(hgrown.perform .pop).outcome_push a, if_neg (Nat.ne_of_lt hless)]

/-- A limit of five has room for four: the fifth push is refused, and the next one after a pop is not. -/
example : ((empty : Queue Nat).run (.atMost (some 5))
    [.push 1, .push 2, .push 3, .push 4, .push 5, .pop, .push 6]).2 =
      [.queued 1, .queued 2, .queued 3, .queued 4, .refused 5 .refused, .taken 1, .queued 6] := rfl

end MemIndex.Walk.Queue
