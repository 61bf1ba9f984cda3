import Mathlib.Data.Nat.Fib.Basic
import MemIndex.Proofs.OrderedIndex.Runs

/-!
# What a search costs

An insertion, a removal and a look-up ask the comparator along one path from the root down, so they ask
no more often than the tree is high. A balanced tree of some height has no fewer records than a
Fibonacci number says, so the height is logarithmic in the number of records.
-/
namespace MemIndex

namespace Tree

variable {α : Type u}

/-! ## Height and number of records -/

/-- The lower of two subtrees is high enough for the next Fibonacci number but one. -/
theorem fib_above_le {high low m n : Nat} (hlow : high ≤ low + 1) (hm : Nat.fib (high + 2) ≤ m + 1)
    (hn : Nat.fib (low + 2) ≤ n + 1) : Nat.fib (high + 1 + 2) ≤ m + n + 1 + 1 :=
  calc Nat.fib (high + 1 + 2) = Nat.fib (high + 1) + Nat.fib (high + 2) := Nat.fib_add_two
    _ ≤ Nat.fib (low + 2) + Nat.fib (high + 2) :=
        Nat.add_le_add_right (Nat.fib_mono (Nat.succ_le_succ hlow)) _
    _ ≤ m + n + 1 + 1 := by omega

theorem Balanced.fib_height_le {t : Tree α} (ht : t.Balanced) :
    Nat.fib (t.height + 2) ≤ t.size + 1 := by
  induction t with
  | leaf => exact Nat.le_refl 1
  | node l b x r ihl ihr =>
    obtain ⟨hb, hlow, hhigh, hl, hr⟩ := ht
    simp only [height, size]
    rcases Nat.le_total l.height r.height with hle | hle
    · rw [Nat.max_eq_right hle, Nat.add_comm l.size]
      exact fib_above_le (by omega) (ihr hr) (ihl hl)
    · rw [Nat.max_eq_left hle]
      exact fib_above_le (by omega) (ihl hl) (ihr hr)

/-! ## Paths of calls -/

/-- The comparator is asked about one item and the records along a path from the root down. -/
inductive Descent (item : α) : Tree α → Calls α → Prop
  | stop {t : Tree α} : Descent item t []
  | left {l : Tree α} {b : Int} {x : Record α} {r : Tree α} {calls : Calls α}
    (below : Descent item l calls) : Descent item (node l b x r) ((item, x.item) :: calls)
  | right {l : Tree α} {b : Int} {x : Record α} {r : Tree α} {calls : Calls α}
    (below : Descent item r calls) : Descent item (node l b x r) ((item, x.item) :: calls)

theorem Descent.length_le {item : α} {t : Tree α} {calls : Calls α} (h : Descent item t calls) :
    calls.length ≤ t.height := by
  induction h with
  | stop => exact Nat.zero_le _
  | left _ ih | right _ ih =>
    simp only [List.length_cons, height]
    omega

theorem Descent.fst {item : α} {t : Tree α} {calls : Calls α} (h : Descent item t calls) :
    ∀ call ∈ calls, call.1 = item := by
  induction h with
  | stop => exact fun _ hc => absurd hc List.not_mem_nil
  | left _ ih | right _ ih => exact List.forall_mem_cons.2 ⟨rfl, ih⟩

theorem descent_insert (cmp : α → α → Ordering) (new : Record α) (t : Tree α) :
    Descent new.item t (t.insert cmp new).calls := by
  induction t with
  | leaf => exact .stop
  | node l b x r ihl ihr =>
    by_cases hlt : cmp new.item x.item = .lt
    · simp only [insert, hlt, if_true]
      exact .left ihl
    · simp only [insert, hlt, if_false]
      exact .right ihr

theorem descent_remove (cmp : α → α → Ordering) (probe : α) (t : Tree α) :
    Descent probe t (t.remove cmp probe).calls := by
  induction t with
  | leaf => exact .stop
  | node l b x r ihl ihr =>
    cases hc : cmp probe x.item with
    | eq =>
      simp only [remove, hc]
      exact .left .stop
    | lt =>
      simp only [remove, hc]
      exact .left ihl
    | gt =>
      simp only [remove, hc]
      exact .right ihr

theorem descent_find (cmp : α → α → Ordering) (probe : α) (t : Tree α) :
    Descent probe t (t.find cmp probe).calls := by
  induction t with
  | leaf => exact .stop
  | node l b x r ihl ihr =>
    cases hc : cmp probe x.item with
    | eq =>
      simp only [find, hc]
      exact .left .stop
    | lt =>
      simp only [find, hc]
      exact .left ihl
    | gt =>
      simp only [find, hc]
      exact .right ihr

end Tree

namespace OrderedIndex

open MemIndex.Tree (Descent)

variable {α : Type u}

/-- Under any comparator the height stays logarithmic in the number of records, and the next insertion,
look-up or removal, whatever it is, calls the comparator no more often than the tree is high, with its
own item first every time. -/
theorem run_calls_within_height (cmp : α → α → Ordering) (ops : List (Op α)) :
    ∃ index answers t, (empty cmp).run ops = some (index, answers) ∧ index.tree? = some t ∧
      Nat.fib (t.height + 2) ≤ index.size + 1 ∧
      (∀ item, ∃ r, index.insert item = some r ∧
        r.calls.length ≤ t.height ∧ ∀ call ∈ r.calls, call.1 = item) ∧
      (∀ probe, ∃ r, index.find probe = some r ∧
        r.calls.length ≤ t.height ∧ ∀ call ∈ r.calls, call.1 = probe) ∧
      ∀ probe, ∃ r, index.remove probe = some r ∧
        r.calls.length ≤ t.height ∧ ∀ call ∈ r.calls, call.1 = probe := by
  obtain ⟨index, answers, t, hrun, h⟩ := (linked_empty cmp).run ops
  have hfib := h.balanced.fib_height_le
  rw [← h.size_eq] at hfib
  refine ⟨index, answers, t, hrun, h.tree?_eq, hfib, fun item => ?_, fun probe => ?_,
    fun probe => ?_⟩
  · obtain ⟨r, hr, hentered⟩ := h.insert item
    have hcalls : Descent item t r.calls := by
      rw [hentered.calls]
      exact Tree.descent_insert index.cmp ⟨r.handle, item⟩ t
    exact ⟨r, hr, hcalls.length_le, hcalls.fst⟩
  · have hcalls := Tree.descent_find index.cmp probe t
    exact ⟨_, h.find_eq probe, hcalls.length_le, hcalls.fst⟩
  · obtain ⟨r, hr, hleft⟩ := h.remove probe
    have hcalls : Descent probe t r.calls := by
      rw [hleft.calls]
      exact Tree.descent_remove index.cmp probe t
    exact ⟨r, hr, hcalls.length_le, hcalls.fst⟩

end OrderedIndex

end MemIndex
