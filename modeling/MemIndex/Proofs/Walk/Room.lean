import Mathlib.Algebra.Group.Nat.Defs
import Mathlib.Order.Bounds.Defs
import MemIndex.Walk.Queue

/-!
# The room of a queue

A queue starts without room, asks for four cells first and for twice what it has from then on. Under a
limit it comes as far as the largest of these capacities that the limit allows, and no further: there is
always room for so many nodes at once, and never for one more.
-/
namespace MemIndex.Walk.Queue

/-- The largest capacity that a queue comes to under the limit. -/
def room (limit : Nat) : Nat := if limit < 4 then 0 else 4 * 2 ^ (limit / 4).log2

theorem room_of_lt {limit : Nat} (h : limit < 4) : room limit = 0 := if_pos h

theorem room_of_le {limit : Nat} (h : 4 ≤ limit) : room limit = 4 * 2 ^ (limit / 4).log2 :=
  if_neg (Nat.not_lt.2 h)

theorem four_mul_two_pow_le_iff {limit : Nat} (h : 4 ≤ limit) (j : Nat) :
    4 * 2 ^ j ≤ limit ↔ j ≤ (limit / 4).log2 := by
  have hquarter : limit / 4 ≠ 0 := by omega
  rw [Nat.le_log2 hquarter, Nat.le_div_iff_mul_le (by omega), Nat.mul_comm]

theorem room_le (limit : Nat) : room limit ≤ limit := by
  obtain h | h := Nat.lt_or_ge limit 4
  · rw [room_of_lt h]
    exact Nat.zero_le limit
  · rw [room_of_le h]
    exact (four_mul_two_pow_le_iff h _).2 (Nat.le_refl _)

theorem le_room {limit j : Nat} (h : 4 * 2 ^ j ≤ limit) : 4 * 2 ^ j ≤ room limit := by
  have hone : 1 ≤ 2 ^ j := Nat.one_le_two_pow
  have hfour : 4 ≤ limit := by omega
  rw [room_of_le hfour]
  exact Nat.mul_le_mul_left 4 (Nat.pow_le_pow_right (by omega) ((four_mul_two_pow_le_iff hfour j).1 h))

/-- From a limit of four on, the room is the largest doubled capacity within the limit. -/
theorem isGreatest_room {limit : Nat} (h : 4 ≤ limit) :
    IsGreatest {cells | ∃ j, cells = 4 * 2 ^ j ∧ cells ≤ limit} (room limit) := by
  refine ⟨⟨(limit / 4).log2, room_of_le h, room_le limit⟩, ?_⟩
  rintro _ ⟨j, rfl, hj⟩
  exact le_room hj

variable {α : Type u}

/-- What is known of a queue that has been filled and emptied under a limit. -/
structure Grown (limit : Nat) (q : Queue α) : Prop where
  full : q.size ≤ q.capacity
  doubled : q.capacity = 0 ∨ ∃ j, q.capacity = 4 * 2 ^ j
  granted : q.capacity ≤ limit

theorem grown_empty (limit : Nat) : (empty : Queue α).Grown limit where
  full := Nat.le_refl 0
  doubled := .inl rfl
  granted := Nat.zero_le limit

@[simp] theorem size_append (q : Queue α) (a : α) (capacity : Nat) :
    (q.append a capacity).size = q.size + 1 := by
  rw [← length_items, items_append, List.length_append, length_items, List.length_singleton]

namespace Grown

variable {limit : Nat} {q : Queue α} (h : q.Grown limit)

include h

theorem capacity_le : q.capacity ≤ room limit := by
  obtain hzero | ⟨j, hj⟩ := h.doubled
  · rw [hzero]
    exact Nat.zero_le _
  · rw [hj]
    exact le_room (hj ▸ h.granted)

theorem size_le : q.size ≤ room limit := Nat.le_trans h.full h.capacity_le

/-- What a full queue asks for is within the limit as long as the queue holds less than the room. -/
theorem wanted_le (hfull : q.capacity ≤ q.size) (hroom : q.size < room limit) : q.wanted ≤ limit := by
  have hfour : 4 ≤ limit := by
    obtain hlt | hfour := Nat.lt_or_ge limit 4
    · rw [room_of_lt hlt] at hroom
      exact absurd hroom (Nat.not_lt_zero _)
    · exact hfour
  rw [room_of_le hfour] at hroom
  obtain hzero | ⟨j, hj⟩ := h.doubled
  · rw [wanted, hzero]
    exact hfour
  · have hless : 4 * 2 ^ j < 4 * 2 ^ (limit / 4).log2 := by omega
    have hnext : j + 1 ≤ (limit / 4).log2 :=
      (Nat.pow_lt_pow_iff_right (by omega)).1 (Nat.lt_of_mul_lt_mul_left hless)
    have hdoubled := (four_mul_two_pow_le_iff hfour (j + 1)).2 hnext
    have hone : 1 ≤ 2 ^ j := Nat.one_le_two_pow
    rw [wanted, hj]
    omega

theorem wanted_doubled : ∃ j, q.wanted = 4 * 2 ^ j := by
  obtain hzero | ⟨j, hj⟩ := h.doubled
  · exact ⟨0, by rw [wanted, hzero]; rfl⟩
  · refine ⟨j + 1, ?_⟩
    have hone : 1 ≤ 2 ^ j := Nat.one_le_two_pow
    rw [wanted, hj]
    omega

theorem pop {a : α} {q' : Queue α} (hpop : q.pop? = some (a, q')) : q'.Grown limit := by
  obtain ⟨hitems, hcapacity⟩ := pop?_eq_some hpop
  have hsize : q'.size + 1 = q.size := by
    rw [← length_items, ← length_items, hitems, List.length_cons]
  refine ⟨?_, hcapacity ▸ h.doubled, hcapacity ▸ h.granted⟩
  have hfull := h.full
  omega

/-- There is room for one more as long as the queue holds less than the room. -/
theorem push (hroom : q.size < room limit) (a : α) :
    ∃ q', q.push (.atMost (some limit)) a = .ok q' ∧ q'.items = q.items ++ [a] ∧ q'.Grown limit := by
  obtain hless | hfull := Nat.lt_or_ge q.size q.capacity
  · refine ⟨q.append a q.capacity, by rw [Queue.push, if_pos hless], items_append q a _, ?_⟩
    exact ⟨by rw [size_append]; exact hless, h.doubled, h.granted⟩
  · have hwanted := h.wanted_le hfull hroom
    have hroomy : q.size < q.wanted := by
      have hcapacity := h.full
      rw [wanted]
      omega
    refine ⟨q.append a q.wanted, ?_, items_append q a _, ?_⟩
    · rw [Queue.push, if_neg (Nat.not_lt.2 hfull), Allocator.atMost_some, if_pos (by simpa using hwanted)]
    · exact ⟨by rw [size_append]; exact hroomy, .inr h.wanted_doubled, hwanted⟩

/-- A queue that holds as much as the room is refused one more. -/
theorem push_refused (hroom : room limit ≤ q.size) (a : α) :
    q.push (.atMost (some limit)) a = .error .refused := by
  have hcapacity := h.capacity_le
  have hfull := h.full
  have hwanted : ¬ q.wanted ≤ limit := by
    intro hgranted
    obtain ⟨j, hj⟩ := h.wanted_doubled
    have hlarger : q.wanted ≤ room limit := hj ▸ le_room (hj ▸ hgranted)
    rw [wanted] at hlarger
    omega
  rw [Queue.push, if_neg (by omega), Allocator.atMost_some, if_neg (by simpa using hwanted)]

end Grown

end MemIndex.Walk.Queue
