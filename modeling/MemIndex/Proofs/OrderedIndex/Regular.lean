import MemIndex.Proofs.Arena.Accounted
import MemIndex.Proofs.Arena.Regular
import MemIndex.Proofs.OrderedIndex.Runs

/-!
# Insertions and removals on the way

Whatever the comparator answers, an update of an index that a run has built never reaches for a node that
is not there, holds no balance beyond two at any moment, starts levelling at two only, and levels with a
child to raise at hand. Afterwards every balance is within one again.
-/
namespace MemIndex

open Traced (accounts_after accounts_pure note)

variable {α : Type u}

theorem Tree.LiesIn.balance_le {a : Arena α} {t : Tree α} (ht : t.LiesIn a) (hbal : t.Balanced)
    {h : Handle} {node : Node α} (hm : h ∈ t.handles) (hnode : a.get? h = some node) :
    -1 ≤ node.balance ∧ node.balance ≤ 1 := by
  induction t with
  | leaf => cases hm
  | node l b x r ihl ihr =>
    obtain ⟨hx, hl, hr⟩ := ht
    obtain ⟨-, hlow, hhigh, hball, hbalr⟩ := hbal
    obtain hml | rfl | hmr : h ∈ l.handles ∨ h = x.handle ∨ h ∈ r.handles := by simpa using hm
    · exact ihl hl hball hml
    · rw [hx, Option.some.injEq] at hnode
      rw [← hnode]
      exact ⟨hlow, hhigh⟩
    · exact ihr hr hbalr hmr

namespace OrderedIndex

/-- An insertion writes the new node first, without links and level. -/
def insertTraced (index : OrderedIndex α) (item : α) : Traced (Inserted α) := do
  let ⟨cmp, arena, root⟩ := index
  let h := arena.nextHandle
  note [.written h 0]
  let grown ← Arena.insertBelowTraced cmp h arena.size (arena.insert (.single item)) root
  return ⟨⟨cmp, grown.arena, some grown.root⟩, h, grown.calls⟩

/-- A removal reads the unlinked node before its slot is freed. -/
def removeTraced (index : OrderedIndex α) (probe : α) : Traced (Removed α) := do
  let ⟨cmp, arena, root⟩ := index
  let shrunk ← Arena.removeBelowTraced cmp probe arena.size arena root
  match shrunk.removed with
  | none => return ⟨⟨cmp, shrunk.arena, shrunk.root⟩, none, shrunk.calls⟩
  | some h =>
    match shrunk.arena.get? h with
    | none =>
      note [.missed h]
      return ⟨⟨cmp, shrunk.arena, shrunk.root⟩, none, shrunk.calls⟩
    | some node =>
      note [.read h]
      return ⟨⟨cmp, shrunk.arena.erase h, shrunk.root⟩, some ⟨h, node.item⟩, shrunk.calls⟩

@[simp] theorem result_insertTraced (index : OrderedIndex α) (item : α) :
    (index.insertTraced item).result = index.insert item := by
  obtain ⟨cmp, arena, root⟩ := index
  simp only [insertTraced, OrderedIndex.insert, Traced.result_bind, Traced.result_note,
    Arena.result_insertBelowTraced, Traced.result_pure, Option.map_eq_bind]
  rfl

@[simp] theorem result_removeTraced (index : OrderedIndex α) (probe : α) :
    (index.removeTraced probe).result = index.remove probe := by
  obtain ⟨cmp, arena, root⟩ := index
  simp only [removeTraced, OrderedIndex.remove, Traced.result_bind,
    Arena.result_removeBelowTraced]
  cases Arena.removeBelow cmp probe arena.size arena root with
  | none => rfl
  | some shrunk =>
    obtain ⟨⟨arena', root', shrank⟩, removed, calls⟩ := shrunk
    cases removed with
    | none => rfl
    | some h => cases hnode : arena'.get? h <;> simp [hnode]

/-! ## Every change is told -/

theorem accounts_insertTraced {index : OrderedIndex α} (h : index.arena.Sound) (item : α) :
    (index.insertTraced item).Accounts index.arena (·.index.arena) := by
  obtain ⟨cmp, arena, root⟩ := index
  have hnew : (note [.written arena.nextHandle 0]).Accounts arena
      fun _ => arena.insert (.single item) := by
    rintro _ - x node hnode
    rw [Pool.lawful.get?_insert h] at hnode
    split at hnode
    · cases hnode
      rename_i he
      rw [he]
      exact .inr (List.mem_singleton_self _)
    · exact .inl hnode
  exact hnew.bind fun _ => Arena.accounts_insertBelowTraced.bind fun _ => accounts_pure rfl

theorem accounts_removeTraced (index : OrderedIndex α) (probe : α) :
    (index.removeTraced probe).Accounts index.arena (·.index.arena) := by
  obtain ⟨cmp, arena, root⟩ := index
  refine Arena.accounts_removeBelowTraced.bind fun shrunk => ?_
  split
  · exact accounts_pure rfl
  · rename_i h hremoved
    split
    · exact accounts_after fun _ => accounts_pure rfl
    · refine accounts_after fun _ => ?_
      rintro _ ⟨⟩ x node hnode
      rw [Pool.lawful.get?_erase] at hnode
      split at hnode
      · cases hnode
      · exact .inl hnode

/-! ## Every trace is regular -/

namespace Linked

variable {index : OrderedIndex α} {t : Tree α} (h : index.Linked t)

include h

theorem balance_le {x : Handle} {node : Node α} (hnode : index.arena.get? x = some node) :
    -1 ≤ node.balance ∧ node.balance ≤ 1 :=
  h.lies.balance_le h.balanced ((h.held x).2 (Pool.contains_of_get? hnode)) hnode

theorem regular_insertTraced (item : α) : (index.insertTraced item).Regular := by
  obtain ⟨cmp, arena, root⟩ := index
  obtain rfl : t.link = root := h.root
  have hsound : arena.Sound := h.sound
  have hfresh : arena.nextHandle ∉ t.handles := h.nextHandle_fresh
  have hlies := h.lies.insert hsound (.single item) hfresh
  have hnew : (arena.insert (.single item)).get? arena.nextHandle = some (.single item) := by
    rw [Pool.lawful.get?_insert hsound, if_pos rfl]
  have hbelow : (Arena.insertBelowTraced cmp arena.nextHandle arena.size
      (arena.insert (.single item)) t.link).Regular :=
    Arena.regular_insertBelowTraced cmp ⟨arena.nextHandle, item⟩ hlies h.nodup h.balanced hnew hfresh
      h.height_le
  simpa [insertTraced, Act.Regular] using hbelow

theorem regular_removeTraced (probe : α) : (index.removeTraced probe).Regular := by
  obtain ⟨cmp, arena, root⟩ := index
  obtain rfl : t.link = root := h.root
  have hbelow : (Arena.removeBelowTraced cmp probe arena.size arena t.link).Regular :=
    Arena.regular_removeBelowTraced cmp probe h.lies h.nodup h.balanced h.height_le
  obtain ⟨shrunk, hrun, htook⟩ : ∃ shrunk,
      Arena.removeBelow cmp probe arena.size arena t.link = some shrunk ∧
        Arena.Took arena t (t.remove cmp probe) shrunk :=
    Arena.removeBelow_took cmp probe h.lies h.nodup h.height_le
  cases hr : (t.remove cmp probe).removed with
  | none =>
    have hremoved : shrunk.removed = none := by rw [htook.removed, hr, Option.map_none]
    simp [removeTraced, hbelow, hrun, hremoved]
  | some x =>
    have hremoved : shrunk.removed = some x.handle := by rw [htook.removed, hr, Option.map_some]
    obtain ⟨node, hnode, -⟩ := htook.exists_removed h.lies hr
    simp [removeTraced, hbelow, hrun, hremoved, hnode, Act.Regular]

end Linked

/-- After any run under any comparator, all balances are within one, and the next insertion or removal
comes to its end with a regular trace: it reaches for nodes of the arena only, stores no balance beyond two,
computes none that leaves a signed byte, levels at two only, and always has a child to raise. The trace
leaves no change of a balance out. -/
theorem run_acts_regularly (cmp : α → α → Ordering) (ops : List (Op α)) :
    ∃ index answers, (empty cmp).run ops = some (index, answers) ∧
      (∀ h node, index.arena.get? h = some node → -1 ≤ node.balance ∧ node.balance ≤ 1) ∧
      (∀ item, ∃ r, index.insert item = some r ∧ (index.insertTraced item).result = some r ∧
        (index.insertTraced item).Regular ∧
        index.arena.Accounted r.index.arena (index.insertTraced item).acts) ∧
      ∀ probe, ∃ r, index.remove probe = some r ∧ (index.removeTraced probe).result = some r ∧
        (index.removeTraced probe).Regular ∧
        index.arena.Accounted r.index.arena (index.removeTraced probe).acts := by
  obtain ⟨index, answers, t, hrun, h⟩ := (linked_empty cmp).run ops
  refine ⟨index, answers, hrun, fun _ _ => h.balance_le, fun item => ?_, fun probe => ?_⟩
  · obtain ⟨r, hinsert, -⟩ := h.insert item
    have hresult := (result_insertTraced index item).trans hinsert
    exact ⟨r, hinsert, hresult, h.regular_insertTraced item,
      accounts_insertTraced h.sound item r hresult⟩
  · obtain ⟨r, hremove, -⟩ := h.remove probe
    have hresult := (result_removeTraced index probe).trans hremove
    exact ⟨r, hremove, hresult, h.regular_removeTraced probe,
      accounts_removeTraced index probe r hresult⟩

/-- Where 25 comes in below 30, levelling 50 first turns 20 and raises 30 to its place: 30 leans by two then,
until 50 is turned as well. -/
example :
    let index? := (empty compare).run ([50, 20, 60, 10, 30].map .insert)
    (index?.map fun (index, _) => (index.insertTraced 25).acts.filter fun act =>
        act = .levelling (-2) ∨ act = .written ⟨4, 1⟩ (-2)) =
      some [.levelling (-2), .written ⟨4, 1⟩ (-2), .written ⟨4, 1⟩ (-2)] := by
  decide +kernel

end OrderedIndex

end MemIndex
