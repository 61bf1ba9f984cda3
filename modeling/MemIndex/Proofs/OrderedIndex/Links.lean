import MemIndex.OrderedIndex.Basic
import MemIndex.Proofs.Arena.Insertion
import MemIndex.Proofs.Arena.Removal
import MemIndex.Proofs.Tree.Balance

/-!
# The links of an ordered index

Whatever the comparator answers, the links of an index spell one balanced tree on exactly the nodes
that its arena holds. The operations keep it so: each of them does to the index what the same update
does to that tree, and none of them ever fails.
-/
namespace MemIndex.OrderedIndex

variable {α : Type u}

/-- The links of the index spell the tree, on all nodes of the arena. -/
structure Linked (index : OrderedIndex α) (t : Tree α) : Prop where
  sound : index.arena.Sound
  root : t.link = index.root
  lies : t.LiesIn index.arena
  nodup : t.handles.Nodup
  held : ∀ h, h ∈ t.handles ↔ index.contains h = true
  balanced : t.Balanced

theorem linked_empty (cmp : α → α → Ordering) : (empty cmp).Linked .leaf where
  sound := Pool.lawful.sound_empty
  root := rfl
  lies := trivial
  nodup := List.nodup_nil
  held h := by simp [empty, contains, Pool.contains]
  balanced := trivial

namespace Linked

variable {index : OrderedIndex α} {t : Tree α} (h : index.Linked t)

include h

/-! ## Reading -/

/-- The tree has every node of the arena, and each of them once. -/
theorem perm_handles : t.handles.Perm index.arena.handles :=
  (List.perm_ext_iff_of_nodup h.nodup (Pool.handles_nodup _)).2 fun x => by
    rw [h.held, Pool.mem_handles, contains]

theorem size_eq : index.size = t.size := by
  rw [size, Pool.size_eq_of_perm h.sound h.perm_handles, Tree.length_handles]

theorem height_le : t.height ≤ index.size := by
  rw [h.size_eq]
  exact t.height_le_size

theorem tree?_eq : index.tree? = some t := by
  rw [tree?, ← h.root]
  exact h.lies.treeBelow h.height_le

theorem isEmpty_iff : index.isEmpty = true ↔ index.size = 0 := by
  rw [isEmpty, Option.isNone_iff_eq_none, ← h.root, Tree.link_eq_none, h.size_eq]

theorem nextHandle_fresh : index.arena.nextHandle ∉ t.handles := by
  rw [h.held, contains, Pool.contains_nextHandle h.sound]
  exact Bool.false_ne_true

theorem get?_of_mem {x : Record α} (hx : x ∈ t.toList) : index.get? x.handle = some x.item :=
  h.lies.item hx

theorem find_eq (probe : α) : index.find probe = some (t.find index.cmp probe) := by
  rw [find, ← h.root]
  exact h.lies.findBelow index.cmp probe h.height_le

theorem extreme_eq (side : Side) : index.extreme side = some (t.extreme side) := by
  unfold extreme
  cases hr : index.root with
  | none =>
    cases t with
    | leaf => rfl
    | node l b x r => cases h.root.trans hr
  | some top =>
    have hsome : t.link = some top := h.root.trans hr
    have hbelow := h.lies.extremeBelow side hsome h.height_le
    cases t with
    | leaf => cases hsome
    | node l b x r =>
      exact congrArg (Option.map some) hbelow

end Linked

/-! ## Insertion -/

/-- What an insertion answers, and the tree that it leaves. -/
structure Entered (index : OrderedIndex α) (t : Tree α) (item : α) (r : Inserted α) : Prop where
  cmp : r.index.cmp = index.cmp
  handle : r.handle = index.arena.nextHandle
  fresh : index.contains r.handle = false
  issued : ∀ x, index.arena.Issued x → r.index.arena.Issued x
  calls : r.calls = (t.insert index.cmp ⟨r.handle, item⟩).calls
  linked : r.index.Linked (t.insert index.cmp ⟨r.handle, item⟩).tree

theorem Linked.insert {index : OrderedIndex α} {t : Tree α} (h : index.Linked t) (item : α) :
    ∃ r, index.insert item = some r ∧ Entered index t item r := by
  obtain ⟨cmp, arena, root⟩ := index
  obtain rfl : t.link = root := h.root
  have hsound : arena.Sound := h.sound
  have hfresh : arena.nextHandle ∉ t.handles := h.nextHandle_fresh
  have hlies := h.lies.insert hsound (.single item) hfresh
  have hnew : (arena.insert (.single item)).get? arena.nextHandle = some (.single item) := by
    rw [Pool.lawful.get?_insert hsound, if_pos rfl]
  obtain ⟨grown, hrun, hgrew⟩ := Arena.insertBelow_grew cmp ⟨arena.nextHandle, item⟩ hlies h.nodup
    hnew hfresh h.height_le
  have hissued : ∀ x, arena.Issued x → grown.arena.Issued x := fun x hx =>
    Pool.lawful.issued_slots hgrew.relinked.slots (Pool.lawful.issued_insert hsound _ hx)
  refine ⟨⟨⟨cmp, grown.arena, some grown.root⟩, arena.nextHandle, grown.calls⟩, ?_,
    rfl, rfl, Pool.contains_nextHandle hsound, hissued, hgrew.calls, ?_⟩
  · exact congrArg (Option.map _) hrun
  · constructor
    · exact Pool.lawful.sound_slots hgrew.relinked.slots (Pool.lawful.sound_insert h.sound _)
    · exact hgrew.link
    · exact hgrew.lies
    · exact Tree.nodup_handles_insert h.nodup hfresh
    · intro x
      rw [contains, hgrew.relinked.slots.contains, Tree.mem_handles_insert,
        Pool.contains_insert hsound, h.held, contains]
    · exact (Tree.growsFrom_insert cmp _ h.balanced).balanced

/-! ## Removal -/

/-- What a removal answers, and the tree that it leaves. -/
structure Left (index : OrderedIndex α) (t : Tree α) (probe : α) (r : Removed α) : Prop where
  cmp : r.index.cmp = index.cmp
  record : r.record = (t.remove index.cmp probe).removed
  issued : ∀ x, index.arena.Issued x → r.index.arena.Issued x
  calls : r.calls = (t.remove index.cmp probe).calls
  linked : r.index.Linked (t.remove index.cmp probe).tree

theorem Linked.remove {index : OrderedIndex α} {t : Tree α} (h : index.Linked t) (probe : α) :
    ∃ r, index.remove probe = some r ∧ Left index t probe r := by
  obtain ⟨cmp, arena, root⟩ := index
  obtain rfl : t.link = root := h.root
  obtain ⟨shrunk, hrun, htook⟩ : ∃ shrunk,
      Arena.removeBelow cmp probe arena.size arena t.link = some shrunk ∧
        Arena.Took arena t (t.remove cmp probe) shrunk :=
    Arena.removeBelow_took cmp probe h.lies h.nodup h.height_le
  have hbalanced := (Tree.shrinksFrom_remove cmp probe h.balanced).balanced
  have hsound := Pool.lawful.sound_slots htook.relinked.slots h.sound
  have hissued : ∀ y, arena.Issued y → shrunk.arena.Issued y := fun y =>
    Pool.lawful.issued_slots htook.relinked.slots
  cases hr : (t.remove cmp probe).removed with
  | none =>
    refine ⟨⟨⟨cmp, shrunk.arena, shrunk.root⟩, none, shrunk.calls⟩, ?_,
      rfl, hr.symm, hissued, htook.calls, ?_⟩
    · have hremoved : shrunk.removed = none := by rw [htook.removed, hr, Option.map_none]
      simp [OrderedIndex.remove, hrun, hremoved]
    · have hsame : (t.remove cmp probe).tree = t := by rw [Tree.remove_none hr]
      refine ⟨hsound, htook.link, htook.lies, ?_, fun y => ?_, hbalanced⟩
      · rw [hsame]
        exact h.nodup
      · rw [hsame, h.held, contains, contains, htook.relinked.slots.contains]
  | some x =>
    have hperm := Tree.handles_remove_some hr
    have hnodup := List.nodup_cons.1 (hperm.nodup_iff.1 h.nodup)
    refine ⟨⟨⟨cmp, shrunk.arena.erase x.handle, shrunk.root⟩, some x, shrunk.calls⟩, ?_,
      rfl, hr.symm, fun y hy => Pool.lawful.issued_erase (hissued y hy) x.handle, htook.calls, ?_⟩
    · have hremoved : shrunk.removed = some x.handle := by rw [htook.removed, hr, Option.map_some]
      obtain ⟨node, hnode, hitem⟩ := htook.exists_removed h.lies hr
      simp [OrderedIndex.remove, hrun, hremoved, hnode, hitem]
    · refine ⟨Pool.lawful.sound_erase hsound _, htook.link, htook.lies.erase hnodup.1, hnodup.2,
        fun y => ?_, hbalanced⟩
      have hmem := hperm.mem_iff (a := y)
      rw [h.held, contains, List.mem_cons] at hmem
      rw [contains, Pool.contains_erase, htook.relinked.slots.contains, hmem]
      constructor
      · intro hy
        exact ⟨fun he => hnodup.1 (he ▸ hy), .inr hy⟩
      · rintro ⟨hne, hy⟩
        exact hy.resolve_left hne

end MemIndex.OrderedIndex
