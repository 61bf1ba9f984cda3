import MemIndex.Proofs.OrderedIndex.Links

/-!
# Runs of an ordered index

A run performs a list of operations one after another. From the empty index on, no operation of a run
fails, and after each of them the links spell one balanced tree of the records that are held.
-/
namespace MemIndex.OrderedIndex

variable {α : Type u}

/-- An operation with its item or its probe. -/
inductive Op (α : Type u) where
  | insert (item : α)
  | remove (probe : α)
  | find (probe : α)
  | min
  | max

/-- The handle of a new record, or the record that was asked for, if there is one. -/
inductive Answer (α : Type u) where
  | handle (h : Handle)
  | record (found : Option (Record α))

def perform (index : OrderedIndex α) : Op α → Option (OrderedIndex α × Answer α)
  | .insert item => (index.insert item).map fun r => (r.index, .handle r.handle)
  | .remove probe => (index.remove probe).map fun r => (r.index, .record r.record)
  | .find probe => (index.find probe).map fun r => (index, .record r.found)
  | .min => index.min.map fun r => (index, .record r)
  | .max => index.max.map fun r => (index, .record r)

def run (index : OrderedIndex α) : List (Op α) → Option (OrderedIndex α × List (Answer α))
  | [] => some (index, [])
  | op :: ops => do
    let (index, answer) ← index.perform op
    let (index, answers) ← run index ops
    return (index, answer :: answers)

theorem run_concat {index index₁ index₂ : OrderedIndex α} {ops : List (Op α)}
    {answers : List (Answer α)} {op : Op α} {answer : Answer α}
    (hops : index.run ops = some (index₁, answers))
    (hop : index₁.perform op = some (index₂, answer)) :
    index.run (ops ++ [op]) = some (index₂, answers ++ [answer]) := by
  induction ops generalizing index answers with
  | nil =>
    cases hops
    simp [run, hop]
  | cons first ops ih =>
    simp only [run, Option.bind_eq_bind, Option.bind_eq_some_iff, Option.pure_def,
      Option.some.injEq] at hops
    obtain ⟨⟨index', answer'⟩, hfirst, ⟨index'', answers'⟩, hrest, he⟩ := hops
    cases he
    simp [run, hfirst, ih hrest]

/-- The records that the arena holds, by ascending slot. -/
def records (index : OrderedIndex α) : List (Record α) :=
  index.arena.entries.map fun (h, node) => ⟨h, node.item⟩

theorem mem_records {index : OrderedIndex α} {x : Record α} :
    x ∈ index.records ↔ index.get? x.handle = some x.item := by
  simp only [records, get?, List.mem_map, Prod.exists, Option.map_eq_some_iff]
  constructor
  · rintro ⟨h, node, hm, rfl⟩
    exact ⟨node, Pool.lawful.mem_entries.1 hm, rfl⟩
  · rintro ⟨node, hn, hi⟩
    exact ⟨x.handle, node, Pool.lawful.mem_entries.2 hn, by rw [hi]⟩

theorem handles_records (index : OrderedIndex α) :
    index.records.map Record.handle = index.arena.handles := by
  simp [records, Pool.handles]

theorem Linked.perm_records {index : OrderedIndex α} {t : Tree α} (h : index.Linked t) :
    t.toList.Perm index.records := by
  have hrecords : (index.records.map Record.handle).Nodup := by
    rw [handles_records]
    exact Pool.handles_nodup _
  apply (List.perm_ext_iff_of_nodup h.nodup.of_map hrecords.of_map).2
  intro x
  rw [mem_records]
  constructor
  · exact h.get?_of_mem
  · intro hx
    have hheld : index.contains x.handle = true := by
      obtain ⟨node, hnode, -⟩ := Option.map_eq_some_iff.1 hx
      exact Pool.contains_of_get? hnode
    obtain ⟨y, hy, he⟩ := List.mem_map.1 ((h.held _).2 hheld)
    have hitem := h.get?_of_mem hy
    rw [he, hx] at hitem
    obtain ⟨handle, item⟩ := x
    obtain ⟨handle', item'⟩ := y
    simp_all

/-- What an operation answers, and the tree that it leaves. -/
inductive Served (cmp : α → α → Ordering) (t : Tree α) : Op α → Answer α → Tree α → Prop
  | insert (item : α) {h : Handle} (fresh : h ∉ t.handles) :
    Served cmp t (.insert item) (.handle h) (t.insert cmp ⟨h, item⟩).tree
  | remove (probe : α) :
    Served cmp t (.remove probe) (.record (t.remove cmp probe).removed) (t.remove cmp probe).tree
  | find (probe : α) : Served cmp t (.find probe) (.record (t.find cmp probe).found) t
  | min : Served cmp t .min (.record (t.extreme .left)) t
  | max : Served cmp t .max (.record (t.extreme .right)) t

theorem Linked.perform {index : OrderedIndex α} {t : Tree α} (h : index.Linked t) (op : Op α) :
    ∃ index' answer t', index.perform op = some (index', answer) ∧ index'.cmp = index.cmp ∧
      Served index.cmp t op answer t' ∧ index'.Linked t' := by
  cases op with
  | insert item =>
    obtain ⟨r, hrun, hr⟩ := h.insert item
    have hfresh : r.handle ∉ t.handles := by
      rw [h.held, hr.fresh]
      exact Bool.false_ne_true
    exact ⟨_, _, _, by simp [OrderedIndex.perform, hrun], hr.cmp, .insert item hfresh,
      hr.linked⟩
  | remove probe =>
    obtain ⟨r, hrun, hr⟩ := h.remove probe
    have hserved : Served index.cmp t (.remove probe) (.record r.record)
        (t.remove index.cmp probe).tree := by
      rw [hr.record]
      exact .remove probe
    exact ⟨_, _, _, by simp [OrderedIndex.perform, hrun], hr.cmp, hserved, hr.linked⟩
  | find probe =>
    exact ⟨_, _, _, by simp [OrderedIndex.perform, h.find_eq], rfl, .find probe, h⟩
  | min =>
    exact ⟨_, _, _, by simp [OrderedIndex.perform, OrderedIndex.min, h.extreme_eq], rfl, .min, h⟩
  | max =>
    exact ⟨_, _, _, by simp [OrderedIndex.perform, OrderedIndex.max, h.extreme_eq], rfl, .max, h⟩

theorem Linked.run {index : OrderedIndex α} {t : Tree α} (h : index.Linked t) (ops : List (Op α)) :
    ∃ index' answers t', index.run ops = some (index', answers) ∧ index'.Linked t' := by
  induction ops generalizing index t with
  | nil => exact ⟨index, [], t, rfl, h⟩
  | cons op ops ih =>
    obtain ⟨index₁, answer, t₁, hop, -, -, h₁⟩ := h.perform op
    obtain ⟨index₂, answers, t₂, hops, h₂⟩ := ih h₁
    exact ⟨index₂, answer :: answers, t₂, by simp [OrderedIndex.run, hop, hops], h₂⟩

/-- Under any comparator no operation fails, and the links from the root form a balanced tree of exactly
the records that are held. -/
theorem run_spells_balanced_tree (cmp : α → α → Ordering) (ops : List (Op α)) :
    ∃ index answers t, (empty cmp).run ops = some (index, answers) ∧ index.tree? = some t ∧
      t.toList.Perm index.records ∧ t.handles.Nodup ∧ t.Balanced ∧ index.size = t.size ∧
      (index.root = none ↔ index.size = 0) ∧ (index.isEmpty = true ↔ index.size = 0) := by
  obtain ⟨index, answers, t, hrun, h⟩ := (linked_empty cmp).run ops
  have hroot : index.root = none ↔ index.size = 0 := by
    rw [← h.root, Tree.link_eq_none, h.size_eq]
  exact ⟨index, answers, t, hrun, h.tree?_eq, h.perm_records, h.nodup, h.balanced, h.size_eq,
    hroot, h.isEmpty_iff⟩

end MemIndex.OrderedIndex
