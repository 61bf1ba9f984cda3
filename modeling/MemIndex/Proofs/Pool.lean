import MemIndex.Proofs.Pool.Cells

/-!
# What a pool holds

A pool is seen through its look-ups and its listing. What each operation does to them follows from the
laws of a store.
-/
namespace MemIndex.Pool

variable {α : Type u}

/-! ## Look-ups -/

theorem contains_insert {p : Pool α} (hp : p.Sound) (a : α) (h : Handle) :
    (p.insert a).contains h = true ↔ h = p.nextHandle ∨ p.contains h = true := by
  rw [contains, lawful.get?_insert hp, contains]
  split
  · rename_i he
    simp [he]
  · rename_i hne
    simp [hne]

theorem contains_erase (p : Pool α) (h h' : Handle) :
    (p.erase h).contains h' = true ↔ h' ≠ h ∧ p.contains h' = true := by
  rw [contains, lawful.get?_erase, contains]
  split
  · rename_i he
    simp [he]
  · rename_i hne
    simp [hne]

theorem contains_nextHandle {p : Pool α} (hp : p.Sound) : p.contains p.nextHandle = false :=
  contains_eq_false.2 (lawful.get?_nextHandle hp)

theorem modify?_of_get? {p : Pool α} {h : Handle} {a : α} (hh : p.get? h = some a) (f : α → α) :
    p.modify? h f = some (p.modify h f) := by
  simp [modify?, contains_of_get? hh]

/-! ## What is held -/

theorem mem_handles {p : Pool α} {h : Handle} : h ∈ p.handles ↔ p.contains h = true := by
  rw [contains_iff, handles, List.mem_map]
  constructor
  · rintro ⟨⟨h, a⟩, hm, rfl⟩
    exact ⟨a, lawful.mem_entries.1 hm⟩
  · rintro ⟨a, ha⟩
    exact ⟨(h, a), lawful.mem_entries.2 ha, rfl⟩

theorem mem_handles_of_get? {p : Pool α} {h : Handle} {a : α} (hh : p.get? h = some a) :
    h ∈ p.handles := mem_handles.2 (contains_of_get? hh)

theorem handles_ascending (p : Pool α) :
    p.handles.Pairwise fun h h' => h.slot < h'.slot :=
  List.pairwise_map.2 (lawful.entries_ascending p)

theorem handles_nodup (p : Pool α) : p.handles.Nodup :=
  (handles_ascending p).imp fun hlt he => by simp [he] at hlt

theorem length_handles {p : Pool α} (hp : p.Sound) : p.handles.length = p.size := by
  rw [handles, List.length_map, lawful.length_entries hp]

theorem length_records {p : Pool α} (hp : p.Sound) : p.records.length = p.size := by
  rw [records, List.length_map, lawful.length_entries hp]

/-! ## Changes of what is held -/

theorem contains_foldl_erase (hs : List Handle) (p : Pool α) (h : Handle) :
    (hs.foldl erase p).contains h = true ↔ h ∉ hs ∧ p.contains h = true := by
  rw [contains, lawful.get?_foldl_erase, contains]
  split
  · rename_i hgone
    simp [hgone]
  · rename_i hkept
    simp [hkept]

@[simp] theorem get?_clear (p : Pool α) (h : Handle) : p.clear.get? h = none := by
  rw [clear, lawful.get?_foldl_erase]
  split
  · rfl
  · rename_i hn
    rw [mem_handles] at hn
    exact contains_eq_false.1 (Bool.eq_false_iff.2 hn)

theorem sound_clear {p : Pool α} (hp : p.Sound) : p.clear.Sound :=
  lawful.sound_foldl_erase hp p.handles

theorem entries_nodup (p : Pool α) : p.entries.Nodup := (handles_nodup p).of_map

/-- Pools are listed alike, up to the order, when they are looked up alike. -/
theorem perm_entries_iff {p : Pool α} {l : List (Handle × α)} (hl : l.Nodup) :
    p.entries.Perm l ↔ ∀ h a, p.get? h = some a ↔ (h, a) ∈ l := by
  rw [List.perm_ext_iff_of_nodup (entries_nodup p) hl]
  simp only [Prod.forall, lawful.mem_entries]

theorem entries_insert {p : Pool α} (hp : p.Sound) (a : α) :
    (p.insert a).entries.Perm ((p.nextHandle, a) :: p.entries) := by
  have hnew : (p.nextHandle, a) ∉ p.entries := by
    rw [lawful.mem_entries, lawful.get?_nextHandle hp]
    simp
  rw [perm_entries_iff (List.nodup_cons.2 ⟨hnew, entries_nodup p⟩)]
  intro h b
  rw [lawful.get?_insert hp, List.mem_cons, lawful.mem_entries, Prod.mk.injEq]
  split
  · rename_i he
    rw [he, lawful.get?_nextHandle hp]
    simp [eq_comm]
  · rename_i hne
    simp [hne]

theorem entries_erase {p : Pool α} {h : Handle} {a : α} (hh : p.get? h = some a) :
    p.entries.Perm ((h, a) :: (p.erase h).entries) := by
  have hgone : (h, a) ∉ (p.erase h).entries := by
    rw [lawful.mem_entries, lawful.get?_erase, if_pos rfl]
    simp
  rw [perm_entries_iff (List.nodup_cons.2 ⟨hgone, entries_nodup _⟩)]
  intro h' b
  rw [List.mem_cons, lawful.mem_entries, lawful.get?_erase, Prod.mk.injEq]
  by_cases he : h' = h
  · simp [he, hh, eq_comm]
  · simp [he]

/-- The handles of a pool are the only handles without repetition that name just what it holds. -/
theorem perm_handles_iff {p : Pool α} {hs : List Handle} (hn : hs.Nodup) :
    p.handles.Perm hs ↔ ∀ h, p.contains h = true ↔ h ∈ hs := by
  rw [List.perm_ext_iff_of_nodup (handles_nodup p) hn]
  simp only [mem_handles]

/-- Pools that hold records under the same handles list them in the same order. -/
theorem handles_congr {p q : Pool α} (h : ∀ x, q.contains x = p.contains x) :
    q.handles = p.handles :=
  List.Perm.eq_of_pairwise (fun _ _ _ _ hlt hgt => absurd hlt (Nat.lt_asymm hgt))
    (handles_ascending q) (handles_ascending p)
    ((perm_handles_iff (handles_nodup p)).2 fun x => by rw [h, mem_handles])

theorem SameSlots.handles {p q : Pool α} (h : SameSlots p q) : q.handles = p.handles :=
  handles_congr h.contains

theorem handles_insert {p : Pool α} (hp : p.Sound) (a : α) :
    (p.insert a).handles.Perm (p.nextHandle :: p.handles) :=
  (entries_insert hp a).map Prod.fst

theorem handles_erase {p : Pool α} {h : Handle} {a : α} (hh : p.get? h = some a) :
    p.handles.Perm (h :: (p.erase h).handles) :=
  (entries_erase hh).map Prod.fst

theorem handles_foldl_erase {p : Pool α} {hs : List Handle} (hperm : hs.Perm p.handles)
    (gone : List Handle) : (gone.foldl erase p).handles.Perm (hs.diff gone) := by
  have hn : hs.Nodup := hperm.nodup_iff.2 (handles_nodup p)
  rw [perm_handles_iff hn.diff]
  intro h
  rw [contains, lawful.get?_foldl_erase, hn.mem_sdiff_iff, hperm.mem_iff, mem_handles, contains]
  by_cases hg : h ∈ gone <;> simp [hg]

/-- The records stand in the order of their handles. -/
theorem filterMap_get?_handles (p : Pool α) : p.handles.filterMap p.get? = p.records := by
  have hget : ∀ e ∈ p.entries, p.get? e.1 = some e.2 := fun e he => lawful.mem_entries.1 he
  rw [handles, List.filterMap_map, records, ← List.filterMap_eq_map]
  exact List.filterMap_congr fun e he => hget e he

/-- What look-ups tell of the records, a listing tells of them in the same order. -/
theorem map_records_congr {β : Type v} {p q : Pool α} {f : α → β}
    (h : ∀ x, (q.get? x).map f = (p.get? x).map f) : q.records.map f = p.records.map f := by
  have hheld : ∀ x, q.contains x = p.contains x := fun x => by
    simpa [contains] using congrArg Option.isSome (h x)
  rw [← filterMap_get?_handles, ← filterMap_get?_handles, List.map_filterMap, List.map_filterMap,
    handles_congr hheld]
  exact List.filterMap_congr fun x _ => h x

/-- Pools that hold the same number under each handle have the same size. -/
theorem size_eq_of_perm {p : Pool α} (hp : p.Sound) {hs : List Handle}
    (hperm : hs.Perm p.handles) : p.size = hs.length := by
  rw [hperm.length_eq, length_handles hp]

/-! ## Counting -/

theorem size_insert {p : Pool α} (hp : p.Sound) (a : α) : (p.insert a).size = p.size + 1 := by
  rw [← length_handles (lawful.sound_insert hp a), ← length_handles hp, (handles_insert hp a).length_eq,
    List.length_cons]

theorem size_erase {p : Pool α} (hp : p.Sound) {h : Handle} (hh : p.contains h = true) :
    (p.erase h).size + 1 = p.size := by
  obtain ⟨a, ha⟩ := contains_iff.1 hh
  rw [← length_handles (lawful.sound_erase hp h), ← length_handles hp, (handles_erase ha).length_eq,
    List.length_cons]

theorem size_foldl_erase {p : Pool α} (hp : p.Sound) {gone : List Handle} (hn : gone.Nodup)
    (hheld : ∀ h ∈ gone, p.contains h = true) :
    (gone.foldl erase p).size + gone.length = p.size := by
  induction gone generalizing p with
  | nil => rfl
  | cons x gone ih =>
    obtain ⟨hx, hn⟩ := List.nodup_cons.1 hn
    have hrest : ∀ h ∈ gone, (p.erase x).contains h = true := fun h hh =>
      (contains_erase p x h).2
        ⟨fun he => hx (he ▸ hh), hheld h (List.mem_cons_of_mem x hh)⟩
    have hone := size_erase hp (hheld x (List.mem_cons_self ..))
    have hothers := ih (lawful.sound_erase hp x) hn hrest
    rw [List.foldl_cons, List.length_cons]
    omega

@[simp] theorem size_clear {p : Pool α} (hp : p.Sound) : p.clear.size = 0 := by
  have hall := size_foldl_erase hp (handles_nodup p) fun h hh => mem_handles.1 hh
  rw [length_handles hp] at hall
  rw [clear]
  omega

end MemIndex.Pool
