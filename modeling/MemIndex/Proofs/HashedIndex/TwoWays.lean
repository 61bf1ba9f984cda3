import MemIndex.Proofs.Chains.Filling
import MemIndex.Proofs.HashedIndex.Runs

/-!
# Two ways to one table

A value comes in by `set`, or by `emplace` and a store into the slot; an entry goes out by `delete`, or by
`take` and a release of the value. The two ways call the policies in another order, and one of them takes
its step on the ladder with an empty slot. They lead to one and the same index all the same, whatever the
functions answer and whatever is refused.
-/
namespace MemIndex.HashedIndex

variable {κ ν ρ : Type} [LoadScale ρ]

/-- An entry may come in filled, or be filled after the step on the ladder. -/
theorem addEntry_withValue {index : HashedIndex κ ν ρ} (hs : index.chains.entries.Sound)
    (alloc : Allocator) (spot : Spot) (entry : Entry κ ν) (value : Option (Held ν)) :
    index.addEntry alloc spot (entry.withValue value) =
      (index.addEntry alloc spot entry).map fun (index, h) =>
        (index.withChains fun chains => chains.setValue h value, h) := by
  obtain ⟨hash, same, keys, values, thresholds, chains⟩ := index
  simp only [addEntry, withChains?, Chains.link_withValue chains value hs]
  cases chains.link spot entry with
  | none => rfl
  | some linked =>
    obtain ⟨chains, h⟩ := linked
    simp only [Option.map_some, Option.bind_eq_bind, Option.bind_some, Chains.adjust_setValue]
    cases chains.adjust alloc thresholds <;> rfl

/-! ## In -/

section In

variable {index : HashedIndex κ ν ρ} {key : κ} {p : Probe κ ν} {value : ν} {held : Held ν}
  (hprobe : index.probe key = some p) (hstore : (index.values.store value).result = .ok held)
  (alloc : Allocator)

include hprobe hstore

section Known

variable {h : Handle} {entry : Entry κ ν} (hfound : p.spot.found = some h)
  (he : index.chains.entries.get? h = some entry)

include hfound he

theorem set_known :
    index.set alloc key value =
      some ⟨index.withChains fun chains => chains.setValue h (some held), .ok .updated,
        p.events ++ valueEvents (index.values.store value).calls ++
          valueEvents (index.values.releaseAll entry.value)⟩ := by
  simp [set, hprobe, hstore, hfound, he]

theorem emplace_store_known :
    index.emplaceWith alloc key [.store value] =
      some ⟨index.withChains fun chains => chains.setValue h (some held), .ok [.stored],
        p.events ++ (valueEvents (index.values.store value).calls ++
          valueEvents (index.values.releaseAll entry.value))⟩ := by
  simp [emplaceWith, emplace, hprobe, hfound, he, actAll, act, storeSlot, putSlot, slot?, hstore]

end Known

section New

variable {heldKey : Held κ} {index' : HashedIndex κ ν ρ} {h : Handle} {entry : Entry κ ν}
  (hfound : p.spot.found = none) (hcopy : (index.keys.store key).result = .ok heldKey)
  (hadd : index.addEntry alloc p.spot ⟨heldKey, none, p.hash, none⟩ = some (index', h))

include hfound hcopy hadd

theorem set_new (hs : index.chains.entries.Sound) :
    index.set alloc key value =
      some ⟨index'.withChains fun chains => chains.setValue h (some held), .ok .inserted,
        p.events ++ valueEvents (index.values.store value).calls ++
          keyEvents (index.keys.store key).calls⟩ := by
  have hfilled : index.addEntry alloc p.spot ⟨heldKey, some held, p.hash, none⟩ =
      some (index'.withChains fun chains => chains.setValue h (some held), h) := by
    have hvalue := addEntry_withValue hs alloc p.spot ⟨heldKey, none, p.hash, none⟩ (some held)
    rwa [hadd] at hvalue
  simp [set, hprobe, hstore, hfound, hcopy, hfilled]

/-- The slot of the new entry is empty, so nothing is released. -/
theorem emplace_store_new (he : index'.chains.entries.get? h = some entry)
    (hempty : entry.value = none) (hvalues : index'.values = index.values) :
    index.emplaceWith alloc key [.store value] =
      some ⟨index'.withChains fun chains => chains.setValue h (some held), .ok [.stored],
        p.events ++ keyEvents (index.keys.store key).calls ++
          valueEvents (index.values.store value).calls⟩ := by
  rw [← hvalues] at hstore ⊢
  simp [emplaceWith, emplace, hprobe, hfound, hcopy, hadd, he, actAll, act, storeSlot, putSlot,
    slot?, hempty, hstore, valueEvents]

end New

end In

/-- When the copies succeed, `set` leads where `emplace` and a store into the slot lead. -/
theorem exists_set_emplace {index : HashedIndex κ ν ρ} {chain : Nat → List Handle}
    (ht : index.chains.Threaded chain) (alloc : Allocator) (key : κ) (value : ν) :
    ∃ b s e, index.contains key = some b ∧ index.set alloc key value = some s ∧
      index.emplaceWith alloc key [.store value] = some e ∧
      ∀ held, (index.values.store value).result = .ok held →
        (b.result = true ∨ ∃ heldKey, (index.keys.store key).result = .ok heldKey) →
        s.result = .ok (if b.result then .updated else .inserted) ∧ e.result = .ok [.stored] ∧
          e.index = s.index ∧ e.events.Perm s.events := by
  obtain ⟨_, _, hset, -⟩ := exists_set alloc ht key value
  obtain ⟨s, hset, -⟩ := Option.map_eq_some_iff.1 hset
  obtain ⟨_, _, hemplace, -⟩ := exists_emplace alloc ht key [.store value]
  obtain ⟨e, hemplace, -⟩ := Option.map_eq_some_iff.1 hemplace
  obtain ⟨⟨_, spot, events⟩, hprobe, rfl, -, hspot⟩ := exists_probe ht key
  refine ⟨⟨index, spot.found.isSome, events⟩, s, e, by simp [contains, hprobe], hset, hemplace,
    fun held hstore hcopies => ?_⟩
  cases hspot with
  | hit split hit =>
    obtain rfl := Option.some.inj (hset.symm.trans (set_known hprobe hstore alloc rfl hit.get))
    obtain rfl := Option.some.inj
      (hemplace.symm.trans (emplace_store_known hprobe hstore alloc rfl hit.get))
    exact ⟨rfl, rfl, rfl, by simp⟩
  | missed missed =>
    obtain ⟨heldKey, hcopy⟩ := hcopies.resolve_left Bool.false_ne_true
    obtain ⟨c', _, hadd, -, hp, -⟩ :=
      exists_addEntry ht alloc key ⟨heldKey, none, index.hash key, none⟩ rfl rfl
    obtain ⟨entry, he, hempty⟩ := hp.get?_nextHandle ht.sound
    obtain rfl := Option.some.inj
      (hset.symm.trans (set_new hprobe hstore alloc rfl hcopy hadd ht.sound))
    obtain rfl := Option.some.inj
      (hemplace.symm.trans (emplace_store_new hprobe hstore alloc rfl hcopy hadd he hempty rfl))
    refine ⟨rfl, rfl, rfl, ?_⟩
    -- The key is copied before the value instead of after it.
    rw [List.append_assoc, List.append_assoc]
    exact List.perm_append_comm.append_left events

/-! ## Out -/

/-- `delete` does what `take` and a release of the value do. -/
theorem exists_delete_take {index : HashedIndex κ ν ρ} {chain : Nat → List Handle}
    (ht : index.chains.Threaded chain) (alloc : Allocator) (key : κ) :
    ∃ b d t, index.contains key = some b ∧ index.delete alloc key = some d ∧
      index.take alloc key = some t ∧ d.result = b.result ∧ d.index = t.index ∧
      d.events = t.events ++ valueEvents (index.values.releaseAll t.result) := by
  obtain ⟨⟨_, spot, events⟩, hprobe, -, -, hspot⟩ := exists_probe ht key
  have hcontains : index.contains key = some ⟨index, spot.found.isSome, events⟩ := by
    simp [contains, hprobe]
  cases hspot with
  | @hit _ _ h entry split hit =>
    obtain ⟨c', _, hdrop, -⟩ := exists_dropEntry ht alloc split hit.get
    refine ⟨_, ⟨index.withChains fun _ => c', true, events ++ index.releaseEntry entry⟩,
      ⟨index.withChains fun _ => c', entry.value,
        events ++ keyEvents (index.keys.release entry.key)⟩, hcontains,
      by simp [delete, hprobe, hdrop, releaseEntry], by simp [take, hprobe, hdrop], rfl, rfl, ?_⟩
    rw [releaseEntry, List.append_assoc]
  | missed missed =>
    have hdrop := dropEntry_missed alloc index (Chains.bucketOf index.bucketCount (index.hash key))
    exact ⟨_, ⟨index, false, events⟩, ⟨index, none, events⟩, hcontains,
      by simp [delete, hprobe, hdrop], by simp [take, hprobe, hdrop], rfl, rfl,
      (List.append_nil _).symm⟩

/-! ## Runs -/

/-- Whatever a run has done before, whatever the functions answer and whatever is refused: where the copies
succeed, `set` leaves the index just as `emplace` and a store into the slot do, with the same calls in
another order; and `delete` leaves it just as `take` does and frees what `take` and a release of its
answer free, in the same order, and answers what `contains` would have answered. -/
theorem run_two_ways (hash : κ → UInt64) (same : κ → κ → Bool) (keys : Policy κ) (values : Policy ν)
    (thresholds : Thresholds ρ) (ops : List (Allocator × Op κ ν)) :
    ∃ index replies, (start hash same keys values thresholds).run ops = some (index, replies) ∧
      (∀ alloc key value, ∃ b s e, index.contains key = some b ∧ index.set alloc key value = some s ∧
        index.emplaceWith alloc key [.store value] = some e ∧
        ∀ held, (values.store value).result = .ok held →
          (b.result = true ∨ ∃ heldKey, (keys.store key).result = .ok heldKey) →
          s.result = .ok (if b.result then .updated else .inserted) ∧ e.result = .ok [.stored] ∧
            e.index = s.index ∧ (policyCalls e.events).Perm (policyCalls s.events)) ∧
      ∀ alloc key, ∃ b d t, index.contains key = some b ∧ index.delete alloc key = some d ∧
        index.take alloc key = some t ∧ d.result = b.result ∧ d.index = t.index ∧
        d.events = t.events ++ valueEvents (values.releaseAll t.result) := by
  have hstart : (start hash same keys values thresholds).chains.Threaded fun _ => [] :=
    Chains.threaded_fresh
  obtain ⟨index, replies, chain, hrun, hconfig, ht, -⟩ := exists_run hstart ops
  have hkeys : index.keys = keys := hconfig.keys
  have hvalues : index.values = values := hconfig.values
  refine ⟨index, replies, hrun, fun alloc key value => ?_, fun alloc key => ?_⟩
  · obtain ⟨b, s, e, hb, hs, he, hsame⟩ := exists_set_emplace ht alloc key value
    rw [hkeys, hvalues] at hsame
    refine ⟨b, s, e, hb, hs, he, fun held hstore hcopies => ?_⟩
    obtain ⟨hset, hemplace, hindex, hevents⟩ := hsame held hstore hcopies
    exact ⟨hset, hemplace, hindex, hevents.filter _⟩
  · have hout := exists_delete_take ht alloc key
    rwa [hvalues] at hout

end MemIndex.HashedIndex
