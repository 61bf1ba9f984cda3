import MemIndex.Proofs.HashedIndex.Sweeps

/-!
# The ways in which an operation ends

Every operation ends in one of a few ways, which are told by where the search for its key ended and by
what the policies answer. Each way gives the reply, what the pool holds afterwards and the calls of the
policies' functions; the links and the step on the ladder do not matter to it.
-/
namespace MemIndex.HashedIndex

open MemIndex.Chains (SameEntries Hits)

variable {κ ν ρ : Type}

inductive Op (κ ν : Type) where
  | set (key : κ) (value : ν)
  /-- Finds or makes the entry of a key and acts on its slot. -/
  | emplace (key : κ) (actions : List (SlotAction ν))
  | get (key : κ)
  | contains (key : κ)
  | take (key : κ)
  | delete (key : κ)
  | sweep {σ : Type} (visit : EntryVisitor κ ν σ) (state : σ)
  | purge
  | pairs
  | size

inductive Reply (κ ν : Type) where
  | stored (result : Except TableError Change)
  | slot (result : Except TableError (List (SlotReply ν)))
  | value (value : Option ν)
  | contained (found : Bool)
  | taken (value : Option (Held ν))
  | deleted (found : Bool)
  | swept {σ : Type} (result : Except TableError Unit) (state : σ)
  | purged
  | pairs (pairs : List (κ × Option ν))
  | size (size : Nat)

/-- The key that the operation is given. -/
def Op.key? : Op κ ν → Option κ
  | .set key _ | .emplace key _ | .get key | .contains key | .take key | .delete key => some key
  | _ => none

def Op.isPurge : Op κ ν → Bool
  | .purge => true
  | _ => false

def Op.isSweep : Op κ ν → Bool
  | .sweep _ _ => true
  | _ => false

def perform [LoadScale ρ] (index : HashedIndex κ ν ρ) (alloc : Allocator) :
    Op κ ν → Option (HashedIndex κ ν ρ × Reply κ ν)
  | .set key value => (index.set alloc key value).map fun r => (r.index, .stored r.result)
  | .emplace key actions =>
    (index.emplaceWith alloc key actions).map fun r => (r.index, .slot r.result)
  | .get key => (index.get key).map fun r => (r.index, .value r.result)
  | .contains key => (index.contains key).map fun r => (r.index, .contained r.result)
  | .take key => (index.take alloc key).map fun r => (r.index, .taken r.result)
  | .delete key => (index.delete alloc key).map fun r => (r.index, .deleted r.result)
  | .sweep visit state =>
    (index.sweep alloc visit state).map fun r => (r.index, .swept r.result r.state)
  | .purge => some (index.purge.index, .purged)
  | .pairs => some (index, .pairs index.pairs)
  | .size => some (index, .size index.size)

/-- An operation done: the index after it, its reply and the calls made. -/
structure Turn (κ ν ρ : Type) where
  index : HashedIndex κ ν ρ
  reply : Reply κ ν
  events : List (Event κ ν)

def turn [LoadScale ρ] (index : HashedIndex κ ν ρ) (alloc : Allocator) :
    Op κ ν → Option (Turn κ ν ρ)
  | .set key value => (index.set alloc key value).map fun r => ⟨r.index, .stored r.result, r.events⟩
  | .emplace key actions =>
    (index.emplaceWith alloc key actions).map fun r => ⟨r.index, .slot r.result, r.events⟩
  | .get key => (index.get key).map fun r => ⟨r.index, .value r.result, r.events⟩
  | .contains key => (index.contains key).map fun r => ⟨r.index, .contained r.result, r.events⟩
  | .take key => (index.take alloc key).map fun r => ⟨r.index, .taken r.result, r.events⟩
  | .delete key => (index.delete alloc key).map fun r => ⟨r.index, .deleted r.result, r.events⟩
  | .sweep visit state =>
    (index.sweep alloc visit state).map fun r => ⟨r.index, .swept r.result r.state, r.events⟩
  | .purge => some ⟨index.purge.index, .purged, index.purge.events⟩
  | .pairs => some ⟨index, .pairs index.pairs, []⟩
  | .size => some ⟨index, .size index.size, []⟩

theorem perform_eq_turn [LoadScale ρ] (index : HashedIndex κ ν ρ) (alloc : Allocator) (op : Op κ ν) :
    index.perform alloc op = (index.turn alloc op).map fun t => (t.index, t.reply) := by
  cases op <;> simp [perform, turn, Option.map_map, Function.comp_def]

/-! ## Calls of the policies -/

def Event.isPolicyCall : Event κ ν → Bool
  | .hashed _ | .compared _ _ => false
  | .key _ | .value _ => true

/-- The calls of copy and free functions among the events. -/
def policyCalls (events : List (Event κ ν)) : List (Event κ ν) := events.filter Event.isPolicyCall

@[simp] theorem policyCalls_append (events events' : List (Event κ ν)) :
    policyCalls (events ++ events') = policyCalls events ++ policyCalls events' :=
  List.filter_append ..

@[simp] theorem policyCalls_keyEvents (calls : List (Call κ)) :
    policyCalls (keyEvents calls : List (Event κ ν)) = keyEvents calls := by
  simp [policyCalls, keyEvents, List.filter_map, Function.comp_def, Event.isPolicyCall]

@[simp] theorem policyCalls_valueEvents (calls : List (Call ν)) :
    policyCalls (valueEvents calls : List (Event κ ν)) = valueEvents calls := by
  simp [policyCalls, valueEvents, List.filter_map, Function.comp_def, Event.isPolicyCall]

@[simp] theorem policyCalls_releaseEntry (index : HashedIndex κ ν ρ) (entry : Entry κ ν) :
    policyCalls (index.releaseEntry entry) = index.releaseEntry entry := by
  simp [releaseEntry]

theorem policyCalls_flatMap_releaseEntry (index : HashedIndex κ ν ρ) (entries : List (Entry κ ν)) :
    policyCalls (entries.flatMap index.releaseEntry) = entries.flatMap index.releaseEntry := by
  induction entries with
  | nil => rfl
  | cons entry entries ih => simp [ih]

@[simp] theorem policyCalls_released (index : HashedIndex κ ν ρ) (p : Pool (Entry κ ν))
    (hs : List Handle) : policyCalls (index.released p hs) = index.released p hs := by
  rw [released_eq, policyCalls_flatMap_releaseEntry]

/-- A search calls no policy. -/
@[simp] theorem policyCalls_search (key : κ) (asked : List κ) :
    policyCalls (.hashed key :: asked.map (.compared · key) : List (Event κ ν)) = [] := by
  simp [policyCalls, List.filter_map, Function.comp_def, Event.isPolicyCall]

/-! ## Endings -/

/-- The entry under the handle is one that a search for the key ends at. -/
structure Hit (index : HashedIndex κ ν ρ) (key : κ) (h : Handle) (entry : Entry κ ν) : Prop where
  get : index.chains.entries.get? h = some entry
  hits : Hits index.same (index.hash key) key entry

/-- No entry is one that a search for the key ends at. -/
def Missed (index : HashedIndex κ ν ρ) (key : κ) : Prop :=
  ∀ h entry, index.chains.entries.get? h = some entry → ¬Hits index.same (index.hash key) key entry

/-- How an operation may end: its reply, what the pool holds then, and the calls of the policies. -/
inductive Step (index : HashedIndex κ ν ρ) :
    Op κ ν → Reply κ ν → Pool (Entry κ ν) → List (Event κ ν) → Prop
  | setRefused {key value cause} (store : (index.values.store value).result = .error cause) :
    Step index (.set key value) (.stored (.error cause)) index.chains.entries
      (valueEvents (index.values.store value).calls)
  | setUpdated {key value held h entry} (store : (index.values.store value).result = .ok held)
    (hit : Hit index key h entry) :
    Step index (.set key value) (.stored (.ok .updated))
      (index.chains.entries.modify h (·.withValue (some held)))
      (valueEvents (index.values.store value).calls ++
        valueEvents (index.values.releaseAll entry.value))
  | setKeyRefused {key value held cause} (store : (index.values.store value).result = .ok held)
    (missed : Missed index key) (copy : (index.keys.store key).result = .error cause) :
    Step index (.set key value) (.stored (.error cause)) index.chains.entries
      (valueEvents (index.values.store value).calls ++ keyEvents (index.keys.store key).calls ++
        valueEvents (index.values.release held))
  | setInserted {key value held heldKey} (store : (index.values.store value).result = .ok held)
    (missed : Missed index key) (copy : (index.keys.store key).result = .ok heldKey) :
    Step index (.set key value) (.stored (.ok .inserted))
      (index.chains.entries.insert ⟨heldKey, some held, index.hash key, none⟩)
      (valueEvents (index.values.store value).calls ++ keyEvents (index.keys.store key).calls)
  | emplaceFound {key actions h entry} (hit : Hit index key h entry) :
    Step index (.emplace key actions)
      (.slot (.ok (slotRun index.values actions entry.value).1))
      (index.chains.entries.modify h
        (·.withValue (slotRun index.values actions entry.value).2))
      (valueEvents (slotRunCalls index.values actions entry.value))
  | emplaceRefused {key actions cause} (missed : Missed index key)
    (copy : (index.keys.store key).result = .error cause) :
    Step index (.emplace key actions) (.slot (.error cause)) index.chains.entries
      (keyEvents (index.keys.store key).calls)
  | emplaceMade {key actions heldKey} (missed : Missed index key)
    (copy : (index.keys.store key).result = .ok heldKey) :
    Step index (.emplace key actions) (.slot (.ok (slotRun index.values actions none).1))
      (index.chains.entries.insert
        ⟨heldKey, (slotRun index.values actions none).2, index.hash key, none⟩)
      (keyEvents (index.keys.store key).calls ++
        valueEvents (slotRunCalls index.values actions none))
  | getFound {key h entry} (hit : Hit index key h entry) :
    Step index (.get key) (.value (entry.value.map Held.value)) index.chains.entries []
  | getMissed {key} (missed : Missed index key) :
    Step index (.get key) (.value none) index.chains.entries []
  | containsFound {key h entry} (hit : Hit index key h entry) :
    Step index (.contains key) (.contained true) index.chains.entries []
  | containsMissed {key} (missed : Missed index key) :
    Step index (.contains key) (.contained false) index.chains.entries []
  | takeFound {key h entry} (hit : Hit index key h entry) :
    Step index (.take key) (.taken entry.value) (index.chains.entries.erase h)
      (keyEvents (index.keys.release entry.key))
  | takeMissed {key} (missed : Missed index key) :
    Step index (.take key) (.taken none) index.chains.entries []
  | deleteFound {key h entry} (hit : Hit index key h entry) :
    Step index (.delete key) (.deleted true) (index.chains.entries.erase h)
      (index.releaseEntry entry)
  | deleteMissed {key} (missed : Missed index key) :
    Step index (.delete key) (.deleted false) index.chains.entries []
  | sweep {σ : Type} {visit : EntryVisitor κ ν σ} {state : σ} {hs : List Handle}
    (perm : hs.Perm index.chains.entries.handles) {visited : Visited σ}
    (walk : visitAll visit (listed index.chains.entries hs) state = visited) :
    Step index (.sweep visit state)
      (.swept (if visited.verdict = .fail then .error .visitorFailed else .ok ()) visited.state)
      (visited.removed.foldl Pool.erase index.chains.entries)
      (index.released index.chains.entries visited.removed)
  | purge : Step index .purge .purged index.chains.entries.clear
      (index.chains.entries.records.flatMap index.releaseEntry)
  | pairs : Step index .pairs (.pairs index.pairs) index.chains.entries []
  | size : Step index .size (.size index.size) index.chains.entries []

/-- Every entry was there before, with its key and its hash. -/
def Keeps (p q : Pool (Entry κ ν)) : Prop :=
  ∀ h entry, q.get? h = some entry →
    ∃ old, p.get? h = some old ∧ old.key = entry.key ∧ old.hash = entry.hash

theorem Keeps.refl (p : Pool (Entry κ ν)) : Keeps p p := fun _ entry he => ⟨entry, he, rfl, rfl⟩

theorem keeps_modify (p : Pool (Entry κ ν)) (h : Handle) (held : Option (Held ν)) :
    Keeps p (p.modify h (·.withValue held)) := by
  intro x entry he
  rw [Pool.lawful.get?_modify] at he
  split at he
  · rename_i hx
    obtain ⟨old, hold, rfl⟩ := Option.map_eq_some_iff.1 he
    exact ⟨old, hx ▸ hold, rfl, rfl⟩
  · exact ⟨entry, he, rfl, rfl⟩

theorem keeps_foldl_erase (p : Pool (Entry κ ν)) (hs : List Handle) :
    Keeps p (hs.foldl Pool.erase p) := by
  intro x entry he
  rw [Pool.lawful.get?_foldl_erase] at he
  split at he
  · cases he
  · exact ⟨entry, he, rfl, rfl⟩

/-- An operation makes an entry for a key that it misses, or it makes none. -/
theorem Step.keeps_or_makes {index : HashedIndex κ ν ρ} {op : Op κ ν} {reply : Reply κ ν}
    {p : Pool (Entry κ ν)} {calls : List (Event κ ν)} (hs : Step index op reply p calls) :
    Keeps index.chains.entries p ∨
      ∃ key heldKey held, op.key? = some key ∧ Missed index key ∧
        (index.keys.store key).result = .ok heldKey ∧
        p = index.chains.entries.insert ⟨heldKey, held, index.hash key, none⟩ := by
  cases hs with
  | setUpdated _ _ | emplaceFound _ => exact .inl (keeps_modify _ _ _)
  | setInserted _ missed copy => exact .inr ⟨_, _, _, rfl, missed, copy, rfl⟩
  | emplaceMade missed copy => exact .inr ⟨_, _, _, rfl, missed, copy, rfl⟩
  | takeFound _ | deleteFound _ => exact .inl (keeps_foldl_erase _ [_])
  | sweep _ _ | purge => exact .inl (keeps_foldl_erase _ _)
  | setRefused | setKeyRefused | emplaceRefused | getFound | getMissed | containsFound
  | containsMissed | takeMissed | deleteMissed | pairs | size => exact .inl (Keeps.refl _)

/-- The level after an operation that leaves so many entries. Where their number has changed, one step on
the ladder follows, after a sweep as many as there are to take, and after a purge none. -/
def Op.relevel [LoadScale ρ] (alloc : Allocator) (thresholds : Thresholds ρ) (before : Level)
    (entries : Nat) : Op κ ν → Level
  | .purge => ⟨entries, before.rung⟩
  | .sweep _ _ =>
    if entries = before.entries then before
    else Level.settled alloc thresholds ⟨entries, before.rung⟩
  | _ =>
    if entries = before.entries then before
    else Level.adjusted alloc thresholds ⟨entries, before.rung⟩

theorem Op.relevel_same [LoadScale ρ] (alloc : Allocator) (thresholds : Thresholds ρ) (before : Level)
    (op : Op κ ν) : op.relevel alloc thresholds before before.entries = before := by
  cases op <;> simp [relevel]

theorem Op.relevel_single [LoadScale ρ] (alloc : Allocator) (thresholds : Thresholds ρ) (before : Level)
    {entries : Nat} {op : Op κ ν} (hop : op.key?.isSome = true) (hsize : entries ≠ before.entries) :
    op.relevel alloc thresholds before entries =
      Level.adjusted alloc thresholds ⟨entries, before.rung⟩ := by
  cases op <;> simp_all [relevel, key?]

end MemIndex.HashedIndex
