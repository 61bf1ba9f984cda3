import MemIndex.Proofs.HashedIndex.Simulation

/-!
# Indexes that differ in their hashing

Two indexes are alike when they hold the same keys and values under the same handles and have the same
free slots, whatever their hash functions, their thresholds and their chains are. Lawful functions find
the entry of a key in both or in neither, so an operation answers the same, calls the policies the same
and leaves the indexes alike. Only a sweep, which goes along the chains, can tell them apart.
-/
namespace MemIndex

/-- What is stored in an entry: the key and the value. -/
def Entry.stored {κ ν : Type} (entry : Entry κ ν) : Held κ × Option (Held ν) :=
  (entry.key, entry.value)

namespace HashedIndex

open MemIndex.Chains (SameEntries)

variable {κ ν ρ ρ' : Type}

/-- The same keys and values stand under the same handles, and the same slots are free. -/
structure SameStored (p q : Pool (Entry κ ν)) : Prop where
  slots : Pool.SameSlots p q
  stored : ∀ h, (q.get? h).map Entry.stored = (p.get? h).map Entry.stored

theorem SameStored.refl (p : Pool (Entry κ ν)) : SameStored p p := ⟨.refl p, fun _ => rfl⟩

theorem sameStored_of_sameEntries {p q : Pool (Entry κ ν)} (h : SameEntries p q) : SameStored p q where
  slots := h.slots
  stored x := by
    have hbare := congrArg (Option.map Entry.stored) (h.bare x)
    rwa [Option.map_map, Option.map_map] at hbare

section Stored

variable {p q r : Pool (Entry κ ν)} (h : SameStored p q)

include h

theorem SameStored.symm : SameStored q p := ⟨Pool.lawful.slots.symm h.slots, fun x => (h.stored x).symm⟩

theorem SameStored.trans (h' : SameStored q r) : SameStored p r :=
  ⟨Pool.lawful.slots.trans h.slots h'.slots, fun x => (h'.stored x).trans (h.stored x)⟩

theorem SameStored.get? {x : Handle} {entry : Entry κ ν} (he : p.get? x = some entry) :
    ∃ entry', q.get? x = some entry' ∧ entry'.stored = entry.stored := by
  have hstored := h.stored x
  rw [he] at hstored
  exact Option.map_eq_some_iff.1 hstored

theorem SameStored.insert (hp : p.Sound) {entry entry' : Entry κ ν}
    (hentry : entry'.stored = entry.stored) : SameStored (p.insert entry) (q.insert entry') where
  slots := Pool.lawful.slots_insert h.slots entry entry'
  stored x := by
    rw [Pool.lawful.get?_insert hp, Pool.lawful.get?_insert (Pool.lawful.sound_slots h.slots hp),
      Pool.lawful.nextHandle_slots h.slots]
    split
    · exact congrArg some hentry
    · exact h.stored x

theorem SameStored.erase (x : Handle) : SameStored (p.erase x) (q.erase x) where
  slots := Pool.lawful.slots_erase h.slots x
  stored y := by
    rw [Pool.lawful.get?_erase, Pool.lawful.get?_erase]
    split
    · rfl
    · exact h.stored y

theorem SameStored.withValue (x : Handle) (value : Option (Held ν)) :
    SameStored (p.modify x (·.withValue value)) (q.modify x (·.withValue value)) where
  slots := Pool.lawful.slots_modify_congr h.slots x _ _
  stored y := by
    rw [Pool.lawful.get?_modify, Pool.lawful.get?_modify]
    split
    · have hkeys := congrArg (Option.map fun stored : Held κ × Option (Held ν) => (stored.1, value))
        (h.stored x)
      rwa [Option.map_map, Option.map_map] at hkeys ⊢
    · exact h.stored y

theorem SameStored.clear : SameStored p.clear q.clear where
  slots := by
    rw [Pool.clear, Pool.clear, h.slots.handles]
    exact Pool.lawful.slots_foldl_erase h.slots _
  stored x := by rw [Pool.get?_clear, Pool.get?_clear]

/-- What is stored is listed in the same order. -/
theorem SameStored.records : q.records.map Entry.stored = p.records.map Entry.stored :=
  Pool.map_records_congr h.stored

end Stored

/-! ## One operation -/

/-- What is called when a stored key and value are let go. -/
def releaseStored (keys : Policy κ) (values : Policy ν) (stored : Held κ × Option (Held ν)) :
    List (Event κ ν) :=
  keyEvents (keys.release stored.1) ++ valueEvents (values.releaseAll stored.2)

theorem releaseEntry_eq (index : HashedIndex κ ν ρ) (entry : Entry κ ν) :
    index.releaseEntry entry = releaseStored index.keys index.values entry.stored := rfl

theorem purge_events_eq (index : HashedIndex κ ν ρ) :
    index.purge.events =
      (index.chains.entries.records.map Entry.stored).flatMap
        (releaseStored index.keys index.values) := by
  rw [List.flatMap_map]
  rfl

/-- The indexes have the same equality and policies, lawful with either hash function, and hold the same
keys and values under the same handles. -/
structure Alike (index : HashedIndex κ ν ρ) (index' : HashedIndex κ ν ρ') : Prop where
  same : index'.same = index.same
  keys : index'.keys = index.keys
  values : index'.values = index.values
  lawful : Lawful index.hash index.same index.keys
  lawful' : Lawful index'.hash index'.same index'.keys
  keyed : Keyed index.hash index.same index.chains.entries
  keyed' : Keyed index'.hash index'.same index'.chains.entries
  sound : index.chains.entries.Sound
  stored : SameStored index.chains.entries index'.chains.entries

section Alike

variable {index : HashedIndex κ ν ρ} {index' : HashedIndex κ ν ρ'} (ha : Alike index index')
  {key : κ} {h h' : Handle} {entry entry' : Entry κ ν}

include ha

theorem Alike.symm : Alike index' index where
  same := ha.same.symm
  keys := ha.keys.symm
  values := ha.values.symm
  lawful := ha.lawful'
  lawful' := ha.lawful
  keyed := ha.keyed'
  keyed' := ha.keyed
  sound := Pool.lawful.sound_slots ha.stored.slots ha.sound
  stored := ha.stored.symm

/-- An entry that is hit in one index stands in the other one too, and is hit there. -/
theorem Alike.exists_hit (hit : Hit index key h entry) :
    ∃ entry', Hit index' key h entry' ∧ entry'.stored = entry.stored := by
  obtain ⟨entry', he', hstored⟩ := ha.stored.get? hit.get
  have hkey : entry'.key = entry.key := congrArg Prod.fst hstored
  have hsame : index'.same entry'.key.value key = true := by
    rw [hkey, ha.same]
    exact hit.hits.2
  exact ⟨entry', ⟨he', (ha.keyed'.hashed he').trans (ha.lawful'.hash_eq hsame), hsame⟩, hstored⟩

theorem Alike.not_missed (hit : Hit index key h entry) : ¬Missed index' key := by
  obtain ⟨entry', hit', -⟩ := ha.exists_hit hit
  exact fun hmissed => hmissed h entry' hit'.get hit'.hits

theorem Alike.not_hit (hmissed : Missed index key) : ¬Hit index' key h entry :=
  fun hit => ha.symm.not_missed hit hmissed

/-- There is no more than one entry to hit. -/
theorem Alike.hit_eq (hit : Hit index key h entry) (hit' : Hit index' key h' entry') :
    h' = h ∧ entry'.stored = entry.stored := by
  obtain ⟨entry₁, hit₁, hstored⟩ := ha.exists_hit hit
  have hclass := ha.lawful'.equivalence.trans hit'.hits.2
    (ha.lawful'.equivalence.symm hit₁.hits.2)
  obtain rfl := ha.keyed'.apart hit'.get hit₁.get hclass
  obtain rfl := Option.some.inj (hit₁.get.symm.trans hit'.get)
  exact ⟨rfl, hstored⟩

/-- What is to be stored is copied with the same result. -/
theorem Alike.store_eq {value : ν} {r r' : Except TableError (Held ν)}
    (store : (index.values.store value).result = r)
    (store' : (index'.values.store value).result = r') : r' = r := by
  rw [ha.values, store] at store'
  exact store'.symm

theorem Alike.copy_eq {r r' : Except TableError (Held κ)} (copy : (index.keys.store key).result = r)
    (copy' : (index'.keys.store key).result = r') : r' = r := by
  rw [ha.keys, copy] at copy'
  exact copy'.symm

theorem Alike.releaseEntry (hstored : entry'.stored = entry.stored) :
    index'.releaseEntry entry' = index.releaseEntry entry := by
  rw [releaseEntry_eq, releaseEntry_eq, ha.keys, ha.values, hstored]

theorem Alike.pairs : index'.pairs = index.pairs := by
  have hplain := congrArg
    (List.map fun stored : Held κ × Option (Held ν) => (stored.1.value, stored.2.map Held.value))
    ha.stored.records
  rwa [List.map_map, List.map_map] at hplain

theorem Alike.size : index'.size = index.size := ha.stored.slots.size

/-- All that is let go is let go in the same order. -/
theorem Alike.purge_events : index'.purge.events = index.purge.events := by
  rw [purge_events_eq, purge_events_eq, ha.stored.records, ha.keys, ha.values]

end Alike

section Endings

variable {index : HashedIndex κ ν ρ} {index' : HashedIndex κ ν ρ'} (ha : Alike index index')
  {key : κ} {reply reply' : Reply κ ν} {p p' : Pool (Entry κ ν)} {calls calls' : List (Event κ ν)}

include ha

theorem Alike.set {value : ν} (hs : Step index (.set key value) reply p calls)
    (hs' : Step index' (.set key value) reply' p' calls') :
    reply' = reply ∧ calls' = calls ∧ SameStored p p' := by
  cases hs with
  | setRefused store =>
    cases hs' with
    | setRefused store' =>
      cases ha.store_eq store store'
      exact ⟨rfl, by rw [ha.values], ha.stored⟩
    | setUpdated store' _ | setKeyRefused store' _ _ | setInserted store' _ _ =>
      cases ha.store_eq store store'
  | setUpdated store hit =>
    cases hs' with
    | setRefused store' => cases ha.store_eq store store'
    | setUpdated store' hit' =>
      cases ha.store_eq store store'
      obtain ⟨rfl, hstored⟩ := ha.hit_eq hit hit'
      obtain ⟨-, hvalue⟩ := Prod.mk.inj hstored
      exact ⟨rfl, by rw [ha.values, hvalue], ha.stored.withValue _ _⟩
    | setKeyRefused _ missed' _ | setInserted _ missed' _ => exact absurd missed' (ha.not_missed hit)
  | setKeyRefused store missed copy =>
    cases hs' with
    | setRefused store' => cases ha.store_eq store store'
    | setUpdated _ hit' => exact absurd hit' (ha.not_hit missed)
    | setKeyRefused store' _ copy' =>
      cases ha.store_eq store store'
      cases ha.copy_eq copy copy'
      exact ⟨rfl, by rw [ha.values, ha.keys], ha.stored⟩
    | setInserted _ _ copy' => cases ha.copy_eq copy copy'
  | setInserted store missed copy =>
    cases hs' with
    | setRefused store' => cases ha.store_eq store store'
    | setUpdated _ hit' => exact absurd hit' (ha.not_hit missed)
    | setKeyRefused _ _ copy' => cases ha.copy_eq copy copy'
    | setInserted store' _ copy' =>
      cases ha.store_eq store store'
      cases ha.copy_eq copy copy'
      exact ⟨rfl, by rw [ha.values, ha.keys], ha.stored.insert ha.sound rfl⟩

theorem Alike.emplace {actions : List (SlotAction ν)}
    (hs : Step index (.emplace key actions) reply p calls)
    (hs' : Step index' (.emplace key actions) reply' p' calls') :
    reply' = reply ∧ calls' = calls ∧ SameStored p p' := by
  cases hs with
  | emplaceFound hit =>
    cases hs' with
    | emplaceFound hit' =>
      obtain ⟨rfl, hstored⟩ := ha.hit_eq hit hit'
      obtain ⟨-, hvalue⟩ := Prod.mk.inj hstored
      rw [ha.values, hvalue]
      exact ⟨rfl, rfl, ha.stored.withValue _ _⟩
    | emplaceRefused missed' _ | emplaceMade missed' _ => exact absurd missed' (ha.not_missed hit)
  | emplaceRefused missed copy =>
    cases hs' with
    | emplaceFound hit' => exact absurd hit' (ha.not_hit missed)
    | emplaceRefused _ copy' =>
      cases ha.copy_eq copy copy'
      exact ⟨rfl, by rw [ha.keys], ha.stored⟩
    | emplaceMade _ copy' => cases ha.copy_eq copy copy'
  | emplaceMade missed copy =>
    cases hs' with
    | emplaceFound hit' => exact absurd hit' (ha.not_hit missed)
    | emplaceRefused _ copy' => cases ha.copy_eq copy copy'
    | emplaceMade _ copy' =>
      cases ha.copy_eq copy copy'
      rw [ha.values, ha.keys]
      exact ⟨rfl, rfl, ha.stored.insert ha.sound rfl⟩

/-- An operation that is no sweep answers the same in indexes that are alike, calls the policies the same
and leaves the same keys and values stored. -/
theorem Alike.step {op : Op κ ν} (hop : op.isSweep = false) (hs : Step index op reply p calls)
    (hs' : Step index' op reply' p' calls') :
    reply' = reply ∧ calls' = calls ∧ SameStored p p' := by
  cases op with
  | set key value => exact ha.set hs hs'
  | emplace key actions => exact ha.emplace hs hs'
  | get key =>
    cases hs with
    | getFound hit =>
      cases hs' with
      | getFound hit' =>
        obtain ⟨-, hvalue⟩ := Prod.mk.inj (ha.hit_eq hit hit').2
        exact ⟨by rw [hvalue], rfl, ha.stored⟩
      | getMissed missed' => exact absurd missed' (ha.not_missed hit)
    | getMissed missed =>
      cases hs' with
      | getFound hit' => exact absurd hit' (ha.not_hit missed)
      | getMissed _ => exact ⟨rfl, rfl, ha.stored⟩
  | contains key =>
    cases hs with
    | containsFound hit =>
      cases hs' with
      | containsFound _ => exact ⟨rfl, rfl, ha.stored⟩
      | containsMissed missed' => exact absurd missed' (ha.not_missed hit)
    | containsMissed missed =>
      cases hs' with
      | containsFound hit' => exact absurd hit' (ha.not_hit missed)
      | containsMissed _ => exact ⟨rfl, rfl, ha.stored⟩
  | take key =>
    cases hs with
    | takeFound hit =>
      cases hs' with
      | takeFound hit' =>
        obtain ⟨rfl, hstored⟩ := ha.hit_eq hit hit'
        obtain ⟨hkey, hvalue⟩ := Prod.mk.inj hstored
        exact ⟨by rw [hvalue], by rw [ha.keys, hkey], ha.stored.erase _⟩
      | takeMissed missed' => exact absurd missed' (ha.not_missed hit)
    | takeMissed missed =>
      cases hs' with
      | takeFound hit' => exact absurd hit' (ha.not_hit missed)
      | takeMissed _ => exact ⟨rfl, rfl, ha.stored⟩
  | delete key =>
    cases hs with
    | deleteFound hit =>
      cases hs' with
      | deleteFound hit' =>
        obtain ⟨rfl, hstored⟩ := ha.hit_eq hit hit'
        exact ⟨rfl, ha.releaseEntry hstored, ha.stored.erase _⟩
      | deleteMissed missed' => exact absurd missed' (ha.not_missed hit)
    | deleteMissed missed =>
      cases hs' with
      | deleteFound hit' => exact absurd hit' (ha.not_hit missed)
      | deleteMissed _ => exact ⟨rfl, rfl, ha.stored⟩
  | sweep visit state => cases hop
  | purge =>
    cases hs
    cases hs'
    exact ⟨rfl, ha.purge_events, ha.stored.clear⟩
  | pairs =>
    cases hs
    cases hs'
    exact ⟨by rw [ha.pairs], rfl, ha.stored⟩
  | size =>
    cases hs
    cases hs'
    exact ⟨by rw [ha.size], rfl, ha.stored⟩

end Endings

/-! ## Runs -/

section Runs

variable [LoadScale ρ] [LoadScale ρ'] {index : HashedIndex κ ν ρ} {index' : HashedIndex κ ν ρ'}

/-- An operation leaves each entry with the hash of its key, and the functions as lawful as they were. -/
theorem Performed.keyed {alloc : Allocator} {op : Op κ ν} {done : Turn κ ν ρ}
    {chain : Nat → List Handle} (hdone : Performed alloc index op done chain)
    (lawful : Lawful index.hash index.same index.keys)
    (hk : Keyed index.hash index.same index.chains.entries) (hsound : index.chains.entries.Sound) :
    Lawful done.index.hash done.index.same done.index.keys ∧
      Keyed done.index.hash done.index.same done.index.chains.entries := by
  obtain ⟨p, hstep, hp⟩ := hdone.step
  rw [hdone.config.hash, hdone.config.same, hdone.config.keys]
  exact ⟨lawful, (hstep.keyed lawful hk hsound).keeps (keeps_of_sameEntries hp)⟩

theorem Alike.performed (ha : Alike index index') {alloc alloc' : Allocator} {op : Op κ ν}
    (hop : op.isSweep = false) {done : Turn κ ν ρ} {done' : Turn κ ν ρ'}
    {chain chain' : Nat → List Handle} (hdone : Performed alloc index op done chain)
    (hdone' : Performed alloc' index' op done' chain') :
    done'.reply = done.reply ∧ policyCalls done'.events = policyCalls done.events ∧
      Alike done.index done'.index := by
  obtain ⟨p, hstep, hp⟩ := hdone.step
  obtain ⟨p', hstep', hp'⟩ := hdone'.step
  obtain ⟨hreply, hcalls, hstored⟩ := ha.step hop hstep hstep'
  obtain ⟨hlawful, hkeyed⟩ := hdone.keyed ha.lawful ha.keyed ha.sound
  obtain ⟨hlawful', hkeyed'⟩ := hdone'.keyed ha.lawful' ha.keyed' ha.symm.sound
  refine ⟨hreply, hcalls, ?_⟩
  constructor
  · rw [hdone'.config.same, hdone.config.same, ha.same]
  · rw [hdone'.config.keys, hdone.config.keys, ha.keys]
  · rw [hdone'.config.values, hdone.config.values, ha.values]
  · exact hlawful
  · exact hlawful'
  · exact hkeyed
  · exact hkeyed'
  · exact hdone.threaded.sound
  · exact ((sameStored_of_sameEntries hp).symm.trans hstored).trans (sameStored_of_sameEntries hp')

/-- From indexes that are alike, runs of the same operations answer the same, call the policies the same
and lead to indexes that are alike. -/
theorem Alike.exists_course (ha : Alike index index') {chain chain' : Nat → List Handle}
    (ht : index.chains.Threaded chain) (ht' : index'.chains.Threaded chain')
    {ops ops' : List (Allocator × Op κ ν)} (hops : ops'.map Prod.snd = ops.map Prod.snd)
    (hplain : ∀ op ∈ ops.map Prod.snd, op.isSweep = false) :
    ∃ c c', index.course ops = some c ∧ index'.course ops' = some c' ∧ c'.replies = c.replies ∧
      policyCalls c'.events = policyCalls c.events ∧ Alike c.index c'.index := by
  induction ops generalizing index index' chain chain' ops' with
  | nil =>
    rw [List.map_nil, List.map_eq_nil_iff] at hops
    subst hops
    exact ⟨⟨index, [], []⟩, ⟨index', [], []⟩, rfl, rfl, rfl, rfl, ha⟩
  | cons first rest ih =>
    obtain ⟨alloc, op⟩ := first
    obtain ⟨⟨alloc', op'⟩, rest', rfl, hop, hrest⟩ := List.map_eq_cons_iff.1 hops
    dsimp only at hop
    subst hop
    rw [List.map_cons, List.forall_mem_cons] at hplain
    obtain ⟨done, chain₁, hturn, hdone⟩ := exists_turn alloc ht op'
    obtain ⟨done', chain₁', hturn', hdone'⟩ := exists_turn alloc' ht' op'
    obtain ⟨hreply, hcalls, ha₁⟩ := ha.performed hplain.1 hdone hdone'
    obtain ⟨c, c', hc, hc', hreplies, hmore, ha₂⟩ :=
      ih ha₁ hdone.threaded hdone'.threaded hrest hplain.2
    refine ⟨⟨c.index, done.reply :: c.replies, done.events ++ c.events⟩,
      ⟨c'.index, done'.reply :: c'.replies, done'.events ++ c'.events⟩, ?_, ?_, ?_, ?_, ha₂⟩
    · simp [course, hturn, hc]
    · simp [course, hturn', hc']
    · rw [hreply, hreplies]
    · rw [policyCalls_append, policyCalls_append, hcalls, hmore]

end Runs

/-- Which hash function an index has, when it takes a step on the ladder, and which requests for buckets
are refused does not show, as long as the functions are lawful and no sweep goes along the chains. After
the same operations, however many, the replies are the same, and the indexes are of the same size and list
the same pairs in the same order. The copy and free functions are called the same, up to the last entry
that is let go in the end. -/
theorem run_hides_hashing [LoadScale ρ] [LoadScale ρ'] {hash hash' : κ → UInt64} {same : κ → κ → Bool}
    {keys : Policy κ} (lawful : Lawful hash same keys) (lawful' : Lawful hash' same keys)
    (values : Policy ν) (thresholds : Thresholds ρ) (thresholds' : Thresholds ρ')
    {ops ops' : List (Allocator × Op κ ν)} (hops : ops'.map Prod.snd = ops.map Prod.snd)
    (hplain : ∀ op ∈ ops.map Prod.snd, op.isSweep = false) :
    ∃ c c', (start hash same keys values thresholds).course ops = some c ∧
      (start hash' same keys values thresholds').course ops' = some c' ∧
      c'.replies = c.replies ∧ c'.index.size = c.index.size ∧ c'.index.pairs = c.index.pairs ∧
      policyCalls c'.events = policyCalls c.events ∧
      policyCalls (c'.events ++ c'.index.purge.events) =
        policyCalls (c.events ++ c.index.purge.events) := by
  have hstart : Alike (start hash same keys values thresholds)
      (start hash' same keys values thresholds') :=
    ⟨rfl, rfl, rfl, lawful, lawful', keyed_empty, keyed_empty, Pool.lawful.sound_empty, .refl _⟩
  obtain ⟨c, c', hc, hc', hreplies, hcalls, ha⟩ :=
    hstart.exists_course Chains.threaded_fresh Chains.threaded_fresh hops hplain
  refine ⟨c, c', hc, hc', hreplies, ha.size, ha.pairs, hcalls, ?_⟩
  rw [policyCalls_append, policyCalls_append, hcalls, ha.purge_events]

/-- A hash function that tells no keys apart is lawful where any is. -/
theorem Lawful.blind {hash : κ → UInt64} {same : κ → κ → Bool} {keys : Policy κ}
    (lawful : Lawful hash same keys) : Lawful (fun _ => 0) same keys where
  equivalence := lawful.equivalence
  hash_eq _ := rfl
  copy := lawful.copy

/-- One run is granted all buckets and comes to the third rung; the other one is granted none, and all
its entries are in one chain. -/
theorem run_hides_hashing_blind :
    let ops : List (Op Nat Nat) := [.set 3 5, .emplace 41 [.storeOwned 7], .set 104 1, .set 27 2,
      .take 13, .set 56 8, .get 36, .delete 27]
    let index := start lastDigit sameDigit raiseSmall (.duplicate : Policy Nat)
      (⟨1 / 30, 1 / 200⟩ : Thresholds Rat)
    let index' := start (fun _ => 0) sameDigit raiseSmall (.duplicate : Policy Nat)
      (⟨2, 1 / 4⟩ : Thresholds Rat)
    Lawful lastDigit sameDigit raiseSmall ∧ Lawful (fun _ => 0) sameDigit raiseSmall ∧
    (∀ op ∈ ops, op.isSweep = false) ∧
    ∃ c c', index.course (ops.map fun op => (.unlimited, op)) = some c ∧
      index'.course (ops.map fun op => (fun _ => false, op)) = some c' ∧
      c'.replies = c.replies ∧ c'.index.pairs = c.index.pairs ∧
      policyCalls (c'.events ++ c'.index.purge.events) =
        policyCalls (c.events ++ c.index.purge.events) ∧
      c.index.bucketCount = 181 ∧ c'.index.bucketCount = 37 ∧
      c.index.pairs = [(66, some 8), (51, some 7)] := by
  intro ops index index'
  have hplain : ∀ op ∈ ops, op.isSweep = false := by simp [ops, Op.isSweep]
  have hsnd : ∀ alloc : Allocator,
      (ops.map fun op => (alloc, op)).map Prod.snd = ops := by
    intro alloc
    rw [List.map_map]
    exact List.map_id ops
  obtain ⟨c, c', hc, hc', hreplies, -, hpairs, -, hcalls⟩ :=
    run_hides_hashing lawful_digits lawful_digits.blind (.duplicate : Policy Nat)
      (⟨1 / 30, 1 / 200⟩ : Thresholds Rat) (⟨2, 1 / 4⟩ : Thresholds Rat)
      ((hsnd fun _ => false).trans (hsnd .unlimited).symm) (by rwa [hsnd])
  have hleft : (index.course (ops.map fun op => (.unlimited, op))).map
      (fun c => (c.index.bucketCount, c.index.pairs)) = some (181, [(66, some 8), (51, some 7)]) := by
    decide +kernel
  have hright : (index'.course (ops.map fun op => (fun _ => false, op))).map
      (fun c => c.index.bucketCount) = some 37 := by
    decide +kernel
  rw [hc, Option.map_some, Option.some.injEq, Prod.mk.injEq] at hleft
  rw [hc', Option.map_some, Option.some.injEq] at hright
  exact ⟨lawful_digits, lawful_digits.blind, hplain, c, c', hc, hc', hreplies, hpairs, hcalls,
    hleft.1, hright, hleft.2⟩

end HashedIndex

end MemIndex
