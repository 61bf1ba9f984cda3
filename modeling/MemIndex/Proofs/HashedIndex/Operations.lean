import MemIndex.Proofs.HashedIndex.Steps

/-!
# Operations of a hashed index

On chains that thread the pool no operation fails. Each ends in one of its ways, with chains that thread
the pool, and takes the steps on the ladder that the new number of entries calls for.
-/
namespace MemIndex.HashedIndex

open MemIndex.Chains (SameEntries Hits Threaded bucketOf order)

variable {κ ν ρ : Type}

/-! ## The parts of an operation -/

/-- The spot that a search ends at: an entry that is hit, or the end of the chain where there is none. -/
inductive Spotted (index : HashedIndex κ ν ρ) (chain : Nat → List Handle) (key : κ) : Spot → Prop
  | hit {before after : List Handle} {h : Handle} {entry : Entry κ ν}
    (split : chain (bucketOf index.bucketCount (index.hash key)) = before ++ h :: after)
    (hit : Hit index key h entry) :
    Spotted index chain key
      ⟨bucketOf index.bucketCount (index.hash key), before.getLast?, some h⟩
  | missed (missed : Missed index key) :
    Spotted index chain key
      ⟨bucketOf index.bucketCount (index.hash key),
        (chain (bucketOf index.bucketCount (index.hash key))).getLast?, none⟩

section Parts

variable {index : HashedIndex κ ν ρ} {chain : Nat → List Handle}
  (ht : index.chains.Threaded chain)

include ht

theorem exists_probe (key : κ) :
    ∃ p, index.probe key = some p ∧ p.hash = index.hash key ∧ policyCalls p.events = [] ∧
      Spotted index chain key p.spot := by
  obtain ⟨⟨spot, asked⟩, hrun, hl⟩ := ht.locate index.same (index.hash key) key
  refine ⟨⟨index.hash key, spot, .hashed key :: asked.map (.compared · key)⟩, by simp [probe, hrun],
    rfl, policyCalls_search key asked, ?_⟩
  cases hl with
  | found split get hits _ => exact .hit split ⟨get, hits⟩
  | missed miss =>
    refine .missed fun h entry he hhits => miss h ?_ entry he hhits
    have hmem := ht.mem_of_get? he
    rwa [hhits.1] at hmem

variable [LoadScale ρ] (alloc : Allocator)

theorem exists_addEntry (key : κ) (entry : Entry κ ν) (hhash : entry.hash = index.hash key)
    (hnext : entry.next = none) :
    ∃ c' chain', index.addEntry alloc
        ⟨bucketOf index.bucketCount (index.hash key),
          (chain (bucketOf index.bucketCount (index.hash key))).getLast?, none⟩ entry =
        some (index.withChains fun _ => c', index.chains.entries.nextHandle) ∧
      c'.Threaded chain' ∧ SameEntries (index.chains.entries.insert entry) c'.entries ∧
      c'.size = index.chains.size + 1 ∧
      c'.level = Level.adjusted alloc index.thresholds ⟨c'.size, index.chains.rung⟩ := by
  have hb : bucketOf index.chains.bucketCount entry.hash =
      bucketOf index.bucketCount (index.hash key) := by rw [hhash]; rfl
  obtain ⟨c₁, hlink, hr⟩ := ht.link hb hnext
  obtain ⟨c₂, chain₂, hadjust, hlevel, hp, ht₂⟩ :=
    hr.threaded.exists_adjust alloc index.thresholds
  have hsize : c₂.size = (index.chains.entries.insert entry).size := (hr.entries.trans hp).slots.size
  have hlevel₁ : c₁.level = ⟨c₂.size, index.chains.rung⟩ := by
    rw [Chains.level, ht.rung_eq hr.threaded hr.bucketCount, hsize, Chains.size,
      hr.entries.slots.size]
  refine ⟨c₂, chain₂, ?_, ht₂, hr.entries.trans hp, ?_, hlevel₁ ▸ hlevel⟩
  · simp [addEntry, withChains?, hlink, hadjust, withChains]
  · rw [hsize]
    exact Pool.size_insert ht.sound entry

theorem exists_dropEntry {key : κ} {before after : List Handle} {h : Handle} {entry : Entry κ ν}
    (split : chain (bucketOf index.bucketCount (index.hash key)) = before ++ h :: after)
    (he : index.chains.entries.get? h = some entry) :
    ∃ c' chain', index.dropEntry alloc
        ⟨bucketOf index.bucketCount (index.hash key), before.getLast?, some h⟩ =
        some (index.withChains fun _ => c', some entry) ∧
      c'.Threaded chain' ∧ SameEntries (index.chains.entries.erase h) c'.entries ∧
      c'.size + 1 = index.chains.size ∧
      c'.level = Level.adjusted alloc index.thresholds ⟨c'.size, index.chains.rung⟩ := by
  obtain ⟨c₁, hunlink, hr, -⟩ :=
    ht.unlink (Chains.bucketOf_lt ht.pos (index.hash key)) split he
  obtain ⟨c₂, chain₂, hadjust, hlevel, hp, ht₂⟩ :=
    hr.threaded.exists_adjust alloc index.thresholds
  have hsize : c₂.size = (index.chains.entries.erase h).size := (hr.entries.trans hp).slots.size
  have hlevel₁ : c₁.level = ⟨c₂.size, index.chains.rung⟩ := by
    rw [Chains.level, ht.rung_eq hr.threaded hr.bucketCount, hsize, Chains.size,
      hr.entries.slots.size]
  refine ⟨c₂, chain₂, ?_, ht₂, hr.entries.trans hp, ?_, hlevel₁ ▸ hlevel⟩
  · simp [dropEntry, withChains?, bucketCount, hunlink, hadjust, withChains]
  · rw [hsize]
    exact Pool.size_erase ht.sound (Pool.contains_of_get? he)

end Parts

theorem dropEntry_missed [LoadScale ρ] (alloc : Allocator) (index : HashedIndex κ ν ρ) (bucket : Nat)
    (prev : Option Handle) : index.dropEntry alloc ⟨bucket, prev, none⟩ = some (index, none) := by
  simp [dropEntry, withChains?, Chains.unlink]

/-! ## The operations -/

/-- The operation has ended in one of its ways, with chains that thread the pool. -/
structure Performed [LoadScale ρ] (alloc : Allocator) (index : HashedIndex κ ν ρ) (op : Op κ ν)
    (done : Turn κ ν ρ) (chain : Nat → List Handle) : Prop where
  config : SameConfig index done.index
  step : ∃ p, Step index op done.reply p (policyCalls done.events) ∧
    SameEntries p done.index.chains.entries
  threaded : done.index.chains.Threaded chain
  level : done.index.chains.level =
    op.relevel alloc index.thresholds index.chains.level done.index.size

section Operations

variable [LoadScale ρ] {index : HashedIndex κ ν ρ} {chain : Nat → List Handle} (alloc : Allocator)
  {op : Op κ ν} {reply : Reply κ ν} {events calls : List (Event κ ν)}

/-- An operation on one key that changes the number of entries takes one step on the ladder at most. -/
theorem performed_resized {index' : HashedIndex κ ν ρ} {p : Pool (Entry κ ν)}
    (hop : op.key?.isSome = true) (hcalls : policyCalls events = calls)
    (hstep : Step index op reply p calls) (hconfig : SameConfig index index')
    (hp : SameEntries p index'.chains.entries) (ht' : index'.chains.Threaded chain)
    (hsize : index'.chains.size ≠ index.chains.size)
    (hlevel : index'.chains.level =
      Level.adjusted alloc index.thresholds ⟨index'.chains.size, index.chains.rung⟩) :
    Performed alloc index op ⟨index', reply, events⟩ chain :=
  have hop' := Op.relevel_single alloc index.thresholds index.chains.level hop hsize
  ⟨hconfig, ⟨p, hcalls ▸ hstep, hp⟩, ht', hlevel.trans hop'.symm⟩

variable (ht : index.chains.Threaded chain)

include ht

theorem performed_unchanged (hcalls : policyCalls events = calls)
    (hstep : Step index op reply index.chains.entries calls) :
    Performed alloc index op ⟨index, reply, events⟩ chain :=
  ⟨.refl index, ⟨_, hcalls ▸ hstep, .refl _⟩, ht, (Op.relevel_same alloc _ index.chains.level op).symm⟩

/-- An operation that fills a slot and no more leaves the level as it is. -/
theorem performed_filled {index' : HashedIndex κ ν ρ} {h : Handle} {held : Option (Held ν)}
    (hcalls : policyCalls events = calls)
    (hstep : Step index op reply (index.chains.entries.modify h (·.withValue held)) calls)
    (hfilled : Filled index h held index') :
    Performed alloc index op ⟨index', reply, events⟩ chain := by
  refine ⟨hfilled.config, ⟨_, hcalls ▸ hstep, hfilled.entries⟩, hfilled.threaded chain ht, ?_⟩
  have hsize : index'.size = index.chains.level.entries := congrArg Level.entries hfilled.level
  rw [hsize, Op.relevel_same]
  exact hfilled.level

theorem exists_set (key : κ) (value : ν) :
    ∃ done chain', index.turn alloc (.set key value) = some done ∧
      Performed alloc index (.set key value) done chain' := by
  obtain ⟨⟨hash, spot, events⟩, hprobe, rfl, hsearch, hspot⟩ := exists_probe ht key
  dsimp only at hsearch
  cases hstore : (index.values.store value).result with
  | error cause =>
    exact ⟨⟨index, .stored (.error cause), _⟩, chain, by simp [turn, set, hprobe, hstore]; rfl,
      performed_unchanged alloc ht (by simp [hsearch]) (.setRefused hstore)⟩
  | ok held =>
    cases hspot with
    | @hit _ _ h entry split hit =>
      have he := hit.get
      exact ⟨⟨index.withChains fun chains => chains.setValue h (some held), .stored (.ok .updated), _⟩,
        chain, by simp [turn, set, hprobe, hstore, he]; rfl,
        performed_filled alloc ht (by simp [hsearch]) (.setUpdated hstore hit)
          (filled_putSlot index h (some held))⟩
    | missed missed =>
      cases hcopy : (index.keys.store key).result with
      | error cause =>
        exact ⟨⟨index, .stored (.error cause), _⟩, chain,
          by simp [turn, set, hprobe, hstore, hcopy]; rfl,
          performed_unchanged alloc ht (by simp [hsearch]) (.setKeyRefused hstore missed hcopy)⟩
      | ok heldKey =>
        obtain ⟨c', chain', hadd, ht', hp, hsize, hlevel⟩ :=
          exists_addEntry ht alloc key ⟨heldKey, some held, index.hash key, none⟩ rfl rfl
        exact ⟨⟨index.withChains fun _ => c', .stored (.ok .inserted), _⟩, chain',
          by simp [turn, set, hprobe, hstore, hcopy, hadd]; rfl,
          performed_resized alloc rfl (by simp [hsearch]) (.setInserted hstore missed hcopy) rfl hp ht'
            (hsize.trans_ne (Nat.succ_ne_self _)) hlevel⟩

theorem exists_emplace (key : κ) (actions : List (SlotAction ν)) :
    ∃ done chain', index.turn alloc (.emplace key actions) = some done ∧
      Performed alloc index (.emplace key actions) done chain' := by
  obtain ⟨⟨hash, spot, events⟩, hprobe, rfl, hsearch, hspot⟩ := exists_probe ht key
  dsimp only at hsearch
  cases hspot with
  | @hit _ _ h entry split hit =>
    have he := hit.get
    have hacted := actAll_acted he actions
    have hreplies := hacted.result
    refine ⟨⟨_, .slot (.ok (slotRun index.values actions entry.value).1),
      events ++ (actAll h actions index).events⟩, chain, ?_,
      performed_filled alloc ht ?_ (.emplaceFound hit) hacted.filled⟩
    · simp [turn, emplaceWith, emplace, hprobe, he, hreplies]
    · simp [hsearch, hacted.events]
  | missed missed =>
    cases hcopy : (index.keys.store key).result with
    | error cause =>
      exact ⟨⟨index, .slot (.error cause), _⟩, chain,
        by simp [turn, emplaceWith, emplace, hprobe, hcopy]; rfl,
        performed_unchanged alloc ht (by simp [hsearch]) (.emplaceRefused missed hcopy)⟩
    | ok heldKey =>
      obtain ⟨c', chain', hadd, ht', hp, hsize, hlevel⟩ :=
        exists_addEntry ht alloc key ⟨heldKey, none, index.hash key, none⟩ rfl rfl
      -- The new entry is found again, empty, whatever step the index has taken on the ladder.
      obtain ⟨entry, he, hvalue⟩ := hp.get?_nextHandle ht.sound
      have he' : (index.withChains fun _ => c').chains.entries.get?
          index.chains.entries.nextHandle = some entry := he
      have hacted := actAll_acted he' actions
      obtain ⟨acted, hrun⟩ : ∃ acted, actAll index.chains.entries.nextHandle actions
        (index.withChains fun _ => c') = acted := ⟨_, rfl⟩
      rw [hrun, hvalue] at hacted
      have hentries := (Chains.sameEntries_insert_withValue ht.sound
        ⟨heldKey, none, index.hash key, none⟩ (slotRun index.values actions none).2).trans
        ((hp.withValue _ _).trans hacted.filled.entries)
      have hlevel' := hacted.filled.level.trans hlevel
      have hsize' : acted.index.chains.size = c'.size := congrArg Level.entries hacted.filled.level
      rw [← hsize'] at hsize hlevel'
      refine ⟨⟨acted.index, .slot (.ok (slotRun index.values actions none).1),
        events ++ keyEvents (index.keys.store key).calls ++ acted.events⟩, chain', ?_,
        performed_resized alloc rfl ?_ (.emplaceMade missed hcopy) hacted.filled.config hentries
          (hacted.filled.threaded chain' ht') (hsize.trans_ne (Nat.succ_ne_self _)) hlevel'⟩
      · simp [turn, emplaceWith, emplace, hprobe, hcopy, hadd, he, hrun, hacted.result]
      · simp [hsearch, hacted.events]

theorem exists_get (key : κ) :
    ∃ done chain', index.turn alloc (.get key) = some done ∧
      Performed alloc index (.get key) done chain' := by
  obtain ⟨⟨hash, spot, events⟩, hprobe, -, hsearch, hspot⟩ := exists_probe ht key
  cases hspot with
  | @hit _ _ h entry split hit =>
    have he := hit.get
    exact ⟨⟨index, .value (entry.value.map Held.value), events⟩, chain,
      by simp [turn, get, hprobe, he], performed_unchanged alloc ht hsearch (.getFound hit)⟩
  | missed missed =>
    exact ⟨⟨index, .value none, events⟩, chain, by simp [turn, get, hprobe],
      performed_unchanged alloc ht hsearch (.getMissed missed)⟩

theorem exists_contains (key : κ) :
    ∃ done chain', index.turn alloc (.contains key) = some done ∧
      Performed alloc index (.contains key) done chain' := by
  obtain ⟨⟨hash, spot, events⟩, hprobe, -, hsearch, hspot⟩ := exists_probe ht key
  cases hspot with
  | hit split hit =>
    exact ⟨⟨index, .contained true, events⟩, chain, by simp [turn, contains, hprobe],
      performed_unchanged alloc ht hsearch (.containsFound hit)⟩
  | missed missed =>
    exact ⟨⟨index, .contained false, events⟩, chain, by simp [turn, contains, hprobe],
      performed_unchanged alloc ht hsearch (.containsMissed missed)⟩

theorem exists_take (key : κ) :
    ∃ done chain', index.turn alloc (.take key) = some done ∧
      Performed alloc index (.take key) done chain' := by
  obtain ⟨⟨hash, spot, events⟩, hprobe, -, hsearch, hspot⟩ := exists_probe ht key
  dsimp only at hsearch
  cases hspot with
  | @hit _ _ h entry split hit =>
    obtain ⟨c', chain', hdrop, ht', hp, hsize, hlevel⟩ := exists_dropEntry ht alloc split hit.get
    refine ⟨⟨index.withChains fun _ => c', .taken entry.value,
      events ++ keyEvents (index.keys.release entry.key)⟩, chain', ?_,
      performed_resized alloc rfl ?_ (.takeFound hit) rfl hp ht' (Nat.ne_of_lt (Nat.le_of_eq hsize)) hlevel⟩
    · simp [turn, take, hprobe, hdrop]
    · simp [hsearch]
  | missed missed =>
    exact ⟨⟨index, .taken none, events⟩, chain, by simp [turn, take, hprobe, dropEntry_missed],
      performed_unchanged alloc ht hsearch (.takeMissed missed)⟩

theorem exists_delete (key : κ) :
    ∃ done chain', index.turn alloc (.delete key) = some done ∧
      Performed alloc index (.delete key) done chain' := by
  obtain ⟨⟨hash, spot, events⟩, hprobe, -, hsearch, hspot⟩ := exists_probe ht key
  dsimp only at hsearch
  cases hspot with
  | @hit _ _ h entry split hit =>
    obtain ⟨c', chain', hdrop, ht', hp, hsize, hlevel⟩ := exists_dropEntry ht alloc split hit.get
    refine ⟨⟨index.withChains fun _ => c', .deleted true, events ++ index.releaseEntry entry⟩,
      chain', ?_,
      performed_resized alloc rfl ?_ (.deleteFound hit) rfl hp ht' (Nat.ne_of_lt (Nat.le_of_eq hsize)) hlevel⟩
    · simp [turn, delete, hprobe, hdrop, releaseEntry]
    · simp [hsearch]
  | missed missed =>
    exact ⟨⟨index, .deleted false, events⟩, chain, by simp [turn, delete, hprobe, dropEntry_missed],
      performed_unchanged alloc ht hsearch (.deleteMissed missed)⟩

/-- What a sweep removes are so many entries. -/
theorem size_swept {σ : Type} {visit : EntryVisitor κ ν σ} {state : σ} {r : Swept κ ν ρ σ}
    (hr : SweptAs alloc index (visitAll visit
      (listed index.chains.entries (order index.bucketCount chain)) state) r) :
    r.index.size + (visitAll visit (listed index.chains.entries
      (order index.bucketCount chain)) state).removed.length = index.size := by
  obtain ⟨hn, hheld⟩ := removed_held visit ht.perm_order state
  rw [size, Chains.size, hr.entries.slots.size]
  exact Pool.size_foldl_erase ht.sound hn hheld

theorem exists_swept {σ : Type} (visit : EntryVisitor κ ν σ) (state : σ) :
    ∃ done chain', index.turn alloc (.sweep visit state) = some done ∧
      Performed alloc index (.sweep visit state) done chain' := by
  obtain ⟨r, chain', hrun, ht', hr⟩ := exists_sweep ht alloc visit state
  refine ⟨⟨r.index, .swept r.result r.state, r.events⟩, chain', by simp [turn, hrun], hr.config, ?_,
    ht', ?_⟩
  · rw [hr.result, hr.state, hr.events, policyCalls_released]
    exact ⟨_, .sweep ht.perm_order rfl, hr.entries⟩
  · have hsize := size_swept alloc ht hr
    change r.index.chains.level = if r.index.size = index.size then index.chains.level else
      Level.settled alloc index.thresholds ⟨r.index.size, index.chains.rung⟩
    rw [hr.level]
    by_cases hnone : (visitAll visit (listed index.chains.entries
      (order index.bucketCount chain)) state).removed = []
    · rw [hnone, List.length_nil, Nat.add_zero] at hsize
      rw [if_pos hnone, if_pos hsize, hsize]
      rfl
    · have hsome := List.length_pos_of_ne_nil hnone
      rw [if_neg hnone, if_neg (by omega)]

/-- On chains that thread the pool every operation ends in one of its ways. -/
theorem exists_turn (op : Op κ ν) :
    ∃ done chain', index.turn alloc op = some done ∧ Performed alloc index op done chain' := by
  cases op with
  | set key value => exact exists_set alloc ht key value
  | emplace key actions => exact exists_emplace alloc ht key actions
  | get key => exact exists_get alloc ht key
  | contains key => exact exists_contains alloc ht key
  | take key => exact exists_take alloc ht key
  | delete key => exact exists_delete alloc ht key
  | sweep visit state => exact exists_swept alloc ht visit state
  | purge =>
    refine ⟨⟨index.purge.index, .purged, index.purge.events⟩, fun _ => [], rfl, rfl,
      ⟨_, ?_, .refl _⟩, ht.clear, rfl⟩
    have hcalls := policyCalls_flatMap_releaseEntry index index.chains.entries.records
    exact hcalls.symm ▸ .purge
  | pairs =>
    exact ⟨⟨index, .pairs index.pairs, []⟩, chain, rfl, performed_unchanged alloc ht rfl .pairs⟩
  | size =>
    exact ⟨⟨index, .size index.size, []⟩, chain, rfl, performed_unchanged alloc ht rfl .size⟩

/-- The same, the calls left aside. -/
theorem exists_performed (op : Op κ ν) :
    ∃ index' reply chain', index.perform alloc op = some (index', reply) ∧ SameConfig index index' ∧
      (∃ p calls, Step index op reply p calls ∧ SameEntries p index'.chains.entries) ∧
      index'.chains.Threaded chain' := by
  obtain ⟨done, chain', hturn, hdone⟩ := exists_turn alloc ht op
  obtain ⟨p, hstep, hp⟩ := hdone.step
  exact ⟨done.index, done.reply, chain', by simp [perform_eq_turn, hturn], hdone.config,
    ⟨p, _, hstep, hp⟩, hdone.threaded⟩

end Operations

end MemIndex.HashedIndex
