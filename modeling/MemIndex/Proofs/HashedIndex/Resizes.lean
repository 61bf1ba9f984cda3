import MemIndex.Proofs.Chains.Redealing
import MemIndex.Proofs.HashedIndex.Runs

/-!
# When the bucket count changes

An operation weighs the load after an entry has come in or gone out, and a sweep once more after each
step. From the chains that it weighs, a step has its exact effect. Nothing else changes the bucket count,
and whether a step is taken or refused, the operation makes the same calls and gives the same reply.
-/
namespace MemIndex

namespace Chains

variable {κ ν ρ : Type} {c c' : Chains κ ν} {spot : Spot}

theorem bucketCount_setNext {bucket : Nat} {prev link : Option Handle}
    (h : c.setNext bucket prev link = some c') : c'.bucketCount = c.bucketCount := by
  cases prev with
  | some x =>
    obtain ⟨entries, -, rfl⟩ := Option.map_eq_some_iff.1 h
    rfl
  | none =>
    by_cases hb : bucket < c.heads.size
    · simp only [setNext, hb, if_true, Option.some.injEq] at h
      subst h
      simp [bucketCount]
    · simp [setNext, hb] at h

theorem bucketCount_link {entry : Entry κ ν} {h : Handle} (hlink : c.link spot entry = some (c', h)) :
    c'.bucketCount = c.bucketCount := by
  obtain ⟨c₁, hset, he⟩ := Option.map_eq_some_iff.1 hlink
  cases he
  have hcount := bucketCount_setNext hset
  exact hcount

theorem bucketCount_unlink {entry : Option (Entry κ ν)} (hunlink : c.unlink spot = some (c', entry)) :
    c'.bucketCount = c.bucketCount := by
  unfold unlink at hunlink
  dsimp only at hunlink
  split at hunlink
  · cases hunlink
    rfl
  · split at hunlink
    · cases hunlink
      rfl
    · obtain ⟨c₁, hset, he⟩ := Option.map_eq_some_iff.1 hunlink
      cases he
      have hcount := bucketCount_setNext hset
      exact hcount

variable [LoadScale ρ] {alloc : Allocator} {thresholds : Thresholds ρ}

/-- Without a step the chains are left alone. -/
theorem adjust_false (h : c.adjust alloc thresholds = some (c', false)) : c' = c := by
  unfold adjust at h
  split at h
  · cases h
    rfl
  · split at h
    · cases h
      rfl
    · split at h
      · obtain ⟨d, -, he⟩ := Option.map_eq_some_iff.1 h
        cases he
      · cases h
        rfl

end Chains

namespace HashedIndex

open MemIndex.Chains (Stepped)

variable {κ ν ρ : Type}

/-- The operation takes a step from these chains, if their load calls for one. -/
inductive Weighs [LoadScale ρ] (index : HashedIndex κ ν ρ) : Op κ ν → Chains κ ν → Prop
  | set {key : κ} {value : ν} {p : Probe κ ν} {held : Held ν} {heldKey : Held κ} {c : Chains κ ν}
    {h : Handle} (probe : index.probe key = some p) (missed : p.spot.found = none)
    (store : (index.values.store value).result = .ok held)
    (copy : (index.keys.store key).result = .ok heldKey)
    (link : index.chains.link p.spot ⟨heldKey, some held, p.hash, none⟩ = some (c, h)) :
    Weighs index (.set key value) c
  | emplace {key : κ} {actions : List (SlotAction ν)} {p : Probe κ ν} {heldKey : Held κ}
    {c : Chains κ ν} {h : Handle} (probe : index.probe key = some p)
    (missed : p.spot.found = none) (copy : (index.keys.store key).result = .ok heldKey)
    (link : index.chains.link p.spot ⟨heldKey, none, p.hash, none⟩ = some (c, h)) :
    Weighs index (.emplace key actions) c
  | take {key : κ} {p : Probe κ ν} {c : Chains κ ν} {entry : Entry κ ν}
    (probe : index.probe key = some p) (unlink : index.chains.unlink p.spot = some (c, some entry)) :
    Weighs index (.take key) c
  | delete {key : κ} {p : Probe κ ν} {c : Chains κ ν} {entry : Entry κ ν}
    (probe : index.probe key = some p) (unlink : index.chains.unlink p.spot = some (c, some entry)) :
    Weighs index (.delete key) c
  | sweep {σ : Type} {visit : EntryVisitor κ ν σ} {state : σ} {p : Progress κ ν σ}
    (walk : index.sweepBuckets visit (List.range index.bucketCount)
      ⟨index.chains, .proceed, false, state, #[]⟩ = some p) (removed : p.removed = true) :
    Weighs index (.sweep visit state) p.chains
  | again {σ : Type} {visit : EntryVisitor κ ν σ} {state : σ} {c c' : Chains κ ν}
    {alloc : Allocator} (weighed : Weighs index (.sweep visit state) c)
    (step : c.adjust alloc index.thresholds = some (c', true)) :
    Weighs index (.sweep visit state) c'

section Weighed

variable {index : HashedIndex κ ν ρ} {chain : Nat → List Handle} (ht : index.chains.Threaded chain)
  {c : Chains κ ν}

include ht

theorem exists_linked {key : κ} {p : Probe κ ν} {entry : Entry κ ν} {h : Handle}
    (hprobe : index.probe key = some p) (hmissed : p.spot.found = none) (hhash : entry.hash = p.hash)
    (hnext : entry.next = none) (hlink : index.chains.link p.spot entry = some (c, h)) :
    ∃ chain', c.Threaded chain' := by
  obtain ⟨p', hprobe', hhash', -, hspot⟩ := exists_probe ht key
  obtain rfl : p' = p := Option.some.inj (hprobe'.symm.trans hprobe)
  obtain ⟨_, spot, _⟩ := p'
  cases hspot with
  | hit _ _ => cases hmissed
  | missed _ =>
    have hbucket : Chains.bucketOf index.chains.bucketCount entry.hash =
        Chains.bucketOf index.bucketCount (index.hash key) := by
      rw [hhash, hhash']
      rfl
    obtain ⟨c', hlink', hr⟩ := ht.link hbucket hnext
    cases hlink.symm.trans hlink'
    exact ⟨_, hr.threaded⟩

theorem exists_unlinked {key : κ} {p : Probe κ ν} {entry : Entry κ ν}
    (hprobe : index.probe key = some p) (hunlink : index.chains.unlink p.spot = some (c, some entry)) :
    ∃ chain', c.Threaded chain' := by
  obtain ⟨p', hprobe', -, -, hspot⟩ := exists_probe ht key
  obtain rfl : p' = p := Option.some.inj (hprobe'.symm.trans hprobe)
  obtain ⟨_, spot, _⟩ := p'
  cases hspot with
  | hit split hit =>
    obtain ⟨c', hunlink', hr, -⟩ :=
      ht.unlink (Chains.bucketOf_lt ht.pos (index.hash key)) split hit.get
    cases hunlink.symm.trans hunlink'
    exact ⟨_, hr.threaded⟩
  | missed _ => cases hunlink

/-- Chains that are weighed thread the pool. -/
theorem Weighs.exists_threaded [LoadScale ρ] {op : Op κ ν} (hw : Weighs index op c) :
    ∃ chain', c.Threaded chain' := by
  induction hw with
  | set hprobe hmissed _ _ hlink | emplace hprobe hmissed _ hlink =>
    exact exists_linked ht hprobe hmissed rfl rfl hlink
  | take hprobe hunlink | delete hprobe hunlink => exact exists_unlinked ht hprobe hunlink
  | @sweep σ visit state p hwalk _ =>
    obtain ⟨p', chain₁, hshow, -, ht₁⟩ := exists_showAll ht visit state
    have hwalk' := fst_showAll index visit state
    rw [hshow, hwalk] at hwalk'
    cases hwalk'
    exact ⟨chain₁, ht₁⟩
  | again _ hstep ih =>
    obtain ⟨chain₁, ht₁⟩ := ih
    obtain ⟨c₂, chain₂, hstep', -, -, ht₂⟩ := ht₁.exists_adjust _ index.thresholds
    obtain ⟨rfl, -⟩ := Prod.mk.inj (Option.some.inj (hstep.symm.trans hstep'))
    exact ⟨chain₂, ht₂⟩

end Weighed

variable [LoadScale ρ]

/-! ## Changes of the bucket count -/

/-- The number of buckets is the same, or the operation has taken a step that it had weighed. -/
def Rebucketed (alloc : Allocator) (index : HashedIndex κ ν ρ) (op : Op κ ν)
    (index' : HashedIndex κ ν ρ) : Prop :=
  index'.bucketCount = index.bucketCount ∨
    ∃ c c', Weighs index op c ∧ c.adjust alloc index.thresholds = some (c', true) ∧
      index'.chains.heads = c'.heads

section Changes

variable {index index' : HashedIndex κ ν ρ} {alloc : Allocator} {op : Op κ ν}

theorem rebucketed_of_adjust {c c' : Chains κ ν} {stepped : Bool}
    (hcount : c.bucketCount = index.bucketCount) (hw : Weighs index op c)
    (hstep : c.adjust alloc index.thresholds = some (c', stepped)) :
    Rebucketed alloc index op (index.withChains fun _ => c') := by
  cases stepped with
  | true => exact .inr ⟨c, c', hw, hstep, rfl⟩
  | false =>
    rw [Chains.adjust_false hstep]
    exact .inl hcount

theorem rebucketed_of_addEntry {spot : Spot} {entry : Entry κ ν} {h : Handle}
    (hadd : index.addEntry alloc spot entry = some (index', h))
    (hw : ∀ c, index.chains.link spot entry = some (c, h) → Weighs index op c) :
    Rebucketed alloc index op index' := by
  simp only [addEntry, withChains?, Option.map_eq_some_iff, Option.bind_eq_bind,
    Option.bind_eq_some_iff] at hadd
  obtain ⟨⟨c', x⟩, ⟨⟨c, x'⟩, hlink, ⟨c₁, stepped⟩, hstep, he⟩, he'⟩ := hadd
  cases he
  cases he'
  exact rebucketed_of_adjust (Chains.bucketCount_link hlink) (hw c hlink) hstep

theorem rebucketed_of_dropEntry {spot : Spot} {entry : Entry κ ν}
    (hdrop : index.dropEntry alloc spot = some (index', some entry))
    (hw : ∀ c, index.chains.unlink spot = some (c, some entry) → Weighs index op c) :
    Rebucketed alloc index op index' := by
  simp only [dropEntry, withChains?, Option.map_eq_some_iff, Option.bind_eq_bind,
    Option.bind_eq_some_iff] at hdrop
  obtain ⟨⟨c', gone'⟩, ⟨⟨c, gone⟩, hunlink, hrest⟩, he'⟩ := hdrop
  cases gone with
  | none =>
    cases hrest
    cases he'
  | some entry' =>
    obtain ⟨⟨c₁, stepped⟩, hstep, he⟩ := Option.bind_eq_some_iff.1 hrest
    cases he
    cases he'
    exact rebucketed_of_adjust (Chains.bucketCount_unlink hunlink) (hw c hunlink) hstep

/-- After a sweep the last step is one that was weighed. -/
theorem Weighs.adjustAtMost {σ : Type} {visit : EntryVisitor κ ν σ} {state : σ} {c c' : Chains κ ν}
    {steps : Nat} (hw : Weighs index (.sweep visit state) c)
    (hrun : c.adjustAtMost alloc index.thresholds steps = some c') :
    c' = c ∨ ∃ c₁, Weighs index (.sweep visit state) c₁ ∧
      c₁.adjust alloc index.thresholds = some (c', true) := by
  induction steps generalizing c with
  | zero =>
    cases hrun
    exact .inl rfl
  | succ steps ih =>
    rw [Chains.adjustAtMost] at hrun
    cases hstep : c.adjust alloc index.thresholds with
    | none => simp [hstep] at hrun
    | some stepped =>
      obtain ⟨c₁, taken⟩ := stepped
      cases taken with
      | false =>
        simp only [hstep, Option.some.injEq] at hrun
        exact .inl (hrun ▸ Chains.adjust_false hstep)
      | true =>
        simp only [hstep] at hrun
        rcases ih (hw.again hstep) hrun with rfl | hlast
        · exact .inr ⟨c, hw, hstep⟩
        · exact .inr hlast

theorem Rebucketed.of_heads {index'' : HashedIndex κ ν ρ} (h : Rebucketed alloc index op index')
    (hheads : index''.chains.heads = index'.chains.heads) : Rebucketed alloc index op index'' := by
  unfold Rebucketed bucketCount Chains.bucketCount at h ⊢
  rwa [hheads]

end Changes

/-- Whatever room is granted, the operation gives one reply and makes the same calls, and the bucket count
is the same or has changed by a weighed step. -/
def Steady (index : HashedIndex κ ν ρ) (op : Op κ ν) : Prop :=
  ∃ reply events, ∀ alloc, ∃ index', index.turn alloc op = some ⟨index', reply, events⟩ ∧
    Rebucketed alloc index op index'

section Steady

variable {index : HashedIndex κ ν ρ} {chain : Nat → List Handle} (ht : index.chains.Threaded chain)

include ht

theorem steady_set (key : κ) (value : ν) : Steady index (.set key value) := by
  obtain ⟨⟨_, spot, events⟩, hprobe, rfl, -, hspot⟩ := exists_probe ht key
  cases hstore : (index.values.store value).result with
  | error cause =>
    exact ⟨.stored (.error cause), _, fun alloc =>
      ⟨index, by simp [turn, set, hprobe, hstore]; rfl, .inl rfl⟩⟩
  | ok held =>
    cases hspot with
    | @hit _ _ h entry split hit =>
      have he := hit.get
      exact ⟨.stored (.ok .updated), _, fun alloc =>
        ⟨index.withChains fun chains => chains.setValue h (some held),
          by simp [turn, set, hprobe, hstore, he]; rfl, .inl rfl⟩⟩
    | missed missed =>
      cases hcopy : (index.keys.store key).result with
      | error cause =>
        exact ⟨.stored (.error cause), _, fun alloc =>
          ⟨index, by simp [turn, set, hprobe, hstore, hcopy]; rfl, .inl rfl⟩⟩
      | ok heldKey =>
        refine ⟨.stored (.ok .inserted),
          events ++ valueEvents (index.values.store value).calls ++
            keyEvents (index.keys.store key).calls, fun alloc => ?_⟩
        obtain ⟨c', _, hadd, -⟩ :=
          exists_addEntry ht alloc key ⟨heldKey, some held, index.hash key, none⟩ rfl rfl
        exact ⟨_, by simp [turn, set, hprobe, hstore, hcopy, hadd],
          rebucketed_of_addEntry hadd fun c hlink => .set hprobe rfl hstore hcopy hlink⟩

theorem steady_emplace (key : κ) (actions : List (SlotAction ν)) :
    Steady index (.emplace key actions) := by
  obtain ⟨⟨_, spot, events⟩, hprobe, rfl, -, hspot⟩ := exists_probe ht key
  cases hspot with
  | @hit _ _ h entry split hit =>
    have he := hit.get
    refine ⟨.slot (.ok (actAll h actions index).result), events ++ (actAll h actions index).events,
      fun alloc => ⟨(actAll h actions index).index, by simp [turn, emplaceWith, emplace, hprobe, he],
        .inl ?_⟩⟩
    rw [bucketCount, Chains.bucketCount, heads_actAll]
    rfl
  | missed missed =>
    cases hcopy : (index.keys.store key).result with
    | error cause =>
      exact ⟨.slot (.error cause), _, fun alloc =>
        ⟨index, by simp [turn, emplaceWith, emplace, hprobe, hcopy]; rfl, .inl rfl⟩⟩
    | ok heldKey =>
      refine ⟨.slot (.ok (slotRun index.values actions none).1),
        events ++ keyEvents (index.keys.store key).calls ++
          valueEvents (slotRunCalls index.values actions none), fun alloc => ?_⟩
      obtain ⟨c', _, hadd, -, hp, -⟩ :=
        exists_addEntry ht alloc key ⟨heldKey, none, index.hash key, none⟩ rfl rfl
      obtain ⟨entry, he, hempty⟩ := hp.get?_nextHandle ht.sound
      have he' : (index.withChains fun _ => c').chains.entries.get?
          index.chains.entries.nextHandle = some entry := he
      have hacted := actAll_acted he' actions
      rw [hempty] at hacted
      refine ⟨_, by simp [turn, emplaceWith, emplace, hprobe, hcopy, hadd, he, hacted.result,
        hacted.events]; rfl, .of_heads ?_ (heads_actAll _ _ actions)⟩
      exact rebucketed_of_addEntry hadd fun c hlink => .emplace hprobe rfl hcopy hlink

theorem steady_take (key : κ) : Steady index (.take key) := by
  obtain ⟨⟨_, spot, events⟩, hprobe, rfl, -, hspot⟩ := exists_probe ht key
  cases hspot with
  | @hit _ _ h entry split hit =>
    refine ⟨.taken entry.value, events ++ keyEvents (index.keys.release entry.key), fun alloc => ?_⟩
    obtain ⟨c', _, hdrop, -⟩ := exists_dropEntry ht alloc split hit.get
    exact ⟨_, by simp [turn, take, hprobe, hdrop],
      rebucketed_of_dropEntry hdrop fun c hunlink => .take hprobe hunlink⟩
  | missed missed =>
    exact ⟨.taken none, events, fun alloc =>
      ⟨index, by simp [turn, take, hprobe, dropEntry_missed], .inl rfl⟩⟩

theorem steady_delete (key : κ) : Steady index (.delete key) := by
  obtain ⟨⟨_, spot, events⟩, hprobe, rfl, -, hspot⟩ := exists_probe ht key
  cases hspot with
  | @hit _ _ h entry split hit =>
    refine ⟨.deleted true, events ++ index.releaseEntry entry, fun alloc => ?_⟩
    obtain ⟨c', _, hdrop, -⟩ := exists_dropEntry ht alloc split hit.get
    exact ⟨_, by simp [turn, delete, hprobe, hdrop, releaseEntry],
      rebucketed_of_dropEntry hdrop fun c hunlink => .delete hprobe hunlink⟩
  | missed missed =>
    exact ⟨.deleted false, events, fun alloc =>
      ⟨index, by simp [turn, delete, hprobe, dropEntry_missed], .inl rfl⟩⟩

theorem steady_get (key : κ) : Steady index (.get key) := by
  obtain ⟨⟨_, spot, events⟩, hprobe, -, -, hspot⟩ := exists_probe ht key
  cases hspot with
  | @hit _ _ h entry split hit =>
    have he := hit.get
    exact ⟨.value (entry.value.map Held.value), events, fun alloc =>
      ⟨index, by simp [turn, get, hprobe, he], .inl rfl⟩⟩
  | missed missed =>
    exact ⟨.value none, events, fun alloc => ⟨index, by simp [turn, get, hprobe], .inl rfl⟩⟩

theorem steady_contains (key : κ) : Steady index (.contains key) := by
  obtain ⟨p, hprobe, -⟩ := exists_probe ht key
  exact ⟨.contained p.spot.found.isSome, p.events, fun alloc =>
    ⟨index, by simp [turn, contains, hprobe], .inl rfl⟩⟩

theorem steady_sweep {σ : Type} (visit : EntryVisitor κ ν σ) (state : σ) :
    Steady index (.sweep visit state) := by
  obtain ⟨p, chain₁, hshow, hcame, ht₁⟩ := exists_showAll ht visit state
  have hwalk := fst_showAll index visit state
  rw [hshow, Option.map_some] at hwalk
  refine ⟨.swept (if p.verdict = .fail then .error .visitorFailed else .ok ()) p.state,
    p.events.toList, fun alloc => ?_⟩
  cases hremoved : p.removed with
  | false =>
    exact ⟨index.withChains fun _ => p.chains, by simp [turn, sweep, ← hwalk, hremoved],
      .inl hcame.bucketCount⟩
  | true =>
    obtain ⟨c', _, hsettle, -⟩ := ht₁.exists_settle alloc index.thresholds
    refine ⟨index.withChains fun _ => c', by simp [turn, sweep, ← hwalk, hremoved, hsettle], ?_⟩
    rcases (Weighs.sweep hwalk.symm hremoved).adjustAtMost hsettle with rfl | ⟨c, hw, hstep⟩
    · exact .inl hcame.bucketCount
    · exact .inr ⟨c, c', hw, hstep, rfl⟩

/-- Every operation is steady. -/
theorem steady (op : Op κ ν) : Steady index op := by
  cases op with
  | set key value => exact steady_set ht key value
  | emplace key actions => exact steady_emplace ht key actions
  | get key => exact steady_get ht key
  | contains key => exact steady_contains ht key
  | take key => exact steady_take ht key
  | delete key => exact steady_delete ht key
  | sweep visit state => exact steady_sweep ht visit state
  | purge => exact ⟨_, _, fun alloc => ⟨_, rfl, .inl (bucketCount_purge index)⟩⟩
  | pairs | size => exact ⟨_, _, fun alloc => ⟨_, rfl, .inl rfl⟩⟩

end Steady

/-! ## Runs -/

/-- Whatever a run has done before, and whatever the functions answer: from the chains as they stand, and
from all chains whose load the next operation weighs, a step has its exact effect. It leads one rung down
where the load is at most the lower threshold, and else one rung up where the load is at least the upper
one. Where neither is so, or where the buckets of that rung are refused, nothing at all is changed.
Otherwise the new chain of a bucket is made of the old chains, one behind the other in the order of their
buckets, cut down to the entries whose hash leaves the number of the bucket as the remainder by how many
there are, and turned round, and every entry stays where it is with its key, its value and its hash. The
next operation changes the bucket count by such a step or not at all, and calls the same functions whether
its steps are granted or refused. -/
theorem run_steps_exactly (hash : κ → UInt64) (same : κ → κ → Bool) (keys : Policy κ)
    (values : Policy ν) (thresholds : Thresholds ρ) (ops : List (Allocator × Op κ ν)) :
    ∃ index replies, (start hash same keys values thresholds).run ops = some (index, replies) ∧
      (∀ c, (c = index.chains ∨ ∃ op, Weighs index op c) →
        ∃ chain, c.Threaded chain ∧ ∀ alloc, Stepped alloc thresholds c chain) ∧
      ∀ op, Steady index op := by
  have hstart : (start hash same keys values thresholds).chains.Threaded fun _ => [] :=
    Chains.threaded_fresh
  obtain ⟨index, replies, chain, hrun, -, ht, -⟩ := exists_run hstart ops
  refine ⟨index, replies, hrun, fun c hc => ?_, steady ht⟩
  obtain ⟨chain', ht'⟩ : ∃ chain', c.Threaded chain' := by
    rcases hc with rfl | ⟨op, hw⟩
    · exact ⟨chain, ht⟩
    · exact hw.exists_threaded ht
  exact ⟨chain', ht', fun alloc => ht'.stepped alloc thresholds⟩

end HashedIndex

end MemIndex
