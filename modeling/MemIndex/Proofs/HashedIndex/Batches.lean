import MemIndex.Proofs.Chains.Landings
import MemIndex.Proofs.HashedIndex.Likeness
import MemIndex.Proofs.HashedIndex.LoadBounds

/-!
# Deletions in a sweep and one by one

A sweep lets many entries go and takes all its steps on the ladder at the end; deletions let them go one by
one, with one step after each of them at most. Both leave the same pairs in the same order, land on the
same rung and have the same copies freed, in whatever order the deletions come.
-/
namespace MemIndex.HashedIndex

open MemIndex.Chains (SameEntries order)
open MemIndex.Level (Below Landed)

variable {κ ν ρ : Type}

/-! ## Entries that are let go -/

theorem released_perm (index : HashedIndex κ ν ρ) (p : Pool (Entry κ ν)) {hs hs' : List Handle}
    (hperm : hs.Perm hs') : (index.released p hs).Perm (index.released p hs') :=
  (hperm.filterMap _).flatMap_right _

theorem SameConfig.released {index index' : HashedIndex κ ν ρ} (h : SameConfig index index')
    (p : Pool (Entry κ ν)) (hs : List Handle) : index'.released p hs = index.released p hs := by
  simp only [HashedIndex.released, releaseEntry, h.keys, h.values]

/-- Of the entries that were held, these are not held any more. -/
def Lost (index index' : HashedIndex κ ν ρ) (gone : List Handle) : Prop :=
  ∀ h, index.chains.entries.contains h = true →
    (index'.chains.entries.contains h = false ↔ h ∈ gone)

theorem contains_of_erased {index index' : HashedIndex κ ν ρ} {gone : List Handle}
    (hp : SameEntries (gone.foldl Pool.erase index.chains.entries) index'.chains.entries)
    (h : Handle) :
    index'.chains.entries.contains h = true ↔ h ∉ gone ∧ index.chains.entries.contains h = true := by
  rw [hp.slots.contains, Pool.contains_foldl_erase]

theorem lost_of_erased {index index' : HashedIndex κ ν ρ} {gone : List Handle}
    (hp : SameEntries (gone.foldl Pool.erase index.chains.entries) index'.chains.entries) :
    Lost index index' gone := by
  intro h hheld
  rw [← Bool.not_eq_true, contains_of_erased hp]
  simp [hheld]

/-- These entries were let go, one after another. -/
structure LetGo (index : HashedIndex κ ν ρ) (gone : List Handle) (index' : HashedIndex κ ν ρ)
    (events : List (Event κ ν)) : Prop where
  nodup : gone.Nodup
  held : ∀ h ∈ gone, index.chains.entries.contains h = true
  config : SameConfig index index'
  entries : SameEntries (gone.foldl Pool.erase index.chains.entries) index'.chains.entries
  calls : policyCalls events = index.released index.chains.entries gone

namespace LetGo

variable {index index₁ index₂ : HashedIndex κ ν ρ} {gone gone' : List Handle}
  {events events' : List (Event κ ν)}

/-- What is seen to be lost has been let go. -/
theorem perm_of_lost (h : LetGo index gone index₁ events)
    (h' : LetGo index gone' index₂ events') (hlost : Lost index index₂ gone) :
    gone.Perm gone' := by
  refine (List.perm_ext_iff_of_nodup h.nodup h'.nodup).2 fun x => ⟨fun hx => ?_, fun hx => ?_⟩
  · have hheld := h.held x hx
    exact (lost_of_erased h'.entries x hheld).1 ((hlost x hheld).2 hx)
  · have hheld := h'.held x hx
    exact (hlost x hheld).1 ((lost_of_erased h'.entries x hheld).2 hx)

theorem trans (h : LetGo index gone index₁ events) (h' : LetGo index₁ gone' index₂ events') :
    LetGo index (gone ++ gone') index₂ (events ++ events') := by
  have hheld := fun x hx => (contains_of_erased h.entries x).1 (h'.held x hx)
  constructor
  · exact List.nodup_append.2 ⟨h.nodup, h'.nodup, fun x hx y hy he => (hheld y hy).1 (he ▸ hx)⟩
  · intro x hx
    rcases List.mem_append.1 hx with hx | hx
    · exact h.held x hx
    · exact (hheld x hx).2
  · exact h.config.trans h'.config
  · rw [List.foldl_append]
    exact (sameEntries_foldl_erase h.entries gone').trans h'.entries
  · have hkept : index.released index₁.chains.entries gone' =
        index.released index.chains.entries gone' := by
      apply released_congr
      intro x hx
      rw [h.entries.bare, Pool.lawful.get?_foldl_erase, if_neg (hheld x hx).1]
    rw [policyCalls_append, h.calls, h'.calls, h.config.released, hkept, released_append]

section Same

variable (h : LetGo index gone index₁ events) (h' : LetGo index gone' index₂ events')
  (hgone : gone.Perm gone')

include h h' hgone

/-- Where the same entries are let go, in whatever order, the same entries are left in the same order. -/
theorem records : index₂.chains.entries.records.map Entry.bare =
    index₁.chains.entries.records.map Entry.bare := by
  refine Pool.map_records_congr fun x => ?_
  rw [h.entries.bare, h'.entries.bare, Pool.lawful.get?_foldl_erase, Pool.lawful.get?_foldl_erase]
  simp only [hgone.mem_iff]

theorem pairs : index₂.pairs = index₁.pairs := by
  have hplain := congrArg
    (List.map fun entry : Entry κ ν => (entry.key.value, entry.value.map Held.value))
    (records h h' hgone)
  rwa [List.map_map, List.map_map] at hplain

theorem freed : (policyCalls events').Perm (policyCalls events) := by
  rw [h.calls, h'.calls]
  exact released_perm index _ hgone.symm

theorem size {chain₁ chain₂ : Nat → List Handle} (ht₁ : index₁.chains.Threaded chain₁)
    (ht₂ : index₂.chains.Threaded chain₂) : index₂.size = index₁.size := by
  have hlength := congrArg List.length (records h h' hgone)
  rwa [List.length_map, List.length_map, Pool.length_records ht₂.sound,
    Pool.length_records ht₁.sound] at hlength

end Same

end LetGo

/-- Two indexes with as many entries have as many buckets where both have landed. -/
theorem bucketCount_of_landed {t : Thresholds Rat} {top : Nat} {index₁ index₂ : HashedIndex κ ν Rat}
    (hl₁ : Landed t top index₁.chains.level) (hl₂ : Landed t top index₂.chains.level)
    (hsize : index₂.size = index₁.size) {chain₁ chain₂ : Nat → List Handle}
    (ht₁ : index₁.chains.Threaded chain₁) (ht₂ : index₂.chains.Threaded chain₂) :
    index₂.bucketCount = index₁.bucketCount := by
  have hrung : index₂.chains.rung = index₁.chains.rung := congrArg Level.rung (hl₁.unique hl₂ hsize)
  have hcount : some index₂.bucketCount = some index₁.bucketCount :=
    ht₂.rung.symm.trans ((congrArg Ladder.buckets? hrung).trans ht₁.rung)
  exact Option.some.inj hcount

/-! ## One by one -/

/-- A deletion: the entry that it is meant for, the key that it is given and the allocator that it
meets. -/
structure Deletion (κ : Type) where
  entry : Handle
  key : κ
  alloc : Allocator

namespace Deletion

def step (d : Deletion κ) : Allocator × Op κ ν := (d.alloc, .delete d.key)

/-- The entry is there, and the key is one of its class. -/
def Names (index : HashedIndex κ ν ρ) (d : Deletion κ) : Prop :=
  ∃ entry, index.chains.entries.get? d.entry = some entry ∧ index.same entry.key.value d.key = true

end Deletion

section Deletions

variable {index : HashedIndex κ ν ρ} {d : Deletion κ}

/-- A deletion that names an entry is not about another one. -/
theorem Deletion.Names.kept {index' : HashedIndex κ ν ρ} {h : Handle} (hd : d.Names index)
    (hne : d.entry ≠ h) (hconfig : SameConfig index index')
    (hp : SameEntries (index.chains.entries.erase h) index'.chains.entries) : d.Names index' := by
  obtain ⟨entry, he, hsame⟩ := hd
  have hbare := hp.bare d.entry
  rw [Pool.lawful.get?_erase, if_neg hne, he] at hbare
  obtain ⟨entry', he', hb⟩ := Option.map_eq_some_iff.1 hbare
  have hkey : entry'.key = entry.key := by simpa using congrArg Entry.key hb
  exact ⟨entry', he', by rw [hconfig.same, hkey, hsame]⟩

variable [LoadScale ρ] {chain : Nat → List Handle} (ht : index.chains.Threaded chain)
  (lawful : Lawful index.hash index.same index.keys)
  (hk : Keyed index.hash index.same index.chains.entries)

include ht lawful hk

/-- A deletion takes the entry out that it names, and lets go of its key and its value. -/
theorem exists_deleted (hd : d.Names index) :
    ∃ done chain', index.turn d.alloc (.delete d.key) = some done ∧
      Performed d.alloc index (.delete d.key) done chain' ∧ done.reply = .deleted true ∧
      SameEntries (index.chains.entries.erase d.entry) done.index.chains.entries ∧
      policyCalls done.events = index.released index.chains.entries [d.entry] := by
  obtain ⟨⟨index', reply, events⟩, chain', hturn, hdone⟩ := exists_turn d.alloc ht (.delete d.key)
  refine ⟨_, chain', hturn, hdone, ?_⟩
  obtain ⟨entry, he, hsame⟩ := hd
  obtain ⟨p, hstep, hp⟩ := hdone.step
  dsimp only at hstep hp ⊢
  generalize policyCalls events = calls at hstep ⊢
  cases hstep with
  | @deleteFound _ h entry' hit =>
    have hclass := lawful.equivalence.trans hit.hits.2 (lawful.equivalence.symm hsame)
    obtain rfl := hk.apart hit.get he hclass
    exact ⟨rfl, hp, (released_singleton hit.get).symm⟩
  | deleteMissed missed =>
    have hother := missed.not_same lawful hk he
    rw [hsame] at hother
    cases hother

end Deletions

/-- What deletions rely on, and keep: an index whose load is below the upper bound and has landed. -/
structure Orderly (t : Thresholds Rat) (top : Nat) (index : HashedIndex κ ν Rat)
    (chain : Nat → List Handle) : Prop where
  threaded : index.chains.Threaded chain
  lawful : Lawful index.hash index.same index.keys
  keyed : Keyed index.hash index.same index.chains.entries
  thresholds : index.thresholds = t
  below : Below t index.chains.level
  landed : Landed t top index.chains.level

namespace Orderly

variable {t : Thresholds Rat} {top : Nat} {index : HashedIndex κ ν Rat} {chain : Nat → List Handle}

/-- One deletion finds the entry that it names and lets it go. -/
theorem exists_deletion (hi : Orderly t top index chain) (hs : t.Spaced) (htop : top < Ladder.height)
    {d : Deletion κ} (hgrants : d.alloc.GrantsLadder) (hnames : d.Names index) :
    ∃ done chain', index.turn d.alloc (.delete d.key) = some done ∧ done.reply = .deleted true ∧
      LetGo index [d.entry] done.index done.events ∧ Orderly t top done.index chain' := by
  have ht := hi.threaded
  obtain ⟨done, chain', hturn, hdone, hreply, hp, hcalls⟩ :=
    exists_deleted ht hi.lawful hi.keyed hnames
  have hheld : index.chains.entries.contains d.entry = true := by
    obtain ⟨entry, he, -⟩ := hnames
    exact Pool.contains_of_get? he
  have hsize : index.size = done.index.size + 1 := by
    rw [size, size, Chains.size, Chains.size, hp.slots.size]
    exact (Pool.size_erase ht.sound hheld).symm
  have hchanged : done.index.size ≠ index.chains.level.entries := fun he =>
    Nat.succ_ne_self _ (hsize.symm.trans he.symm)
  have hlevel := hdone.level
  rw [hi.thresholds, Op.relevel_single d.alloc t _ rfl hchanged] at hlevel
  obtain ⟨lawful', hk'⟩ := hdone.keyed hi.lawful hi.keyed ht.sound
  refine ⟨done, chain', hturn, hreply,
    ⟨List.nodup_singleton _, by simpa using hheld, hdone.config, hp, hcalls⟩, hdone.threaded, lawful',
    hk', hdone.config.thresholds.trans hi.thresholds, ?_, ?_⟩
  · rw [hlevel]
    exact Level.below_adjusted hgrants ht.rung_lt_height hs
      (show done.index.size ≤ index.size + 1 by omega) hi.below
  · rw [hlevel]
    exact hi.landed.adjusted hgrants hs htop hsize hi.below

/-- Deletions find the entries that they name and let them go, in their order. -/
theorem exists_deletions (hi : Orderly t top index chain) (hs : t.Spaced)
    (htop : top < Ladder.height) {dels : List (Deletion κ)} (hn : (dels.map Deletion.entry).Nodup)
    (hd : ∀ d ∈ dels, d.alloc.GrantsLadder ∧ d.Names index) :
    ∃ c chain', index.course (dels.map Deletion.step) = some c ∧
      c.replies = dels.map (fun _ => .deleted true) ∧
      LetGo index (dels.map Deletion.entry) c.index c.events ∧ Orderly t top c.index chain' := by
  induction dels generalizing index chain with
  | nil =>
    exact ⟨⟨index, [], []⟩, chain, rfl, rfl, ⟨List.nodup_nil, by simp, .refl index, .refl _, rfl⟩, hi⟩
  | cons d dels ih =>
    obtain ⟨⟨hgrants, hnames⟩, hrest⟩ := List.forall_mem_cons.1 hd
    obtain ⟨hnew, hn⟩ := List.nodup_cons.1 hn
    obtain ⟨done, chain₁, hturn, hreply, hfirst, hi₁⟩ := hi.exists_deletion hs htop hgrants hnames
    have hother : ∀ d' ∈ dels, d'.entry ≠ d.entry := fun d' hd' he =>
      hnew (he ▸ List.mem_map_of_mem hd')
    have hnames₁ : ∀ d' ∈ dels, d'.alloc.GrantsLadder ∧ d'.Names done.index := fun d' hd' =>
      ⟨(hrest d' hd').1, (hrest d' hd').2.kept (hother d' hd') hfirst.config hfirst.entries⟩
    obtain ⟨c, chain₂, hrun, hreplies, hothers, hi₂⟩ := ih hi₁ hn hnames₁
    refine ⟨⟨c.index, done.reply :: c.replies, done.events ++ c.events⟩, chain₂, ?_, ?_,
      hfirst.trans hothers, hi₂⟩
    · simp [course, Deletion.step, hturn, hrun]
    · rw [hreply, hreplies, List.map_cons]

end Orderly

/-! ## In a sweep -/

section Sweep

variable {σ : Type} {chain : Nat → List Handle} {alloc : Allocator} {visit : EntryVisitor κ ν σ}
  {state : σ}

/-- A sweep lets go of what its visitor asks to have removed. -/
theorem SweptAs.letGo [LoadScale ρ] {index : HashedIndex κ ν ρ} (ht : index.chains.Threaded chain)
    {r : Swept κ ν ρ σ} (hr : SweptAs alloc index (visitAll visit
      (listed index.chains.entries (order index.bucketCount chain)) state) r) :
    LetGo index (visitAll visit
      (listed index.chains.entries (order index.bucketCount chain)) state).removed r.index
        r.events := by
  obtain ⟨hn, hheld⟩ := removed_held visit ht.perm_order state
  exact ⟨hn, hheld, hr.config, hr.entries, by rw [hr.events, policyCalls_released]⟩

/-- The steps at the end of a sweep land. -/
theorem SweptAs.landed {t : Thresholds Rat} {index : HashedIndex κ ν Rat}
    (hi : Orderly t index.chains.rung index chain) (hs : t.Apart) (ha : alloc.GrantsLadder)
    {r : Swept κ ν Rat σ} (hr : SweptAs alloc index (visitAll visit
      (listed index.chains.entries (order index.bucketCount chain)) state) r) :
    Landed t index.chains.rung r.index.chains.level := by
  have hsize := size_swept alloc hi.threaded hr
  have hlevel := hr.level
  split at hlevel
  · rename_i hnone
    rw [hr.unchanged hnone]
    exact hi.landed
  · rw [hlevel, hi.thresholds]
    exact Level.landed_settled ha hs hi.threaded.rung_lt_height
      (show r.index.size ≤ index.size by omega) hi.below

end Sweep

/-- A visitor that goes on to the end and has the entries with the wanted keys removed. -/
def selecting (want : κ → Bool) : EntryVisitor κ ν Unit := fun key _ state =>
  ⟨.proceed, want key, state⟩

theorem visitAll_selecting (want : κ → Bool) (xs : List (Handle × Entry κ ν)) :
    visitAll (selecting want) xs () =
      ⟨(xs.filter fun x => want x.2.key.value).map Prod.fst, .proceed, ()⟩ := by
  induction xs with
  | nil => rfl
  | cons x xs ih =>
    obtain ⟨h, entry⟩ := x
    rw [visitAll, Visited.andThen]
    cases hw : want entry.key.value <;> simp [visitOne, selecting, hw] <;> simp [ih]

theorem mem_listed {p : Pool (Entry κ ν)} {hs : List Handle} {h : Handle} {entry : Entry κ ν} :
    (h, entry) ∈ listed p hs ↔ h ∈ hs ∧ ∃ held, p.get? h = some held ∧ held.bare = entry := by
  simp only [listed, List.mem_filterMap, Option.map_eq_some_iff, Prod.mk.injEq]
  constructor
  · rintro ⟨x, hx, held, hheld, rfl, he⟩
    exact ⟨hx, held, hheld, he⟩
  · rintro ⟨hh, held, hheld, he⟩
    exact ⟨h, hh, held, hheld, rfl, he⟩

/-- Entries can be selected by the keys that name them. -/
theorem mem_removed_selecting {index : HashedIndex κ ν ρ}
    (lawful : Lawful index.hash index.same index.keys)
    (hk : Keyed index.hash index.same index.chains.entries) {dels : List (Deletion κ)}
    (hd : ∀ d ∈ dels, d.Names index) {hs : List Handle}
    (hperm : hs.Perm index.chains.entries.handles) (h : Handle) :
    h ∈ (visitAll (selecting fun key => dels.any fun d => index.same key d.key)
      (listed index.chains.entries hs) ()).removed ↔ h ∈ dels.map Deletion.entry := by
  rw [visitAll_selecting]
  simp only [List.mem_map, List.mem_filter, List.any_eq_true, Prod.exists, exists_and_right,
    exists_eq_right]
  constructor
  · rintro ⟨entry, hlisted, d, hmem, hwanted⟩
    obtain ⟨-, held, hheld, rfl⟩ := mem_listed.1 hlisted
    obtain ⟨named, hnamed, hsame⟩ := hd d hmem
    have hclass := lawful.equivalence.trans hsame (lawful.equivalence.symm hwanted)
    exact ⟨d, hmem, hk.apart hnamed hheld hclass⟩
  · rintro ⟨d, hmem, rfl⟩
    obtain ⟨named, hnamed, hsame⟩ := hd d hmem
    have hlisted := hperm.symm.subset (Pool.mem_handles_of_get? hnamed)
    exact ⟨named.bare, mem_listed.2 ⟨hlisted, named, hnamed, rfl⟩, d, hmem, hsame⟩

section Sweeps

variable {t : Thresholds Rat} {index index' : HashedIndex κ ν Rat} {chain chain' : Nat → List Handle}

/-- A sweep that loses what was let go one by one agrees with it. -/
theorem Orderly.exists_sweep_agrees (hi : Orderly t index.chains.rung index chain) (hs : t.Apart)
    (hi' : Orderly t index.chains.rung index' chain') {gone : List Handle}
    {events : List (Event κ ν)} (hdeleted : LetGo index gone index' events) {alloc : Allocator}
    (ha : alloc.GrantsLadder) {σ : Type} (visit : EntryVisitor κ ν σ) (state : σ) :
    ∃ r, index.sweep alloc visit state = some r ∧ (Lost index r.index gone →
      r.index.size = index'.size ∧ r.index.bucketCount = index'.bucketCount ∧
      r.index.pairs = index'.pairs ∧ (policyCalls r.events).Perm (policyCalls events)) := by
  obtain ⟨r, _, hsweep, ht', hr⟩ := exists_sweep hi.threaded alloc visit state
  refine ⟨r, hsweep, fun hlost => ?_⟩
  have hswept := hr.letGo hi.threaded
  have hgone := hdeleted.perm_of_lost hswept hlost
  have hsize := hdeleted.size hswept hgone hi'.threaded ht'
  have hlanded := hr.landed hi hs ha
  exact ⟨hsize, bucketCount_of_landed hi'.landed hlanded hsize hi'.threaded ht',
    hdeleted.pairs hswept hgone, hdeleted.freed hswept hgone⟩

/-- A sweep can lose any entries that keys name. -/
theorem Orderly.exists_sweep_selecting {top : Nat} (hi : Orderly t top index chain)
    {dels : List (Deletion κ)} (hd : ∀ d ∈ dels, d.Names index) (alloc : Allocator) :
    ∃ r, index.sweep alloc (selecting fun key => dels.any fun d => index.same key d.key) () = some r ∧
      r.result = .ok () ∧ Lost index r.index (dels.map Deletion.entry) := by
  obtain ⟨r, _, hsweep, -, hr⟩ := exists_sweep hi.threaded alloc
    (selecting fun key => dels.any fun d => index.same key d.key) ()
  have hremoved := mem_removed_selecting hi.lawful hi.keyed hd hi.threaded.perm_order
  refine ⟨r, hsweep, ?_, fun h hh => ?_⟩
  · rw [hr.result, visitAll_selecting]
    rfl
  · exact (lost_of_erased hr.entries h hh).trans (hremoved h)

end Sweeps

/-! ## Runs -/

/-- A run without a purge leads to an index that deletions can start from. -/
theorem exists_run_orderly {t : Thresholds Rat} (hs : t.Spaced) {hash : κ → UInt64}
    {same : κ → κ → Bool} {keys : Policy κ} (lawful : Lawful hash same keys) (values : Policy ν)
    {ops : List (Allocator × Op κ ν)} (hgrants : ∀ step ∈ ops, step.1.GrantsLadder)
    (hops : ∀ step ∈ ops, step.2.isPurge = false) :
    ∃ index replies chain, (start hash same keys values t).run ops = some (index, replies) ∧
      Orderly t index.chains.rung index chain := by
  have hstart : (start hash same keys values t).chains.Threaded fun _ => [] :=
    Chains.threaded_fresh
  obtain ⟨index, replies, chain, hrun, hconfig, ht, hbelow, hpurgeless⟩ :=
    exists_run_bounded hstart rfl hs (belowGrowth_start hs.toApart hash same keys values) hgrants
  have habove := (hpurgeless hops).1 (.inr rfl)
  obtain ⟨index', replies', -, hrun', -, -, hk, -⟩ :=
    exists_run_answers hstart lawful keyed_empty (.refl _) ops
  obtain ⟨rfl, rfl⟩ := Prod.mk.inj (Option.some.inj (hrun.symm.trans hrun'))
  rw [← below_iff ht] at hbelow
  rw [← above_iff ht] at habove
  have hlawful : Lawful index.hash index.same index.keys := by
    rw [hconfig.hash, hconfig.same, hconfig.keys]
    exact lawful
  have hkeyed : Keyed index.hash index.same index.chains.entries := by
    rw [hconfig.hash, hconfig.same]
    exact hk
  exact ⟨index, replies, chain, hrun, ht, hlawful, hkeyed, hconfig.thresholds, hbelow,
    habove.landed⟩

/-- Loads are exact, the thresholds are usable, the lower one is at least one over the narrowest gap of the
ladder, the functions are lawful, no request is refused and nothing was purged. Take any entries of the
index, in any order, and delete them one by one with any keys that name them. Every deletion finds its
entry, and a sweep that loses just these entries, whatever its visitor is, leaves as many entries in as
many buckets, lists the same pairs in the same order and has the same copies freed. There is such a sweep:
its visitor proceeds to the end and selects the entries by their keys. -/
theorem run_sweep_as_deletions {thresholds : Thresholds Rat} (husable : thresholds.usable = true)
    (hfloor : 1 / 42 ≤ thresholds.shrinkAt) {hash : κ → UInt64} {same : κ → κ → Bool}
    {keys : Policy κ} (lawful : Lawful hash same keys) (values : Policy ν)
    (ops : List (Allocator × Op κ ν)) (hgrants : ∀ step ∈ ops, step.1.GrantsLadder)
    (hops : ∀ step ∈ ops, step.2.isPurge = false) :
    ∃ index replies, (start hash same keys values thresholds).run ops = some (index, replies) ∧
      ∀ dels : List (Deletion κ), (dels.map Deletion.entry).Nodup →
        (∀ d ∈ dels, d.alloc.GrantsLadder ∧ d.Names index) →
        ∃ c, index.course (dels.map Deletion.step) = some c ∧
          c.replies = dels.map (fun _ => .deleted true) ∧
          (∀ {σ : Type} (alloc : Allocator) (visit : EntryVisitor κ ν σ) (state : σ),
            alloc.GrantsLadder → ∃ r, index.sweep alloc visit state = some r ∧
              (Lost index r.index (dels.map Deletion.entry) →
                r.index.size = c.index.size ∧ r.index.bucketCount = c.index.bucketCount ∧
                r.index.pairs = c.index.pairs ∧
                (policyCalls r.events).Perm (policyCalls c.events))) ∧
          ∃ want : κ → Bool, ∀ alloc, ∃ r, index.sweep alloc (selecting want) () = some r ∧
            r.result = .ok () ∧ Lost index r.index (dels.map Deletion.entry) := by
  have hs := Thresholds.spaced_of_usable husable hfloor
  obtain ⟨index, replies, chain, hrun, hi⟩ := exists_run_orderly hs lawful values hgrants hops
  refine ⟨index, replies, hrun, fun dels hn hd => ?_⟩
  obtain ⟨c, _, hcourse, hreplies, hdeleted, hi'⟩ :=
    hi.exists_deletions hs hi.threaded.rung_lt_height hn hd
  refine ⟨c, hcourse, hreplies, fun {σ} alloc visit state ha => ?_,
    fun key => dels.any fun d => index.same key d.key, fun alloc => ?_⟩
  · exact hi.exists_sweep_agrees hs.toApart hi' hdeleted ha visit state
  · exact hi.exists_sweep_selecting (fun d hmem => (hd d hmem).2) alloc

/-- Four entries stand on the second rung. A sweep that loses the first three of them leads back to the
lowest one, as deletions of these do in another order, and has three copies freed. -/
theorem run_sweep_as_deletions_digits :
    (⟨1 / 10, 1 / 42⟩ : Thresholds Rat).usable = true ∧ Lawful lastDigit sameDigit raiseSmall ∧
    ∃ index replies c want r,
      (start lastDigit sameDigit raiseSmall (.duplicate : Policy Nat)
        (⟨1 / 10, 1 / 42⟩ : Thresholds Rat)).run
          ([3, 4, 5, 6].map fun key => (.unlimited, .set key 8)) = some (index, replies) ∧
      index.bucketCount = 79 ∧
      index.course ([25, 3, 14].map fun key => (.unlimited, .delete key)) = some c ∧
      index.sweep .unlimited (selecting want) () = some r ∧
      Lost index r.index [⟨2, 1⟩, ⟨0, 1⟩, ⟨1, 1⟩] ∧ r.index.size = 1 ∧ r.index.bucketCount = 37 ∧
      r.index.pairs = [(16, some 8)] ∧ (policyCalls r.events).Perm (policyCalls c.events) ∧
      (policyCalls r.events).length = 3 := by
  have husable : (⟨1 / 10, 1 / 42⟩ : Thresholds Rat).usable = true := by decide +kernel
  obtain ⟨index, replies, hrun, hbatch⟩ :=
    run_sweep_as_deletions husable (le_refl (1 / 42)) lawful_digits (.duplicate : Policy Nat)
      ([3, 4, 5, 6].map fun key => (.unlimited, .set key 8)) (by simp [Allocator.GrantsLadder])
      (by simp [Op.isPurge])
  have hstored : ((start lastDigit sameDigit raiseSmall (.duplicate : Policy Nat)
      (⟨1 / 10, 1 / 42⟩ : Thresholds Rat)).run
        ([3, 4, 5, 6].map fun key => (.unlimited, .set key 8))).map (fun r =>
          (r.1.bucketCount, [(2, 25), (0, 3), (1, 14)].map fun named =>
            (r.1.chains.entries.get? ⟨named.1, 1⟩).map fun entry =>
              r.1.same entry.key.value named.2)) =
      some (79, [some true, some true, some true]) := by
    decide +kernel
  have hdeleted : ((start lastDigit sameDigit raiseSmall (.duplicate : Policy Nat)
      (⟨1 / 10, 1 / 42⟩ : Thresholds Rat)).run
        ([3, 4, 5, 6].map fun key => (.unlimited, .set key 8))).bind (fun r =>
          (r.1.course ([25, 3, 14].map fun key => (.unlimited, .delete key))).map fun c =>
            (c.index.size, c.index.bucketCount, c.index.pairs, (policyCalls c.events).length)) =
      some (1, 37, [(16, some 8)], 3) := by
    decide +kernel
  rw [hrun, Option.map_some, Option.some.injEq, Prod.mk.injEq] at hstored
  rw [hrun, Option.bind_some] at hdeleted
  obtain ⟨hcount, hnamed⟩ := hstored
  simp only [List.map_cons, List.map_nil, List.cons.injEq, and_true, Option.map_eq_some_iff] at hnamed
  obtain ⟨h25, h3, h14⟩ := hnamed
  obtain ⟨c, hcourse, -, hsweeps, want, hwant⟩ :=
    hbatch [⟨⟨2, 1⟩, 25, .unlimited⟩, ⟨⟨0, 1⟩, 3, .unlimited⟩, ⟨⟨1, 1⟩, 14, .unlimited⟩] (by decide)
      (by simp [Allocator.GrantsLadder, Deletion.Names, h25, h3, h14])
  obtain ⟨r, hsweep, -, hlost⟩ := hwant .unlimited
  obtain ⟨r', hsweep', hagrees⟩ := hsweeps .unlimited (selecting want) () (fun _ _ => rfl)
  obtain rfl : r = r' := Option.some.inj (hsweep.symm.trans hsweep')
  obtain ⟨hsize, hbuckets, hpairs, hcalls⟩ := hagrees hlost
  have hcourse' : index.course ([25, 3, 14].map fun key => (.unlimited, .delete key)) = some c := hcourse
  rw [hcourse', Option.map_some, Option.some.injEq, Prod.mk.injEq, Prod.mk.injEq, Prod.mk.injEq]
    at hdeleted
  obtain ⟨hsize', hbuckets', hpairs', hlength⟩ := hdeleted
  exact ⟨husable, lawful_digits, index, replies, c, want, r, hrun, hcount, hcourse', hsweep, hlost,
    hsize.trans hsize', hbuckets.trans hbuckets', hpairs.trans hpairs', hcalls,
    hcalls.length_eq.trans hlength⟩

end MemIndex.HashedIndex
