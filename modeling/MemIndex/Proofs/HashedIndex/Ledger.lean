import MemIndex.Proofs.HashedIndex.Calls
import MemIndex.Proofs.HashedIndex.Contents
import MemIndex.Proofs.HashedIndex.Runs

/-!
# Every copy is freed once

Under a policy that copies, each value that an index has made or was handed as its own has been freed, or
is held, or was handed out, and only one of these. So an index that is dropped has freed all of them, and
none of them twice.
-/
namespace MemIndex.HashedIndex

open MemIndex.Chains (SameEntries)

variable {κ ν ρ : Type}

/-! ## What is held -/

/-- The keys in the index, counted. -/
def heldKeys (index : HashedIndex κ ν ρ) : Multiset κ := (index.pairs.map Prod.fst : List κ)

/-- The values in the index, counted. -/
def heldValues (index : HashedIndex κ ν ρ) : Multiset ν := (index.pairs.filterMap Prod.snd : List ν)

def keysOf (m : KeyMap κ ν) : Multiset κ := (m.map Prod.fst : List κ)

def valuesOf (m : KeyMap κ ν) : Multiset ν := (m.map fun pair => inSlot pair.2).sum

section Maps

variable {m m' : KeyMap κ ν}

@[simp] theorem keysOf_cons (pair : κ × Option (Held ν)) : keysOf (pair :: m) = {pair.1} + keysOf m :=
  rfl

@[simp] theorem valuesOf_cons (pair : κ × Option (Held ν)) :
    valuesOf (pair :: m) = inSlot pair.2 + valuesOf m := by
  simp [valuesOf]

@[simp] theorem keysOf_append : keysOf (m ++ m') = keysOf m + keysOf m' := by simp [keysOf]

@[simp] theorem valuesOf_append : valuesOf (m ++ m') = valuesOf m + valuesOf m' := by simp [valuesOf]

theorem keysOf_perm (h : m.Perm m') : keysOf m = keysOf m' := Multiset.coe_eq_coe.2 (h.map _)

theorem valuesOf_perm (h : m.Perm m') : valuesOf m = valuesOf m' := (h.map _).sum_eq

end Maps

theorem heldKeys_eq (index : HashedIndex κ ν ρ) :
    index.heldKeys = keysOf (content index.chains.entries) := by
  simp [heldKeys, keysOf, pairs, content_eq, Function.comp_def]

theorem heldValues_eq (index : HashedIndex κ ν ρ) :
    index.heldValues = valuesOf (content index.chains.entries) := by
  rw [heldValues, pairs, content_eq]
  induction index.chains.entries.records with
  | nil => rfl
  | cons entry entries ih =>
    rw [List.map_cons, List.map_cons, valuesOf_cons, ← ih]
    cases hvalue : entry.value with
    | none => simp [hvalue]
    | some held => simp [hvalue]

/-! ## Whose the held keys and values are -/

/-- The key and the value of the entry are the index's own where their policies copy. -/
structure OwnedEntry (keys : Policy κ) (values : Policy ν) (entry : Entry κ ν) : Prop where
  key : keys.Owns entry.key
  value : values.OwnsAll entry.value

theorem ownedEntry_bare {keys : Policy κ} {values : Policy ν} {entry : Entry κ ν} :
    OwnedEntry keys values entry.bare ↔ OwnedEntry keys values entry :=
  ⟨fun h => ⟨h.key, h.value⟩, fun h => ⟨h.key, h.value⟩⟩

def Owned (keys : Policy κ) (values : Policy ν) (p : Pool (Entry κ ν)) : Prop :=
  ∀ h entry, p.get? h = some entry → OwnedEntry keys values entry

theorem ownsAll_slotAct {values : Policy ν} {held : Option (Held ν)} (ho : values.OwnsAll held)
    (action : SlotAction ν) : values.OwnsAll (slotAct values held action).2 := by
  cases action with
  | get | isEmpty => exact ho
  | store value =>
    cases hs : (values.store value).result with
    | ok stored => simpa [slotAct, hs] using Policy.owns_store hs
    | error cause => simpa [slotAct, hs] using ho
  | storeOwned value => exact Policy.ownsAll_some.2 (Policy.owns_owned value)
  | clear => exact Policy.ownsAll_none values

theorem ownsAll_slotRun {values : Policy ν} {held : Option (Held ν)} (ho : values.OwnsAll held)
    (actions : List (SlotAction ν)) : values.OwnsAll (slotRun values actions held).2 := by
  induction actions generalizing held with
  | nil => exact ho
  | cons action rest ih => exact ih (ownsAll_slotAct ho action)

section Owned

variable {keys : Policy κ} {values : Policy ν} {p q : Pool (Entry κ ν)}

theorem owned_empty : Owned keys values (Pool.empty : Pool (Entry κ ν)) := by
  intro h entry he
  simp at he

variable (ho : Owned keys values p)

include ho

theorem Owned.modify {held : Option (Held ν)} (hheld : values.OwnsAll held) (h : Handle) :
    Owned keys values (p.modify h (·.withValue held)) := by
  intro x entry he
  rw [Pool.lawful.get?_modify] at he
  split at he
  · obtain ⟨old, hold, rfl⟩ := Option.map_eq_some_iff.1 he
    exact ⟨(ho h old hold).key, hheld⟩
  · exact ho x entry he

theorem Owned.insert (hp : p.Sound) {entry : Entry κ ν} (hentry : OwnedEntry keys values entry) :
    Owned keys values (p.insert entry) := by
  intro x old he
  rw [Pool.lawful.get?_insert hp] at he
  split at he
  · cases he
    exact hentry
  · exact ho x old he

theorem Owned.foldl_erase (gone : List Handle) : Owned keys values (gone.foldl Pool.erase p) := by
  intro x entry he
  rw [Pool.lawful.get?_foldl_erase] at he
  split at he
  · cases he
  · exact ho x entry he

theorem Owned.sameEntries (hs : SameEntries p q) : Owned keys values q := by
  intro x entry he
  obtain ⟨old, hold, hbare⟩ := hs.get?_iff he
  exact ownedEntry_bare.1 (hbare ▸ ownedEntry_bare.2 (ho x old hold))

end Owned

theorem Step.owned {index : HashedIndex κ ν ρ} (hsound : index.chains.entries.Sound)
    (ho : Owned index.keys index.values index.chains.entries) {op : Op κ ν} {reply : Reply κ ν}
    {p : Pool (Entry κ ν)} {calls : List (Event κ ν)} (hs : Step index op reply p calls) :
    Owned index.keys index.values p := by
  cases hs with
  | setUpdated store hit => exact ho.modify (Policy.ownsAll_some.2 (Policy.owns_store store)) _
  | setInserted store missed copy =>
    exact ho.insert hsound
      ⟨Policy.owns_store copy, Policy.ownsAll_some.2 (Policy.owns_store store)⟩
  | emplaceFound hit => exact ho.modify (ownsAll_slotRun (ho _ _ hit.get).value _) _
  | emplaceMade missed copy =>
    exact ho.insert hsound
      ⟨Policy.owns_store copy, ownsAll_slotRun (Policy.ownsAll_none index.values) _⟩
  | takeFound _ | deleteFound _ => exact ho.foldl_erase [_]
  | sweep _ _ | purge => exact ho.foldl_erase _
  | setRefused | setKeyRefused | emplaceRefused | getFound | getMissed | containsFound
  | containsMissed | takeMissed | deleteMissed | pairs | size => exact ho

/-! ## Balances -/

/-- What comes in with what is there makes up what goes out with what is left. Two such steps make one. -/
theorem balance_trans {α : Type} {came came' before there gone gone' after : Multiset α}
    (h : came + before = gone + there) (h' : came' + there = gone' + after) :
    came + came' + before = gone + gone' + after := by
  rw [add_right_comm, h, add_assoc, add_comm there, h', add_assoc]

/-- What an action hands to the slot as its own. -/
def SlotAction.given : SlotAction ν → Multiset ν
  | .storeOwned value => {value}
  | _ => 0

theorem slotCalls_balanced {values : Policy ν} (hcopies : values.copies = true)
    {held : Option (Held ν)} (ho : values.OwnsAll held) (action : SlotAction ν) :
    copied (slotCalls values held action) + action.given + inSlot held =
      freed (slotCalls values held action) + inSlot (slotAct values held action).2 := by
  cases action with
  | get | isEmpty => simp [slotCalls, slotAct, SlotAction.given]
  | store value =>
    cases hs : (values.store value).result with
    | ok stored =>
      simp [slotCalls, slotAct, SlotAction.given, hs, Policy.copied_store_ok hcopies hs,
        Policy.freed_releaseAll hcopies ho, add_comm]
    | error cause =>
      simp [slotCalls, slotAct, SlotAction.given, hs, Policy.copied_store_error hs]
  | storeOwned value =>
    simp [slotCalls, slotAct, SlotAction.given, Policy.freed_releaseAll hcopies ho, add_comm,
      Held.value]
  | clear => simp [slotCalls, slotAct, SlotAction.given, Policy.freed_releaseAll hcopies ho]

theorem slotRunCalls_balanced {values : Policy ν} (hcopies : values.copies = true)
    {held : Option (Held ν)} (ho : values.OwnsAll held) (actions : List (SlotAction ν)) :
    copied (slotRunCalls values actions held) + (actions.map SlotAction.given).sum + inSlot held =
      freed (slotRunCalls values actions held) + inSlot (slotRun values actions held).2 := by
  induction actions generalizing held with
  | nil => simp [slotRunCalls, slotRun]
  | cons action rest ih =>
    have hfirst := slotCalls_balanced hcopies ho action
    have hrest := ih (ownsAll_slotAct ho action)
    rw [slotRunCalls, copied_append, freed_append, List.map_cons, List.sum_cons,
      add_add_add_comm]
    exact balance_trans hfirst hrest

theorem slotRunCalls_of_not_copies {values : Policy ν} (hcopies : values.copies = false)
    (actions : List (SlotAction ν)) (held : Option (Held ν)) :
    slotRunCalls values actions held = [] := by
  induction actions generalizing held with
  | nil => rfl
  | cons action rest ih =>
    rw [slotRunCalls, ih, List.append_nil]
    cases action with
    | get | isEmpty => rfl
    | store value =>
      unfold slotCalls
      dsimp only
      split <;> simp [Policy.store_calls_of_not_copies hcopies,
        Policy.releaseAll_of_not_copies hcopies]
    | storeOwned | clear => exact Policy.releaseAll_of_not_copies hcopies held

/-! ## Entries that are let go -/

/-- The keys as slots, so that keys are let go as values are. -/
def keySlots (entries : List (Entry κ ν)) : List (Option (Held κ)) :=
  entries.map fun entry => some entry.key

theorem keysOf_map_pairOf (entries : List (Entry κ ν)) :
    keysOf (entries.map pairOf) = ((keySlots entries).map inSlot).sum := by
  induction entries with
  | nil => rfl
  | cons entry entries ih =>
    rw [List.map_cons, keysOf_cons, ih]
    rfl

theorem valuesOf_map_pairOf (entries : List (Entry κ ν)) :
    valuesOf (entries.map pairOf) = ((entries.map Entry.value).map inSlot).sum := by
  simp [valuesOf, Function.comp_def]

section Released

variable (index : HashedIndex κ ν ρ) (entries : List (Entry κ ν))

@[simp] theorem keyCalls_releaseEntry (entry : Entry κ ν) :
    keyCalls (index.releaseEntry entry) = index.keys.release entry.key := by
  simp [releaseEntry]

@[simp] theorem valueCalls_releaseEntry (entry : Entry κ ν) :
    valueCalls (index.releaseEntry entry) = index.values.releaseAll entry.value := by
  simp [releaseEntry]

theorem keyCalls_releaseEntries : keyCalls (entries.flatMap index.releaseEntry) =
    (keySlots entries).flatMap index.keys.releaseAll := by
  induction entries with
  | nil => rfl
  | cons entry entries ih => simp [ih, keySlots]

theorem valueCalls_releaseEntries : valueCalls (entries.flatMap index.releaseEntry) =
    (entries.map Entry.value).flatMap index.values.releaseAll := by
  induction entries with
  | nil => rfl
  | cons entry entries ih => simp [ih]

variable {index entries} (ho : ∀ entry ∈ entries, OwnedEntry index.keys index.values entry)

include ho

/-- Letting entries go frees their keys. -/
theorem freed_keyCalls_releaseEntries (hcopies : index.keys.copies = true) :
    freed (keyCalls (entries.flatMap index.releaseEntry)) = keysOf (entries.map pairOf) := by
  rw [keyCalls_releaseEntries, keysOf_map_pairOf]
  refine Policy.freed_flatMap_releaseAll hcopies fun held hheld => ?_
  obtain ⟨entry, hentry, rfl⟩ := List.mem_map.1 hheld
  exact Policy.ownsAll_some.2 (ho entry hentry).key

/-- Letting entries go frees their values. -/
theorem freed_valueCalls_releaseEntries (hcopies : index.values.copies = true) :
    freed (valueCalls (entries.flatMap index.releaseEntry)) = valuesOf (entries.map pairOf) := by
  rw [valueCalls_releaseEntries, valuesOf_map_pairOf]
  refine Policy.freed_flatMap_releaseAll hcopies fun held hheld => ?_
  obtain ⟨entry, hentry, rfl⟩ := List.mem_map.1 hheld
  exact (ho entry hentry).value

end Released

theorem Owned.listed {keys : Policy κ} {values : Policy ν} {p : Pool (Entry κ ν)}
    (ho : Owned keys values p) (hs : List Handle) :
    ∀ entry ∈ (listed p hs).map Prod.snd, OwnedEntry keys values entry := by
  intro entry hentry
  obtain ⟨⟨h, bare⟩, hlisted, rfl⟩ := List.mem_map.1 hentry
  obtain ⟨x, -, hx⟩ := List.mem_filterMap.1 hlisted
  obtain ⟨old, hold, hpair⟩ := Option.map_eq_some_iff.1 hx
  cases hpair
  exact ownedEntry_bare.2 (ho _ old hold)

theorem Owned.records {keys : Policy κ} {values : Policy ν} {p : Pool (Entry κ ν)}
    (ho : Owned keys values p) : ∀ entry ∈ p.records, OwnedEntry keys values entry := by
  intro entry hentry
  obtain ⟨⟨h, old⟩, hheld, rfl⟩ := List.mem_map.1 hentry
  exact ho h old (Pool.lawful.mem_entries.1 hheld)

/-! ## One operation -/

section Contents

variable {p : Pool (Entry κ ν)} {h : Handle} {entry : Entry κ ν}

theorem keysOf_content_erase (he : p.get? h = some entry) :
    keysOf (content p) = {entry.key.value} + keysOf (content (p.erase h)) :=
  (keysOf_perm (content_erase he)).trans (keysOf_cons _)

theorem valuesOf_content_erase (he : p.get? h = some entry) :
    valuesOf (content p) = inSlot entry.value + valuesOf (content (p.erase h)) :=
  (valuesOf_perm (content_erase he)).trans (valuesOf_cons _)

theorem keysOf_content_insert (hp : p.Sound) (entry : Entry κ ν) :
    keysOf (content (p.insert entry)) = {entry.key.value} + keysOf (content p) :=
  (keysOf_perm (content_insert hp entry)).trans (keysOf_cons _)

theorem valuesOf_content_insert (hp : p.Sound) (entry : Entry κ ν) :
    valuesOf (content (p.insert entry)) = inSlot entry.value + valuesOf (content p) :=
  (valuesOf_perm (content_insert hp entry)).trans (valuesOf_cons _)

theorem keysOf_content_withValue (he : p.get? h = some entry) (held : Option (Held ν)) :
    keysOf (content (p.modify h (·.withValue held))) = keysOf (content p) := by
  rw [keysOf_perm (content_withValue he held), keysOf_content_erase he]
  rfl

theorem valuesOf_content_withValue (he : p.get? h = some entry) (held : Option (Held ν)) :
    valuesOf (content (p.modify h (·.withValue held))) =
      inSlot held + valuesOf (content (p.erase h)) :=
  (valuesOf_perm (content_withValue he held)).trans (valuesOf_cons _)

end Contents

/-- The values that an operation hands to the index as its own. -/
def given : Op κ ν → Reply κ ν → Multiset ν
  | .emplace _ actions, .slot (.ok _) => (actions.map SlotAction.given).sum
  | _, _ => 0

/-- The values that a reply hands out. -/
def taken : Reply κ ν → Multiset ν
  | .taken held => inSlot held
  | _ => 0

section Steps

variable {index : HashedIndex κ ν ρ} (hsound : index.chains.entries.Sound)
  (ho : Owned index.keys index.values index.chains.entries) {op : Op κ ν} {reply : Reply κ ν}
  {p : Pool (Entry κ ν)} {calls : List (Event κ ν)} (hs : Step index op reply p calls)

include hsound ho hs

theorem Step.keys_balanced (hcopies : index.keys.copies = true) :
    copied (keyCalls calls) + keysOf (content index.chains.entries) =
      freed (keyCalls calls) + keysOf (content p) := by
  cases hs with
  | setRefused | setKeyRefused _ _ copy | emplaceRefused _ copy =>
    simp [*, Policy.copied_store_error]
  | setUpdated _ hit | emplaceFound hit => simp [keysOf_content_withValue hit.get]
  | setInserted _ _ copy | emplaceMade _ copy =>
    simp [Policy.copied_store_ok hcopies copy, keysOf_content_insert hsound]
  | takeFound hit | deleteFound hit =>
    simp [Policy.freed_release hcopies (ho _ _ hit.get).key, keysOf_content_erase hit.get]
  | @sweep _ visit state hs perm visited walk =>
    -- What is removed is a part of what is shown, and what is shown is everything.
    have hsub := removed_sublist_listed visit index.chains.entries hs state
    have hfreed := freed_keyCalls_releaseEntries (ho.listed visited.removed) hcopies
    rw [walk] at hsub
    rw [released_eq, hfreed, keyCalls_releaseEntries, Policy.copied_flatMap_releaseAll,
      ← mapOf_eq_listed, keysOf_perm (content_split perm hsub), keysOf_append, zero_add]
  | purge =>
    have hfreed := freed_keyCalls_releaseEntries ho.records hcopies
    rw [hfreed, keyCalls_releaseEntries, Policy.copied_flatMap_releaseAll, ← content_eq,
      content_clear, add_comm]
    rfl
  | getFound | getMissed | containsFound | containsMissed | takeMissed | deleteMissed | pairs
  | size => simp

theorem Step.values_balanced (hcopies : index.values.copies = true) :
    copied (valueCalls calls) + given op reply + valuesOf (content index.chains.entries) =
      freed (valueCalls calls) + taken reply + valuesOf (content p) := by
  cases hs with
  | setRefused store => simp [given, taken, Policy.copied_store_error store]
  | setUpdated store hit =>
    simp [given, taken, Policy.copied_store_ok hcopies store,
      Policy.freed_releaseAll hcopies (ho _ _ hit.get).value, valuesOf_content_withValue hit.get,
      valuesOf_content_erase hit.get]
  | setKeyRefused store missed copy =>
    simp [given, taken, Policy.copied_store_ok hcopies store,
      Policy.freed_release hcopies (Policy.owns_store store)]
  | setInserted store missed copy =>
    simp [given, taken, Policy.copied_store_ok hcopies store, valuesOf_content_insert hsound]
  | emplaceFound hit =>
    have hslot := slotRunCalls_balanced hcopies (ho _ _ hit.get).value
    simp [given, taken, valuesOf_content_erase hit.get, valuesOf_content_withValue hit.get,
      ← add_assoc, hslot]
  | emplaceRefused missed copy => simp [given, taken]
  | emplaceMade missed copy =>
    have hslot := slotRunCalls_balanced hcopies (Policy.ownsAll_none index.values)
    simp_all [given, taken, valuesOf_content_insert hsound, ← add_assoc]
  | takeFound hit => simp [given, taken, valuesOf_content_erase hit.get]
  | deleteFound hit =>
    simp [given, taken, Policy.freed_releaseAll hcopies (ho _ _ hit.get).value,
      valuesOf_content_erase hit.get]
  | @sweep _ visit state hs perm visited walk =>
    have hsub := removed_sublist_listed visit index.chains.entries hs state
    have hfreed := freed_valueCalls_releaseEntries (ho.listed visited.removed) hcopies
    rw [walk] at hsub
    rw [released_eq, hfreed, valueCalls_releaseEntries, Policy.copied_flatMap_releaseAll,
      ← mapOf_eq_listed, valuesOf_perm (content_split perm hsub), valuesOf_append]
    simp [given, taken]
  | purge =>
    have hfreed := freed_valueCalls_releaseEntries ho.records hcopies
    rw [hfreed, valueCalls_releaseEntries, Policy.copied_flatMap_releaseAll, ← content_eq,
      content_clear]
    simp [given, taken, valuesOf]
  | getFound | getMissed | containsFound | containsMissed | takeMissed | deleteMissed | pairs
  | size => simp [given, taken]

omit hsound ho

theorem Step.keyCalls_of_not_copies (hcopies : index.keys.copies = false) : keyCalls calls = [] := by
  cases hs with
  | sweep _ _ =>
    rw [released_eq, keyCalls_releaseEntries, Policy.flatMap_releaseAll_of_not_copies hcopies]
  | purge => rw [keyCalls_releaseEntries, Policy.flatMap_releaseAll_of_not_copies hcopies]
  | _ =>
    simp [Policy.store_calls_of_not_copies hcopies, Policy.release_of_not_copies hcopies]

theorem Step.valueCalls_of_not_copies (hcopies : index.values.copies = false) :
    valueCalls calls = [] := by
  cases hs with
  | sweep _ _ =>
    rw [released_eq, valueCalls_releaseEntries, Policy.flatMap_releaseAll_of_not_copies hcopies]
  | purge => rw [valueCalls_releaseEntries, Policy.flatMap_releaseAll_of_not_copies hcopies]
  | _ =>
    simp [Policy.store_calls_of_not_copies hcopies, Policy.release_of_not_copies hcopies,
      Policy.releaseAll_of_not_copies hcopies, slotRunCalls_of_not_copies hcopies]

end Steps

/-! ## Runs -/

/-- The values that operations hand to the index as its own. -/
def givenIn (ops : List (Op κ ν)) (replies : List (Reply κ ν)) : Multiset ν :=
  (List.zipWith given ops replies).sum

def takenIn (replies : List (Reply κ ν)) : Multiset ν := (replies.map taken).sum

/-- The calls account for the way from one index to another. -/
structure Moved (index : HashedIndex κ ν ρ) (events : List (Event κ ν)) (given taken : Multiset ν)
    (index' : HashedIndex κ ν ρ) : Prop where
  keys : index.keys.copies = true →
    copied (keyCalls events) + index.heldKeys = freed (keyCalls events) + index'.heldKeys
  values : index.values.copies = true →
    copied (valueCalls events) + given + index.heldValues =
      freed (valueCalls events) + taken + index'.heldValues
  noKeys : index.keys.copies = false → keyCalls events = []
  noValues : index.values.copies = false → valueCalls events = []

section Runs

variable {index index' index'' : HashedIndex κ ν ρ} {chain : Nat → List Handle}

theorem Moved.refl (index : HashedIndex κ ν ρ) : Moved index [] 0 0 index :=
  ⟨fun _ => rfl, fun _ => rfl, fun _ => rfl, fun _ => rfl⟩

theorem Moved.trans {events events' : List (Event κ ν)} {given given' taken taken' : Multiset ν}
    (h : Moved index events given taken index') (hconfig : SameConfig index index')
    (h' : Moved index' events' given' taken' index'') :
    Moved index (events ++ events') (given + given') (taken + taken') index'' := by
  obtain ⟨hkeys', hvalues', hnoKeys', hnoValues'⟩ := h'
  rw [hconfig.keys] at hkeys' hnoKeys'
  rw [hconfig.values] at hvalues' hnoValues'
  constructor
  · intro hcopies
    rw [keyCalls_append, copied_append, freed_append]
    exact balance_trans (h.keys hcopies) (hkeys' hcopies)
  · intro hcopies
    rw [valueCalls_append, copied_append, freed_append, add_add_add_comm,
      add_add_add_comm (freed (valueCalls events))]
    exact balance_trans (h.values hcopies) (hvalues' hcopies)
  · intro hcopies
    rw [keyCalls_append, h.noKeys hcopies, hnoKeys' hcopies, List.append_nil]
  · intro hcopies
    rw [valueCalls_append, h.noValues hcopies, hnoValues' hcopies, List.append_nil]

variable [LoadScale ρ] {alloc : Allocator} {op : Op κ ν} {done : Turn κ ν ρ}

theorem Performed.moved (hsound : index.chains.entries.Sound)
    (ho : Owned index.keys index.values index.chains.entries)
    (hdone : Performed alloc index op done chain) :
    Moved index done.events (given op done.reply) (taken done.reply) done.index := by
  obtain ⟨p, hstep, hp⟩ := hdone.step
  have hcontent := content_sameEntries hp
  constructor
  · intro hcopies
    have hkeys := hstep.keys_balanced hsound ho hcopies
    rwa [keyCalls_policyCalls, ← keysOf_perm hcontent, ← heldKeys_eq, ← heldKeys_eq] at hkeys
  · intro hcopies
    have hvalues := hstep.values_balanced hsound ho hcopies
    rwa [valueCalls_policyCalls, ← valuesOf_perm hcontent, ← heldValues_eq, ← heldValues_eq] at hvalues
  · intro hcopies
    have hnone := hstep.keyCalls_of_not_copies hcopies
    rwa [keyCalls_policyCalls] at hnone
  · intro hcopies
    have hnone := hstep.valueCalls_of_not_copies hcopies
    rwa [valueCalls_policyCalls] at hnone

theorem Performed.owned (hsound : index.chains.entries.Sound)
    (ho : Owned index.keys index.values index.chains.entries)
    (hdone : Performed alloc index op done chain) :
    Owned done.index.keys done.index.values done.index.chains.entries := by
  obtain ⟨p, hstep, hp⟩ := hdone.step
  rw [hdone.config.keys, hdone.config.values]
  exact (hstep.owned hsound ho).sameEntries hp

theorem exists_course_moved (ht : index.chains.Threaded chain)
    (ho : Owned index.keys index.values index.chains.entries) (ops : List (Allocator × Op κ ν)) :
    ∃ c chain', index.course ops = some c ∧ SameConfig index c.index ∧
      c.index.chains.Threaded chain' ∧ Owned c.index.keys c.index.values c.index.chains.entries ∧
      Moved index c.events (givenIn (ops.map Prod.snd) c.replies) (takenIn c.replies) c.index := by
  induction ops generalizing index chain with
  | nil => exact ⟨⟨index, [], []⟩, chain, rfl, .refl index, ht, ho, .refl index⟩
  | cons first rest ih =>
    obtain ⟨alloc, op⟩ := first
    obtain ⟨done, chain₁, hturn, hdone⟩ := exists_turn alloc ht op
    obtain ⟨c, chain₂, hcourse, hconfig, ht₂, ho₂, hmoved⟩ :=
      ih hdone.threaded (hdone.owned ht.sound ho)
    refine ⟨⟨c.index, done.reply :: c.replies, done.events ++ c.events⟩, chain₂,
      by simp [course, hturn, hcourse], hdone.config.trans hconfig, ht₂, ho₂, ?_⟩
    simpa [givenIn, takenIn] using (hdone.moved ht.sound ho).trans hdone.config hmoved

end Runs

/-- The calls since an index was set up account for what it holds: what was copied or handed to it, and
what was freed, is held or was handed out, are the same with the same multiplicities. A policy that does
not copy has called nothing. -/
structure Accounted (keys : Policy κ) (values : Policy ν) (events : List (Event κ ν))
    (given taken : Multiset ν) (index : HashedIndex κ ν ρ) : Prop where
  keyCopies : keys.copies = true →
    copied (keyCalls events) = freed (keyCalls events) + index.heldKeys
  valueCopies : values.copies = true →
    copied (valueCalls events) + given = freed (valueCalls events) + index.heldValues + taken
  noKeyCalls : keys.copies = false → keyCalls events = []
  noValueCalls : values.copies = false → valueCalls events = []

theorem pairs_purge (index : HashedIndex κ ν ρ) : index.purge.index.pairs = [] := by
  have hnone : index.purge.index.chains.entries.records.map pairOf = [] := by
    rw [← content_eq]
    exact content_clear index.chains.entries
  rw [pairs, List.map_eq_nil_iff.1 hnone]
  rfl

theorem pairs_start (hash : κ → UInt64) (same : κ → κ → Bool) (keys : Policy κ) (values : Policy ν)
    (thresholds : Thresholds ρ) : (start hash same keys values thresholds).pairs = [] := rfl

theorem accounted_of_moved {hash : κ → UInt64} {same : κ → κ → Bool} {keys : Policy κ}
    {values : Policy ν} {thresholds : Thresholds ρ} {events : List (Event κ ν)}
    {given taken : Multiset ν} {index : HashedIndex κ ν ρ}
    (h : Moved (start hash same keys values thresholds) events given taken index) :
    Accounted keys values events given taken index where
  keyCopies hcopies := by simpa [heldKeys, pairs_start] using h.keys hcopies
  valueCopies hcopies := by
    rw [add_right_comm]
    simpa [heldValues, pairs_start] using h.values hcopies
  noKeyCalls := h.noKeys
  noValueCalls := h.noValues

/-- Whatever the functions answer, whatever copies fail and whatever is refused, a run from the start frees
every copy of a key once at most, and holds those that it has not freed. The same goes for values, where
those handed to a slot as its own count as copies and those that were taken out are left to the taker.
An index that is dropped is purged, and then it holds nothing. -/
theorem run_frees_once [LoadScale ρ] (hash : κ → UInt64) (same : κ → κ → Bool) (keys : Policy κ)
    (values : Policy ν) (thresholds : Thresholds ρ) (ops : List (Allocator × Op κ ν)) :
    ∃ c, (start hash same keys values thresholds).course ops = some c ∧
      Accounted keys values c.events (givenIn (ops.map Prod.snd) c.replies) (takenIn c.replies)
        c.index ∧
      Accounted keys values (c.events ++ c.index.purge.events)
        (givenIn (ops.map Prod.snd) c.replies) (takenIn c.replies) c.index.purge.index ∧
      c.index.purge.index.pairs = [] := by
  have hstart : (start hash same keys values thresholds).chains.Threaded fun _ => [] :=
    Chains.threaded_fresh
  obtain ⟨c, chain, hcourse, hconfig, ht, ho, hmoved⟩ := exists_course_moved hstart owned_empty ops
  obtain ⟨done, chain', hturn, hpurged⟩ := exists_turn .unlimited ht .purge
  cases hturn
  have hdropped := hmoved.trans hconfig (hpurged.moved ht.sound ho)
  simp only [given, taken, add_zero] at hdropped
  exact ⟨c, hcourse, accounted_of_moved hmoved, accounted_of_moved hdropped, pairs_purge c.index⟩

/-- Values up to nine are copied as themselves, and no others. The second value for the first key lets the
first go, the value of the second key is taken out, and the slot ends with what it was handed. -/
example : ((start UInt64.ofNat (· == ·) (.duplicate : Policy Nat)
    (.copyWith fun n : Nat => if 9 < n then .error .visitorFailed else .ok n)
    (⟨2, 1 / 4⟩ : Thresholds Rat)).course
      [(.unlimited, .set 1 5), (.unlimited, .set 1 6), (.unlimited, .set 1 20),
        (.unlimited, .set 2 7), (.unlimited, .take 2),
        (.unlimited, .emplace 1 [.store 30, .storeOwned 42])]).map
        (fun c => ((valueCalls c.events).filterMap Call.copy?,
          (valueCalls c.events).filterMap Call.freed?, c.index.pairs)) =
      some ([5, 6, 7], [5, 6], [(1, some 42)]) := by
  decide +kernel

end MemIndex.HashedIndex
