import MemIndex.HashedIndex.Slot
import MemIndex.Proofs.Chains.Levels

/-!
# Slots as values

What the actions on a slot answer depends on the value in it and on the policy for values alone, and all
that they change in the index is this one value.
-/
namespace MemIndex

namespace Chains

variable {κ ν : Type}

theorem sameEntries_withValue_self {p : Pool (Entry κ ν)} {h : Handle} {entry : Entry κ ν}
    (he : p.get? h = some entry) : SameEntries (p.modify h (·.withValue entry.value)) p where
  slots := Pool.lawful.slots.symm (Pool.lawful.slots_modify p h _)
  bare x := by
    rw [Pool.lawful.get?_modify]
    split
    · rename_i hx
      rw [hx, he]
      rfl
    · rfl

theorem sameEntries_withValue_twice (p : Pool (Entry κ ν)) (h : Handle)
    (held held' : Option (Held ν)) :
    SameEntries (p.modify h (·.withValue held'))
      ((p.modify h (·.withValue held)).modify h (·.withValue held')) where
  slots := Pool.lawful.slots_modify_congr (Pool.lawful.slots_modify p h _) h _ _
  bare x := by
    simp only [Pool.lawful.get?_modify]
    split
    · cases p.get? h <;> rfl
    · rfl

/-- An entry that is filled right after it came in might have come in filled. -/
theorem sameEntries_insert_withValue {p : Pool (Entry κ ν)} (hp : p.Sound) (entry : Entry κ ν)
    (held : Option (Held ν)) :
    SameEntries (p.insert (entry.withValue held))
      ((p.insert entry).modify p.nextHandle (·.withValue held)) := by
  rw [Pool.lawful.modify_nextHandle hp]
  exact .refl _

end Chains

namespace HashedIndex

open MemIndex.Chains (SameEntries)

variable {κ ν ρ : Type}

/-- The index has other chains, and the same functions, policies and thresholds. -/
def SameConfig (index index' : HashedIndex κ ν ρ) : Prop :=
  index' = index.withChains fun _ => index'.chains

section SameConfig

variable {index index' index'' : HashedIndex κ ν ρ}

theorem SameConfig.refl (index : HashedIndex κ ν ρ) : SameConfig index index := rfl

theorem SameConfig.trans (h : SameConfig index index') (h' : SameConfig index' index'') :
    SameConfig index index'' := by
  unfold SameConfig at *
  rw [h', h]
  rfl

variable (h : SameConfig index index')

include h

theorem SameConfig.hash : index'.hash = index.hash := by rw [h]; rfl

theorem SameConfig.same : index'.same = index.same := by rw [h]; rfl

theorem SameConfig.keys : index'.keys = index.keys := by rw [h]; rfl

theorem SameConfig.values : index'.values = index.values := by rw [h]; rfl

theorem SameConfig.thresholds : index'.thresholds = index.thresholds := by rw [h]; rfl

end SameConfig

/-- What an action on a slot answers, and what it leaves in the slot. -/
def slotAct (values : Policy ν) (held : Option (Held ν)) :
    SlotAction ν → SlotReply ν × Option (Held ν)
  | .get => (.value (held.map Held.value), held)
  | .isEmpty => (.isEmpty held.isNone, held)
  | .store value =>
    match (values.store value).result with
    | .ok stored => (.stored, some stored)
    | .error cause => (.failed cause, held)
  | .storeOwned value => (.stored, some (.owned value))
  | .clear => (.cleared, none)

def slotRun (values : Policy ν) :
    List (SlotAction ν) → Option (Held ν) → List (SlotReply ν) × Option (Held ν)
  | [], held => ([], held)
  | action :: rest, held =>
    let (reply, held) := slotAct values held action
    let (replies, held) := slotRun values rest held
    (reply :: replies, held)

/-- The calls that an action on a slot makes. -/
def slotCalls (values : Policy ν) (held : Option (Held ν)) : SlotAction ν → List (Call ν)
  | .get | .isEmpty => []
  | .store value =>
    match (values.store value).result with
    | .ok _ => (values.store value).calls ++ values.releaseAll held
    | .error _ => (values.store value).calls
  | .storeOwned _ | .clear => values.releaseAll held

def slotRunCalls (values : Policy ν) : List (SlotAction ν) → Option (Held ν) → List (Call ν)
  | [], _ => []
  | action :: rest, held =>
    slotCalls values held action ++ slotRunCalls values rest (slotAct values held action).2

/-- The slot of an entry has got another content, and nothing else has changed. -/
structure Filled (index : HashedIndex κ ν ρ) (h : Handle) (held : Option (Held ν))
    (index' : HashedIndex κ ν ρ) : Prop where
  config : SameConfig index index'
  entries : SameEntries (index.chains.entries.modify h (·.withValue held)) index'.chains.entries
  rung : index'.chains.rung = index.chains.rung
  threaded : ∀ chain, index.chains.Threaded chain → index'.chains.Threaded chain

theorem Filled.level {index index' : HashedIndex κ ν ρ} {h : Handle} {held : Option (Held ν)}
    (hf : Filled index h held index') : index'.chains.level = index.chains.level := by
  rw [Chains.level, Chains.level, hf.rung, Chains.size, hf.entries.slots.size,
    (Pool.lawful.slots_modify index.chains.entries h _).size]
  rfl

theorem filled_self {index : HashedIndex κ ν ρ} {h : Handle} {entry : Entry κ ν}
    (he : index.chains.entries.get? h = some entry) : Filled index h entry.value index where
  config := .refl index
  entries := Chains.sameEntries_withValue_self he
  rung := rfl
  threaded _ ht := ht

theorem filled_putSlot (index : HashedIndex κ ν ρ) (h : Handle) (held : Option (Held ν)) :
    Filled index h held (index.putSlot h held).index where
  config := rfl
  entries := .refl _
  rung := rfl
  threaded _ ht := ht.setValue h held

theorem Filled.trans {index index' index'' : HashedIndex κ ν ρ} {h : Handle}
    {held held' : Option (Held ν)} (hf : Filled index h held index')
    (hf' : Filled index' h held' index'') : Filled index h held' index'' where
  config := hf.config.trans hf'.config
  entries := (Chains.sameEntries_withValue_twice index.chains.entries h held held').trans
    ((hf.entries.withValue h held').trans hf'.entries)
  rung := hf'.rung.trans hf.rung
  threaded chain ht := hf'.threaded chain (hf.threaded chain ht)

/-- The entry still stands there, with the content of its slot. -/
theorem Filled.get? {index index' : HashedIndex κ ν ρ} {h : Handle} {held : Option (Held ν)}
    {entry : Entry κ ν} (hf : Filled index h held index')
    (he : index.chains.entries.get? h = some entry) :
    ∃ entry', index'.chains.entries.get? h = some entry' ∧ entry'.value = held := by
  have hbare := hf.entries.bare h
  rw [Pool.lawful.get?_modify, if_pos rfl, he] at hbare
  obtain ⟨entry', he', hb⟩ := Option.map_eq_some_iff.1 hbare
  exact ⟨entry', he', congrArg Entry.value hb⟩

theorem valueEvents_append (calls calls' : List (Call ν)) :
    (valueEvents (calls ++ calls') : List (Event κ ν)) = valueEvents calls ++ valueEvents calls' :=
  List.map_append

/-- An action on a slot does to the index what it does to the value in the slot. -/
structure Acted (index : HashedIndex κ ν ρ) (h : Handle) (held : Option (Held ν))
    (action : SlotAction ν) (r : Outcome κ ν ρ (SlotReply ν)) : Prop where
  result : r.result = (slotAct index.values held action).1
  filled : Filled index h (slotAct index.values held action).2 r.index
  events : r.events = valueEvents (slotCalls index.values held action)

theorem act_acted {index : HashedIndex κ ν ρ} {h : Handle} {entry : Entry κ ν}
    (he : index.chains.entries.get? h = some entry) (action : SlotAction ν) :
    Acted index h entry.value action (index.act h action) := by
  have hslot : index.slot? h = entry.value := by simp [slot?, he]
  cases action with
  | get => exact ⟨by simp [act, slotAct, hslot], filled_self he, rfl⟩
  | isEmpty => exact ⟨by simp [act, slotAct, hslot], filled_self he, rfl⟩
  | store value =>
    cases hs : (index.values.store value).result with
    | ok stored =>
      constructor
      · simp [act, storeSlot, slotAct, hs]
      · simpa [act, storeSlot, slotAct, hs] using filled_putSlot index h (some stored)
      · simp [act, storeSlot, putSlot, slotCalls, hs, hslot, valueEvents_append]
    | error cause =>
      constructor
      · simp [act, storeSlot, slotAct, hs]
      · simpa [act, storeSlot, slotAct, hs] using filled_self he
      · simp [act, storeSlot, slotCalls, hs]
  | storeOwned value =>
    exact ⟨rfl, filled_putSlot index h (some (.owned value)),
      by simp [act, putSlot, slotCalls, hslot]⟩
  | clear => exact ⟨rfl, filled_putSlot index h none, by simp [act, putSlot, slotCalls, hslot]⟩

/-- The same for actions in turn. -/
structure ActedAll (index : HashedIndex κ ν ρ) (h : Handle) (held : Option (Held ν))
    (actions : List (SlotAction ν)) (r : Outcome κ ν ρ (List (SlotReply ν))) : Prop where
  result : r.result = (slotRun index.values actions held).1
  filled : Filled index h (slotRun index.values actions held).2 r.index
  events : r.events = valueEvents (slotRunCalls index.values actions held)

theorem actAll_acted {index : HashedIndex κ ν ρ} {h : Handle} {entry : Entry κ ν}
    (he : index.chains.entries.get? h = some entry) (actions : List (SlotAction ν)) :
    ActedAll index h entry.value actions (actAll h actions index) := by
  induction actions generalizing index entry with
  | nil => exact ⟨rfl, filled_self he, rfl⟩
  | cons action rest ih =>
    have hfirst := act_acted he action
    obtain ⟨entry', he', hvalue⟩ := hfirst.filled.get? he
    have hrest := ih he'
    have hvalues := hfirst.filled.config.values
    constructor
    · rw [actAll, slotRun, hfirst.result, hrest.result, hvalues, hvalue]
    · have hfilled := hrest.filled
      rw [hvalues, hvalue] at hfilled
      exact hfirst.filled.trans hfilled
    · rw [actAll, slotRunCalls, valueEvents_append, hfirst.events, hrest.events, hvalues, hvalue]

/-- No action on a slot touches the buckets. -/
theorem heads_act (index : HashedIndex κ ν ρ) (h : Handle) (action : SlotAction ν) :
    (index.act h action).index.chains.heads = index.chains.heads := by
  cases action with
  | get | isEmpty | storeOwned | clear => rfl
  | store value =>
    cases hs : (index.values.store value).result <;>
      simp [act, storeSlot, putSlot, Chains.setValue, hs]

theorem heads_actAll (index : HashedIndex κ ν ρ) (h : Handle) (actions : List (SlotAction ν)) :
    (actAll h actions index).index.chains.heads = index.chains.heads := by
  induction actions generalizing index with
  | nil => rfl
  | cons action rest ih => rw [actAll, ih, heads_act]

end HashedIndex

end MemIndex
