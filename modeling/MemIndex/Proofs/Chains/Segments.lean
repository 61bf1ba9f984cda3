import MemIndex.HashedIndex.Chains
import MemIndex.Proofs.Pool

/-!
# Segments of chains

A segment is a list of handles that the links go along, from some link on and up to another one.
Changing the link of its last entry leads a segment somewhere else, and leaves every segment that this
entry is not in as it is.
-/
namespace MemIndex

namespace Entry

variable {κ ν : Type}

/-- The entry without its link. -/
def bare (entry : Entry κ ν) : Entry κ ν := entry.withNext none

@[simp] theorem next_withNext (entry : Entry κ ν) (link : Option Handle) :
    (entry.withNext link).next = link := rfl

@[simp] theorem bare_withNext (entry : Entry κ ν) (link : Option Handle) :
    (entry.withNext link).bare = entry.bare := rfl

@[simp] theorem next_withValue (entry : Entry κ ν) (value : Option (Held ν)) :
    (entry.withValue value).next = entry.next := rfl

@[simp] theorem bare_withValue (entry : Entry κ ν) (value : Option (Held ν)) :
    (entry.withValue value).bare = entry.bare.withValue value := rfl

@[simp] theorem hash_bare (entry : Entry κ ν) : entry.bare.hash = entry.hash := rfl

@[simp] theorem key_bare (entry : Entry κ ν) : entry.bare.key = entry.key := rfl

@[simp] theorem value_bare (entry : Entry κ ν) : entry.bare.value = entry.value := rfl

end Entry

namespace Chains

variable {κ ν : Type}

/-- The links lead from the first one along these entries to the last one. -/
def Segment (p : Pool (Entry κ ν)) : Option Handle → List Handle → Option Handle → Prop
  | link, [], stop => link = stop
  | link, h :: rest, stop =>
    link = some h ∧ ∃ entry, p.get? h = some entry ∧ Segment p entry.next rest stop

section Segments

variable {p q : Pool (Entry κ ν)} {link stop : Option Handle} {hs : List Handle}

theorem segment_append {hs' : List Handle} :
    Segment p link (hs ++ hs') stop ↔ ∃ mid, Segment p link hs mid ∧ Segment p mid hs' stop := by
  induction hs generalizing link with
  | nil => simp [Segment]
  | cons h rest ih =>
    simp only [List.cons_append, Segment, ih]
    constructor
    · rintro ⟨hl, entry, he, mid, hrest, htail⟩
      exact ⟨mid, ⟨hl, entry, he, hrest⟩, htail⟩
    · rintro ⟨mid, ⟨hl, entry, he, hrest⟩, htail⟩
      exact ⟨hl, entry, he, mid, hrest, htail⟩

theorem segment_concat {h : Handle} :
    Segment p link (hs ++ [h]) stop ↔
      Segment p link hs (some h) ∧ ∃ entry, p.get? h = some entry ∧ entry.next = stop := by
  rw [segment_append]
  simp only [Segment]
  constructor
  · rintro ⟨mid, hhs, rfl, hentry⟩
    exact ⟨hhs, hentry⟩
  · rintro ⟨hhs, hentry⟩
    exact ⟨some h, hhs, rfl, hentry⟩

theorem Segment.congr (hs' : Segment p link hs stop)
    (hkept : ∀ h ∈ hs, (q.get? h).map Entry.next = (p.get? h).map Entry.next) :
    Segment q link hs stop := by
  induction hs generalizing link with
  | nil => exact hs'
  | cons h rest ih =>
    obtain ⟨hl, entry, he, hrest⟩ := hs'
    have hnext := hkept h (List.mem_cons_self ..)
    rw [he] at hnext
    obtain ⟨entry', he', hnext⟩ := Option.map_eq_some_iff.1 hnext
    exact ⟨hl, entry', he', hnext ▸ ih hrest fun x hx => hkept x (List.mem_cons_of_mem h hx)⟩

/-- Every handle of a segment resolves. -/
theorem Segment.get? (hs' : Segment p link hs stop) {h : Handle} (hh : h ∈ hs) :
    ∃ entry, p.get? h = some entry := by
  induction hs generalizing link with
  | nil => cases hh
  | cons x rest ih =>
    obtain ⟨-, entry, he, hrest⟩ := hs'
    rcases List.mem_cons.1 hh with rfl | hh
    · exact ⟨entry, he⟩
    · exact ih hrest hh

/-- The links of a segment lead to its entries or to its end. -/
theorem Segment.next_mem (hs' : Segment p link hs stop) {h : Handle} (hh : h ∈ hs)
    {entry : Entry κ ν} (he : p.get? h = some entry) :
    entry.next = stop ∨ ∃ h' ∈ hs, entry.next = some h' := by
  induction hs generalizing link with
  | nil => cases hh
  | cons x rest ih =>
    obtain ⟨-, entry', he', hrest⟩ := hs'
    rcases List.mem_cons.1 hh with rfl | hh
    · rw [he] at he'
      cases he'
      cases rest with
      | nil => exact .inl hrest
      | cons y rest => exact .inr ⟨y, by simp, hrest.1⟩
    · exact (ih hrest hh).imp_right fun ⟨h', hm, hn⟩ => ⟨h', List.mem_cons_of_mem x hm, hn⟩

/-- A segment without repetitions is no longer than there are entries. -/
theorem Segment.length_le (hp : p.Sound) (hs' : Segment p link hs stop) (hn : hs.Nodup) :
    hs.length ≤ p.size := by
  rw [← Pool.length_handles hp]
  refine (List.subperm_of_subset hn fun h hh => ?_).length_le
  obtain ⟨entry, he⟩ := hs'.get? hh
  exact Pool.mem_handles_of_get? he

end Segments

/-- The same entries stand under the same handles, whatever their links are. -/
structure SameEntries (p q : Pool (Entry κ ν)) : Prop where
  slots : Pool.SameSlots p q
  bare : ∀ h, (q.get? h).map Entry.bare = (p.get? h).map Entry.bare

theorem SameEntries.refl (p : Pool (Entry κ ν)) : SameEntries p p := ⟨.refl p, fun _ => rfl⟩

theorem SameEntries.trans {p q r : Pool (Entry κ ν)} (h : SameEntries p q) (h' : SameEntries q r) :
    SameEntries p r :=
  ⟨Pool.lawful.slots.trans h.slots h'.slots, fun x => (h'.bare x).trans (h.bare x)⟩

theorem SameEntries.get?_iff {p q : Pool (Entry κ ν)} (h : SameEntries p q) {x : Handle}
    {entry : Entry κ ν} (he : q.get? x = some entry) :
    ∃ entry', p.get? x = some entry' ∧ entry'.bare = entry.bare := by
  have hbare := h.bare x
  rw [he] at hbare
  exact Option.map_eq_some_iff.1 hbare.symm

/-- An entry that has just come in is found under its handle. -/
theorem SameEntries.get?_nextHandle {p q : Pool (Entry κ ν)} (hp : p.Sound) {entry : Entry κ ν}
    (h : SameEntries (p.insert entry) q) :
    ∃ entry', q.get? p.nextHandle = some entry' ∧ entry'.value = entry.value := by
  have hbare := h.bare p.nextHandle
  rw [Pool.lawful.get?_insert hp, if_pos rfl] at hbare
  obtain ⟨entry', he, hb⟩ := Option.map_eq_some_iff.1 hbare
  exact ⟨entry', he, by simpa using congrArg Entry.value hb⟩

section Congr

variable {p q : Pool (Entry κ ν)} (h : SameEntries p q)

include h

theorem SameEntries.erase (x : Handle) : SameEntries (p.erase x) (q.erase x) where
  slots := Pool.lawful.slots_erase h.slots x
  bare y := by
    rw [Pool.lawful.get?_erase, Pool.lawful.get?_erase]
    split
    · rfl
    · exact h.bare y

theorem SameEntries.withValue (x : Handle) (value : Option (Held ν)) :
    SameEntries (p.modify x (·.withValue value)) (q.modify x (·.withValue value)) where
  slots := Pool.lawful.slots_modify_congr h.slots x _ _
  bare y := by
    rw [Pool.lawful.get?_modify, Pool.lawful.get?_modify]
    split
    · have hbare := congrArg (Option.map fun entry => entry.withValue value) (h.bare x)
      simpa [Option.map_map, Function.comp_def] using hbare
    · exact h.bare y

end Congr

/-- One entry has been given another link. -/
structure Relinked (p q : Pool (Entry κ ν)) (h : Handle) (entry : Entry κ ν)
    (link : Option Handle) : Prop where
  same : SameEntries p q
  here : q.get? h = some (entry.withNext link)
  other : ∀ h', h' ≠ h → q.get? h' = p.get? h'

theorem exists_withNext {p : Pool (Entry κ ν)} {h : Handle} {entry : Entry κ ν}
    (he : p.get? h = some entry) (link : Option Handle) :
    ∃ q, p.modify? h (·.withNext link) = some q ∧ Relinked p q h entry link := by
  have hget := Pool.lawful.get?_modify p h
  refine ⟨p.modify h (·.withNext link), Pool.modify?_of_get? he _,
    ⟨Pool.lawful.slots_modify p h _, fun x => ?_⟩, ?_, fun x hx => ?_⟩
  · rw [hget]
    split
    · rename_i hx
      rw [hx, he]
      rfl
    · rfl
  · rw [hget, if_pos rfl, he]
    rfl
  · rw [hget, if_neg hx]

/-- The last entry of a segment leads somewhere else. -/
theorem Relinked.segment {p q : Pool (Entry κ ν)} {h : Handle} {entry : Entry κ ν}
    {first stop link : Option Handle} {hs : List Handle} (hr : Relinked p q h entry link)
    (hs' : Segment p first (hs ++ [h]) stop) (hn : h ∉ hs) : Segment q first (hs ++ [h]) link := by
  obtain ⟨hinit, -⟩ := segment_concat.1 hs'
  refine segment_concat.2 ⟨hinit.congr fun x hx => ?_, _, hr.here, rfl⟩
  rw [hr.other x fun he => hn (he ▸ hx)]

end Chains

end MemIndex
