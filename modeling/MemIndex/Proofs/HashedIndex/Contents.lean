import MemIndex.Proofs.HashedIndex.Maps

/-!
# Pools as maps

What a pool holds, read as a map: for each entry its key and its value. The order in which the handles
are gone through decides how the map is listed.
-/
namespace MemIndex.HashedIndex

open MemIndex.Chains (SameEntries)

variable {κ ν σ : Type}

def pairOf (entry : Entry κ ν) : κ × Option (Held ν) := (entry.key.value, entry.value)

@[simp] theorem pairOf_fst (entry : Entry κ ν) : (pairOf entry).1 = entry.key.value := rfl

@[simp] theorem pairOf_snd (entry : Entry κ ν) : (pairOf entry).2 = entry.value := rfl

/-- The keys and values under some handles. -/
def mapOf (p : Pool (Entry κ ν)) (hs : List Handle) : KeyMap κ ν :=
  hs.filterMap fun h => (p.get? h).map pairOf

def content (p : Pool (Entry κ ν)) : KeyMap κ ν := mapOf p p.handles

section Listings

variable {p q : Pool (Entry κ ν)} {h : Handle} {entry : Entry κ ν} {hs hs' : List Handle}

theorem mapOf_cons (he : p.get? h = some entry) (hs : List Handle) :
    mapOf p (h :: hs) = pairOf entry :: mapOf p hs := by
  simp [mapOf, he]

theorem mapOf_perm (p : Pool (Entry κ ν)) (hperm : hs.Perm hs') : (mapOf p hs).Perm (mapOf p hs') :=
  hperm.filterMap _

theorem mapOf_congr (hkept : ∀ h ∈ hs, (q.get? h).map pairOf = (p.get? h).map pairOf) :
    mapOf q hs = mapOf p hs :=
  List.filterMap_congr hkept

theorem content_eq (p : Pool (Entry κ ν)) : content p = p.records.map pairOf := by
  rw [← Pool.filterMap_get?_handles, List.map_filterMap]
  rfl

theorem length_content (hp : p.Sound) : (content p).length = p.size := by
  rw [content_eq, List.length_map, Pool.records, List.length_map, Pool.lawful.length_entries hp]

/-- A listing shows just what is held. -/
theorem mem_mapOf {pair : κ × Option (Held ν)} :
    pair ∈ mapOf p hs ↔ ∃ h ∈ hs, ∃ entry, p.get? h = some entry ∧ pairOf entry = pair := by
  simp only [mapOf, List.mem_filterMap, Option.map_eq_some_iff]

end Listings

/-! ## Contents after an operation -/

section Contents

variable {p q : Pool (Entry κ ν)} {h : Handle} {entry : Entry κ ν}

theorem content_sameEntries (hs : SameEntries p q) : (content q).Perm (content p) := by
  have hkept : ∀ h ∈ p.handles, (q.get? h).map pairOf = (p.get? h).map pairOf := by
    intro h _
    have hbare := congrArg (Option.map pairOf) (hs.bare h)
    rwa [Option.map_map, Option.map_map] at hbare
  rw [content, content, ← mapOf_congr hkept]
  exact mapOf_perm q (.of_eq hs.slots.handles)

theorem content_insert (hp : p.Sound) (entry : Entry κ ν) :
    (content (p.insert entry)).Perm (pairOf entry :: content p) := by
  have hnew : (p.insert entry).get? p.nextHandle = some entry := by
    rw [Pool.lawful.get?_insert hp, if_pos rfl]
  have hold : mapOf (p.insert entry) p.handles = mapOf p p.handles := by
    apply mapOf_congr
    intro h hh
    rw [Pool.lawful.get?_insert hp, if_neg]
    rintro rfl
    rw [Pool.mem_handles, Pool.contains_nextHandle hp] at hh
    cases hh
  rw [content, content, ← hold, ← mapOf_cons hnew]
  exact mapOf_perm _ (Pool.handles_insert hp entry)

theorem content_erase (he : p.get? h = some entry) :
    (content p).Perm (pairOf entry :: content (p.erase h)) := by
  have hold : mapOf (p.erase h) (p.erase h).handles = mapOf p (p.erase h).handles := by
    apply mapOf_congr
    intro x hx
    rw [Pool.mem_handles, Pool.contains_erase] at hx
    rw [Pool.lawful.get?_erase, if_neg hx.1]
  rw [content, content, hold, ← mapOf_cons he]
  exact mapOf_perm p (Pool.handles_erase he)

theorem content_withValue (he : p.get? h = some entry) (held : Option (Held ν)) :
    (content (p.modify h (·.withValue held))).Perm
      ((entry.key.value, held) :: content (p.erase h)) := by
  have hnew : (p.modify h (·.withValue held)).get? h = some (entry.withValue held) := by
    rw [Pool.lawful.get?_modify, if_pos rfl, he]
    rfl
  have hrest : SameEntries (p.erase h) ((p.modify h (·.withValue held)).erase h) := by
    constructor
    · exact Pool.lawful.slots_erase (Pool.lawful.slots_modify p h _) h
    · intro x
      rw [Pool.lawful.get?_erase, Pool.lawful.get?_erase]
      split
      · rfl
      · rename_i hx
        rw [Pool.lawful.get?_modify, if_neg hx]
  exact (content_erase hnew).trans ((content_sameEntries hrest).cons _)

theorem content_clear (p : Pool (Entry κ ν)) : content p.clear = [] := by
  simp [content, mapOf]

theorem content_foldl_erase {hs : List Handle} (hperm : hs.Perm p.handles) (gone : List Handle) :
    (content (gone.foldl Pool.erase p)).Perm (mapOf p (hs.diff gone)) := by
  have hn : hs.Nodup := hperm.nodup_iff.2 (Pool.handles_nodup p)
  have hold : mapOf (gone.foldl Pool.erase p) (hs.diff gone) = mapOf p (hs.diff gone) := by
    apply mapOf_congr
    intro x hx
    rw [Pool.lawful.get?_foldl_erase, if_neg (hn.mem_sdiff_iff.1 hx).2]
  rw [← hold]
  exact mapOf_perm _ (Pool.handles_foldl_erase hperm gone)

/-- Some of the handles are let go, and the others keep what they had. -/
theorem content_split {hs : List Handle} (hperm : hs.Perm p.handles) {gone : List Handle}
    (hsub : gone.Sublist hs) :
    (content p).Perm (mapOf p gone ++ content (gone.foldl Pool.erase p)) := by
  have hparts : (gone ++ hs.diff gone).Perm hs :=
    List.subperm_append_diff_self_of_count_le fun x _ => hsub.count_le x
  have hlisted : (content p).Perm (mapOf p (gone ++ hs.diff gone)) :=
    (mapOf_perm p (hparts.trans hperm)).symm
  rw [mapOf, List.filterMap_append] at hlisted
  exact hlisted.trans ((content_foldl_erase hperm gone).symm.append_left _)

end Contents

/-! ## Sweeps -/

/-- What is listed under some handles, read as a map. -/
theorem mapOf_eq_listed (p : Pool (Entry κ ν)) (hs : List Handle) :
    mapOf p hs = ((listed p hs).map Prod.snd).map pairOf := by
  simp only [mapOf, listed, List.map_filterMap, Option.map_map]
  rfl

/-- A sweep over what is listed under some handles is a sweep over the map that they list. -/
theorem sweep_mapOf (visit : EntryVisitor κ ν σ) {p : Pool (Entry κ ν)} {hs : List Handle}
    (hn : hs.Nodup) (hheld : ∀ h ∈ hs, p.contains h = true) (state : σ) :
    KeyMap.sweep visit (mapOf p hs) state =
      ⟨mapOf p (hs.diff (visitAll visit (listed p hs) state).removed),
        (visitAll visit (listed p hs) state).verdict, (visitAll visit (listed p hs) state).state⟩ := by
  induction hs generalizing state with
  | nil => rfl
  | cons h rest ih =>
    obtain ⟨hnew, hn⟩ := List.nodup_cons.1 hn
    obtain ⟨entry, he⟩ := Pool.contains_iff.1 (hheld h (List.mem_cons_self ..))
    have hrest := ih hn fun x hx => hheld x (List.mem_cons_of_mem h hx)
    rw [mapOf_cons he, listed_cons he]
    obtain ⟨answer, hanswer⟩ : ∃ answer,
        visit entry.key.value (entry.value.map Held.value) state = answer := ⟨_, rfl⟩
    by_cases hgo : answer.verdict = .proceed
    · cases hremove : answer.remove with
      | true =>
        simp [KeyMap.sweep, visitAll, visitOne, Visited.andThen, pairOf, hanswer, hgo, hremove, hrest]
      | false =>
        have hkept : h ∉ (visitAll visit (listed p rest) answer.state).removed := fun hm =>
          hnew (fst_listed_subset p rest (removed_subset _ _ hm))
        simp [KeyMap.sweep, visitAll, visitOne, Visited.andThen, pairOf, hanswer, hgo, hremove, hrest,
          List.cons_diff_of_not_mem hkept, mapOf_cons he]
    · cases hremove : answer.remove with
      | true => simp [KeyMap.sweep, visitAll, visitOne, Visited.andThen, pairOf, hanswer, hgo, hremove]
      | false =>
        simp [KeyMap.sweep, visitAll, visitOne, Visited.andThen, pairOf, hanswer, hgo, hremove,
          mapOf_cons he]

end MemIndex.HashedIndex
