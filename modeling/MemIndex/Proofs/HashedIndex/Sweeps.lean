import MemIndex.Proofs.HashedIndex.Showings
import MemIndex.Proofs.HashedIndex.Slots

/-!
# Sweeps as walks over lists

A sweep shows the visitor the entries as the chains list them when it begins, whatever it removes on
the way, and it leaves the entries whose removal was not asked for.
-/
namespace MemIndex.HashedIndex

open MemIndex.Chains (SameEntries Segment order)

variable {κ ν ρ σ : Type}

/-- What a visitor has asked for while it was shown some entries. -/
structure Visited (σ : Type) where
  removed : List Handle
  verdict : Verdict
  state : σ

/-- Goes on to the next entries if the visitor wants to. -/
def Visited.andThen (first : Visited σ) (next : σ → Visited σ) : Visited σ :=
  if first.verdict = .proceed then
    let others := next first.state
    ⟨first.removed ++ others.removed, others.verdict, others.state⟩
  else first

def visitOne (visit : EntryVisitor κ ν σ) (h : Handle) (entry : Entry κ ν) (state : σ) : Visited σ :=
  let answer := visit entry.key.value (entry.value.map Held.value) state
  ⟨if answer.remove then [h] else [], answer.verdict, answer.state⟩

def visitAll (visit : EntryVisitor κ ν σ) : List (Handle × Entry κ ν) → σ → Visited σ
  | [], state => ⟨[], .proceed, state⟩
  | (h, entry) :: rest, state => (visitOne visit h entry state).andThen (visitAll visit rest)

/-- The entries under some handles, without their links. -/
def listed (p : Pool (Entry κ ν)) (hs : List Handle) : List (Handle × Entry κ ν) :=
  hs.filterMap fun h => (p.get? h).map fun entry => (h, entry.bare)

section Lists

variable {visit : EntryVisitor κ ν σ}

theorem Visited.andThen_assoc (first : Visited σ) (f g : σ → Visited σ) :
    (first.andThen f).andThen g = first.andThen fun state => (f state).andThen g := by
  unfold Visited.andThen
  by_cases hfirst : first.verdict = .proceed
  · by_cases hf : (f first.state).verdict = .proceed
    · simp [hfirst, hf]
    · simp [hfirst, hf]
  · simp [hfirst]

theorem visitAll_append (xs ys : List (Handle × Entry κ ν)) (state : σ) :
    visitAll visit (xs ++ ys) state = (visitAll visit xs state).andThen (visitAll visit ys) := by
  induction xs generalizing state with
  | nil => simp [visitAll, Visited.andThen]
  | cons x xs ih =>
    have hrest : visitAll visit (xs ++ ys) = fun state =>
        (visitAll visit xs state).andThen (visitAll visit ys) := funext ih
    rw [List.cons_append, visitAll, visitAll, hrest, Visited.andThen_assoc]

theorem showings_append (index : HashedIndex κ ν ρ) (xs ys : List (Handle × Entry κ ν)) (state : σ) :
    index.showings visit (xs ++ ys) state = index.showings visit xs state ++
      if (visitAll visit xs state).verdict = .proceed then
        index.showings visit ys (visitAll visit xs state).state else [] := by
  induction xs generalizing state with
  | nil => simp [showings, visitAll]
  | cons x xs ih =>
    obtain ⟨h, entry⟩ := x
    by_cases hgo : (visit entry.key.value (entry.value.map Held.value) state).verdict = .proceed
    · simp [showings, showingOf, visitAll, visitOne, Visited.andThen, hgo, ih]
    · simp [showings, showingOf, visitAll, visitOne, Visited.andThen, hgo]

theorem eq_of_mem_removed {h y : Handle} {entry : Entry κ ν} {state : σ}
    (hy : y ∈ (visitOne visit h entry state).removed) : y = h := by
  simp only [visitOne] at hy
  split at hy <;> simp_all

/-- Every entry is removed once at most, and in its turn. -/
theorem removed_sublist (xs : List (Handle × Entry κ ν)) (state : σ) :
    (visitAll visit xs state).removed.Sublist (xs.map Prod.fst) := by
  induction xs generalizing state with
  | nil => exact List.Sublist.refl _
  | cons x xs ih =>
    obtain ⟨h, entry⟩ := x
    have hone : (visitOne visit h entry state).removed.Sublist [h] := by
      unfold visitOne
      dsimp only
      split
      · exact List.Sublist.refl _
      · exact List.nil_sublist _
    change ((visitOne visit h entry state).andThen (visitAll visit xs)).removed.Sublist
      ([h] ++ xs.map Prod.fst)
    unfold Visited.andThen
    split
    · exact hone.append (ih _)
    · exact hone.trans (List.sublist_append_left _ _)

theorem removed_subset (xs : List (Handle × Entry κ ν)) (state : σ) :
    (visitAll visit xs state).removed ⊆ xs.map Prod.fst :=
  (removed_sublist xs state).subset

theorem listed_congr {p q : Pool (Entry κ ν)} {hs : List Handle}
    (hkept : ∀ h ∈ hs, (q.get? h).map Entry.bare = (p.get? h).map Entry.bare) :
    listed q hs = listed p hs := by
  apply List.filterMap_congr
  intro h hh
  have hpair := congrArg (Option.map fun entry : Entry κ ν => (h, entry)) (hkept h hh)
  simpa [Option.map_map, Function.comp_def] using hpair

theorem listed_append (p : Pool (Entry κ ν)) (hs hs' : List Handle) :
    listed p (hs ++ hs') = listed p hs ++ listed p hs' :=
  List.filterMap_append ..

theorem listed_cons {p : Pool (Entry κ ν)} {h : Handle} {entry : Entry κ ν}
    (he : p.get? h = some entry) (hs : List Handle) :
    listed p (h :: hs) = (h, entry.bare) :: listed p hs := by
  simp [listed, he]

theorem fst_listed (p : Pool (Entry κ ν)) (hs : List Handle) :
    (listed p hs).map Prod.fst = hs.filter p.contains := by
  induction hs with
  | nil => rfl
  | cons h hs ih =>
    cases he : p.get? h with
    | none => simpa [listed, he, Pool.contains] using ih
    | some entry => simpa [listed, he, Pool.contains] using ih

theorem fst_listed_sublist (p : Pool (Entry κ ν)) (hs : List Handle) :
    ((listed p hs).map Prod.fst).Sublist hs := by
  rw [fst_listed]
  exact List.filter_sublist

theorem fst_listed_subset (p : Pool (Entry κ ν)) (hs : List Handle) :
    (listed p hs).map Prod.fst ⊆ hs :=
  (fst_listed_sublist p hs).subset

theorem removed_sublist_listed (visit : EntryVisitor κ ν σ) (p : Pool (Entry κ ν)) (hs : List Handle) (state : σ) :
    (visitAll visit (listed p hs) state).removed.Sublist hs :=
  (removed_sublist (listed p hs) state).trans (fst_listed_sublist p hs)

/-- What is removed was there, and is removed once. -/
theorem removed_held (visit : EntryVisitor κ ν σ) {p : Pool (Entry κ ν)} {hs : List Handle}
    (hperm : hs.Perm p.handles) (state : σ) :
    (visitAll visit (listed p hs) state).removed.Nodup ∧
      ∀ h ∈ (visitAll visit (listed p hs) state).removed, p.contains h = true := by
  have hsub := removed_sublist_listed visit p hs state
  refine ⟨hsub.nodup (hperm.nodup_iff.2 p.handles_nodup), fun h hh => ?_⟩
  exact Pool.mem_handles.1 (hperm.subset (hsub.subset hh))

theorem sameEntries_foldl_erase {p q : Pool (Entry κ ν)} (h : SameEntries p q) (hs : List Handle) :
    SameEntries (hs.foldl Pool.erase p) (hs.foldl Pool.erase q) := by
  induction hs generalizing p q with
  | nil => exact h
  | cons x hs ih => exact ih (h.erase x)

end Lists

/-- What is called when the entries under some handles are let go, one after another. -/
def released (index : HashedIndex κ ν ρ) (p : Pool (Entry κ ν)) (hs : List Handle) :
    List (Event κ ν) :=
  (listed p hs).flatMap fun (_, entry) => index.releaseEntry entry

section Released

variable {index : HashedIndex κ ν ρ} {p q : Pool (Entry κ ν)} {hs : List Handle}

theorem released_eq (index : HashedIndex κ ν ρ) (p : Pool (Entry κ ν)) (hs : List Handle) :
    index.released p hs = ((listed p hs).map Prod.snd).flatMap index.releaseEntry := by
  rw [List.flatMap_map]
  rfl

theorem released_append (hs' : List Handle) :
    index.released p (hs ++ hs') = index.released p hs ++ index.released p hs' := by
  rw [released, listed_append, List.flatMap_append]
  rfl

theorem released_singleton {h : Handle} {entry : Entry κ ν} (he : p.get? h = some entry) :
    index.released p [h] = index.releaseEntry entry := by
  rw [released, listed_cons he]
  exact List.append_nil _

theorem released_congr
    (hkept : ∀ h ∈ hs, (q.get? h).map Entry.bare = (p.get? h).map Entry.bare) :
    index.released q hs = index.released p hs := by
  rw [released, listed_congr hkept, released]

end Released

/-- A sweep has come from one point to another as the visitor asked. -/
structure Came (index : HashedIndex κ ν ρ) (p p' : Progress κ ν σ) (visited : Visited σ) : Prop where
  entries : SameEntries (visited.removed.foldl Pool.erase p.chains.entries) p'.chains.entries
  bucketCount : p'.chains.bucketCount = p.chains.bucketCount
  verdict : p'.verdict = visited.verdict
  removed : p'.removed = true ↔ p.removed = true ∨ visited.removed ≠ []
  state : p'.state = visited.state
  events : p'.events.toList = p.events.toList ++ index.released p.chains.entries visited.removed
  unchanged : visited.removed = [] → p'.chains = p.chains

section Came

variable {index : HashedIndex κ ν ρ} {p p₁ p₂ : Progress κ ν σ} {visited : Visited σ}
  {next : σ → Visited σ}

theorem Came.refl (index : HashedIndex κ ν ρ) {p : Progress κ ν σ} (hgo : p.verdict = .proceed) :
    Came index p p ⟨[], .proceed, p.state⟩ :=
  ⟨.refl _, rfl, hgo, by simp, rfl, (List.append_nil _).symm, fun _ => rfl⟩

/-- What is removed later must be there still. -/
theorem Came.andThen (h : Came index p p₁ visited) (hgo : p₁.verdict = .proceed)
    (h' : Came index p₁ p₂ (next p₁.state))
    (hkept : ∀ x ∈ (next p₁.state).removed,
      (p₁.chains.entries.get? x).map Entry.bare = (p.chains.entries.get? x).map Entry.bare) :
    Came index p p₂ (visited.andThen next) := by
  have hevents := h'.events
  rw [released_congr hkept, h.events] at hevents
  rw [h.verdict] at hgo
  rw [h.state] at h' hevents
  unfold Visited.andThen
  rw [if_pos hgo]
  constructor
  · rw [List.foldl_append]
    exact (sameEntries_foldl_erase h.entries _).trans h'.entries
  · exact h'.bucketCount.trans h.bucketCount
  · exact h'.verdict
  · rw [h'.removed, h.removed, or_assoc, Ne, Ne, Ne, List.append_eq_nil_iff, not_and_or]
  · exact h'.state
  · rw [hevents, released_append, List.append_assoc]
  · intro hnone
    obtain ⟨hfirst, hothers⟩ := List.append_eq_nil_iff.1 hnone
    exact (h'.unchanged hothers).trans (h.unchanged hfirst)

theorem Came.stop (h : Came index p p₁ visited) (hstop : p₁.verdict ≠ .proceed) :
    Came index p p₁ (visited.andThen next) := by
  rw [h.verdict] at hstop
  unfold Visited.andThen
  rwa [if_neg hstop]

/-- What has not been removed is there still. -/
theorem Came.kept (h : Came index p p₁ visited) {x : Handle} (hx : x ∉ visited.removed) :
    (p₁.chains.entries.get? x).map Entry.bare = (p.chains.entries.get? x).map Entry.bare := by
  rw [h.entries.bare, Pool.lawful.get?_foldl_erase, if_neg hx]

end Came

/-- Showing one entry. Its place is taken by the rest of the chain if it is removed. -/
theorem exists_showEntry (index : HashedIndex κ ν ρ) (visit : EntryVisitor κ ν σ) {bucket : Nat}
    {p : Progress κ ν σ} {chain : Nat → List Handle} {before rest : List Handle} {h : Handle}
    {entry : Entry κ ν} (ht : p.chains.Threaded chain) (hb : bucket < p.chains.bucketCount)
    (hsplit : chain bucket = before ++ h :: rest) (he : p.chains.entries.get? h = some entry)
    (hrest : Segment p.chains.entries entry.next rest none) :
    ∃ p₁ before₁, index.showEntry visit bucket before.getLast? h p =
        some ⟨p₁, before₁.getLast?, entry.next, index.showingOf visit h entry p.state⟩ ∧
      Came index p p₁ (visitOne visit h entry p.state) ∧
      p₁.chains.Threaded (Function.update chain bucket (before₁ ++ rest)) ∧
      Segment p₁.chains.entries entry.next rest none := by
  obtain ⟨chains, verdict, removed, state, events⟩ := p
  dsimp only at ht hb he hrest ⊢
  generalize hanswer : visit entry.key.value (entry.value.map Held.value) state = answer
  cases hremove : answer.remove with
  | true =>
    obtain ⟨c', hrun, hr, htail⟩ := ht.unlink hb hsplit he
    refine ⟨⟨c', answer.verdict, true, answer.state, events ++ index.releaseEntry entry⟩, before,
      ?_, ⟨?_, hr.bucketCount, ?_, ?_, ?_, ?_, ?_⟩, hr.threaded, htail⟩
    · simp [showEntry, showingOf, he, hanswer, hremove, hrun]
    · simpa [visitOne, hanswer, hremove] using hr.entries
    · simp [visitOne, hanswer]
    · simp [visitOne, hanswer, hremove]
    · simp [visitOne, hanswer]
    · simp [visitOne, hanswer, hremove, released_singleton he]
    · simp [visitOne, hanswer, hremove]
  | false =>
    refine ⟨⟨chains, answer.verdict, removed, answer.state, events⟩, before ++ [h], ?_,
      ⟨?_, rfl, ?_, ?_, ?_, ?_, fun _ => rfl⟩, ?_, hrest⟩
    · simp [showEntry, showingOf, he, hanswer, hremove]
    · simpa [visitOne, hanswer, hremove] using SameEntries.refl chains.entries
    · simp [visitOne, hanswer]
    · simp [visitOne, hanswer, hremove]
    · simp [visitOne, hanswer]
    · simp [visitOne, hanswer, hremove, released, listed]
    · rw [List.append_assoc, List.singleton_append, ← hsplit, Function.update_eq_self]
      exact ht

theorem exists_showFrom (index : HashedIndex κ ν ρ) (visit : EntryVisitor κ ν σ) {bucket budget : Nat}
    {p : Progress κ ν σ} {chain : Nat → List Handle} {before rest : List Handle}
    {link : Option Handle} (ht : p.chains.Threaded chain) (hb : bucket < p.chains.bucketCount)
    (hsplit : chain bucket = before ++ rest) (hlink : Segment p.chains.entries link rest none)
    (hbudget : rest.length ≤ budget) (hgo : p.verdict = .proceed) :
    ∃ p' kept, index.showFrom visit bucket budget before.getLast? link p =
        some (p', index.showings visit (listed p.chains.entries rest) p.state) ∧
      Came index p p' (visitAll visit (listed p.chains.entries rest) p.state) ∧
      p'.chains.Threaded (Function.update chain bucket kept) := by
  induction rest generalizing p chain before link budget with
  | nil =>
    cases hlink
    refine ⟨p, chain bucket, by cases budget <;> rfl, .refl index hgo, ?_⟩
    rw [Function.update_eq_self]
    exact ht
  | cons h rest ih =>
    obtain ⟨rfl, entry, he, hrest⟩ := hlink
    cases budget with
    | zero => simp at hbudget
    | succ budget =>
      obtain ⟨p₁, before₁, hrun, hcame, ht₁, hrest₁⟩ :=
        exists_showEntry index visit ht hb hsplit he hrest
      have hverdict : (index.showingOf visit h entry p.state).answer.verdict = p₁.verdict :=
        hcame.verdict.symm
      have hstate : (index.showingOf visit h entry p.state).answer.state = p₁.state :=
        hcame.state.symm
      have hlog : index.showings visit (listed p.chains.entries (h :: rest)) p.state =
          index.showingOf visit h entry p.state :: if p₁.verdict = .proceed then
            index.showings visit (listed p.chains.entries rest) p₁.state else [] := by
        rw [listed_cons he, ← hverdict, ← hstate]
        rfl
      rw [hlog, listed_cons he, showFrom, hrun, Option.bind_eq_bind, Option.bind_some]
      by_cases hgo₁ : p₁.verdict = .proceed
      · have hn := ht.nodup bucket hb
        rw [hsplit, List.nodup_append, List.nodup_cons] at hn
        have hkept : ∀ x ∈ rest, (p₁.chains.entries.get? x).map Entry.bare =
            (p.chains.entries.get? x).map Entry.bare := fun x hx =>
          hcame.kept fun hm => hn.2.1.1 (eq_of_mem_removed hm ▸ hx)
        obtain ⟨p₂, kept, hrun₂, hcame₂, ht₂⟩ := ih ht₁ (hcame.bucketCount ▸ hb)
          (Function.update_self ..) hrest₁ (Nat.le_of_succ_le_succ hbudget) hgo₁
        rw [listed_congr hkept] at hrun₂ hcame₂
        rw [Function.update_idem] at ht₂
        refine ⟨p₂, kept, by simp [hgo₁, hrun₂], hcame.andThen hgo₁ hcame₂ fun x hx => hkept x ?_, ht₂⟩
        exact fst_listed_subset _ _ (removed_subset _ _ hx)
      · exact ⟨p₁, _, by simp [hgo₁], hcame.stop hgo₁, ht₁⟩

theorem exists_showBuckets (index : HashedIndex κ ν ρ) (visit : EntryVisitor κ ν σ)
    {buckets : List Nat} {p : Progress κ ν σ} {chain : Nat → List Handle}
    (ht : p.chains.Threaded chain) (hlt : ∀ b ∈ buckets, b < p.chains.bucketCount)
    (hn : buckets.Nodup) (hgo : p.verdict = .proceed) :
    ∃ p' chain', index.showBuckets visit buckets p =
        some (p', index.showings visit (listed p.chains.entries (buckets.flatMap chain)) p.state) ∧
      Came index p p'
        (visitAll visit (listed p.chains.entries (buckets.flatMap chain)) p.state) ∧
      p'.chains.Threaded chain' := by
  induction buckets generalizing p chain with
  | nil => exact ⟨p, chain, rfl, .refl index hgo, ht⟩
  | cons b rest ih =>
    obtain ⟨hnew, hn⟩ := List.nodup_cons.1 hn
    have hb := hlt b (List.mem_cons_self ..)
    obtain ⟨head, hhead, hseg⟩ := ht.lane b hb
    have hsplit : chain b = [] ++ chain b := rfl
    obtain ⟨p₁, kept, hrun, hcame, ht₁⟩ :=
      exists_showFrom index visit ht hb hsplit hseg (ht.length_le hb) hgo
    rw [List.getLast?_nil] at hrun
    rw [List.flatMap_cons, listed_append, visitAll_append, showings_append, ← hcame.verdict,
      ← hcame.state]
    by_cases hgo₁ : p₁.verdict = .proceed
    · -- The other chains are as they were, and so are their entries.
      have hchains : rest.flatMap (Function.update chain b kept) = rest.flatMap chain :=
        List.flatMap_congr fun b' hb' => Function.update_of_ne (by rintro rfl; exact hnew hb') _ _
      have hkept : ∀ x ∈ rest.flatMap chain, (p₁.chains.entries.get? x).map Entry.bare =
          (p.chains.entries.get? x).map Entry.bare := by
        intro x hx
        apply hcame.kept
        intro hm
        obtain ⟨b', hb', hx'⟩ := List.mem_flatMap.1 hx
        have hxb := fst_listed_subset _ _ (removed_subset _ _ hm)
        have hbb := ht.eq_of_mem hb (hlt b' (List.mem_cons_of_mem b hb')) hxb hx'
        exact hnew (hbb ▸ hb')
      have hlt₁ : ∀ b' ∈ rest, b' < p₁.chains.bucketCount := by
        intro b' hb'
        rw [hcame.bucketCount]
        exact hlt b' (List.mem_cons_of_mem b hb')
      obtain ⟨p₂, chain₂, hrun₂, hcame₂, ht₂⟩ := ih ht₁ hlt₁ hn hgo₁
      rw [hchains, listed_congr hkept] at hrun₂ hcame₂
      refine ⟨p₂, chain₂, ?_, hcame.andThen hgo₁ hcame₂ fun x hx => hkept x ?_, ht₂⟩
      · simp [showBuckets, hhead, hrun, hgo₁, hrun₂]
      · exact fst_listed_subset _ _ (removed_subset _ _ hx)
    · refine ⟨p₁, _, ?_, hcame.stop hgo₁, ht₁⟩
      simp [showBuckets, hhead, hrun, hgo₁]

/-- A sweep shows the entries in the order in which the chains have them when it begins. -/
theorem exists_showAll {index : HashedIndex κ ν ρ} {chain : Nat → List Handle}
    (ht : index.chains.Threaded chain) (visit : EntryVisitor κ ν σ) (state : σ) :
    ∃ p chain', index.showAll visit state = some (p, index.showings visit
        (listed index.chains.entries (order index.bucketCount chain)) state) ∧
      Came index ⟨index.chains, .proceed, false, state, #[]⟩ p (visitAll visit
        (listed index.chains.entries (order index.bucketCount chain)) state) ∧
      p.chains.Threaded chain' := by
  have hlt : ∀ b ∈ List.range index.bucketCount, b < index.chains.bucketCount := fun b hb =>
    List.mem_range.1 hb
  have hgo : (⟨index.chains, .proceed, false, state, #[]⟩ : Progress κ ν σ).verdict = .proceed := rfl
  exact exists_showBuckets index visit ht hlt List.nodup_range hgo

/-- A sweep shows the entries in the order of the chains, and takes those out that the visitor asks to
have removed. If there are any, it settles on the ladder. -/
structure SweptAs [LoadScale ρ] (alloc : Allocator) (index : HashedIndex κ ν ρ) (visited : Visited σ)
    (r : Swept κ ν ρ σ) : Prop where
  config : SameConfig index r.index
  entries : SameEntries (visited.removed.foldl Pool.erase index.chains.entries) r.index.chains.entries
  result : r.result = if visited.verdict = .fail then .error .visitorFailed else .ok ()
  state : r.state = visited.state
  events : r.events = index.released index.chains.entries visited.removed
  level : r.index.chains.level =
    if visited.removed = [] then ⟨r.index.size, index.chains.rung⟩
    else Level.settled alloc index.thresholds ⟨r.index.size, index.chains.rung⟩
  unchanged : visited.removed = [] → r.index = index

/-- The end of a sweep that has come so far. -/
theorem exists_finish [LoadScale ρ] {index : HashedIndex κ ν ρ} {chain chain₁ : Nat → List Handle}
    (ht : index.chains.Threaded chain) (alloc : Allocator) {state : σ} {p : Progress κ ν σ}
    {visited : Visited σ} (hcame : Came index ⟨index.chains, .proceed, false, state, #[]⟩ p visited)
    (ht₁ : p.chains.Threaded chain₁) :
    ∃ r chain', index.finish alloc p = some r ∧ r.index.chains.Threaded chain' ∧
      SweptAs alloc index visited r := by
  have hremoved : p.removed = true ↔ visited.removed ≠ [] := by simpa using hcame.removed
  have hrung : p.chains.rung = index.chains.rung := ht.rung_eq ht₁ hcame.bucketCount
  obtain ⟨c', chain₂, hsettle, hlevel, hkept, hp, ht₂⟩ : ∃ c' chain₂,
      (if p.removed then p.chains.settle alloc index.thresholds else some p.chains) = some c' ∧
        c'.level = (if visited.removed = [] then p.chains.level
          else p.chains.level.settled alloc index.thresholds) ∧
        (visited.removed = [] → c' = p.chains) ∧
        SameEntries p.chains.entries c'.entries ∧ c'.Threaded chain₂ := by
    by_cases hnone : visited.removed = []
    · rw [if_neg (fun h => hremoved.1 h hnone), if_pos hnone]
      exact ⟨p.chains, chain₁, rfl, rfl, fun _ => rfl, .refl _, ht₁⟩
    · obtain ⟨c', chain₂, hrun, hlevel, hp, ht₂⟩ := ht₁.exists_settle alloc index.thresholds
      rw [if_pos (hremoved.2 hnone), if_neg hnone]
      exact ⟨c', chain₂, hrun, hlevel, fun h => absurd h hnone, hp, ht₂⟩
  refine ⟨⟨⟨index.withChains fun _ => c', if p.verdict = .fail then .error .visitorFailed
    else .ok (), p.events.toList⟩, p.state⟩, chain₂, ?_, ht₂, rfl, hcame.entries.trans hp, ?_,
    hcame.state, ?_, ?_, ?_⟩
  · rw [finish, hsettle]
    rfl
  · dsimp only
    rw [hcame.verdict]
  · simpa using hcame.events
  · have hsize : c'.size = p.chains.size := hp.slots.size
    have hbefore : p.chains.level = ⟨c'.size, index.chains.rung⟩ := by
      rw [Chains.level, hsize, hrung]
    rw [hbefore] at hlevel
    exact hlevel
  · intro hnone
    dsimp only
    rw [hkept hnone, hcame.unchanged hnone]
    rfl

theorem exists_sweep [LoadScale ρ] {index : HashedIndex κ ν ρ} {chain : Nat → List Handle}
    (ht : index.chains.Threaded chain) (alloc : Allocator) (visit : EntryVisitor κ ν σ) (state : σ) :
    ∃ r chain', index.sweep alloc visit state = some r ∧ r.index.chains.Threaded chain' ∧
      SweptAs alloc index (visitAll visit
        (listed index.chains.entries (order index.bucketCount chain)) state) r := by
  obtain ⟨p, chain₁, hshow, hcame, ht₁⟩ := exists_showAll ht visit state
  obtain ⟨r, chain₂, hfinish, ht₂, hr⟩ := exists_finish ht alloc hcame ht₁
  exact ⟨r, chain₂, by rw [sweep_eq_showAll, hshow, Option.bind_some, hfinish], ht₂, hr⟩

end MemIndex.HashedIndex
