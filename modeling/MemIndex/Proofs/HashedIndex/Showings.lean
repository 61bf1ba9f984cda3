import MemIndex.HashedIndex.Sweep

/-!
# Showings

A sweep is followed here one showing at a time. What is noted beside it are the entry that the visitor is
shown, its answer, and the functions called before it is shown the next one. The sweep itself takes no
notice of the notes.
-/
namespace MemIndex.HashedIndex

variable {κ ν ρ σ : Type}

/-- One call of the visitor, and the calls made between it and the next one. -/
structure Showing (κ ν σ : Type) where
  handle : Handle
  key : Held κ
  value : Option (Held ν)
  state : σ
  answer : Answer σ
  calls : List (Event κ ν)

/-! ## A sweep with notes -/

/-- An entry has been shown: where the sweep goes on, and the note. -/
structure Shown (κ ν σ : Type) where
  progress : Progress κ ν σ
  prev : Option Handle
  next : Option Handle
  showing : Showing κ ν σ

def showEntry (index : HashedIndex κ ν ρ) (visit : EntryVisitor κ ν σ) (bucket : Nat)
    (prev : Option Handle) (h : Handle) (p : Progress κ ν σ) : Option (Shown κ ν σ) := do
  let ⟨chains, _, removed, state, events⟩ := p
  let entry ← chains.entries.get? h
  let answer := visit entry.key.value (entry.value.map Held.value) state
  if answer.remove then
    let (chains, gone) ← chains.unlink ⟨bucket, prev, some h⟩
    let released := (gone.map index.releaseEntry).getD []
    return ⟨⟨chains, answer.verdict, true, answer.state, events ++ released⟩, prev, entry.next,
      ⟨h, entry.key, entry.value, state, answer, released⟩⟩
  else
    return ⟨⟨chains, answer.verdict, removed, answer.state, events⟩, some h, entry.next,
      ⟨h, entry.key, entry.value, state, answer, []⟩⟩

def showFrom (index : HashedIndex κ ν ρ) (visit : EntryVisitor κ ν σ) (bucket : Nat) :
    Nat → Option Handle → Option Handle → Progress κ ν σ →
      Option (Progress κ ν σ × List (Showing κ ν σ))
  | _, _, none, p => some (p, [])
  | 0, _, some _, _ => none
  | budget + 1, prev, some h, p => do
    let shown ← index.showEntry visit bucket prev h p
    if shown.progress.verdict = .proceed then
      (showFrom index visit bucket budget shown.prev shown.next shown.progress).map
        fun (p, rest) => (p, shown.showing :: rest)
    else return (shown.progress, [shown.showing])

def showBuckets (index : HashedIndex κ ν ρ) (visit : EntryVisitor κ ν σ) :
    List Nat → Progress κ ν σ → Option (Progress κ ν σ × List (Showing κ ν σ))
  | [], p => some (p, [])
  | bucket :: rest, p => do
    let head ← p.chains.heads[bucket]?
    let (p, first) ← index.showFrom visit bucket p.chains.size none head p
    if p.verdict = .proceed then
      (showBuckets index visit rest p).map fun (p, others) => (p, first ++ others)
    else return (p, first)

/-- The showings of a whole sweep, and how far it has come then. -/
def showAll (index : HashedIndex κ ν ρ) (visit : EntryVisitor κ ν σ) (state : σ) :
    Option (Progress κ ν σ × List (Showing κ ν σ)) :=
  index.showBuckets visit (List.range index.bucketCount)
    ⟨index.chains, .proceed, false, state, #[]⟩

/-- What is left to do after the last showing. -/
def finish [LoadScale ρ] (alloc : Allocator) (index : HashedIndex κ ν ρ) (p : Progress κ ν σ) :
    Option (Swept κ ν ρ σ) :=
  let result := if p.verdict = .fail then .error .visitorFailed else .ok ()
  (if p.removed then p.chains.settle alloc index.thresholds else some p.chains).map fun chains =>
    ⟨⟨index.withChains fun _ => chains, result, p.events.toList⟩, p.state⟩

/-! ## Leaving the notes aside -/

section Notes

variable (index : HashedIndex κ ν ρ) (visit : EntryVisitor κ ν σ)

/-- The rest of a chain is shown one entry at a time. -/
theorem sweepFrom_some (bucket budget : Nat) (prev : Option Handle) (h : Handle)
    (p : Progress κ ν σ) :
    index.sweepFrom visit bucket (budget + 1) prev (some h) p =
      (index.showEntry visit bucket prev h p).bind fun shown =>
        if shown.progress.verdict = .proceed then
          index.sweepFrom visit bucket budget shown.prev shown.next shown.progress
        else some shown.progress := by
  rw [sweepFrom, showEntry]
  cases he : p.chains.entries.get? h with
  | none => rfl
  | some entry =>
    cases hremove : (visit entry.key.value (entry.value.map Held.value) p.state).remove with
    | true => cases p.chains.unlink ⟨bucket, prev, some h⟩ <;> simp [hremove]
    | false => simp [hremove]

/-- The note on an entry that was shown: what the visitor was given and what it answered, how the sweep
stands then, and that nothing was called but what is noted. -/
structure Noted (h : Handle) (p : Progress κ ν σ) (shown : Shown κ ν σ) : Prop where
  handle : shown.showing.handle = h
  entry : ∃ entry, p.chains.entries.get? h = some entry ∧ shown.showing.key = entry.key ∧
    shown.showing.value = entry.value
  state : shown.showing.state = p.state
  answer : shown.showing.answer =
    visit shown.showing.key.value (shown.showing.value.map Held.value) p.state
  verdict : shown.progress.verdict = shown.showing.answer.verdict
  next : shown.progress.state = shown.showing.answer.state
  events : shown.progress.events = p.events ++ shown.showing.calls

theorem noted_of_showEntry {bucket : Nat} {prev : Option Handle} {h : Handle} {p : Progress κ ν σ}
    {shown : Shown κ ν σ} (hshow : index.showEntry visit bucket prev h p = some shown) :
    Noted visit h p shown := by
  simp only [showEntry, Option.bind_eq_bind, Option.bind_eq_some_iff] at hshow
  obtain ⟨entry, he, hshown⟩ := hshow
  split at hshown
  · obtain ⟨⟨chains, gone⟩, -, hshown⟩ := Option.bind_eq_some_iff.1 hshown
    cases hshown
    exact ⟨rfl, ⟨entry, he, rfl, rfl⟩, rfl, rfl, rfl, rfl, rfl⟩
  · cases hshown
    exact ⟨rfl, ⟨entry, he, rfl, rfl⟩, rfl, rfl, rfl, rfl, Array.appendList_nil.symm⟩

/-- The sweep goes along a chain by showing an entry first, with all that is called for it, and going on
from what that has left; and of every showing there is a true note. -/
structure Followed : Prop where
  step : ∀ (bucket budget : Nat) (prev : Option Handle) (h : Handle) (p : Progress κ ν σ),
    index.sweepFrom visit bucket (budget + 1) prev (some h) p =
      (index.showEntry visit bucket prev h p).bind fun shown =>
        if shown.progress.verdict = .proceed then
          index.sweepFrom visit bucket budget shown.prev shown.next shown.progress
        else some shown.progress
  noted : ∀ {bucket : Nat} {prev : Option Handle} {h : Handle} {p : Progress κ ν σ}
    {shown : Shown κ ν σ}, index.showEntry visit bucket prev h p = some shown →
      Noted visit h p shown

theorem followed : Followed index visit := ⟨index.sweepFrom_some visit, index.noted_of_showEntry visit⟩

theorem fst_showFrom (bucket budget : Nat) (prev link : Option Handle) (p : Progress κ ν σ) :
    (index.showFrom visit bucket budget prev link p).map Prod.fst =
      index.sweepFrom visit bucket budget prev link p := by
  induction budget generalizing prev link p with
  | zero => cases link <;> rfl
  | succ budget ih =>
    cases link with
    | none => rfl
    | some h =>
      rw [sweepFrom_some, showFrom]
      cases index.showEntry visit bucket prev h p with
      | none => rfl
      | some shown =>
        by_cases hgo : shown.progress.verdict = .proceed
        · simp [hgo, ← ih, Option.map_map, Function.comp_def]
        · simp [hgo]

theorem fst_showBuckets (buckets : List Nat) (p : Progress κ ν σ) :
    (index.showBuckets visit buckets p).map Prod.fst = index.sweepBuckets visit buckets p := by
  induction buckets generalizing p with
  | nil => rfl
  | cons bucket rest ih =>
    rw [sweepBuckets, showBuckets]
    cases p.chains.heads[bucket]? with
    | none => rfl
    | some head =>
      have hfrom := index.fst_showFrom visit bucket p.chains.size none head p
      cases hshow : index.showFrom visit bucket p.chains.size none head p with
      | none => simp [hshow, ← hfrom]
      | some out =>
        obtain ⟨p₁, first⟩ := out
        by_cases hgo : p₁.verdict = .proceed
        · simp [hshow, ← hfrom, hgo, ← ih, Option.map_map, Function.comp_def]
        · simp [hshow, ← hfrom, hgo]

theorem fst_showAll (state : σ) : (index.showAll visit state).map Prod.fst =
    index.sweepBuckets visit (List.range index.bucketCount)
      ⟨index.chains, .proceed, false, state, #[]⟩ :=
  index.fst_showBuckets visit _ _

/-- A sweep is all its showings and what is left to do after the last one. -/
theorem sweep_eq_showAll [LoadScale ρ] (alloc : Allocator) (state : σ) :
    index.sweep alloc visit state =
      (index.showAll visit state).bind fun shown => index.finish alloc shown.1 := by
  rw [sweep, ← fst_showAll]
  cases index.showAll visit state with
  | none => rfl
  | some shown =>
    cases hremoved : shown.1.removed with
    | true =>
      cases hsettle : shown.1.chains.settle alloc index.thresholds <;>
        simp [finish, hremoved, hsettle]
    | false => simp [finish, hremoved]

end Notes

/-! ## Showings of a list -/

def showingOf (index : HashedIndex κ ν ρ) (visit : EntryVisitor κ ν σ) (h : Handle)
    (entry : Entry κ ν) (state : σ) : Showing κ ν σ :=
  let answer := visit entry.key.value (entry.value.map Held.value) state
  ⟨h, entry.key, entry.value, state, answer,
    if answer.remove then index.releaseEntry entry else []⟩

/-- The showings of some entries in turn, up to the first verdict that is not to proceed. -/
def showings (index : HashedIndex κ ν ρ) (visit : EntryVisitor κ ν σ) :
    List (Handle × Entry κ ν) → σ → List (Showing κ ν σ)
  | [], _ => []
  | (h, entry) :: rest, state =>
    let showing := index.showingOf visit h entry state
    showing :: if showing.answer.verdict = .proceed then
      showings index visit rest showing.answer.state else []

end MemIndex.HashedIndex
