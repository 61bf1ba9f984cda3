import Mathlib.Data.List.Chain
import MemIndex.Proofs.HashedIndex.Runs

/-!
# What a sweep shows

The visitor is shown the entries chain by chain, as they stood when the sweep began, up to the first one
at which it does not want to proceed. Each entry that it asks to have removed is let go before it is shown
the next one, whatever its verdict, and no other entry is touched.
-/
namespace MemIndex.HashedIndex

open MemIndex.Chains (order)

variable {κ ν ρ σ : Type}

/-- The handles of the entries that the visitor asked to have removed. -/
def removals (log : List (Showing κ ν σ)) : List Handle :=
  (log.filter fun s => s.answer.remove).map Showing.handle

theorem removals_cons (s : Showing κ ν σ) (log : List (Showing κ ν σ)) :
    removals (s :: log) = (if s.answer.remove then [s.handle] else []) ++ removals log := by
  cases hremove : s.answer.remove <;> simp [removals, hremove]

/-- The notes tell of showing the entries under these handles in turn. -/
structure Narrates (index : HashedIndex κ ν ρ) (visit : EntryVisitor κ ν σ) (state : σ)
    (hs : List Handle) (log : List (Showing κ ν σ)) : Prop where
  handles : log.map Showing.handle <+: hs
  entries : ∀ s ∈ log, ∃ entry, index.chains.entries.get? s.handle = some entry ∧
    s.key = entry.key ∧ s.value = entry.value
  answers : ∀ s ∈ log, s.answer = visit s.key.value (s.value.map Held.value) s.state
  first : ∀ s ∈ log.head?, s.state = state
  /-- Only the last verdict may be another one than to proceed. -/
  next : log.IsChain fun s s' => s.answer.verdict = .proceed ∧ s'.state = s.answer.state
  all : (∀ s ∈ log, s.answer.verdict = .proceed) → log.map Showing.handle = hs
  calls : ∀ s ∈ log, s.calls =
    if s.answer.remove then
      keyEvents (index.keys.release s.key) ++ valueEvents (index.values.releaseAll s.value)
    else []

section Narrates

variable {index : HashedIndex κ ν ρ} {visit : EntryVisitor κ ν σ} {state : σ} {hs : List Handle}
  {log : List (Showing κ ν σ)}

theorem Narrates.nil (index : HashedIndex κ ν ρ) (visit : EntryVisitor κ ν σ) (state : σ) :
    Narrates index visit state [] [] := by
  constructor <;> simp

section Cons

variable {h : Handle} {entry : Entry κ ν} (he : index.chains.entries.get? h = some entry)

include he

/-- Where the visitor does not want to proceed the notes end. -/
theorem narrates_singleton
    (hstop : (index.showingOf visit h entry state).answer.verdict ≠ .proceed) :
    Narrates index visit state (h :: hs) [index.showingOf visit h entry state] := by
  constructor
  · exact List.cons_prefix_cons.2 ⟨rfl, List.nil_prefix⟩
  · exact List.forall_mem_singleton.2 ⟨entry, he, rfl, rfl⟩
  · exact List.forall_mem_singleton.2 rfl
  · simp [showingOf]
  · exact .singleton _
  · exact fun hall => absurd (hall _ (List.mem_singleton_self _)) hstop
  · exact List.forall_mem_singleton.2 rfl

theorem Narrates.cons (hgo : (index.showingOf visit h entry state).answer.verdict = .proceed)
    (hn : Narrates index visit (index.showingOf visit h entry state).answer.state hs log) :
    Narrates index visit state (h :: hs) (index.showingOf visit h entry state :: log) := by
  constructor
  · exact List.cons_prefix_cons.2 ⟨rfl, hn.handles⟩
  · exact List.forall_mem_cons.2 ⟨⟨entry, he, rfl, rfl⟩, hn.entries⟩
  · exact List.forall_mem_cons.2 ⟨rfl, hn.answers⟩
  · simp [showingOf]
  · exact hn.next.cons fun s hs => ⟨hgo, hn.first s hs⟩
  · intro hall
    rw [List.map_cons, hn.all (List.forall_mem_cons.1 hall).2]
    rfl
  · exact List.forall_mem_cons.2 ⟨rfl, hn.calls⟩

end Cons

theorem narrates_showings (visit : EntryVisitor κ ν σ)
    (hheld : ∀ h ∈ hs, ∃ entry, index.chains.entries.get? h = some entry) (state : σ) :
    Narrates index visit state hs
      (index.showings visit (listed index.chains.entries hs) state) := by
  induction hs generalizing state with
  | nil => exact .nil index visit state
  | cons h hs ih =>
    obtain ⟨⟨entry, he⟩, hheld⟩ := List.forall_mem_cons.1 hheld
    rw [listed_cons he]
    change Narrates index visit state (h :: hs) (index.showingOf visit h entry state ::
      if (index.showingOf visit h entry state).answer.verdict = .proceed then
        index.showings visit (listed index.chains.entries hs)
          (index.showingOf visit h entry state).answer.state
      else [])
    split
    · rename_i hgo
      exact .cons he hgo (ih hheld _)
    · rename_i hstop
      exact narrates_singleton he hstop

/-- What is called on the way is what letting the removed entries go calls. -/
theorem Narrates.released_removals (hn : Narrates index visit state hs log) :
    index.released index.chains.entries (removals log) = log.flatMap Showing.calls := by
  have hentries := hn.entries
  have hcalls := hn.calls
  clear hn
  induction log with
  | nil => rfl
  | cons s log ih =>
    obtain ⟨⟨entry, he, hkey, hvalue⟩, hentries⟩ := List.forall_mem_cons.1 hentries
    obtain ⟨hcall, hcalls⟩ := List.forall_mem_cons.1 hcalls
    rw [removals_cons, released_append, List.flatMap_cons, hcall, ← ih hentries hcalls]
    split
    · rw [released_singleton he, hkey, hvalue]
      rfl
    · rfl

end Narrates

/-- What the visitor has asked for can be told from the notes. -/
theorem visitAll_eq_showings (index : HashedIndex κ ν ρ) (visit : EntryVisitor κ ν σ)
    (xs : List (Handle × Entry κ ν)) (state : σ) :
    visitAll visit xs state =
      ⟨removals (index.showings visit xs state),
        ((index.showings visit xs state).getLast?.map fun s => s.answer.verdict).getD .proceed,
        ((index.showings visit xs state).getLast?.map fun s => s.answer.state).getD state⟩ := by
  induction xs generalizing state with
  | nil => rfl
  | cons x xs ih =>
    obtain ⟨h, entry⟩ := x
    generalize hs : index.showingOf visit h entry state = s
    have hone : visitOne visit h entry state =
        ⟨removals [s], s.answer.verdict, s.answer.state⟩ := by
      rw [removals_cons, ← hs]
      exact congrArg (Visited.mk · _ _) (List.append_nil _).symm
    rw [visitAll, hone, showings, hs]
    dsimp only [Visited.andThen]
    by_cases hgo : s.answer.verdict = .proceed
    · rw [if_pos hgo, if_pos hgo, ih, removals_cons, removals_cons, List.append_assoc,
        List.getLast?_cons]
      cases (index.showings visit xs s.answer.state).getLast? with
      | none => simp [hgo, removals]
      | some last => simp [removals]
    · rw [if_neg hgo, if_neg hgo]
      rfl

/-! ## After every run -/

section Run

variable [LoadScale ρ]

/-- Whatever a run has done before, and whatever the visitor answers, a sweep shows it a first part of the
chains of all buckets as they stood at the start. It goes on as long as the visitor wants to proceed, and
ends with the last entry otherwise. An entry that the visitor asks to have removed is let go right after
it was shown, its key first and then its value. In the end these entries are gone and all others are
there, the sweep has failed if the last verdict was to fail, and where nothing was removed the index is
the same as before.

The notes are those of the sweep itself: it shows one entry and makes the calls noted with it before it
goes on along the chain. -/
theorem run_sweep_shows_chains (hash : κ → UInt64) (same : κ → κ → Bool) (keys : Policy κ)
    (values : Policy ν) (thresholds : Thresholds ρ) (ops : List (Allocator × Op κ ν)) :
    ∃ index replies, ∃ chain : Nat → List Handle,
      (start hash same keys values thresholds).run ops = some (index, replies) ∧
      index.chains.Threaded chain ∧
      (order index.bucketCount chain).Perm index.chains.entries.handles ∧
      ∀ {σ : Type} (alloc : Allocator) (visit : EntryVisitor κ ν σ) (state : σ),
        Followed index visit ∧ ∃ p log r chain', index.showAll visit state = some (p, log) ∧
          index.sweepBuckets visit (List.range index.bucketCount)
            ⟨index.chains, .proceed, false, state, #[]⟩ = some p ∧
          index.finish alloc p = some r ∧ index.sweep alloc visit state = some r ∧
          r.index.chains.Threaded chain' ∧
          Narrates index visit state (order index.bucketCount chain) log ∧
          r.events = log.flatMap Showing.calls ∧
          (∀ h, (r.index.chains.entries.get? h).map Entry.bare =
            if h ∈ removals log then none else (index.chains.entries.get? h).map Entry.bare) ∧
          r.result = (if (log.getLast?.map fun s => s.answer.verdict) = some .fail then
            .error .visitorFailed else .ok ()) ∧
          r.state = (log.getLast?.map fun s => s.answer.state).getD state ∧
          (removals log = [] → r.index = index) := by
  have hstart : (start hash same keys values thresholds).chains.Threaded fun _ => [] :=
    Chains.threaded_fresh
  obtain ⟨index, replies, chain, hrun, -, ht, -⟩ := exists_run hstart ops
  refine ⟨index, replies, chain, hrun, ht, ht.perm_order, fun {σ} alloc visit state => ?_⟩
  obtain ⟨p, chain₁, hshow, hcame, ht₁⟩ := exists_showAll ht visit state
  obtain ⟨r, chain₂, hfinish, ht₂, hr⟩ := exists_finish ht alloc hcame ht₁
  have hsweep : index.sweep alloc visit state = some r := by
    rw [sweep_eq_showAll, hshow, Option.bind_some, hfinish]
  have hheld : ∀ h ∈ order index.bucketCount chain,
      ∃ entry, index.chains.entries.get? h = some entry := fun h hh =>
    Option.isSome_iff_exists.1 (Pool.mem_handles.1 (ht.perm_order.subset hh))
  have hnotes := narrates_showings visit hheld state
  rw [visitAll_eq_showings index] at hr
  generalize index.showings visit (listed index.chains.entries (order index.bucketCount chain))
    state = log at hshow hnotes hr
  have hwalk := fst_showAll index visit state
  rw [hshow] at hwalk
  refine ⟨index.followed visit, p, log, r, chain₂, hshow, hwalk.symm, hfinish, hsweep, ht₂, hnotes,
    ?_, fun h => ?_, ?_, hr.state, hr.unchanged⟩
  · rw [hr.events, hnotes.released_removals]
  · rw [hr.entries.bare, Pool.lawful.get?_foldl_erase]
    split <;> rfl
  · rw [hr.result]
    cases log.getLast? with
    | none => rfl
    | some last => simp

end Run

end MemIndex.HashedIndex
