import MemIndex.HashedIndex.Builder
import MemIndex.Proofs.HashedIndex.Operations

/-!
# Runs of a hashed index

A run performs operations one after another, each of them under its own allocator. Whatever the
functions and policies answer and whatever is refused, no operation of a run fails, the chains thread
the pool after each of them, and every entry keeps the hash of the key that it was made for.
-/
namespace MemIndex.HashedIndex

open MemIndex.Chains (SameEntries)

variable {κ ν ρ : Type}

/-- An index as it is set up. -/
def start (hash : κ → UInt64) (same : κ → κ → Bool) (keys : Policy κ) (values : Policy ν)
    (thresholds : Thresholds ρ) : HashedIndex κ ν ρ :=
  ⟨hash, same, keys, values, thresholds, Chains.fresh⟩

theorem eq_start_of_build [LoadScale ρ] {alloc : Allocator} {b : Builder κ ν ρ}
    {index : HashedIndex κ ν ρ} (hb : b.build alloc = .ok index) :
    ∃ hash same, b.hash = some hash ∧ b.same = some same ∧ b.thresholds.usable = true ∧
      index = start hash same b.keys b.values b.thresholds := by
  unfold Builder.build at hb
  split at hb
  · cases hb
  · cases hb
  · rename_i hash same hh hs
    unfold Thresholds.validate at hb
    by_cases hu : b.thresholds.usable = true
    · rw [if_pos hu] at hb
      dsimp only at hb
      split at hb
      · cases hb
        exact ⟨hash, same, hh, hs, hu, rfl⟩
      · cases hb
    · rw [if_neg hu] at hb
      cases hb

def run [LoadScale ρ] (index : HashedIndex κ ν ρ) :
    List (Allocator × Op κ ν) → Option (HashedIndex κ ν ρ × List (Reply κ ν))
  | [] => some (index, [])
  | (alloc, op) :: rest =>
    (index.perform alloc op).bind fun (index, reply) =>
      (run index rest).map fun (index, replies) => (index, reply :: replies)

/-- A run done: the index after it, the replies and the calls made, in order. -/
structure Course (κ ν ρ : Type) where
  index : HashedIndex κ ν ρ
  replies : List (Reply κ ν)
  events : List (Event κ ν)

def course [LoadScale ρ] (index : HashedIndex κ ν ρ) :
    List (Allocator × Op κ ν) → Option (Course κ ν ρ)
  | [] => some ⟨index, [], []⟩
  | (alloc, op) :: rest =>
    (index.turn alloc op).bind fun done =>
      (course done.index rest).map fun c => ⟨c.index, done.reply :: c.replies, done.events ++ c.events⟩

theorem run_eq_course [LoadScale ρ] (index : HashedIndex κ ν ρ) (ops : List (Allocator × Op κ ν)) :
    index.run ops = (index.course ops).map fun c => (c.index, c.replies) := by
  induction ops generalizing index with
  | nil => rfl
  | cons first rest ih =>
    obtain ⟨alloc, op⟩ := first
    rw [run, course, perform_eq_turn]
    cases index.turn alloc op with
    | none => rfl
    | some done => simp [ih, Option.map_map, Function.comp_def]

/-- The key that was given to the last operation of a run by which a handle came to resolve. -/
def creator [LoadScale ρ] (index : HashedIndex κ ν ρ) :
    List (Allocator × Op κ ν) → Handle → Option κ
  | [], _ => none
  | (alloc, op) :: rest, h =>
    match index.perform alloc op with
    | none => none
    | some (index', _) =>
      match creator index' rest h with
      | some key => some key
      | none =>
        if index'.chains.entries.contains h && !index.chains.entries.contains h then op.key?
        else none

/-- What stands under a handle after an operation stood there before with its hash, or was made by the
operation for the key that it was given. -/
theorem Step.hash_or_made {index : HashedIndex κ ν ρ} {op : Op κ ν} {reply : Reply κ ν}
    {p : Pool (Entry κ ν)} {calls : List (Event κ ν)} (hs : Step index op reply p calls)
    (hsound : index.chains.entries.Sound)
    {h : Handle} {entry : Entry κ ν} (he : p.get? h = some entry) :
    (∃ old, index.chains.entries.get? h = some old ∧ old.hash = entry.hash) ∨
      index.chains.entries.contains h = false ∧
        ∃ key, op.key? = some key ∧ entry.hash = index.hash key := by
  obtain hkeeps | ⟨key, heldKey, held, hkey, -, -, rfl⟩ := hs.keeps_or_makes
  · obtain ⟨old, hold, -, hhash⟩ := hkeeps h entry he
    exact .inl ⟨old, hold, hhash⟩
  · rw [Pool.lawful.get?_insert hsound] at he
    split at he
    · rename_i hh
      cases he
      exact .inr ⟨hh ▸ Pool.contains_nextHandle hsound, key, hkey, rfl⟩
    · exact .inl ⟨entry, he, rfl⟩

section Creators

variable [LoadScale ρ] {index : HashedIndex κ ν ρ} {chain : Nat → List Handle}

/-- What stands under a handle after a run has the hash of the key that it was made for, or stood there
before with its hash. -/
theorem exists_run (ht : index.chains.Threaded chain) (ops : List (Allocator × Op κ ν)) :
    ∃ index' replies chain', index.run ops = some (index', replies) ∧ SameConfig index index' ∧
      index'.chains.Threaded chain' ∧
      ∀ h entry, index'.chains.entries.get? h = some entry →
        (∃ key, creator index ops h = some key ∧ entry.hash = index.hash key) ∨
        creator index ops h = none ∧
          ∃ old, index.chains.entries.get? h = some old ∧ old.hash = entry.hash := by
  induction ops generalizing index chain with
  | nil => exact ⟨index, [], chain, rfl, .refl index, ht, fun h entry he => .inr ⟨rfl, entry, he, rfl⟩⟩
  | cons first rest ih =>
    obtain ⟨alloc, op⟩ := first
    obtain ⟨index₁, reply, chain₁, hop, hconfig₁, ⟨p, calls, hstep, hp⟩, ht₁⟩ :=
      exists_performed alloc ht op
    obtain ⟨index₂, replies, chain₂, hrun, hconfig₂, ht₂, hcreated⟩ := ih ht₁
    refine ⟨index₂, reply :: replies, chain₂, by simp [run, hop, hrun], hconfig₁.trans hconfig₂,
      ht₂, fun h entry he => ?_⟩
    simp only [creator, hop]
    rcases hcreated h entry he with ⟨key, hkey, hhash⟩ | ⟨hnone, old₁, hold₁, hhash₁⟩
    · left
      exact ⟨key, by rw [hkey], hconfig₁.hash ▸ hhash⟩
    · obtain ⟨entry₁, he₁, hbare⟩ := hp.get?_iff hold₁
      have hhash : entry₁.hash = entry.hash := (congrArg Entry.hash hbare).trans hhash₁
      rcases hstep.hash_or_made ht.sound he₁ with ⟨old, hold, hold'⟩ | ⟨hnew, key, hkey, hkey'⟩
      · right
        have hheld := Pool.contains_of_get? hold
        exact ⟨by simp [hnone, hheld], old, hold, hold'.trans hhash⟩
      · left
        have hheld := Pool.contains_of_get? hold₁
        exact ⟨key, by simp [hnone, hheld, hnew, hkey], hhash ▸ hkey'⟩

end Creators

/-- Whatever the functions and policies answer and whatever is refused, no operation of a run fails. The
chains are finite and thread the pool, the chain of a bucket has the entries whose hash leaves its number as
the remainder by the number of buckets, the buckets are those of the rung, no head and no link names a
free slot, and every entry has the hash of the key that it was made for. -/
theorem run_threads_pool [LoadScale ρ] (hash : κ → UInt64) (same : κ → κ → Bool) (keys : Policy κ)
    (values : Policy ν) (thresholds : Thresholds ρ) (ops : List (Allocator × Op κ ν)) :
    ∃ index replies, ∃ chain : Nat → List Handle,
      (start hash same keys values thresholds).run ops = some (index, replies) ∧
      Ladder.buckets? index.chains.rung = some index.bucketCount ∧ 0 < index.bucketCount ∧
      (∀ b < index.bucketCount, index.chains.Lane b (chain b) none ∧ (chain b).Nodup ∧
        ∀ h, h ∈ chain b ↔ ∃ entry, index.chains.entries.get? h = some entry ∧
          entry.hash.toNat % index.bucketCount = b) ∧
      (∀ (b : Nat) h, index.chains.heads[b]? = some (some h) → index.chains.entries.contains h = true) ∧
      (∀ h entry h', index.chains.entries.get? h = some entry → entry.next = some h' →
        index.chains.entries.contains h' = true) ∧
      ∀ h entry, index.chains.entries.get? h = some entry →
        ∃ key, creator (start hash same keys values thresholds) ops h = some key ∧
          entry.hash = hash key := by
  have hstart : (start hash same keys values thresholds).chains.Threaded fun _ => [] :=
    Chains.threaded_fresh
  obtain ⟨index, replies, chain, hrun, -, ht, hcreated⟩ := exists_run hstart ops
  refine ⟨index, replies, chain, hrun, ht.rung, ht.pos, fun b hb => ?_,
    fun _ _ => ht.contains_of_head, fun _ _ _ => ht.contains_of_next, fun h entry he => ?_⟩
  · exact ⟨ht.lane b hb, ht.nodup b hb, fun h => (ht.mem b hb h).trans Chains.inBucket_iff⟩
  · rcases hcreated h entry he with hmade | ⟨-, old, hold, -⟩
    · exact hmade
    · rw [start, Chains.fresh, Pool.get?_empty] at hold
      cases hold

end MemIndex.HashedIndex
