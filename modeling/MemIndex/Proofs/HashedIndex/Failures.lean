import MemIndex.Proofs.HashedIndex.Calls
import MemIndex.Proofs.HashedIndex.Runs

/-!
# Failed copies

A copy that fails leaves the index as it was, down to the slot that the next entry gets, and what was
copied on the way to the failure is freed. So the calls that fail may as well be left out of a run.
-/
namespace MemIndex.HashedIndex

variable {κ ν ρ : Type}

/-! ## One call -/

/-- Under every policy, what storing has copied is what letting go frees. -/
theorem copied_store_eq_freed_release {α : Type} {policy : Policy α} {a : α} {held : Held α}
    (hs : (policy.store a).result = .ok held) :
    copied (policy.store a).calls = freed (policy.release held) := by
  cases hcopies : policy.copies with
  | true =>
    rw [Policy.copied_store_ok hcopies hs, Policy.freed_release hcopies (Policy.owns_store hs)]
  | false =>
    rw [Policy.store_calls_of_not_copies hcopies, Policy.release_of_not_copies hcopies]
    rfl

/-- The calls have freed just the copies that they made. -/
structure FreedAll (events : List (Event κ ν)) : Prop where
  keys : copied (keyCalls events) = freed (keyCalls events)
  values : copied (valueCalls events) = freed (valueCalls events)

theorem freedAll_policyCalls {events : List (Event κ ν)} :
    FreedAll (policyCalls events) ↔ FreedAll events := by
  constructor
  · rintro ⟨hkeys, hvalues⟩
    exact ⟨by simpa using hkeys, by simpa using hvalues⟩
  · rintro ⟨hkeys, hvalues⟩
    exact ⟨by simpa using hkeys, by simpa using hvalues⟩

section Refusals

variable {index : HashedIndex κ ν ρ} {p : Pool (Entry κ ν)} {calls : List (Event κ ν)} {key : κ}
  {cause : TableError}

/-- A value is not stored because its copy fails, or because the copy of a new key fails after it. -/
theorem Step.set_refused {value : ν}
    (hs : Step index (.set key value) (.stored (.error cause)) p calls) :
    ((index.values.store value).result = .error cause ∨
      (∃ held, (index.values.store value).result = .ok held) ∧
        (index.keys.store key).result = .error cause) ∧ FreedAll calls := by
  cases hs with
  | setRefused store => exact ⟨.inl store, by simp, by simp [Policy.copied_store_error store]⟩
  | setKeyRefused store missed copy =>
    exact ⟨.inr ⟨⟨_, store⟩, copy⟩, by simp [Policy.copied_store_error copy],
      by simp [copied_store_eq_freed_release store]⟩

/-- No slot is found because the copy of a new key fails. -/
theorem Step.emplace_refused {actions : List (SlotAction ν)}
    (hs : Step index (.emplace key actions) (.slot (.error cause)) p calls) :
    (index.keys.store key).result = .error cause ∧ FreedAll calls := by
  cases hs with
  | emplaceRefused missed copy =>
    exact ⟨copy, by simp [Policy.copied_store_error copy], by simp⟩

end Refusals

section Calls

variable [LoadScale ρ] {index : HashedIndex κ ν ρ} {alloc : Allocator} {key : κ} {cause : TableError}

theorem index_set_error {value : ν} {r : Outcome κ ν ρ (Except TableError Change)}
    (hr : index.set alloc key value = some r) (herr : r.result = .error cause) : r.index = index := by
  obtain ⟨p, -, hr⟩ := Option.bind_eq_some_iff.1 hr
  dsimp only at hr
  split at hr
  · cases hr
    rfl
  · split at hr
    · obtain ⟨entry, -, hr⟩ := Option.bind_eq_some_iff.1 hr
      cases hr
      cases herr
    · split at hr
      · cases hr
        rfl
      · obtain ⟨added, -, hr⟩ := Option.bind_eq_some_iff.1 hr
        cases hr
        cases herr

theorem index_emplace_error {r : Outcome κ ν ρ (Except TableError Handle)}
    (hr : index.emplace alloc key = some r) (herr : r.result = .error cause) : r.index = index := by
  obtain ⟨p, -, hr⟩ := Option.bind_eq_some_iff.1 hr
  split at hr
  · obtain ⟨entry, -, hr⟩ := Option.bind_eq_some_iff.1 hr
    cases hr
    cases herr
  · dsimp only at hr
    split at hr
    · cases hr
      rfl
    · obtain ⟨added, -, hr⟩ := Option.bind_eq_some_iff.1 hr
      obtain ⟨entry, -, hr⟩ := Option.bind_eq_some_iff.1 hr
      cases hr
      cases herr

variable {chain : Nat → List Handle} (ht : index.chains.Threaded chain)

include ht

theorem exists_set_undone (alloc : Allocator) (key : κ) (value : ν) :
    ∃ r, index.set alloc key value = some r ∧ ∀ cause, r.result = .error cause →
      ((index.values.store value).result = .error cause ∨
        (∃ held, (index.values.store value).result = .ok held) ∧
          (index.keys.store key).result = .error cause) ∧
      r.index = index ∧ FreedAll r.events := by
  obtain ⟨done, chain', hturn, hdone⟩ := exists_turn alloc ht (.set key value)
  obtain ⟨r, hr, rfl⟩ := Option.map_eq_some_iff.1 hturn
  refine ⟨r, hr, fun cause herr => ?_⟩
  obtain ⟨p, hstep, -⟩ := hdone.step
  rw [herr] at hstep
  obtain ⟨horigin, hfreed⟩ := hstep.set_refused
  exact ⟨horigin, index_set_error hr herr, freedAll_policyCalls.1 hfreed⟩

theorem exists_emplace_undone (alloc : Allocator) (key : κ) :
    ∃ r, index.emplace alloc key = some r ∧ ∀ cause, r.result = .error cause →
      (index.keys.store key).result = .error cause ∧ r.index = index ∧ FreedAll r.events := by
  obtain ⟨done, chain', hturn, hdone⟩ := exists_turn alloc ht (.emplace key [])
  obtain ⟨acted, hacted, rfl⟩ := Option.map_eq_some_iff.1 hturn
  obtain ⟨r, hr, rfl⟩ := Option.map_eq_some_iff.1 hacted
  refine ⟨r, hr, fun cause herr => ?_⟩
  obtain ⟨p, hstep, -⟩ := hdone.step
  simp only [herr] at hstep
  obtain ⟨hcopy, hfreed⟩ := hstep.emplace_refused
  exact ⟨hcopy, index_emplace_error hr herr, freedAll_policyCalls.1 hfreed⟩

end Calls

/-- A slot that a value is not stored in keeps what it had, and nothing is freed. -/
theorem storeSlot_error (index : HashedIndex κ ν ρ) (h : Handle) (value : ν) {cause : TableError}
    (herr : (index.storeSlot h value).result = .error cause) :
    (index.storeSlot h value).index = index ∧ freed (keyCalls (index.storeSlot h value).events) = 0 ∧
      freed (valueCalls (index.storeSlot h value).events) = 0 := by
  cases hs : (index.values.store value).result with
  | error cause' => simp [storeSlot, hs]
  | ok held => simp [storeSlot, hs] at herr

/-! ## Runs -/

def SlotReply.isFailed : SlotReply ν → Bool
  | .failed _ => true
  | _ => false

/-- The actions on a slot that have not failed, with their replies. -/
def keptActions (actions : List (SlotAction ν)) (replies : List (SlotReply ν)) :
    List (SlotAction ν × SlotReply ν) :=
  (actions.zip replies).filter fun pair => !pair.2.isFailed

/-- What is left of an operation and its reply if the calls are left out whose copies failed. -/
def kept : Op κ ν → Reply κ ν → Option (Op κ ν × Reply κ ν)
  | .set _ _, .stored (.error _) => none
  | .emplace _ _, .slot (.error _) => none
  | .emplace key actions, .slot (.ok replies) =>
    let acted := keptActions actions replies
    some (.emplace key (acted.map Prod.fst), .slot (.ok (acted.map Prod.snd)))
  | op, reply => some (op, reply)

/-- What is left of a run and its replies. -/
def keptRun : List (Allocator × Op κ ν) → List (Reply κ ν) →
    List ((Allocator × Op κ ν) × Reply κ ν)
  | (alloc, op) :: ops, reply :: replies =>
    match kept op reply with
    | some (op, reply) => ((alloc, op), reply) :: keptRun ops replies
    | none => keptRun ops replies
  | _, _ => []

section Kept

variable {index index' : HashedIndex κ ν ρ}

theorem index_act_failed {h : Handle} {action : SlotAction ν}
    (hfailed : SlotReply.isFailed (index.act h action).result = true) :
    (index.act h action).index = index := by
  cases action with
  | get | isEmpty => rfl
  | store value =>
    cases hs : (index.values.store value).result with
    | error cause => simp [act, storeSlot, hs]
    | ok held => simp [act, storeSlot, hs, SlotReply.isFailed] at hfailed
  | storeOwned | clear => cases hfailed

theorem actAll_kept (h : Handle) (actions : List (SlotAction ν)) (index : HashedIndex κ ν ρ) :
    let acted := actAll h actions index
    let again := actAll h ((keptActions actions acted.result).map Prod.fst) index
    again.index = acted.index ∧ again.result = (keptActions actions acted.result).map Prod.snd := by
  induction actions generalizing index with
  | nil => exact ⟨rfl, rfl⟩
  | cons action rest ih =>
    obtain ⟨hindex, hresult⟩ := ih (index.act h action).index
    cases hfailed : SlotReply.isFailed (index.act h action).result with
    | true =>
      rw [index_act_failed hfailed] at hindex hresult
      simpa [actAll, keptActions, hfailed, index_act_failed hfailed] using ⟨hindex, hresult⟩
    | false => simpa [actAll, keptActions, hfailed] using ⟨hindex, hresult⟩

variable [LoadScale ρ] {alloc : Allocator} {op : Op κ ν} {reply : Reply κ ν}

/-- What is left out has changed nothing, and what is left has the same effect. -/
theorem perform_kept (hrun : index.perform alloc op = some (index', reply)) :
    (kept op reply = none ∧ index' = index) ∨
      ∃ op' reply', kept op reply = some (op', reply') ∧
        index.perform alloc op' = some (index', reply') := by
  cases op with
  | set key value =>
    obtain ⟨r, hr, hpair⟩ := Option.map_eq_some_iff.1 hrun
    cases hpair
    cases hresult : r.result with
    | error cause => exact .inl ⟨rfl, index_set_error hr hresult⟩
    | ok change => exact .inr ⟨_, _, rfl, hresult ▸ hrun⟩
  | emplace key actions =>
    obtain ⟨acted, hacted, hpair⟩ := Option.map_eq_some_iff.1 hrun
    obtain ⟨r, hr, rfl⟩ := Option.map_eq_some_iff.1 hacted
    cases hpair
    cases hresult : r.result with
    | error cause => exact .inl ⟨rfl, index_emplace_error hr hresult⟩
    | ok h =>
      obtain ⟨hindex, hreplies⟩ := actAll_kept h actions r.index
      refine .inr ⟨_, _, rfl, ?_⟩
      simp [perform, emplaceWith, hr, hresult, hindex, hreplies]
  | get | contains | take | delete | sweep | purge | pairs | size => exact .inr ⟨_, _, rfl, hrun⟩

theorem run_kept {ops : List (Allocator × Op κ ν)} {replies : List (Reply κ ν)}
    (hrun : index.run ops = some (index', replies)) :
    index.run ((keptRun ops replies).map Prod.fst) =
      some (index', (keptRun ops replies).map Prod.snd) := by
  induction ops generalizing index replies with
  | nil =>
    cases hrun
    rfl
  | cons first rest ih =>
    obtain ⟨alloc, op⟩ := first
    obtain ⟨⟨index₁, reply⟩, hop, hmap⟩ := Option.bind_eq_some_iff.1 hrun
    obtain ⟨⟨index₂, others⟩, hrest, hpair⟩ := Option.map_eq_some_iff.1 hmap
    cases hpair
    obtain ⟨hkept, rfl⟩ | ⟨op', reply', hkept, hop'⟩ := perform_kept hop
    · simpa [keptRun, hkept] using ih hrest
    · simp [keptRun, hkept, run, hop', ih hrest]

end Kept

/-- Whatever the functions answer, whatever copies fail and whatever is refused: after a run from the start,
storing a value and finding or making a slot give an answer, and where the answer is a failed copy, they
have changed nothing and freed what they copied. Storing in a slot that fails changes nothing and frees
nothing. The same run without the calls that failed gives the other replies and ends in the same state. -/
theorem run_without_failures [LoadScale ρ] (hash : κ → UInt64) (same : κ → κ → Bool) (keys : Policy κ)
    (values : Policy ν) (thresholds : Thresholds ρ) (ops : List (Allocator × Op κ ν)) :
    ∃ index replies, (start hash same keys values thresholds).run ops = some (index, replies) ∧
      (∀ alloc key value, ∃ r, index.set alloc key value = some r ∧
        ∀ cause, r.result = .error cause →
          ((values.store value).result = .error cause ∨
            (∃ held, (values.store value).result = .ok held) ∧
              (keys.store key).result = .error cause) ∧
          r.index = index ∧ FreedAll r.events) ∧
      (∀ alloc key, ∃ r, index.emplace alloc key = some r ∧
        ∀ cause, r.result = .error cause →
          (keys.store key).result = .error cause ∧ r.index = index ∧ FreedAll r.events) ∧
      (∀ h value cause, (index.storeSlot h value).result = .error cause →
        (index.storeSlot h value).index = index ∧
          freed (keyCalls (index.storeSlot h value).events) = 0 ∧
          freed (valueCalls (index.storeSlot h value).events) = 0) ∧
      (start hash same keys values thresholds).run ((keptRun ops replies).map Prod.fst) =
        some (index, (keptRun ops replies).map Prod.snd) := by
  have hstart : (start hash same keys values thresholds).chains.Threaded fun _ => [] :=
    Chains.threaded_fresh
  obtain ⟨index, replies, chain, hrun, hconfig, ht, -⟩ := exists_run hstart ops
  have hkeys : index.keys = keys := hconfig.keys
  have hvalues : index.values = values := hconfig.values
  refine ⟨index, replies, hrun, fun alloc key value => ?_, fun alloc key => ?_,
    fun h value cause => storeSlot_error index h value, run_kept hrun⟩
  · rw [← hkeys, ← hvalues]
    exact exists_set_undone ht alloc key value
  · rw [← hkeys]
    exact exists_emplace_undone ht alloc key

end MemIndex.HashedIndex
