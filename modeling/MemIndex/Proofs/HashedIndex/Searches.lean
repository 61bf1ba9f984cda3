import MemIndex.Proofs.HashedIndex.Runs

/-!
# The calls of a search

An operation on a key hashes this key once and then asks the equality about stored keys with the same
hash, in the order of their chain, up to the first that is found the same. Nothing else calls the hash
function or the equality: not a step on the ladder, which goes by the hashes that the entries keep, and
no operation without a key.
-/
namespace MemIndex

/-! ## Up to the first one -/

section Lists

variable {α : Type} (found : α → Bool)

/-- The list up to the first element that is found, this one included. -/
def upTo : List α → List α
  | [] => []
  | a :: rest => if found a then [a] else a :: upTo rest

variable (l : List α)

theorem upTo_prefix : upTo found l <+: l := by
  induction l with
  | nil => exact List.nil_prefix
  | cons a rest ih =>
    rw [upTo]
    split
    · exact List.prefix_append [a] rest
    · exact List.cons_prefix_cons.2 ⟨rfl, ih⟩

/-- No element but the last one is found. -/
theorem not_found_of_mem_dropLast : ∀ a ∈ (upTo found l).dropLast, found a = false := by
  induction l with
  | nil => simp [upTo]
  | cons a rest ih =>
    rw [upTo]
    split
    · simp
    · rename_i hnot
      intro b hb
      cases hrest : upTo found rest with
      | nil => simp [hrest] at hb
      | cons c others =>
        rw [hrest, List.dropLast_cons_cons, List.mem_cons, ← hrest] at hb
        obtain rfl | hb := hb
        · exact Bool.eq_false_iff.2 hnot
        · exact ih b hb

/-- The last element is found, or there is none to find. -/
theorem upTo_cases : (∃ a, (upTo found l).getLast? = some a ∧ found a = true) ∨
    upTo found l = l ∧ ∀ a ∈ l, found a = false := by
  induction l with
  | nil => exact .inr ⟨rfl, by simp⟩
  | cons a rest ih =>
    rw [upTo]
    split
    · rename_i hfound
      exact .inl ⟨a, rfl, hfound⟩
    · rename_i hnot
      obtain ⟨b, hlast, hfound⟩ | ⟨hall, hnone⟩ := ih
      · exact .inl ⟨b, by rw [List.getLast?_cons, hlast]; rfl, hfound⟩
      · refine .inr ⟨by rw [hall], fun b hb => ?_⟩
        obtain rfl | hb := List.mem_cons.1 hb
        · exact Bool.eq_false_iff.2 hnot
        · exact hnone b hb

end Lists

/-! ## Along a chain -/

namespace Chains

variable {κ ν : Type}

/-- The entry under the handle has this hash. -/
def hasHash (p : Pool (Entry κ ν)) (hash : UInt64) (h : Handle) : Bool :=
  (p.get? h).any fun entry => decide (entry.hash = hash)

/-- The key of the entry under the handle is the same as the given one. -/
def hasKey (p : Pool (Entry κ ν)) (same : κ → κ → Bool) (key : κ) (h : Handle) : Bool :=
  (p.get? h).any fun entry => same entry.key.value key

/-- The stored keys under some handles. -/
def keysAt (p : Pool (Entry κ ν)) (hs : List Handle) : List κ :=
  hs.filterMap fun h => (p.get? h).map fun entry => entry.key.value

theorem hasHash_iff {p : Pool (Entry κ ν)} {hash : UInt64} {h : Handle} :
    hasHash p hash h = true ↔ ∃ entry, p.get? h = some entry ∧ entry.hash = hash := by
  simp [hasHash, Option.any_eq_true]

theorem hasKey_iff {p : Pool (Entry κ ν)} {same : κ → κ → Bool} {key : κ} {h : Handle} :
    hasKey p same key h = true ↔ ∃ entry, p.get? h = some entry ∧ same entry.key.value key = true := by
  simp [hasKey, Option.any_eq_true]

theorem same_of_not_hasKey {p : Pool (Entry κ ν)} {same : κ → κ → Bool} {key : κ} {h : Handle}
    (hnot : hasKey p same key h = false) {entry : Entry κ ν} (he : p.get? h = some entry) :
    same entry.key.value key = false := by
  simpa [hasKey, he] using hnot

/-- A search asks about the entries with the hash, up to the first whose key is the same. -/
theorem asked_locateFrom {p : Pool (Entry κ ν)} {same : κ → κ → Bool} {hash : UInt64} {key : κ}
    {bucket budget : Nat} {prev link : Option Handle} {chain : List Handle} {search : Search κ}
    (hchain : Segment p link chain none)
    (hrun : locateFrom p same hash key bucket budget prev link = some search) :
    search.asked = keysAt p (upTo (hasKey p same key) (chain.filter (hasHash p hash))) := by
  induction chain generalizing link budget prev search with
  | nil =>
    cases hchain
    cases budget <;> cases hrun <;> rfl
  | cons h rest ih =>
    obtain ⟨rfl, entry, he, hrest⟩ := hchain
    cases budget with
    | zero => cases hrun
    | succ budget =>
      simp only [locateFrom, he, Option.bind_eq_bind, Option.bind_some] at hrun
      by_cases hhash : entry.hash = hash
      · have hcandidate : hasHash p hash h = true := by simp [hasHash, he, hhash]
        rw [if_pos hhash] at hrun
        rw [List.filter_cons, if_pos hcandidate, upTo]
        by_cases hsame : same entry.key.value key = true
        · have hfound : hasKey p same key h = true := by simp [hasKey, he, hsame]
          rw [if_pos hsame] at hrun
          cases hrun
          simp [hfound, keysAt, he]
        · have hnot : ¬hasKey p same key h = true := by simpa [hasKey, he] using hsame
          rw [if_neg hsame] at hrun
          obtain ⟨search', hrun', hasked⟩ := Option.bind_eq_some_iff.1 hrun
          cases hasked
          rw [if_neg hnot]
          simp [keysAt, he, ih hrest hrun']
      · have hother : ¬hasHash p hash h = true := by simp [hasHash, he, hhash]
        rw [if_neg hhash] at hrun
        rw [List.filter_cons, if_neg hother]
        exact ih hrest hrun

end Chains

namespace HashedIndex

open MemIndex.Chains (bucketOf hasHash hasKey keysAt)

variable {κ ν ρ : Type}

/-- The entries that a search for a key asks about. They stand in the chain of its bucket, with no other
entry of its hash between them or before them; the equality says no to all but the last. Where it says
no to the last one as well, they are all entries of the index with the hash. -/
structure Asked (index : HashedIndex κ ν ρ) (key : κ) (asked : List Handle) : Prop where
  nodup : asked.Nodup
  order : ∃ chain, index.chains.Lane ((index.hash key).toNat % index.bucketCount) chain none ∧
    asked <+: chain.filter (hasHash index.chains.entries (index.hash key))
  hashed : ∀ h ∈ asked, ∃ entry, index.chains.entries.get? h = some entry ∧
    entry.hash = index.hash key
  refused : ∀ h ∈ asked.dropLast, ∀ entry, index.chains.entries.get? h = some entry →
    index.same entry.key.value key = false
  ends : (∃ h entry, asked.getLast? = some h ∧ index.chains.entries.get? h = some entry ∧
      index.same entry.key.value key = true) ∨
    (∀ h ∈ asked, ∀ entry, index.chains.entries.get? h = some entry →
      index.same entry.key.value key = false) ∧
    ∀ h entry, index.chains.entries.get? h = some entry → entry.hash = index.hash key → h ∈ asked

/-! ## The calls of a search among the events -/

/-- The calls of the hash function and of the equality. -/
def searchCalls (events : List (Event κ ν)) : List (Event κ ν) :=
  events.filter fun event => !Event.isPolicyCall event

/-- The keys that the hash function is called with. -/
def hashedKeys (events : List (Event κ ν)) : List κ :=
  events.filterMap fun
    | .hashed key => some key
    | _ => none

section Events

variable (events events' : List (Event κ ν))

@[simp] theorem searchCalls_nil : searchCalls ([] : List (Event κ ν)) = [] := rfl

@[simp] theorem searchCalls_append :
    searchCalls (events ++ events') = searchCalls events ++ searchCalls events' :=
  List.filter_append ..

@[simp] theorem hashedKeys_append :
    hashedKeys (events ++ events') = hashedKeys events ++ hashedKeys events' :=
  List.filterMap_append ..

@[simp] theorem searchCalls_keyEvents (calls : List (Call κ)) :
    searchCalls (keyEvents calls : List (Event κ ν)) = [] := by
  simp [searchCalls, keyEvents, Event.isPolicyCall]

@[simp] theorem searchCalls_valueEvents (calls : List (Call ν)) :
    searchCalls (valueEvents calls : List (Event κ ν)) = [] := by
  simp [searchCalls, valueEvents, Event.isPolicyCall]

@[simp] theorem searchCalls_releaseEntry (index : HashedIndex κ ν ρ) (entry : Entry κ ν) :
    searchCalls (index.releaseEntry entry) = [] := by
  simp [releaseEntry]

theorem searchCalls_flatMap_releaseEntry (index : HashedIndex κ ν ρ) (entries : List (Entry κ ν)) :
    searchCalls (entries.flatMap index.releaseEntry) = [] := by
  induction entries with
  | nil => rfl
  | cons entry entries ih => simp [ih]

@[simp] theorem searchCalls_search (key : κ) (asked : List κ) :
    searchCalls (.hashed key :: asked.map (.compared · key) : List (Event κ ν)) =
      .hashed key :: asked.map (.compared · key) := by
  simp [searchCalls, Event.isPolicyCall]

theorem hashedKeys_searchCalls : hashedKeys (searchCalls events) = hashedKeys events := by
  rw [hashedKeys, searchCalls, List.filterMap_filter]
  exact List.filterMap_congr fun event _ => by cases event <;> rfl

theorem hashedKeys_search (key : κ) (asked : List κ) :
    hashedKeys (.hashed key :: asked.map (.compared · key) : List (Event κ ν)) = [key] := by
  simp [hashedKeys]

end Events

/-- The hash function and the equality are called just as in a search for the key. -/
def Searches (index : HashedIndex κ ν ρ) (key : κ) (events : List (Event κ ν)) : Prop :=
  ∃ p, index.probe key = some p ∧ searchCalls events = searchCalls p.events

/-! ## Operations -/

section Slots

variable (index : HashedIndex κ ν ρ) (h : Handle)

/-- Nothing done on a slot calls the hash function or the equality. -/
theorem searchCalls_act (action : SlotAction ν) : searchCalls (index.act h action).events = [] := by
  cases action with
  | get | isEmpty => rfl
  | store value =>
    cases hstore : (index.values.store value).result with
    | ok held => simp [act, storeSlot, putSlot, hstore]
    | error cause => simp [act, storeSlot, hstore]
  | storeOwned value => simp [act, putSlot]
  | clear => simp [act, putSlot]

theorem searchCalls_actAll (actions : List (SlotAction ν)) :
    searchCalls (actAll h actions index).events = [] := by
  induction actions generalizing index with
  | nil => rfl
  | cons action rest ih => rw [actAll, searchCalls_append, searchCalls_act, ih, List.nil_append]

end Slots

/-- All that letting go of the entries calls are the free functions. -/
theorem searchCalls_purge (index : HashedIndex κ ν ρ) : searchCalls index.purge.events = [] :=
  searchCalls_flatMap_releaseEntry index _

theorem searches_get {index : HashedIndex κ ν ρ} {key : κ} {r : Outcome κ ν ρ (Option ν)}
    (hr : index.get key = some r) : Searches index key r.events := by
  obtain ⟨p, hp, hr⟩ := Option.bind_eq_some_iff.1 hr
  refine ⟨p, hp, ?_⟩
  split at hr
  · cases hr
    rfl
  · obtain ⟨entry, -, hr⟩ := Option.bind_eq_some_iff.1 hr
    cases hr
    rfl

theorem searches_contains {index : HashedIndex κ ν ρ} {key : κ} {r : Outcome κ ν ρ Bool}
    (hr : index.contains key = some r) : Searches index key r.events := by
  obtain ⟨p, hp, hr⟩ := Option.bind_eq_some_iff.1 hr
  cases hr
  exact ⟨p, hp, rfl⟩

section Operations

variable [LoadScale ρ] {index : HashedIndex κ ν ρ} {alloc : Allocator} {key : κ}

theorem searches_set {value : ν} {r : Outcome κ ν ρ (Except TableError Change)}
    (hr : index.set alloc key value = some r) :
    Searches index key r.events := by
  obtain ⟨p, hp, hr⟩ := Option.bind_eq_some_iff.1 hr
  refine ⟨p, hp, ?_⟩
  dsimp only at hr
  split at hr
  · cases hr
    simp
  · split at hr
    · obtain ⟨entry, -, hr⟩ := Option.bind_eq_some_iff.1 hr
      cases hr
      simp
    · split at hr
      · cases hr
        simp
      · obtain ⟨added, -, hr⟩ := Option.bind_eq_some_iff.1 hr
        cases hr
        simp

theorem searches_emplace {r : Outcome κ ν ρ (Except TableError Handle)}
    (hr : index.emplace alloc key = some r) :
    Searches index key r.events := by
  obtain ⟨p, hp, hr⟩ := Option.bind_eq_some_iff.1 hr
  refine ⟨p, hp, ?_⟩
  split at hr
  · obtain ⟨entry, -, hr⟩ := Option.bind_eq_some_iff.1 hr
    cases hr
    rfl
  · dsimp only at hr
    split at hr
    · cases hr
      simp
    · obtain ⟨added, -, hr⟩ := Option.bind_eq_some_iff.1 hr
      obtain ⟨entry, -, hr⟩ := Option.bind_eq_some_iff.1 hr
      cases hr
      simp

theorem searches_emplaceWith {actions : List (SlotAction ν)}
    {r : Outcome κ ν ρ (Except TableError (List (SlotReply ν)))}
    (hr : index.emplaceWith alloc key actions = some r) :
    Searches index key r.events := by
  obtain ⟨emplaced, hemplaced, rfl⟩ := Option.map_eq_some_iff.1 hr
  obtain ⟨p, hp, hcalls⟩ := searches_emplace hemplaced
  refine ⟨p, hp, ?_⟩
  cases emplaced.result with
  | error cause => exact hcalls
  | ok h => simp [searchCalls_actAll, hcalls]

theorem searches_take {r : Outcome κ ν ρ (Option (Held ν))} (hr : index.take alloc key = some r) :
    Searches index key r.events := by
  obtain ⟨p, hp, hr⟩ := Option.bind_eq_some_iff.1 hr
  obtain ⟨dropped, -, hr⟩ := Option.bind_eq_some_iff.1 hr
  refine ⟨p, hp, ?_⟩
  dsimp only at hr
  split at hr
  · cases hr
    rfl
  · cases hr
    simp

theorem searches_delete {r : Outcome κ ν ρ Bool} (hr : index.delete alloc key = some r) :
    Searches index key r.events := by
  obtain ⟨p, hp, hr⟩ := Option.bind_eq_some_iff.1 hr
  obtain ⟨dropped, -, hr⟩ := Option.bind_eq_some_iff.1 hr
  refine ⟨p, hp, ?_⟩
  dsimp only at hr
  split at hr
  · cases hr
    rfl
  · cases hr
    simp

/-- Every operation on a key searches for the key, and for no other. -/
theorem searches_turn {op : Op κ ν} {done : Turn κ ν ρ} (hdone : index.turn alloc op = some done)
    (hkey : op.key? = some key) : Searches index key done.events := by
  cases op with
  | set _ value =>
    cases hkey
    obtain ⟨r, hr, rfl⟩ := Option.map_eq_some_iff.1 hdone
    exact searches_set hr
  | emplace _ actions =>
    cases hkey
    obtain ⟨r, hr, rfl⟩ := Option.map_eq_some_iff.1 hdone
    exact searches_emplaceWith hr
  | get =>
    cases hkey
    obtain ⟨r, hr, rfl⟩ := Option.map_eq_some_iff.1 hdone
    exact searches_get hr
  | contains =>
    cases hkey
    obtain ⟨r, hr, rfl⟩ := Option.map_eq_some_iff.1 hdone
    exact searches_contains hr
  | take =>
    cases hkey
    obtain ⟨r, hr, rfl⟩ := Option.map_eq_some_iff.1 hdone
    exact searches_take hr
  | delete =>
    cases hkey
    obtain ⟨r, hr, rfl⟩ := Option.map_eq_some_iff.1 hdone
    exact searches_delete hr
  | sweep | purge | pairs | size => cases hkey

/-- What has no key to search for calls neither the hash function nor the equality. -/
theorem searchCalls_turn {chain : Nat → List Handle} (ht : index.chains.Threaded chain) {op : Op κ ν}
    {done : Turn κ ν ρ} (hdone : index.turn alloc op = some done) (hkey : op.key? = none) :
    searchCalls done.events = [] := by
  cases op with
  | set | emplace | get | contains | take | delete => cases hkey
  | sweep visit state =>
    obtain ⟨r, chain', hrun, -, hr⟩ := exists_sweep ht alloc visit state
    rw [turn, hrun] at hdone
    cases hdone
    dsimp only
    rw [hr.events, released_eq]
    exact searchCalls_flatMap_releaseEntry index _
  | purge =>
    cases hdone
    exact searchCalls_purge index
  | pairs | size =>
    cases hdone
    rfl

end Operations

/-! ## Runs -/

section Runs

variable {index : HashedIndex κ ν ρ} {chain : Nat → List Handle} (ht : index.chains.Threaded chain)

include ht

/-- No entry with the hash of the key is outside the chain that is searched. -/
theorem asked_upTo (key : κ) :
    Asked index key (upTo (hasKey index.chains.entries index.same key)
      ((chain (bucketOf index.bucketCount (index.hash key))).filter
        (hasHash index.chains.entries (index.hash key)))) := by
  have hb : bucketOf index.bucketCount (index.hash key) < index.chains.bucketCount :=
    Chains.bucketOf_lt ht.pos _
  generalize hfound : hasKey index.chains.entries index.same key = found
  generalize hcandidates : (chain (bucketOf index.bucketCount (index.hash key))).filter
    (hasHash index.chains.entries (index.hash key)) = candidates
  have hsub := upTo_prefix found candidates
  have hnot : ∀ h, found h = false → ∀ entry, index.chains.entries.get? h = some entry →
      index.same entry.key.value key = false := by
    intro h hh entry he
    rw [← hfound] at hh
    exact Chains.same_of_not_hasKey hh he
  constructor
  · apply hsub.sublist.nodup
    rw [← hcandidates]
    exact List.filter_sublist.nodup (ht.nodup _ hb)
  · exact ⟨_, ht.lane _ hb, hcandidates ▸ hsub⟩
  · intro h hh
    have hmem := hsub.subset hh
    rw [← hcandidates, List.mem_filter] at hmem
    exact Chains.hasHash_iff.1 hmem.2
  · intro h hh
    exact hnot h (not_found_of_mem_dropLast found candidates h hh)
  · obtain ⟨h, hlast, hh⟩ | ⟨hall, hnone⟩ := upTo_cases found candidates
    · rw [← hfound] at hh
      obtain ⟨entry, he, hsame⟩ := Chains.hasKey_iff.1 hh
      exact .inl ⟨h, entry, hlast, he, hsame⟩
    · rw [hall]
      refine .inr ⟨fun h hh => hnot h (hnone h hh), fun h entry he hhash => ?_⟩
      have hmem := ht.mem_of_get? he
      rw [hhash] at hmem
      rw [← hcandidates, List.mem_filter]
      exact ⟨hmem, Chains.hasHash_iff.2 ⟨entry, he, hhash⟩⟩

/-- On chains that thread the pool every search asks about what it has to ask about. -/
theorem exists_asked {key : κ} {events : List (Event κ ν)} (hs : Searches index key events) :
    ∃ asked, Asked index key asked ∧ searchCalls events =
      .hashed key :: (keysAt index.chains.entries asked).map (.compared · key) := by
  obtain ⟨p, hp, hcalls⟩ := hs
  obtain ⟨search, hsearch, rfl⟩ := Option.map_eq_some_iff.1 hp
  obtain ⟨head, hhead, hrun⟩ := Option.bind_eq_some_iff.1 hsearch
  obtain ⟨head', hhead', hsegment⟩ := ht.lane _ (Chains.bucketOf_lt ht.pos (index.hash key))
  obtain rfl := Option.some.inj (hhead.symm.trans hhead')
  have hasked := Chains.asked_locateFrom hsegment hrun
  refine ⟨_, asked_upTo ht key, ?_⟩
  rw [hcalls, searchCalls_search, hasked]
  rfl

variable [LoadScale ρ] {alloc : Allocator} {op : Op κ ν} {done : Turn κ ν ρ}

/-- An operation hashes the key that it is given, if it is given one, and no other. -/
theorem hashedKeys_turn (hdone : index.turn alloc op = some done) :
    hashedKeys done.events = op.key?.toList := by
  rw [← hashedKeys_searchCalls]
  cases hkey : op.key? with
  | none =>
    rw [searchCalls_turn ht hdone hkey]
    rfl
  | some key =>
    obtain ⟨asked, -, hcalls⟩ := exists_asked ht (searches_turn hdone hkey)
    rw [hcalls, hashedKeys_search]
    rfl

theorem exists_course_hashed (ops : List (Allocator × Op κ ν)) :
    ∃ c chain', index.course ops = some c ∧ SameConfig index c.index ∧
      c.index.chains.Threaded chain' ∧
      hashedKeys c.events = (ops.map Prod.snd).filterMap Op.key? := by
  induction ops generalizing index chain with
  | nil => exact ⟨⟨index, [], []⟩, chain, rfl, .refl index, ht, rfl⟩
  | cons first rest ih =>
    obtain ⟨alloc, op⟩ := first
    obtain ⟨done, chain₁, hturn, hdone⟩ := exists_turn alloc ht op
    obtain ⟨c, chain₂, hcourse, hconfig, ht₂, hkeys⟩ := ih hdone.threaded
    refine ⟨⟨c.index, done.reply :: c.replies, done.events ++ c.events⟩, chain₂,
      by simp [course, hturn, hcourse], hdone.config.trans hconfig, ht₂, ?_⟩
    rw [hashedKeys_append, hashedKeys_turn ht hturn, hkeys, List.map_cons, List.filterMap_cons]
    cases op.key? <;> rfl

end Runs

/-- Whatever the functions and policies answer and whatever is refused, after any run: an operation on a
key hashes this key, and that once, before it asks about stored keys with the same hash, each once and in
the order of their chain, up to the first that is the same. An operation without a key, an action on a
slot and the release of all entries call neither the hash function nor the equality. So a whole run, up
to the release of what is left, hashes the keys that it is given, each once, and no stored key again. -/
theorem run_searches_once [LoadScale ρ] (hash : κ → UInt64) (same : κ → κ → Bool) (keys : Policy κ)
    (values : Policy ν) (thresholds : Thresholds ρ) (ops : List (Allocator × Op κ ν)) :
    ∃ c, (start hash same keys values thresholds).course ops = some c ∧
      c.index.hash = hash ∧ c.index.same = same ∧
      (∀ alloc op, ∃ done, c.index.turn alloc op = some done ∧
        (∀ key, op.key? = some key → ∃ asked, Asked c.index key asked ∧
          searchCalls done.events =
            .hashed key :: (keysAt c.index.chains.entries asked).map (.compared · key)) ∧
        (op.key? = none → searchCalls done.events = [])) ∧
      (∀ h action, searchCalls (c.index.act h action).events = []) ∧
      searchCalls c.index.purge.events = [] ∧
      hashedKeys (c.events ++ c.index.purge.events) = (ops.map Prod.snd).filterMap Op.key? := by
  have hstart : (start hash same keys values thresholds).chains.Threaded fun _ => [] :=
    Chains.threaded_fresh
  obtain ⟨c, chain, hcourse, hconfig, ht, hkeys⟩ := exists_course_hashed hstart ops
  refine ⟨c, hcourse, hconfig.hash, hconfig.same, fun alloc op => ?_, searchCalls_act c.index,
    searchCalls_purge c.index, ?_⟩
  · obtain ⟨done, chain', hturn, -⟩ := exists_turn alloc ht op
    exact ⟨done, hturn, fun key hkey => exists_asked ht (searches_turn hturn hkey),
      searchCalls_turn ht hturn⟩
  · rw [hashedKeys_append, hkeys, ← hashedKeys_searchCalls, searchCalls_purge]
    exact List.append_nil _

/-- The odd numbers have one hash and the even ones another. Each key is hashed, and then compared with
those that came before it under its hash. -/
example : ((start (fun n => UInt64.ofNat (n % 2)) (· == ·) (.borrow : Policy Nat)
    (.borrow : Policy Nat) (⟨2, 1 / 4⟩ : Thresholds Rat)).course
      [(.unlimited, .set 1 5), (.unlimited, .set 3 6), (.unlimited, .set 2 7),
        (.unlimited, .get 3), (.unlimited, .get 5)]).map (fun c => c.events.map fun
          | .hashed key => (key, none)
          | .compared stored given => (given, some stored)
          | .key _ | .value _ => (0, none)) =
    some [(1, none), (3, none), (3, some 1), (2, none), (3, none), (3, some 1), (3, some 3),
      (5, none), (5, some 1), (5, some 3)] := by
  decide +kernel

end HashedIndex

end MemIndex
