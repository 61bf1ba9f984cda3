import MemIndex.Proofs.Chains.Segments

/-!
# Chains that thread the pool

The chains of all buckets thread the pool when each of them ends, without repetitions, and has exactly
the entries whose hashes belong to its bucket. Then every entry is in one chain, once, no link leads to a
free slot, and looking a key up never fails.
-/
namespace MemIndex

theorem Ladder.buckets?_pos {rung count : Nat} (h : buckets? rung = some count) : 0 < count := by
  have hpos : ∀ n ∈ rungs, 0 < n := by decide
  exact hpos count (List.mem_of_getElem? h)

namespace Chains

variable {κ ν : Type}

theorem bucketOf_lt {count : Nat} (hc : 0 < count) (hash : UInt64) : bucketOf count hash < count := by
  rw [bucketOf_eq]
  exact Nat.mod_lt _ hc

/-- The entry belongs into the bucket: its hash leaves this remainder. -/
def InBucket (p : Pool (Entry κ ν)) (count bucket : Nat) (h : Handle) : Prop :=
  (p.get? h).map (fun entry => entry.hash.toNat % count) = some bucket

instance (p : Pool (Entry κ ν)) (count bucket : Nat) (h : Handle) :
    Decidable (InBucket p count bucket h) :=
  inferInstanceAs (Decidable (_ = _))

section InBucket

variable {p q : Pool (Entry κ ν)} {count bucket : Nat}

theorem inBucket_iff {h : Handle} :
    InBucket p count bucket h ↔
      ∃ entry, p.get? h = some entry ∧ entry.hash.toNat % count = bucket :=
  Option.map_eq_some_iff

theorem SameEntries.inBucket (hs : SameEntries p q) (h : Handle) :
    InBucket q count bucket h ↔ InBucket p count bucket h := by
  have hbare := hs.bare h
  rw [inBucket_iff, inBucket_iff]
  cases hp : p.get? h with
  | none =>
    rw [hp, Option.map_none, Option.map_eq_none_iff] at hbare
    simp [hbare]
  | some entry =>
    rw [hp, Option.map_some] at hbare
    obtain ⟨entry', hq, he⟩ := Option.map_eq_some_iff.1 hbare
    have hhash := congrArg Entry.hash he
    rw [Entry.hash_bare, Entry.hash_bare] at hhash
    simp [hq, hhash]

theorem inBucket_insert (hp : p.Sound) (entry : Entry κ ν) (h : Handle) :
    InBucket (p.insert entry) count bucket h ↔
      h = p.nextHandle ∧ entry.hash.toNat % count = bucket ∨ InBucket p count bucket h := by
  rw [inBucket_iff, inBucket_iff, Pool.lawful.get?_insert hp]
  split
  · rename_i he
    rw [he, Pool.lawful.get?_nextHandle hp]
    simp
  · rename_i hne
    simp [hne]

theorem inBucket_erase (h h' : Handle) :
    InBucket (p.erase h) count bucket h' ↔ h' ≠ h ∧ InBucket p count bucket h' := by
  rw [inBucket_iff, inBucket_iff, Pool.lawful.get?_erase]
  split
  · rename_i he
    simp [he]
  · rename_i hne
    simp [hne]

end InBucket

/-- The chain of a bucket begins with these entries and then leads on. -/
def Lane (c : Chains κ ν) (bucket : Nat) (hs : List Handle) (stop : Option Handle) : Prop :=
  ∃ head, c.heads[bucket]? = some head ∧ Segment c.entries head hs stop

/-- The chains, bucket by bucket, thread the pool. -/
structure Threaded (c : Chains κ ν) (chain : Nat → List Handle) : Prop where
  sound : c.entries.Sound
  rung : Ladder.buckets? c.rung = some c.bucketCount
  lane : ∀ b < c.bucketCount, Lane c b (chain b) none
  nodup : ∀ b < c.bucketCount, (chain b).Nodup
  mem : ∀ b < c.bucketCount, ∀ h, h ∈ chain b ↔ InBucket c.entries c.bucketCount b h

theorem threaded_fresh : (fresh : Chains κ ν).Threaded fun _ => [] where
  sound := Pool.lawful.sound_empty
  rung := by rw [bucketCount_fresh]; rfl
  lane b hb := by
    rw [bucketCount_fresh] at hb
    exact ⟨none, by simp [fresh, hb], rfl⟩
  nodup _ _ := List.nodup_nil
  mem b _ h := by simp [fresh, inBucket_iff]

namespace Threaded

variable {c : Chains κ ν} {chain : Nat → List Handle} (ht : c.Threaded chain)

include ht

theorem pos : 0 < c.bucketCount := Ladder.buckets?_pos ht.rung

/-- Every entry is in the chain of its bucket. -/
theorem mem_of_get? {h : Handle} {entry : Entry κ ν} (he : c.entries.get? h = some entry) :
    h ∈ chain (bucketOf c.bucketCount entry.hash) :=
  (ht.mem _ (bucketOf_lt ht.pos _) h).2 
    (inBucket_iff.2 ⟨entry, he, (bucketOf_eq ..).symm⟩)

/-- And it is in no other one. -/
theorem eq_of_mem {b b' : Nat} (hb : b < c.bucketCount) (hb' : b' < c.bucketCount) {h : Handle}
    (hh : h ∈ chain b) (hh' : h ∈ chain b') : b = b' := by
  have hin := (ht.mem b hb h).1 hh
  have hin' := (ht.mem b' hb' h).1 hh'
  exact Option.some.inj (hin.symm.trans hin')

theorem get?_of_mem {b : Nat} (hb : b < c.bucketCount) {h : Handle} (hh : h ∈ chain b) :
    ∃ entry, c.entries.get? h = some entry := by
  obtain ⟨entry, he, -⟩ := inBucket_iff.1 ((ht.mem b hb h).1 hh)
  exact ⟨entry, he⟩

theorem length_le {b : Nat} (hb : b < c.bucketCount) : (chain b).length ≤ c.size := by
  obtain ⟨head, -, hs⟩ := ht.lane b hb
  exact hs.length_le ht.sound (ht.nodup b hb)

/-- No head names a free slot. -/
theorem contains_of_head {b : Nat} {h : Handle} (hh : c.heads[b]? = some (some h)) :
    c.entries.contains h = true := by
  have hb : b < c.bucketCount := (Array.getElem?_eq_some_iff.1 hh).1
  obtain ⟨head, hhead, hs⟩ := ht.lane b hb
  rw [hh] at hhead
  cases hhead
  cases hc : chain b with
  | nil => rw [hc] at hs; cases hs
  | cons x rest =>
    rw [hc] at hs
    obtain ⟨hx, entry, he, -⟩ := hs
    cases hx
    exact Pool.contains_of_get? he

/-- No link names a free slot. -/
theorem contains_of_next {h h' : Handle} {entry : Entry κ ν} (he : c.entries.get? h = some entry)
    (hn : entry.next = some h') : c.entries.contains h' = true := by
  obtain ⟨head, -, hs⟩ := ht.lane _ (bucketOf_lt ht.pos entry.hash)
  have hmem := ht.mem_of_get? he
  rcases hs.next_mem hmem he with hstop | ⟨x, hx, hx'⟩
  · rw [hn] at hstop
    cases hstop
  · rw [hn] at hx'
    cases hx'
    obtain ⟨entry', he'⟩ := hs.get? hx
    exact Pool.contains_of_get? he'

end Threaded

/-! ## Looking a key up -/

/-- The entry has the hash, and its key is the same as the given one. -/
def Hits (same : κ → κ → Bool) (hash : UInt64) (key : κ) (entry : Entry κ ν) : Prop :=
  entry.hash = hash ∧ same entry.key.value key = true

/-- A search along a chain ended at the first entry that is hit, or at the end of the chain. -/
inductive Located (p : Pool (Entry κ ν)) (same : κ → κ → Bool) (hash : UInt64) (key : κ)
    (bucket : Nat) (chain : List Handle) : Spot → Prop
  | found {before after : List Handle} {h : Handle} {entry : Entry κ ν}
    (split : chain = before ++ h :: after) (get : p.get? h = some entry)
    (hit : Hits same hash key entry)
    (miss : ∀ x ∈ before, ∀ entry, p.get? x = some entry → ¬Hits same hash key entry) :
    Located p same hash key bucket chain ⟨bucket, before.getLast?, some h⟩
  | missed (miss : ∀ x ∈ chain, ∀ entry, p.get? x = some entry → ¬Hits same hash key entry) :
    Located p same hash key bucket chain ⟨bucket, chain.getLast?, none⟩

theorem locateFrom_located {p : Pool (Entry κ ν)} {same : κ → κ → Bool} {hash : UInt64} {key : κ}
    {bucket budget : Nat} {before rest : List Handle} {link : Option Handle}
    (hrest : Segment p link rest none) (hb : rest.length ≤ budget)
    (hmiss : ∀ x ∈ before, ∀ entry, p.get? x = some entry → ¬Hits same hash key entry) :
    ∃ search, locateFrom p same hash key bucket budget before.getLast? link = some search ∧
      Located p same hash key bucket (before ++ rest) search.spot := by
  induction rest generalizing before link budget with
  | nil =>
    cases hrest
    refine ⟨⟨⟨bucket, before.getLast?, none⟩, []⟩, by cases budget <;> rfl, ?_⟩
    rw [List.append_nil]
    exact .missed hmiss
  | cons h rest ih =>
    obtain ⟨rfl, entry, he, hrest⟩ := hrest
    cases budget with
    | zero => simp at hb
    | succ budget =>
      simp only [List.length_cons, Nat.add_le_add_iff_right] at hb
      by_cases hhit : Hits same hash key entry
      · exact ⟨⟨⟨bucket, before.getLast?, some h⟩, [entry.key.value]⟩,
          by simp [locateFrom, he, hhit.1, hhit.2], .found rfl he hhit hmiss⟩
      · have hmiss' : ∀ x ∈ before ++ [h], ∀ entry, p.get? x = some entry →
            ¬Hits same hash key entry := by
          intro x hx entry' he'
          rcases List.mem_append.1 hx with hx | hx
          · exact hmiss x hx entry' he'
          · rw [List.mem_singleton.1 hx, he] at he'
            cases he'
            exact hhit
        obtain ⟨search, hrun, hl⟩ := ih hrest hb hmiss'
        rw [List.getLast?_concat] at hrun
        rw [List.append_assoc, List.singleton_append] at hl
        by_cases hhash : entry.hash = hash
        · have hsame : same entry.key.value key = false :=
            Bool.eq_false_iff.2 fun hsame => hhit ⟨hhash, hsame⟩
          exact ⟨⟨search.spot, entry.key.value :: search.asked⟩,
            by simp [locateFrom, he, hhash, hsame, hrun], hl⟩
        · exact ⟨search, by simp [locateFrom, he, hhash, hrun], hl⟩

theorem Threaded.locate {c : Chains κ ν} {chain : Nat → List Handle} (ht : c.Threaded chain)
    (same : κ → κ → Bool) (hash : UInt64) (key : κ) :
    ∃ search, c.locate same hash key = some search ∧
      Located c.entries same hash key (bucketOf c.bucketCount hash)
        (chain (bucketOf c.bucketCount hash)) search.spot := by
  have hb := bucketOf_lt ht.pos hash
  obtain ⟨head, hhead, hs⟩ := ht.lane _ hb
  have hmiss : ∀ x ∈ ([] : List Handle), ∀ entry, c.entries.get? x = some entry →
      ¬Hits same hash key entry := by simp
  obtain ⟨search, hrun, hl⟩ := locateFrom_located hs (ht.length_le hb) hmiss
  rw [List.getLast?_nil] at hrun
  exact ⟨search, by simp [Chains.locate, hhead, hrun], hl⟩

end Chains

end MemIndex
