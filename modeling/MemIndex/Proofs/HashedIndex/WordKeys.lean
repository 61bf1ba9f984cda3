import MemIndex.HashedIndex.Keyed
import MemIndex.Proofs.Hashing
import MemIndex.Proofs.HashedIndex.Searches
import MemIndex.Proofs.HashedIndex.Simulation

/-!
# Indexes keyed by words

Where the hash function tells all keys apart, the entries of an index have different hashes, and only the
entry of a key has the hash of this key. A search compares the key with this entry and with no other one.
So it is with words, since their hash function is the mixer.
-/
namespace MemIndex.HashedIndex

variable {κ ν ρ : Type}

/-- The calls of a search that compares a key with the entry of this very key, once, and with none where
the key has no entry. -/
inductive ComparesOwn (index : HashedIndex κ ν ρ) (key : κ) : List (Event κ ν) → Prop
  | present {h : Handle} {entry : Entry κ ν} (get : index.chains.entries.get? h = some entry)
    (own : entry.key.value = key) : ComparesOwn index key [.hashed key, .compared key key]
  | absent (missing : ∀ h entry, index.chains.entries.get? h = some entry → entry.key.value ≠ key) :
    ComparesOwn index key [.hashed key]

/-! ## Hash functions without collisions -/

section Searches

variable {index : HashedIndex κ ν ρ} {key : κ}
  (hk : Keyed index.hash index.same index.chains.entries) (hinj : Function.Injective index.hash)
  (hsame : ∀ a b, index.same a b = true ↔ a = b)

include hk hinj hsame

theorem handle_eq_of_hash {h h' : Handle} {entry entry' : Entry κ ν}
    (he : index.chains.entries.get? h = some entry) (he' : index.chains.entries.get? h' = some entry')
    (hhash : entry.hash = entry'.hash) : h = h' := by
  apply hk.apart he he'
  rw [hsame]
  apply hinj
  rw [← hk.hashed he, hhash, hk.hashed he']

/-- A search asks about one entry, which is the one of the key, or about none. -/
theorem Asked.own_or_none {asked : List Handle} (ha : Asked index key asked) :
    (∃ h entry, asked = [h] ∧ index.chains.entries.get? h = some entry ∧ entry.key.value = key) ∨
    asked = [] ∧ ∀ h entry, index.chains.entries.get? h = some entry → entry.key.value ≠ key := by
  cases asked with
  | nil =>
    refine .inr ⟨rfl, ?_⟩
    rintro h entry he rfl
    obtain ⟨h', entry', hlast, -⟩ | ⟨-, hall⟩ := ha.ends
    · cases hlast
    · cases hall h entry he (hk.hashed he)
  | cons h rest =>
    obtain ⟨entry, he, hhash⟩ := ha.hashed h (List.mem_cons_self ..)
    -- One more entry that is asked about would have the same hash, and so be the same entry.
    have hrest : rest = [] := by
      rw [List.eq_nil_iff_forall_not_mem]
      intro h' hm
      obtain ⟨entry', he', hhash'⟩ := ha.hashed h' (List.mem_cons_of_mem h hm)
      obtain rfl := handle_eq_of_hash hk hinj hsame he he' (hhash.trans hhash'.symm)
      exact (List.nodup_cons.1 ha.nodup).1 hm
    exact .inl ⟨h, entry, by rw [hrest], he, hinj ((hk.hashed he).symm.trans hhash)⟩

theorem comparesOwn_turn [LoadScale ρ] {chain : Nat → List Handle}
    (ht : index.chains.Threaded chain) {alloc : Allocator} {op : Op κ ν} {done : Turn κ ν ρ}
    (hdone : index.turn alloc op = some done) (hkey : op.key? = some key) :
    ComparesOwn index key (searchCalls done.events) := by
  obtain ⟨asked, hasked, hcalls⟩ := exists_asked ht (searches_turn hdone hkey)
  rw [hcalls]
  obtain ⟨h, entry, rfl, he, hown⟩ | ⟨rfl, hmissing⟩ := hasked.own_or_none hk hinj hsame
  · have hlisted : Chains.keysAt index.chains.entries [h] = [key] := by
      simp [Chains.keysAt, he, hown]
    rw [hlisted]
    exact .present he hown
  · exact .absent hmissing

end Searches

/-- After a run with lawful functions every entry has the hash of its key, and no two entries have keys of
one class. -/
theorem exists_course_keyed [LoadScale ρ] {hash : κ → UInt64} {same : κ → κ → Bool} {keys : Policy κ}
    (lawful : Lawful hash same keys) (values : Policy ν) (thresholds : Thresholds ρ)
    (ops : List (Allocator × Op κ ν)) :
    ∃ c chain, (start hash same keys values thresholds).course ops = some c ∧
      c.index.hash = hash ∧ c.index.same = same ∧ c.index.chains.Threaded chain ∧
      Keyed hash same c.index.chains.entries := by
  have hstart : (start hash same keys values thresholds).chains.Threaded fun _ => [] :=
    Chains.threaded_fresh
  obtain ⟨c, chain, hcourse, hconfig, ht, -⟩ := exists_course_hashed hstart ops
  obtain ⟨index, replies, m, hrun, -, -, hk, -⟩ :=
    exists_run_answers hstart lawful keyed_empty (.refl _) ops
  rw [run_eq_course, hcourse] at hrun
  cases hrun
  exact ⟨c, chain, hcourse, hconfig.hash, hconfig.same, ht, hk⟩

/-! ## Words -/

theorem eq_start_of_keyed {alloc : Allocator} {keys : Policy UInt64} {values : Policy ν}
    {index : HashedIndex UInt64 ν Float} (h : keyed? alloc keys values = .ok index) :
    index = start Hashing.mix (· == ·) .duplicate values .standard := by
  have hbuild : Builder.build alloc ⟨some Hashing.mix, some (· == ·), .duplicate, values,
      .standard⟩ = .ok index := h
  obtain ⟨hash, same, hhash, hsame, -, rfl⟩ := eq_start_of_build hbuild
  cases hhash
  cases hsame
  rfl

theorem lawful_words : Lawful Hashing.mix (· == ·) (.duplicate : Policy UInt64) where
  equivalence := by
    simp only [beq_iff_eq]
    exact eq_equivalence
  hash_eq h := congrArg Hashing.mix (beq_iff_eq.1 h)
  copy h := by
    cases h
    exact beq_self_eq_true _

/-- The mixer has an inverse, so no two words have one hash. After any run of an index that is keyed by
words, whatever is refused, the entries have different hashes, and an operation on a key compares it with
the entry of this very key, once, or with none where there is none. -/
theorem run_compares_own_word :
    (∀ x, Hashing.unmix (Hashing.mix x) = x) ∧ (∀ x, Hashing.mix (Hashing.unmix x) = x) ∧
    (∀ x y, Hashing.mix x = Hashing.mix y → x = y) ∧
    ∀ {ν : Type} {alloc : Allocator} {keys : Policy UInt64} {values : Policy ν}
      {index : HashedIndex UInt64 ν Float}, keyed? alloc keys values = .ok index →
      ∀ ops, ∃ c, index.course ops = some c ∧
        (∀ h entry, c.index.chains.entries.get? h = some entry →
          entry.hash = Hashing.mix entry.key.value) ∧
        (∀ h h' entry entry', c.index.chains.entries.get? h = some entry →
          c.index.chains.entries.get? h' = some entry' → entry.hash = entry'.hash → h = h') ∧
        ∀ alloc op key, op.key? = some key → ∃ done, c.index.turn alloc op = some done ∧
          ComparesOwn c.index key (searchCalls done.events) := by
  refine ⟨Hashing.unmix_mix, Hashing.mix_unmix, Hashing.mix_injective,
    fun {ν alloc keys values index} hindex ops => ?_⟩
  obtain rfl := eq_start_of_keyed hindex
  obtain ⟨c, chain, hcourse, hhash, hequal, ht, hk⟩ :=
    exists_course_keyed lawful_words values .standard ops
  have hinj : Function.Injective c.index.hash := hhash ▸ Hashing.mix_injective
  have hsame : ∀ a b, c.index.same a b = true ↔ a = b := hequal ▸ fun _ _ => beq_iff_eq
  have hk' : Keyed c.index.hash c.index.same c.index.chains.entries := by rwa [hhash, hequal]
  refine ⟨c, hcourse, fun _ _ => hk.hashed, fun _ _ _ _ => handle_eq_of_hash hk' hinj hsame,
    fun alloc op key hkey => ?_⟩
  obtain ⟨done, -, hdone, -⟩ := exists_turn alloc ht op
  exact ⟨done, hdone, comparesOwn_turn hk' hinj hsame ht hdone hkey⟩

/-- The entries of 4 and 7 are in one chain, and a search for 7 passes by the entry of 4 without a
comparison. -/
theorem run_compares_own_word_neighbours :
    let index := start Hashing.mix (· == ·) (.duplicate : Policy UInt64) (.duplicate : Policy Nat)
      .standard
    let ops : List (Allocator × Op UInt64 Nat) := [(.unlimited, .set 4 1), (.unlimited, .set 7 2)]
    keyed? .unlimited .borrow (.duplicate : Policy Nat) = .ok index ∧
    ∃ c done, index.course ops = some c ∧ c.index.turn .unlimited (.get 7) = some done ∧
      Chains.bucketOf c.index.bucketCount (Hashing.mix 4) =
        Chains.bucketOf c.index.bucketCount (Hashing.mix 7) ∧
      searchCalls done.events = [.hashed 7, .compared 7 7] := by
  intro index ops
  have hindex : keyed? .unlimited .borrow (.duplicate : Policy Nat) = .ok index := by
    have hvalid : Thresholds.standard.validate = .ok .standard :=
      if_pos Thresholds.usable_standard
    simp only [keyed?, new?, Builder.build, Builder.start, Builder.withHash, Builder.withSame,
      Builder.withKeys, Builder.withValues, hvalid]
    rfl
  obtain ⟨-, -, -, hruns⟩ := run_compares_own_word
  obtain ⟨c, hcourse, -, -, hturns⟩ := hruns hindex ops
  obtain ⟨done, hdone, hcompares⟩ := hturns .unlimited (.get 7) 7 rfl
  have hbuckets : (index.course ops).map (fun c => c.index.bucketCount) = some 37 := by
    decide +kernel
  have hcount : ((index.course ops).bind fun c => c.index.turn .unlimited (.get 7)).map
      (fun done => (searchCalls done.events).length) = some 2 := by
    decide +kernel
  rw [hcourse, Option.map_some, Option.some.injEq] at hbuckets
  rw [hcourse, Option.bind_some, hdone, Option.map_some, Option.some.injEq] at hcount
  refine ⟨hindex, c, done, hcourse, hdone, ?_, ?_⟩
  · rw [hbuckets]
    decide
  · generalize searchCalls done.events = calls at hcompares hcount
    cases hcompares with
    | present => rfl
    | absent => cases hcount

end MemIndex.HashedIndex
