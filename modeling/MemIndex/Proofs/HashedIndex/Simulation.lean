import MemIndex.Proofs.HashedIndex.Contents

/-!
# Hashed indexes as maps

An index with lawful functions answers as the map that its pool holds. This rests on two facts about
every reachable pool: each entry has the hash of its own key, so a search for a key passes by no entry of
the key's class, and no two entries have keys of one class.
-/
namespace MemIndex.HashedIndex

open MemIndex.Chains (SameEntries)

variable {κ ν ρ : Type}

/-- The equality is an equivalence, keys of one class have one hash, and a copy of a key stays in the
class of the key. -/
structure Lawful (hash : κ → UInt64) (same : κ → κ → Bool) (keys : Policy κ) : Prop where
  equivalence : Equivalence fun a b => same a b = true
  hash_eq : ∀ {a b}, same a b = true → hash a = hash b
  copy : ∀ {key held}, (keys.store key).result = .ok held → same held.value key = true

/-- Each entry has the hash of its key, and no two entries have keys of one class. -/
structure Keyed (hash : κ → UInt64) (same : κ → κ → Bool) (p : Pool (Entry κ ν)) : Prop where
  hashed : ∀ {h entry}, p.get? h = some entry → entry.hash = hash entry.key.value
  apart : ∀ {h h' entry entry'}, p.get? h = some entry → p.get? h' = some entry' →
    same entry.key.value entry'.key.value = true → h = h'

section Keyed

variable {hash : κ → UInt64} {same : κ → κ → Bool} {p q : Pool (Entry κ ν)}

theorem keyed_empty : Keyed hash same (Pool.empty : Pool (Entry κ ν)) where
  hashed he := by simp at he
  apart he := by simp at he

theorem Keyed.keeps (hk : Keyed hash same p) (hkeeps : Keeps p q) : Keyed hash same q := by
  constructor
  · intro h entry he
    obtain ⟨old, hold, hkey, hhash⟩ := hkeeps h entry he
    rw [← hkey, ← hhash]
    exact hk.hashed hold
  · intro h h' entry entry' he he' hsame
    obtain ⟨old, hold, hkey, -⟩ := hkeeps h entry he
    obtain ⟨old', hold', hkey', -⟩ := hkeeps h' entry' he'
    rw [← hkey, ← hkey'] at hsame
    exact hk.apart hold hold' hsame

theorem keeps_of_sameEntries (hs : SameEntries p q) : Keeps p q := by
  intro h entry he
  obtain ⟨old, hold, hbare⟩ := hs.get?_iff he
  have hkey : old.bare.key = entry.bare.key := congrArg Entry.key hbare
  have hhash : old.bare.hash = entry.bare.hash := congrArg Entry.hash hbare
  exact ⟨old, hold, hkey, hhash⟩

end Keyed

section Steps

variable {index : HashedIndex κ ν ρ} {key : κ} (lawful : Lawful index.hash index.same index.keys)
  (hk : Keyed index.hash index.same index.chains.entries)

include lawful hk

/-- An entry with a key of the class is hit by the search. -/
theorem Missed.not_same (hm : Missed index key) {h : Handle} {entry : Entry κ ν}
    (he : index.chains.entries.get? h = some entry) : index.same entry.key.value key = false := by
  rw [Bool.eq_false_iff]
  intro hsame
  exact hm h entry he ⟨(hk.hashed he).trans (lawful.hash_eq hsame), hsame⟩

theorem Keyed.insert (hsound : index.chains.entries.Sound) (hm : Missed index key)
    {heldKey : Held κ} (hcopy : (index.keys.store key).result = .ok heldKey)
    (held : Option (Held ν)) :
    Keyed index.hash index.same
      (index.chains.entries.insert ⟨heldKey, held, index.hash key, none⟩) := by
  have hclass := lawful.copy hcopy
  have hnot : ∀ h entry, index.chains.entries.get? h = some entry →
      index.same entry.key.value heldKey.value ≠ true := by
    intro h entry he hsame
    have hother := hm.not_same lawful hk he
    rw [lawful.equivalence.trans hsame hclass] at hother
    cases hother
  constructor
  · intro h entry he
    rw [Pool.lawful.get?_insert hsound] at he
    split at he
    · cases he
      exact (lawful.hash_eq hclass).symm
    · exact hk.hashed he
  · intro h h' entry entry' he he' hsame
    rw [Pool.lawful.get?_insert hsound] at he he'
    split at he
    · rename_i hnew
      split at he'
      · rename_i hnew'
        rw [hnew, hnew']
      · cases he
        exact absurd (lawful.equivalence.symm hsame) (hnot h' entry' he')
    · split at he'
      · cases he'
        exact absurd hsame (hnot h entry he)
      · exact hk.apart he he' hsame

theorem Step.keyed (hsound : index.chains.entries.Sound) {op : Op κ ν} {reply : Reply κ ν}
    {p : Pool (Entry κ ν)} {calls : List (Event κ ν)} (hs : Step index op reply p calls) :
    Keyed index.hash index.same p := by
  obtain hkeeps | ⟨key, heldKey, held, -, hm, hcopy, rfl⟩ := hs.keeps_or_makes
  · exact hk.keeps hkeeps
  · exact Keyed.insert lawful hk hsound hm hcopy held

/-- The map has no pair with a key of a missed class. -/
theorem Missed.content_not_same (hm : Missed index key) :
    ∀ pair ∈ content index.chains.entries, index.same pair.1 key = false := by
  intro pair hp
  obtain ⟨h, -, entry, he, rfl⟩ := mem_mapOf.1 hp
  exact hm.not_same lawful hk he

theorem Missed.find?_content (hm : Missed index key) :
    KeyMap.find? index.same (content index.chains.entries) key = none :=
  KeyMap.find?_eq_none (hm.content_not_same lawful hk)

theorem Missed.without_content (hm : Missed index key) :
    KeyMap.without index.same (content index.chains.entries) key = content index.chains.entries :=
  KeyMap.without_eq_self (hm.content_not_same lawful hk)

omit lawful hk

/-- The map can be listed so that a pair that is hit comes first, and then it is found. -/
theorem Hit.listed_first {h : Handle} {entry : Entry κ ν} (hit : Hit index key h entry) :
    (pairOf entry :: content (index.chains.entries.erase h)).Perm (content index.chains.entries) ∧
      KeyMap.find? index.same (pairOf entry :: content (index.chains.entries.erase h)) key =
        some (pairOf entry) ∧
      KeyMap.without index.same (pairOf entry :: content (index.chains.entries.erase h)) key =
        content (index.chains.entries.erase h) :=
  ⟨(content_erase hit.get).symm, KeyMap.find?_cons hit.hits.2, KeyMap.without_cons hit.hits.2⟩

theorem pairs_eq (index : HashedIndex κ ν ρ) :
    index.pairs = KeyMap.plain (content index.chains.entries) := by
  rw [content_eq, KeyMap.plain, List.map_map]
  rfl

theorem size_eq (hsound : index.chains.entries.Sound) :
    index.size = (content index.chains.entries).length := (length_content hsound).symm

end Steps

section Answers

variable {index : HashedIndex κ ν ρ} {op : Op κ ν} {reply : Reply κ ν} {p : Pool (Entry κ ν)}
  {calls : List (Event κ ν)}

/-- The map that the pool holds, listed in some order, gives the reply to the operation and is then the
map that the pool holds afterwards. -/
theorem Step.answered (lawful : Lawful index.hash index.same index.keys)
    (hk : Keyed index.hash index.same index.chains.entries) (hsound : index.chains.entries.Sound)
    (hs : Step index op reply p calls) :
    ∃ listing m, listing.Perm (content index.chains.entries) ∧
      KeyMap.answer index.same index.keys index.values listing op = (reply, m) ∧
      (content p).Perm m := by
  cases hs with
  | setRefused store => exact ⟨_, _, .refl _, by simp [KeyMap.answer, KeyMap.set, store], .refl _⟩
  | setUpdated store hit =>
    obtain ⟨hperm, hfind, hwithout⟩ := hit.listed_first
    exact ⟨_, _, hperm, by simp [KeyMap.answer, KeyMap.set, store, hfind, hwithout],
      content_withValue hit.get _⟩
  | setKeyRefused store missed copy =>
    have hnone := missed.find?_content lawful hk
    exact ⟨_, _, .refl _, by simp [KeyMap.answer, KeyMap.set, store, hnone, copy], .refl _⟩
  | setInserted store missed copy =>
    have hnone := missed.find?_content lawful hk
    exact ⟨_, _, .refl _, by simp [KeyMap.answer, KeyMap.set, store, hnone, copy, pairOf],
      content_insert hsound _⟩
  | emplaceFound hit =>
    obtain ⟨hperm, hfind, hwithout⟩ := hit.listed_first
    exact ⟨_, _, hperm, by simp [KeyMap.answer, KeyMap.emplace, hfind, hwithout],
      content_withValue hit.get _⟩
  | emplaceRefused missed copy =>
    have hnone := missed.find?_content lawful hk
    exact ⟨_, _, .refl _, by simp [KeyMap.answer, KeyMap.emplace, hnone, copy], .refl _⟩
  | emplaceMade missed copy =>
    have hnone := missed.find?_content lawful hk
    exact ⟨_, _, .refl _, by simp [KeyMap.answer, KeyMap.emplace, hnone, copy, pairOf],
      content_insert hsound _⟩
  | getFound hit =>
    obtain ⟨hperm, hfind, -⟩ := hit.listed_first
    exact ⟨_, _, hperm, by simp [KeyMap.answer, hfind], hperm.symm⟩
  | getMissed missed =>
    have hnone := missed.find?_content lawful hk
    exact ⟨_, _, .refl _, by simp [KeyMap.answer, hnone], .refl _⟩
  | containsFound hit =>
    obtain ⟨hperm, hfind, -⟩ := hit.listed_first
    exact ⟨_, _, hperm, by simp [KeyMap.answer, hfind], hperm.symm⟩
  | containsMissed missed =>
    have hnone := missed.find?_content lawful hk
    exact ⟨_, _, .refl _, by simp [KeyMap.answer, hnone], .refl _⟩
  | takeFound hit =>
    obtain ⟨hperm, hfind, hwithout⟩ := hit.listed_first
    exact ⟨_, _, hperm, by simp [KeyMap.answer, hfind, hwithout], .refl _⟩
  | takeMissed missed =>
    have hnone := missed.find?_content lawful hk
    have hwithout := missed.without_content lawful hk
    exact ⟨_, _, .refl _, by simp [KeyMap.answer, hnone, hwithout], .refl _⟩
  | deleteFound hit =>
    obtain ⟨hperm, hfind, hwithout⟩ := hit.listed_first
    exact ⟨_, _, hperm, by simp [KeyMap.answer, hfind, hwithout], .refl _⟩
  | deleteMissed missed =>
    have hnone := missed.find?_content lawful hk
    have hwithout := missed.without_content lawful hk
    exact ⟨_, _, .refl _, by simp [KeyMap.answer, hnone, hwithout], .refl _⟩
  | @sweep σ visit state hs perm visited walk =>
    have hn : hs.Nodup := perm.nodup_iff.2 (Pool.handles_nodup _)
    have hheld : ∀ h ∈ hs, index.chains.entries.contains h = true := fun h hh =>
      Pool.mem_handles.1 (perm.mem_iff.1 hh)
    have hsweep := sweep_mapOf visit hn hheld state
    rw [walk] at hsweep
    exact ⟨_, _, mapOf_perm _ perm, by rw [KeyMap.answer, hsweep], content_foldl_erase perm _⟩
  | purge => exact ⟨_, _, .refl _, rfl, by rw [content_clear]⟩
  | pairs => exact ⟨_, _, .refl _, by rw [KeyMap.answer, pairs_eq], .refl _⟩
  | size => exact ⟨_, _, .refl _, by rw [KeyMap.answer, size_eq hsound], .refl _⟩

/-- The stored keys of a keyed pool lie in different classes, in whatever order they are listed. -/
theorem Keyed.distinct {hash : κ → UInt64} {same : κ → κ → Bool} {keys : Policy κ}
    (lawful : Lawful hash same keys) (hk : Keyed hash same p) {m : KeyMap κ ν}
    (hm : (content p).Perm m) : KeyMap.Distinct same m := by
  have hsymm : ∀ {a b : κ × Option (Held ν)}, same a.1 b.1 = false → same b.1 a.1 = false := by
    intro a b hab
    rw [Bool.eq_false_iff] at hab ⊢
    exact fun hba => hab (lawful.equivalence.symm hba)
  have hlisted : KeyMap.Distinct same (content p) := by
    rw [KeyMap.Distinct, content, mapOf, List.pairwise_filterMap]
    apply (Pool.handles_nodup p).imp
    intro h h' hne pair hpair pair' hpair'
    obtain ⟨entry, he, rfl⟩ := Option.map_eq_some_iff.1 hpair
    obtain ⟨entry', he', rfl⟩ := Option.map_eq_some_iff.1 hpair'
    rw [Bool.eq_false_iff]
    exact fun hsame => hne (hk.apart he he' hsame)
  exact (hm.pairwise_iff hsymm).1 hlisted

end Answers

/-- From chains that thread a keyed pool, a run answers as the map that the pool holds. -/
theorem exists_run_answers [LoadScale ρ] {index : HashedIndex κ ν ρ} {chain : Nat → List Handle}
    (ht : index.chains.Threaded chain) (lawful : Lawful index.hash index.same index.keys)
    (hk : Keyed index.hash index.same index.chains.entries) {m : KeyMap κ ν}
    (hm : (content index.chains.entries).Perm m) (ops : List (Allocator × Op κ ν)) :
    ∃ index' replies m', index.run ops = some (index', replies) ∧
      KeyMap.Answers index.same index.keys index.values m (ops.map Prod.snd) replies m' ∧
      (content index'.chains.entries).Perm m' ∧
      Keyed index.hash index.same index'.chains.entries ∧ index'.chains.entries.Sound := by
  induction ops generalizing index chain m with
  | nil => exact ⟨index, [], m, rfl, .nil, hm, hk, ht.sound⟩
  | cons first rest ih =>
    obtain ⟨alloc, op⟩ := first
    obtain ⟨index₁, reply, chain₁, hop, hconfig, ⟨p, calls, hstep, hp⟩, ht₁⟩ :=
      exists_performed alloc ht op
    obtain ⟨listing, m₁, horder, hanswer, hm₁⟩ := hstep.answered lawful hk ht.sound
    have hk₁ : Keyed index.hash index.same index₁.chains.entries :=
      (hstep.keyed lawful hk ht.sound).keeps (keeps_of_sameEntries hp)
    have hcontent : (content index₁.chains.entries).Perm m₁ := (content_sameEntries hp).trans hm₁
    rw [← hconfig.hash, ← hconfig.same, ← hconfig.keys] at lawful
    rw [← hconfig.hash, ← hconfig.same] at hk₁
    obtain ⟨index₂, replies, m₂, hrun, hanswers, hm₂, hk₂, hsound₂⟩ := ih ht₁ lawful hk₁ hcontent
    rw [hconfig.same, hconfig.keys, hconfig.values] at hanswers
    rw [hconfig.hash, hconfig.same] at hk₂
    exact ⟨index₂, reply :: replies, m₂, by simp [run, hop, hrun],
      .cons (horder.trans hm) hanswer hanswers, hm₂, hk₂, hsound₂⟩

/-- An index with lawful functions is a map from classes of keys. Whatever the policy for values does
and whatever is refused, no operation of a run fails, the replies are those of a map that is empty at
first, the stored keys lie in different classes, and the index lists and counts what the map holds. -/
theorem run_answers_as_map [LoadScale ρ] {hash : κ → UInt64} {same : κ → κ → Bool} {keys : Policy κ}
    (lawful : Lawful hash same keys) (values : Policy ν) (thresholds : Thresholds ρ)
    (ops : List (Allocator × Op κ ν)) :
    ∃ index replies m, (start hash same keys values thresholds).run ops = some (index, replies) ∧
      KeyMap.Answers same keys values [] (ops.map Prod.snd) replies m ∧ KeyMap.Distinct same m ∧
      index.pairs.Perm m.plain ∧ index.size = m.length := by
  have hstart : (start hash same keys values thresholds).chains.Threaded fun _ => [] :=
    Chains.threaded_fresh
  obtain ⟨index, replies, m, hrun, hanswers, hm, hk, hsound⟩ :=
    exists_run_answers hstart lawful keyed_empty (.refl _) ops
  refine ⟨index, replies, m, hrun, hanswers, hk.distinct lawful hm, ?_, ?_⟩
  · rw [pairs_eq]
    exact hm.map _
  · rw [size_eq hsound, hm.length_eq]

/-! Numbers with the same last digit make a class, and a small number is copied as another of its
class. -/

def lastDigit (n : Nat) : UInt64 := UInt64.ofNat (n % 10)

def sameDigit (a b : Nat) : Bool := a % 10 == b % 10

def raiseSmall : Policy Nat :=
  .copyWith fun n => if n < 100 then .ok (n + 10) else .error .visitorFailed

theorem sameDigit_iff {a b : Nat} : sameDigit a b = true ↔ a % 10 = b % 10 := beq_iff_eq

theorem lawful_digits : Lawful lastDigit sameDigit raiseSmall where
  equivalence := by
    simp only [sameDigit_iff]
    exact ⟨fun _ => rfl, Eq.symm, Eq.trans⟩
  hash_eq h := by rw [lastDigit, sameDigit_iff.1 h, lastDigit]
  copy {key held} h := by
    rw [sameDigit_iff]
    by_cases hsmall : key < 100
    · simp only [raiseSmall, Policy.store, hsmall, if_true, Except.ok.injEq] at h
      subst h
      simp [Held.value]
    · simp [raiseSmall, Policy.store, hsmall] at h

theorem run_answers_as_map_digits :
    Lawful lastDigit sameDigit raiseSmall ∧
    ∃ index replies m,
      (start lastDigit sameDigit raiseSmall (.duplicate : Policy Nat)
        (⟨2, 1 / 4⟩ : Thresholds Rat)).run
          [(.unlimited, .set 3 5), (.unlimited, .emplace 13 [.get, .clear]),
            (.unlimited, .set 104 1), (.unlimited, .set 27 2), (.unlimited, .set 47 8),
            (.unlimited, .take 23)] = some (index, replies) ∧
      KeyMap.Answers sameDigit raiseSmall .duplicate []
        [.set 3 5, .emplace 13 [.get, .clear], .set 104 1, .set 27 2, .set 47 8, .take 23]
        replies m ∧
      KeyMap.Distinct sameDigit m ∧ index.pairs.Perm m.plain ∧ index.size = m.length ∧
      index.pairs = [(37, some 8)] := by
  obtain ⟨index, replies, m, hrun, hanswers, hdistinct, hpairs, hsize⟩ :=
    run_answers_as_map lawful_digits (.duplicate : Policy Nat) (⟨2, 1 / 4⟩ : Thresholds Rat)
      [(.unlimited, .set 3 5), (.unlimited, .emplace 13 [.get, .clear]),
        (.unlimited, .set 104 1), (.unlimited, .set 27 2), (.unlimited, .set 47 8),
        (.unlimited, .take 23)]
  refine ⟨lawful_digits, index, replies, m, hrun, hanswers, hdistinct, hpairs, hsize, ?_⟩
  have hleft : ((start lastDigit sameDigit raiseSmall (.duplicate : Policy Nat)
      (⟨2, 1 / 4⟩ : Thresholds Rat)).run
        [(.unlimited, .set 3 5), (.unlimited, .emplace 13 [.get, .clear]),
          (.unlimited, .set 104 1), (.unlimited, .set 27 2), (.unlimited, .set 47 8),
          (.unlimited, .take 23)]).map (fun r => r.1.pairs) = some [(37, some 8)] := by
    decide +kernel
  rw [hrun] at hleft
  simpa using hleft

end MemIndex.HashedIndex
