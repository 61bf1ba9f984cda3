import Mathlib.Logic.Function.Basic
import Mathlib.Tactic.Tauto
import MemIndex.Proofs.Chains.Threads

/-!
# Rewriting chains

Linking an entry in at the end of a chain, unlinking one through the entry before it, changing a value
and emptying all buckets keep the chains threading the pool. None of them fails on such chains.
-/
namespace MemIndex.Chains

variable {κ ν : Type}

/-! ## Setting a link -/

/-- The last of some entries of a bucket, or its head, has been given another link. -/
structure Redirected (c c' : Chains κ ν) (bucket : Nat) (hs : List Handle)
    (link : Option Handle) : Prop where
  lane : c'.Lane bucket hs link
  rung : c'.rung = c.rung
  bucketCount : c'.bucketCount = c.bucketCount
  entries : SameEntries c.entries c'.entries
  heads : ∀ b, b ≠ bucket → c'.heads[b]? = c.heads[b]?
  other : ∀ h, h ∉ hs → c'.entries.get? h = c.entries.get? h

theorem exists_setNext {c : Chains κ ν} {bucket : Nat} {hs : List Handle} {stop : Option Handle}
    (hl : c.Lane bucket hs stop) (hn : hs.Nodup) (link : Option Handle) :
    ∃ c', c.setNext bucket hs.getLast? link = some c' ∧ Redirected c c' bucket hs link := by
  obtain ⟨heads, entries, rung⟩ := c
  obtain ⟨head, hhead, hseg⟩ := hl
  obtain rfl | ⟨init, h, rfl⟩ := hs.eq_nil_or_concat
  · have hb : bucket < heads.size := (Array.getElem?_eq_some_iff.1 hhead).1
    refine ⟨⟨heads.setIfInBounds bucket link, entries, rung⟩, by simp [setNext, hb], ?_⟩
    refine ⟨⟨link, by simp [hb], rfl⟩, rfl, by simp [bucketCount], .refl _, fun b hne => ?_,
      fun _ _ => rfl⟩
    simp [Ne.symm hne]
  · rw [List.concat_eq_append] at hseg hn ⊢
    obtain ⟨-, entry, he, -⟩ := segment_concat.1 hseg
    obtain ⟨q, hq, hr⟩ := exists_withNext he link
    have hnotin : h ∉ init := fun hm => by
      rw [List.nodup_append] at hn
      exact hn.2.2 h hm h (by simp) rfl
    refine ⟨⟨heads, q, rung⟩, by simp [setNext, hq], ?_⟩
    refine ⟨⟨head, hhead, hr.segment hseg hnotin⟩, rfl, rfl, hr.same, fun _ _ => rfl, fun x hx => ?_⟩
    exact hr.other x fun hxh => hx (by simp [hxh])

/-- A lane that does without the redirected entry stays. -/
theorem Redirected.lane_of_disjoint {c c' : Chains κ ν} {bucket b : Nat} {hs hs' : List Handle}
    {link stop : Option Handle} (hr : Redirected c c' bucket hs link) (hb : b ≠ bucket)
    (hdisj : ∀ h ∈ hs', h ∉ hs) (hl : c.Lane b hs' stop) : c'.Lane b hs' stop := by
  obtain ⟨head, hhead, hseg⟩ := hl
  refine ⟨head, (hr.heads b hb).trans hhead, hseg.congr fun h hh => ?_⟩
  rw [hr.other h (hdisj h hh)]

/-- One chain has got other entries, and the pool with it. -/
theorem Redirected.threaded {c c' : Chains κ ν} {chain : Nat → List Handle} {p : Pool (Entry κ ν)}
    {bucket : Nat} {hs hs' : List Handle} {link : Option Handle} (ht : c.Threaded chain)
    (hp : p.Sound) (hr : Redirected ⟨c.heads, p, c.rung⟩ c' bucket hs link)
    (hbucket : bucket < c.bucketCount) (hsub : hs ⊆ chain bucket) (hlane : c'.Lane bucket hs' none)
    (hn : hs'.Nodup)
    (hkept : ∀ b < c.bucketCount, b ≠ bucket → ∀ h ∈ chain b, p.get? h = c.entries.get? h)
    (hmem : ∀ b < c.bucketCount, ∀ h,
      h ∈ Function.update chain bucket hs' b ↔ InBucket p c.bucketCount b h) :
    c'.Threaded (Function.update chain bucket hs') := by
  have hcount : c'.bucketCount = c.bucketCount := hr.bucketCount
  constructor
  · exact Pool.lawful.sound_slots hr.entries.slots hp
  · rw [hr.rung, hcount]
    exact ht.rung
  · intro b hb
    rw [hcount] at hb
    by_cases he : b = bucket
    · subst he
      rwa [Function.update_self]
    · rw [Function.update_of_ne he]
      refine hr.lane_of_disjoint he (fun h hh hm => ?_) ?_
      · exact he (ht.eq_of_mem hb hbucket hh (hsub hm))
      · obtain ⟨head, hhead, hseg⟩ := ht.lane b hb
        exact ⟨head, hhead, hseg.congr fun h hh => by rw [hkept b hb he h hh]⟩
  · intro b hb
    rw [hcount] at hb
    by_cases he : b = bucket
    · subst he
      rwa [Function.update_self]
    · rw [Function.update_of_ne he]
      exact ht.nodup b hb
  · intro b hb h
    rw [hcount] at hb ⊢
    rw [hmem b hb, hr.entries.inBucket]

/-! ## Linking and unlinking -/

/-- The chains thread a pool with these entries; the buckets are as many as before. -/
structure Rethreaded (c c' : Chains κ ν) (p : Pool (Entry κ ν)) (chain : Nat → List Handle) :
    Prop where
  threaded : c'.Threaded chain
  entries : SameEntries p c'.entries
  bucketCount : c'.bucketCount = c.bucketCount

section Members

variable {c : Chains κ ν} {chain : Nat → List Handle} (ht : c.Threaded chain)

include ht

theorem Threaded.nextHandle_not_mem {b : Nat} (hb : b < c.bucketCount) :
    c.entries.nextHandle ∉ chain b := by
  intro hm
  obtain ⟨e, he⟩ := ht.get?_of_mem hb hm
  rw [Pool.lawful.get?_nextHandle ht.sound] at he
  cases he

theorem Threaded.mem_link {bucket : Nat} {entry : Entry κ ν}
    (hbucket : bucketOf c.bucketCount entry.hash = bucket) {b : Nat} (hb : b < c.bucketCount)
    (x : Handle) :
    x ∈ Function.update chain bucket (chain bucket ++ [c.entries.nextHandle]) b ↔
      InBucket (c.entries.insert entry) c.bucketCount b x := by
  rw [bucketOf_eq] at hbucket
  rw [inBucket_insert ht.sound, ← ht.mem b hb]
  by_cases he : b = bucket
  · subst he
    rw [Function.update_self, List.mem_append, List.mem_singleton]
    tauto
  · rw [Function.update_of_ne he]
    have hne : entry.hash.toNat % c.bucketCount ≠ b := fun hbb => he (hbb.symm.trans hbucket)
    tauto

variable {bucket : Nat} (hbucket : bucket < c.bucketCount) {before after : List Handle} {h : Handle}
  (hsplit : chain bucket = before ++ h :: after)

include hbucket hsplit

/-- No other chain has an entry of this one. -/
theorem Threaded.ne_of_other {b : Nat} (hb : b < c.bucketCount) (hne : b ≠ bucket) {x : Handle}
    (hx : x ∈ chain b) : x ≠ h := by
  rintro rfl
  have hh : x ∈ chain bucket := by simp [hsplit]
  exact hne (ht.eq_of_mem hb hbucket hx hh)

theorem Threaded.ne_of_mem {x : Handle} (hx : x ∈ before ++ after) : x ≠ h := by
  have hnodup := ht.nodup bucket hbucket
  rw [hsplit, List.nodup_middle, List.nodup_cons] at hnodup
  rintro rfl
  exact hnodup.1 hx

theorem Threaded.mem_unlink {b : Nat} (hb : b < c.bucketCount) (x : Handle) :
    x ∈ Function.update chain bucket (before ++ after) b ↔
      InBucket (c.entries.erase h) c.bucketCount b x := by
  rw [inBucket_erase, ← ht.mem b hb]
  by_cases he : b = bucket
  · subst he
    have hother := fun hx => ht.ne_of_mem hb hsplit (x := x) hx
    rw [List.mem_append] at hother
    rw [Function.update_self, hsplit, List.mem_append, List.mem_append, List.mem_cons]
    tauto
  · rw [Function.update_of_ne he]
    exact ⟨fun hx => ⟨ht.ne_of_other hbucket hsplit hb he hx, hx⟩, And.right⟩

end Members

theorem Threaded.link {c : Chains κ ν} {chain : Nat → List Handle} (ht : c.Threaded chain)
    {bucket : Nat} {entry : Entry κ ν} (hb : bucketOf c.bucketCount entry.hash = bucket)
    (hnext : entry.next = none) :
    ∃ c', c.link ⟨bucket, (chain bucket).getLast?, none⟩ entry = some (c', c.entries.nextHandle) ∧
      Rethreaded c c' (c.entries.insert entry)
        (Function.update chain bucket (chain bucket ++ [c.entries.nextHandle])) := by
  have hbucket : bucket < c.bucketCount := hb ▸ bucketOf_lt ht.pos entry.hash
  have hnew := ht.nextHandle_not_mem hbucket
  have hkept : ∀ b < c.bucketCount, ∀ h ∈ chain b,
      (c.entries.insert entry).get? h = c.entries.get? h := by
    intro b hlt h hh
    rw [Pool.lawful.get?_insert ht.sound, if_neg]
    rintro rfl
    exact ht.nextHandle_not_mem hlt hh
  obtain ⟨head, hhead, hseg⟩ := ht.lane bucket hbucket
  have hlane : Lane ⟨c.heads, c.entries.insert entry, c.rung⟩ bucket (chain bucket) none :=
    ⟨head, hhead, hseg.congr fun h hh => by rw [hkept bucket hbucket h hh]⟩
  obtain ⟨c', hset, hr⟩ :=
    exists_setNext hlane (ht.nodup bucket hbucket) (some c.entries.nextHandle)
  have hhere : c'.entries.get? c.entries.nextHandle = some entry := by
    rw [hr.other _ hnew, Pool.lawful.get?_insert ht.sound, if_pos rfl]
  have hlane' : c'.Lane bucket (chain bucket ++ [c.entries.nextHandle]) none := by
    obtain ⟨head', hhead', hseg'⟩ := hr.lane
    exact ⟨head', hhead', segment_concat.2 ⟨hseg', entry, hhere, hnext⟩⟩
  have hnodup : (chain bucket ++ [c.entries.nextHandle]).Nodup := by
    rw [← List.concat_eq_append]
    exact (ht.nodup bucket hbucket).concat hnew
  have ht' := hr.threaded ht (Pool.lawful.sound_insert ht.sound entry) hbucket (List.Subset.refl _) hlane'
    hnodup (fun b hlt _ => hkept b hlt) fun b hlt => ht.mem_link hb hlt
  exact ⟨c', by simp [Chains.link, hset], ht', hr.entries, hr.bucketCount⟩

theorem Threaded.unlink {c : Chains κ ν} {chain : Nat → List Handle} (ht : c.Threaded chain)
    {bucket : Nat} (hbucket : bucket < c.bucketCount) {before after : List Handle} {h : Handle}
    (hsplit : chain bucket = before ++ h :: after) {entry : Entry κ ν}
    (he : c.entries.get? h = some entry) :
    ∃ c', c.unlink ⟨bucket, before.getLast?, some h⟩ = some (c', some entry) ∧
      Rethreaded c c' (c.entries.erase h) (Function.update chain bucket (before ++ after)) ∧
      Segment c'.entries entry.next after none := by
  have hn := ht.nodup bucket hbucket
  rw [hsplit, List.nodup_middle, List.nodup_cons] at hn
  have hkept : ∀ x, x ≠ h → (c.entries.erase h).get? x = c.entries.get? x := by
    intro x hx
    rw [Pool.lawful.get?_erase, if_neg hx]
  have hother : ∀ x ∈ before ++ after, (c.entries.erase h).get? x = c.entries.get? x :=
    fun x hx => hkept x (ht.ne_of_mem hbucket hsplit hx)
  obtain ⟨head, hhead, hseg⟩ := ht.lane bucket hbucket
  rw [hsplit, segment_append] at hseg
  obtain ⟨mid, hbefore, rfl, entry', he', hafter⟩ := hseg
  rw [he] at he'
  cases he'
  have hlane : Lane ⟨c.heads, c.entries.erase h, c.rung⟩ bucket before (some h) :=
    ⟨head, hhead, hbefore.congr fun x hx => by rw [hother x (List.mem_append_left _ hx)]⟩
  have hapart := List.nodup_append.1 hn.2
  obtain ⟨c', hset, hr⟩ := exists_setNext hlane hapart.1 entry.next
  have htail : Segment c'.entries entry.next after none := hafter.congr fun x hx => by
    have hnb : x ∉ before := fun hb => hapart.2.2 x hb x hx rfl
    rw [hr.other x hnb, hother x (List.mem_append_right _ hx)]
  have hlane' : c'.Lane bucket (before ++ after) none := by
    obtain ⟨head', hhead', hseg'⟩ := hr.lane
    exact ⟨head', hhead', segment_append.2 ⟨entry.next, hseg', htail⟩⟩
  have hsub : before ⊆ chain bucket := by
    rw [hsplit]
    exact List.subset_append_left _ _
  have ht' := hr.threaded ht (Pool.lawful.sound_erase ht.sound h) hbucket hsub hlane' hn.2
    (fun b hlt hne x hx => hkept x (ht.ne_of_other hbucket hsplit hlt hne hx))
    fun b hlt => ht.mem_unlink hbucket hsplit hlt
  exact ⟨c', by simp [Chains.unlink, he, hset], ⟨ht', hr.entries, hr.bucketCount⟩, htail⟩

/-! ## Values and clearing -/

theorem Threaded.setValue {c : Chains κ ν} {chain : Nat → List Handle} (ht : c.Threaded chain)
    (h : Handle) (value : Option (Held ν)) : (c.setValue h value).Threaded chain := by
  have hget := Pool.lawful.get?_modify c.entries h
  have hnext : ∀ x, ((c.entries.modify h (·.withValue value)).get? x).map Entry.next =
      (c.entries.get? x).map Entry.next := by
    intro x
    rw [hget]
    split
    · rename_i he
      rw [he]
      cases c.entries.get? h <;> rfl
    · rfl
  constructor
  · exact Pool.lawful.sound_slots (Pool.lawful.slots_modify c.entries h _) ht.sound
  · exact ht.rung
  · intro b hb
    obtain ⟨head, hhead, hseg⟩ := ht.lane b hb
    exact ⟨head, hhead, hseg.congr fun x _ => hnext x⟩
  · exact ht.nodup
  · intro b hb x
    rw [ht.mem b hb]
    simp only [InBucket, Chains.setValue, hget, bucketCount]
    split
    · rename_i he
      rw [he, Option.map_map]
      rfl
    · rfl

theorem Threaded.clear {c : Chains κ ν} {chain : Nat → List Handle} (ht : c.Threaded chain) :
    c.clear.Threaded fun _ => [] where
  sound := Pool.sound_clear ht.sound
  rung := by
    rw [bucketCount_clear]
    exact ht.rung
  lane b hb := by
    rw [bucketCount_clear] at hb
    exact ⟨none, by simp [Chains.clear, hb], rfl⟩
  nodup _ _ := List.nodup_nil
  mem b _ h := by simp [Chains.clear, inBucket_iff]

end MemIndex.Chains
