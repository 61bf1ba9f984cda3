import Mathlib.Data.List.Flatten
import Mathlib.Data.List.Forall2
import MemIndex.Proofs.Chains.Rewrites

/-!
# Dealing entries out

A step on the ladder deals the entries out into new buckets, bucket by bucket and along each chain,
every entry to the front of its new chain. So a new chain has the entries of its bucket in the reverse of
the order in which they were met. Nothing but links is changed, and no link is followed in vain.
-/
namespace MemIndex.Chains

variable {κ ν : Type}

/-- The new chains, as far as they have been dealt. -/
structure Dealt (count : Nat) (d : Deal κ ν) (lists : Nat → List Handle) : Prop where
  size : d.heads.size = count
  lane : ∀ j < count, ∃ head, d.heads[j]? = some head ∧ Segment d.entries head (lists j) none

/-- The entries of a bucket, the last one first. -/
def dealt (p : Pool (Entry κ ν)) (count : Nat) (hs : List Handle) (bucket : Nat) : List Handle :=
  (hs.filter fun h => InBucket p count bucket h).reverse

theorem dealt_cons {p : Pool (Entry κ ν)} {count bucket : Nat} {h : Handle}
    (hh : InBucket p count bucket h) (hs : List Handle) (lists : Nat → List Handle) (j : Nat) :
    dealt p count hs j ++ Function.update lists bucket (h :: lists bucket) j =
      dealt p count (h :: hs) j ++ lists j := by
  unfold dealt
  by_cases hj : j = bucket
  · subst hj
    rw [Function.update_self, List.filter_cons_of_pos (by simpa using hh)]
    simp
  · have hne : ¬InBucket p count j h := fun hj' => hj (Option.some.inj (hj'.symm.trans hh))
    rw [Function.update_of_ne hj, List.filter_cons_of_neg (by simpa using hne)]

theorem dealt_append (p : Pool (Entry κ ν)) (count : Nat) (hs hs' : List Handle) (j : Nat) :
    dealt p count (hs ++ hs') j = dealt p count hs' j ++ dealt p count hs j := by
  simp [dealt, List.filter_append]

theorem mem_dealt {p : Pool (Entry κ ν)} {count bucket : Nat} {hs : List Handle} {h : Handle} :
    h ∈ dealt p count hs bucket ↔ h ∈ hs ∧ InBucket p count bucket h := by
  simp [dealt]

/-- One entry is put to the front of its new chain. -/
theorem Dealt.push {count bucket : Nat} {d : Deal κ ν} {lists : Nat → List Handle}
    (hd : Dealt count d lists) (hb : bucket < count) {h : Handle} {entry : Entry κ ν}
    (he : d.entries.get? h = some entry) (hnew : ∀ j < count, h ∉ lists j) :
    ∃ head q, d.heads[bucket]? = some head ∧ d.entries.modify? h (·.withNext head) = some q ∧
      Relinked d.entries q h entry head ∧
      Dealt count ⟨d.heads.setIfInBounds bucket (some h), q⟩
        (Function.update lists bucket (h :: lists bucket)) := by
  obtain ⟨head, hhead, hseg⟩ := hd.lane bucket hb
  obtain ⟨q, hq, hr⟩ := exists_withNext he head
  have hkept : ∀ j < count, ∀ x ∈ lists j, q.get? x = d.entries.get? x := by
    intro j hj x hx
    apply hr.other
    rintro rfl
    exact hnew j hj hx
  refine ⟨head, q, hhead, hq, hr, ?_, ?_⟩
  · simpa using hd.size
  · intro j hj
    by_cases hjb : j = bucket
    · subst hjb
      have hsize : j < d.heads.size := by rw [hd.size]; exact hj
      refine ⟨some h, by simp [hsize], ?_⟩
      rw [Function.update_self]
      refine ⟨rfl, _, hr.here, hseg.congr fun x hx => ?_⟩
      rw [hkept j hj x hx]
    · obtain ⟨head', hhead', hseg'⟩ := hd.lane j hj
      rw [Function.update_of_ne hjb]
      refine ⟨head', by simpa [Ne.symm hjb] using hhead', hseg'.congr fun x hx => ?_⟩
      rw [hkept j hj x hx]

/-- Dealing one chain out. The buckets are told by the pool as it was at first. -/
theorem exists_dealFrom {count : Nat} (hc : 0 < count) {p : Pool (Entry κ ν)} {d : Deal κ ν}
    {lists : Nat → List Handle} {link : Option Handle} {hs : List Handle} {budget : Nat}
    (hp : SameEntries p d.entries) (hd : Dealt count d lists)
    (hseg : Segment d.entries link hs none) (hn : hs.Nodup)
    (hdisj : ∀ h ∈ hs, ∀ j < count, h ∉ lists j) (hb : hs.length ≤ budget) :
    ∃ d', dealFrom count budget link d = some d' ∧ SameEntries p d'.entries ∧
      Dealt count d' (fun j => dealt p count hs j ++ lists j) ∧
      ∀ x, x ∉ hs → d'.entries.get? x = d.entries.get? x := by
  induction hs generalizing link d lists budget with
  | nil =>
    cases hseg
    exact ⟨d, by cases budget <;> rfl, hp, by simpa [dealt] using hd, fun _ _ => rfl⟩
  | cons h rest ih =>
    obtain ⟨rfl, entry, he, hrest⟩ := hseg
    obtain ⟨hnotin, hn⟩ := List.nodup_cons.1 hn
    cases budget with
    | zero => simp at hb
    | succ budget =>
      have hbucket := bucketOf_lt hc entry.hash
      obtain ⟨head, q, hhead, hq, hr, hd'⟩ :=
        hd.push hbucket he (hdisj h (List.mem_cons_self ..))
      have hin : InBucket p count (bucketOf count entry.hash) h := by
        rw [← hp.inBucket]
        exact inBucket_iff.2 ⟨entry, he, (bucketOf_eq ..).symm⟩
      have hrest' : Segment q entry.next rest none := hrest.congr fun x hx => by
        rw [hr.other x fun hxh => hnotin (hxh ▸ hx)]
      have hdisj' : ∀ x ∈ rest, ∀ j < count,
          x ∉ Function.update lists (bucketOf count entry.hash)
            (h :: lists (bucketOf count entry.hash)) j := by
        intro x hx j hj hm
        have hxl := hdisj x (List.mem_cons_of_mem h hx) j hj
        by_cases hjb : j = bucketOf count entry.hash
        · subst hjb
          rw [Function.update_self, List.mem_cons] at hm
          rcases hm with rfl | hm
          · exact hnotin hx
          · exact hxl hm
        · rw [Function.update_of_ne hjb] at hm
          exact hxl hm
      obtain ⟨d'', hrun, hp'', hd'', hother⟩ :=
        ih (hp.trans hr.same) hd' hrest' hn hdisj' (Nat.le_of_succ_le_succ hb)
      refine ⟨d'', ?_, hp'', ?_, fun x hx => ?_⟩
      · obtain ⟨heads, entries⟩ := d
        simp [dealFrom, he, hhead, hq, hrun]
      · have hlists := funext fun j => dealt_cons hin rest lists j
        rwa [hlists] at hd''
      · rw [List.mem_cons, not_or] at hx
        exact (hother x hx.2).trans (hr.other x hx.1)

theorem exists_dealAll {count : Nat} (hc : 0 < count) {p : Pool (Entry κ ν)} (hsound : p.Sound)
    {d : Deal κ ν} {lists : Nat → List Handle} {heads : List (Option Handle)}
    {hss : List (List Handle)} (hp : SameEntries p d.entries) (hd : Dealt count d lists)
    (hsegs : List.Forall₂ (fun head hs => Segment d.entries head hs none) heads hss)
    (hn : hss.flatten.Nodup) (hdisj : ∀ h ∈ hss.flatten, ∀ j < count, h ∉ lists j) :
    ∃ d', dealAll count heads d = some d' ∧ SameEntries p d'.entries ∧
      Dealt count d' fun j => dealt p count hss.flatten j ++ lists j := by
  induction hss generalizing heads d lists with
  | nil =>
    cases hsegs
    exact ⟨d, rfl, hp, by simpa [dealt] using hd⟩
  | cons hs hss ih =>
    obtain ⟨head, heads, hseg, hrest, rfl⟩ := List.forall₂_cons_right_iff.1 hsegs
    rw [List.flatten_cons, List.nodup_append] at hn
    obtain ⟨hnhs, hnhss, hapart⟩ := hn
    rw [List.flatten_cons] at hdisj ⊢
    have hlen := hseg.length_le (Pool.lawful.sound_slots hp.slots hsound) hnhs
    obtain ⟨d₁, hrun, hp₁, hd₁, hother⟩ := exists_dealFrom hc hp hd hseg hnhs
      (fun h hh => hdisj h (List.mem_append_left _ hh)) hlen
    have hsegs₁ : List.Forall₂ (fun head hs => Segment d₁.entries head hs none) heads hss := by
      refine List.forall₂_iff_get.2 ⟨hrest.length_eq, fun i hi hi' => ?_⟩
      apply (hrest.get hi hi').congr
      intro x hx
      have hflat : x ∈ hss.flatten := List.mem_flatten_of_mem (List.get_mem _ _) hx
      rw [hother x fun hxs => hapart x hxs x hflat rfl]
    have hdisj₁ : ∀ h ∈ hss.flatten, ∀ j < count, h ∉ dealt p count hs j ++ lists j := by
      intro h hh j hj hm
      rcases List.mem_append.1 hm with hm | hm
      · exact hapart h (mem_dealt.1 hm).1 h hh rfl
      · exact hdisj h (List.mem_append_right _ hh) j hj hm
    obtain ⟨d₂, hrun₂, hp₂, hd₂⟩ := ih hp₁ hd₁ hsegs₁ hnhss hdisj₁
    refine ⟨d₂, by simp [dealAll, hrun, hrun₂], hp₂, ?_⟩
    have hlists : (fun j => dealt p count (hs ++ hss.flatten) j ++ lists j) =
        fun j => dealt p count hss.flatten j ++ (dealt p count hs j ++ lists j) := by
      funext j
      rw [dealt_append, List.append_assoc]
    rwa [hlists]

/-! ## Dealing out what the chains hold -/

/-- The entries in the order in which they are met, bucket by bucket and along each chain. -/
def order (count : Nat) (chain : Nat → List Handle) : List Handle := (List.range count).flatMap chain

namespace Threaded

variable {c : Chains κ ν} {chain : Nat → List Handle} (ht : c.Threaded chain)

include ht

theorem nodup_order : (order c.bucketCount chain).Nodup := by
  unfold order
  rw [List.nodup_flatMap]
  constructor
  · intro b hb
    exact ht.nodup b (List.mem_range.1 hb)
  · apply List.pairwise_lt_range.imp_of_mem
    intro b b' hb hb' hlt h hh hh'
    have he := ht.eq_of_mem (List.mem_range.1 hb) (List.mem_range.1 hb') hh hh'
    omega

theorem mem_order {h : Handle} :
    h ∈ order c.bucketCount chain ↔ ∃ entry, c.entries.get? h = some entry := by
  unfold order
  rw [List.mem_flatMap]
  constructor
  · rintro ⟨b, hb, hh⟩
    exact ht.get?_of_mem (List.mem_range.1 hb) hh
  · rintro ⟨entry, he⟩
    exact ⟨_, List.mem_range.2 (bucketOf_lt ht.pos entry.hash), ht.mem_of_get? he⟩

/-- Going through the chains meets every entry once. -/
theorem perm_order : (order c.bucketCount chain).Perm c.entries.handles := by
  apply (List.perm_ext_iff_of_nodup ht.nodup_order (Pool.handles_nodup _)).2
  intro h
  rw [ht.mem_order, Pool.mem_handles, Pool.contains_iff]

/-- Dealing all entries out into so many buckets never fails. -/
theorem deal {rung count : Nat} (hrung : Ladder.buckets? rung = some count) :
    ∃ d, dealAll count c.heads.toList ⟨Array.replicate count none, c.entries⟩ = some d ∧
      SameEntries c.entries d.entries ∧
      Threaded ⟨d.heads, d.entries, rung⟩ (dealt c.entries count (order c.bucketCount chain)) := by
  have hc := Ladder.buckets?_pos hrung
  have hstart : Dealt count (⟨Array.replicate count none, c.entries⟩ : Deal κ ν) fun _ => [] := by
    constructor
    · simp
    · intro j hj
      exact ⟨none, by simp [hj], rfl⟩
  have hsegs : List.Forall₂ (fun head hs => Segment c.entries head hs none) c.heads.toList
      ((List.range c.bucketCount).map chain) := by
    refine List.forall₂_iff_get.2 ⟨by simp [bucketCount], fun b hb hb' => ?_⟩
    have hlt : b < c.bucketCount := by simpa using hb'
    obtain ⟨head, hhead, hseg⟩ := ht.lane b hlt
    obtain ⟨hsize, rfl⟩ := Array.getElem?_eq_some_iff.1 hhead
    simpa using hseg
  have hn : ((List.range c.bucketCount).map chain).flatten.Nodup := ht.nodup_order
  obtain ⟨d, hrun, hp, hd⟩ :=
    exists_dealAll hc ht.sound (.refl c.entries) hstart hsegs hn fun h _ j _ => List.not_mem_nil
  have hlists : (fun j => dealt c.entries count ((List.range c.bucketCount).map chain).flatten j ++ []) =
      dealt c.entries count (order c.bucketCount chain) := by
    funext j
    rw [List.append_nil]
    rfl
  rw [hlists] at hd
  have hcount : bucketCount ⟨d.heads, d.entries, rung⟩ = count := hd.size
  refine ⟨d, hrun, hp, Pool.lawful.sound_slots hp.slots ht.sound, by rw [hcount]; exact hrung, ?_, ?_,
    ?_⟩
  · intro b hb
    exact hd.lane b (hcount ▸ hb)
  · intro b _
    exact List.nodup_reverse.2 (ht.nodup_order.filter _)
  · intro b hb h
    rw [hcount, hp.inBucket, mem_dealt, ht.mem_order]
    constructor
    · exact And.right
    · intro hin
      obtain ⟨entry, he, -⟩ := inBucket_iff.1 hin
      exact ⟨⟨entry, he⟩, hin⟩

end Threaded

end MemIndex.Chains
