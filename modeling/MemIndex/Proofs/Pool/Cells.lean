import Mathlib.Data.List.Nodup
import Mathlib.Data.List.Perm.Basic
import MemIndex.Proofs.Pool.Laws

/-!
# Slots of a pool

A pool is lawful as long as its free slots are exactly the vacant ones, each listed once. Every operation
keeps this. Only here is it of interest how a pool lays its records out.
-/
namespace MemIndex.Pool

variable {α : Type u}

/-- The free slots are the vacant ones, and each is listed once. -/
structure Sound (p : Pool α) : Prop where
  vacant : ∀ slot ∈ p.free, ∃ cell, p.cells[slot]? = some cell ∧ cell.record = none
  listed : ∀ slot cell, p.cells[slot]? = some cell → cell.record = none → slot ∈ p.free
  nodup : p.free.toList.Nodup

theorem sound_empty : (empty : Pool α).Sound where
  vacant := by simp [empty]
  listed := by simp [empty]
  nodup := by simp [empty]

/-! ## Look-ups -/

theorem get?_eq_some {p : Pool α} {h : Handle} {a : α} :
    p.get? h = some a ↔
      ∃ cell, p.cells[h.slot]? = some cell ∧ cell.version = h.version ∧ cell.record = some a := by
  unfold get?
  cases hc : p.cells[h.slot]? with
  | none => simp
  | some cell =>
    by_cases hv : cell.version = h.version
    · simp [hv]
    · simp [hv]

/-- What is found in a slot decides a look-up. -/
theorem get?_congr {p q : Pool α} {h : Handle} (hc : p.cells[h.slot]? = q.cells[h.slot]?) :
    p.get? h = q.get? h := by
  simp [get?, hc]

theorem get?_vacant {p : Pool α} {h : Handle} {cell : Cell α}
    (hc : p.cells[h.slot]? = some cell) (hr : cell.record = none) : p.get? h = none := by
  simp [get?, hc, hr]

theorem contains_eq_false {p : Pool α} {h : Handle} : p.contains h = false ↔ p.get? h = none := by
  simp [contains]

theorem contains_of_get? {p : Pool α} {h : Handle} {a : α} (hh : p.get? h = some a) :
    p.contains h = true := by
  simp [contains, hh]

/-- The slot that is taken next: vacant, and in use before or just behind the last one. -/
theorem nextHandle_cases {p : Pool α} (hp : p.Sound) (a : α) :
    (∃ slot cell, p.free.back? = some slot ∧ p.cells[slot]? = some cell ∧ cell.record = none ∧
      p.nextHandle = ⟨slot, cell.version + 1⟩ ∧
      p.insert a = ⟨p.cells.setIfInBounds slot ⟨cell.version + 1, some a⟩, p.free.pop⟩) ∨
    (p.free = #[] ∧ p.nextHandle = ⟨p.cells.size, 1⟩ ∧
      p.insert a = ⟨p.cells.push ⟨1, some a⟩, p.free⟩) := by
  cases hb : p.free.back? with
  | some slot =>
    obtain ⟨cell, hc, hr⟩ := hp.vacant slot (Array.mem_of_back? hb)
    exact .inl ⟨slot, cell, rfl, hc, hr, by simp [nextHandle, nextVersion, hb, hc],
      by simp [insert, nextVersion, hb, hc]⟩
  | none =>
    exact .inr ⟨by simpa using hb, by simp [nextHandle, hb], by simp [insert, hb]⟩

theorem get?_insert {p : Pool α} (hp : p.Sound) (a : α) (h : Handle) :
    (p.insert a).get? h = if h = p.nextHandle then some a else p.get? h := by
  obtain ⟨slot, version⟩ := h
  obtain ⟨s, cell, -, hc, hr, hn, hi⟩ | ⟨-, hn, hi⟩ := nextHandle_cases hp a
  · rw [hn, hi]
    have hs : s < p.cells.size := (Array.getElem?_eq_some_iff.1 hc).1
    by_cases he : s = slot
    · subst he
      by_cases hv : version = cell.version + 1
      · subst hv
        simp [get?, hs]
      · have hne : cell.version + 1 ≠ version := Ne.symm hv
        rw [if_neg (by simp [hv]), get?_vacant (h := ⟨s, version⟩) hc hr]
        simp [get?, hs, hne]
    · rw [if_neg (by simp [Ne.symm he])]
      exact get?_congr (by simp [he])
  · rw [hn, hi]
    by_cases he : slot = p.cells.size
    · subst he
      by_cases hv : version = 1
      · subst hv
        simp [get?]
      · have hne : 1 ≠ version := Ne.symm hv
        simp [get?, hv, hne]
    · rw [if_neg (by simp [he])]
      refine get?_congr ?_
      simp only [Array.getElem?_push]
      rw [if_neg (by simpa using he)]

theorem get?_erase (p : Pool α) (h h' : Handle) :
    (p.erase h).get? h' = if h' = h then none else p.get? h' := by
  obtain ⟨slot, version⟩ := h
  obtain ⟨slot', version'⟩ := h'
  cases hh : p.get? ⟨slot, version⟩ with
  | none =>
    rw [erase_of_not_contains (contains_eq_false.2 hh)]
    split
    · rename_i he; rw [he, hh]
    · rfl
  | some a =>
    obtain ⟨cell, hc, hv, -⟩ := get?_eq_some.1 hh
    dsimp only at hc hv
    have hs : slot < p.cells.size := (Array.getElem?_eq_some_iff.1 hc).1
    simp only [erase, contains_of_get? hh, if_true]
    by_cases he : slot = slot'
    · subst he
      have hvacated : (p.cells.setIfInBounds slot ⟨version + 1, none⟩)[slot]? =
          some ⟨version + 1, none⟩ := by simp [hs]
      have hafter : (⟨p.cells.setIfInBounds slot ⟨version + 1, none⟩, p.free.push slot⟩ :
          Pool α).get? ⟨slot, version'⟩ = none := get?_vacant hvacated rfl
      rw [hafter]
      by_cases hw : version' = version
      · simp [hw]
      · have hne : cell.version ≠ version' := by rw [hv]; exact Ne.symm hw
        simp [hw, get?, hc, hne]
    · rw [if_neg (by simp [Ne.symm he])]
      exact get?_congr (by simp [he])

theorem get?_modify (p : Pool α) (h h' : Handle) (f : α → α) :
    (p.modify h f).get? h' = if h' = h then (p.get? h).map f else p.get? h' := by
  obtain ⟨slot, version⟩ := h
  obtain ⟨slot', version'⟩ := h'
  cases hh : p.get? ⟨slot, version⟩ with
  | none =>
    simp only [modify, contains_eq_false.2 hh, Bool.false_eq_true, if_false]
    split
    · rename_i he; rw [he, hh]; rfl
    · rfl
  | some a =>
    obtain ⟨cell, hc, hv, hr⟩ := get?_eq_some.1 hh
    dsimp only at hc hv
    have hs : slot < p.cells.size := (Array.getElem?_eq_some_iff.1 hc).1
    simp only [modify, contains_of_get? hh, if_true]
    by_cases he : slot = slot'
    · subst he
      by_cases hw : version' = version
      · subst hw
        simp [get?, Array.getElem?_modify, hc, hv, hr]
      · have hne : cell.version ≠ version' := by rw [hv]; exact Ne.symm hw
        simp [get?, Array.getElem?_modify, hc, hw, hne]
    · rw [if_neg (by simp [Ne.symm he])]
      exact get?_congr (by simp [Array.getElem?_modify, he])

/-! ## Free slots -/

theorem sound_insert {p : Pool α} (hp : p.Sound) (a : α) : (p.insert a).Sound := by
  obtain ⟨s, cell, hb, hc, hr, -, hi⟩ | ⟨hf, -, hi⟩ := nextHandle_cases hp a
  · obtain ⟨rest, hrest⟩ := Array.back?_eq_some_iff.1 hb
    have hnodup := hp.nodup
    rw [hrest, Array.toList_push, List.nodup_append] at hnodup
    have hne : ∀ slot ∈ rest, slot ≠ s := fun slot hs =>
      hnodup.2.2 slot (by simpa using hs) s (by simp)
    rw [hi, hrest, Array.pop_push]
    constructor
    · intro slot hs
      have hold := hp.vacant slot (by simp [hrest, hs])
      simpa [Array.getElem?_setIfInBounds, Ne.symm (hne slot hs)] using hold
    · intro slot c hget hrec
      by_cases he : s = slot
      · subst he
        have hin : s < p.cells.size := (Array.getElem?_eq_some_iff.1 hc).1
        simp only [Array.getElem?_setIfInBounds, hin, if_true] at hget
        cases hget
        cases hrec
      · have hold := hp.listed slot c (by simpa [Array.getElem?_setIfInBounds, he] using hget) hrec
        simpa [hrest, Ne.symm he] using hold
    · exact hnodup.1
  · rw [hi]
    constructor
    · intro slot hs
      simp [hf] at hs
    · intro slot c hget hrec
      rw [Array.getElem?_push] at hget
      split at hget
      · cases hget; cases hrec
      · exact hp.listed slot c hget hrec
    · exact hp.nodup

theorem sound_erase {p : Pool α} (hp : p.Sound) (h : Handle) : (p.erase h).Sound := by
  cases hh : p.get? h with
  | none => rwa [erase_of_not_contains (contains_eq_false.2 hh)]
  | some a =>
    obtain ⟨cell, hc, -, hr⟩ := get?_eq_some.1 hh
    have hin : h.slot < p.cells.size := (Array.getElem?_eq_some_iff.1 hc).1
    have hnew : h.slot ∉ p.free := by
      intro hm
      obtain ⟨cell', hc', hr'⟩ := hp.vacant _ hm
      simp_all
    simp only [erase, contains_of_get? hh, if_true]
    constructor
    · intro slot hs
      by_cases he : h.slot = slot
      · exact ⟨⟨h.version + 1, none⟩, by simp [← he, hin], rfl⟩
      · have hold := hp.vacant slot (by simpa [Ne.symm he] using hs)
        simpa [Array.getElem?_setIfInBounds, he] using hold
    · intro slot c hget hrec
      by_cases he : h.slot = slot
      · simp [he]
      · have hold := hp.listed slot c (by simpa [Array.getElem?_setIfInBounds, he] using hget) hrec
        simp [hold]
    · rw [Array.toList_push, List.nodup_append]
      exact ⟨hp.nodup, by simp, fun slot hs b hb => by
        rw [List.mem_singleton] at hb
        rintro rfl
        exact hnew (by simpa [hb] using hs)⟩

/-! ## Changes in place -/

/-- What of a cell a change in place keeps. -/
def outline (cell : Cell α) : Nat × Bool := (cell.version, cell.record.isSome)

/-- The same slots are in use, under the same versions, and the same slots are free. -/
structure SameSlots (p q : Pool α) : Prop where
  free : q.free = p.free
  cells : ∀ slot : Nat, (q.cells[slot]?).map outline = (p.cells[slot]?).map outline

theorem SameSlots.refl (p : Pool α) : SameSlots p p := ⟨rfl, fun _ => rfl⟩

theorem SameSlots.trans {p q r : Pool α} (h : SameSlots p q) (h' : SameSlots q r) :
    SameSlots p r :=
  ⟨h'.free.trans h.free, fun slot => (h'.cells slot).trans (h.cells slot)⟩

theorem sameSlots_modify (p : Pool α) (h : Handle) (f : α → α) : SameSlots p (p.modify h f) := by
  unfold modify
  split
  · refine ⟨rfl, fun slot => ?_⟩
    by_cases he : h.slot = slot <;> cases hc : p.cells[slot]? <;>
      simp [Array.getElem?_modify, outline, he, hc]
  · exact SameSlots.refl p

/-- Writing back what is there changes nothing. -/
theorem modify_eq_self {p : Pool α} {h : Handle} {a : α} {f : α → α} (hh : p.get? h = some a)
    (hf : f a = a) : p.modify h f = p := by
  obtain ⟨cell, hc, -, hr⟩ := get?_eq_some.1 hh
  have hcell : (⟨cell.version, cell.record.map f⟩ : Cell α) = cell := by
    obtain ⟨version, record⟩ := cell
    obtain rfl : record = some a := hr
    rw [Option.map_some, hf]
  have hcells : p.cells.modify h.slot (fun cell => ⟨cell.version, cell.record.map f⟩) = p.cells := by
    apply Array.ext_getElem?
    intro slot
    rw [Array.getElem?_modify]
    split
    · rename_i he
      rw [← he, hc, Option.map_some, hcell]
    · rfl
  rw [modify, contains_of_get? hh, if_pos rfl, hcells]

section Kept

variable {p q : Pool α} (h : SameSlots p q)

include h

theorem SameSlots.getElem?_cases (slot : Nat) :
    (p.cells[slot]? = none ∧ q.cells[slot]? = none) ∨
    ∃ c d, p.cells[slot]? = some c ∧ q.cells[slot]? = some d ∧ d.version = c.version ∧
      d.record.isSome = c.record.isSome := by
  have hc := h.cells slot
  cases hp : p.cells[slot]? with
  | none => exact .inl ⟨rfl, by simpa [hp] using hc⟩
  | some c =>
    obtain ⟨d, hd, he⟩ := Option.map_eq_some_iff.1 (hc.trans (by rw [hp]; rfl))
    exact .inr ⟨c, d, rfl, hd, congrArg Prod.fst he, congrArg Prod.snd he⟩

theorem SameSlots.cells_size : q.cells.size = p.cells.size := by
  have hnone : ∀ slot : Nat, q.cells.size ≤ slot ↔ p.cells.size ≤ slot := fun slot => by
    rw [← Array.getElem?_eq_none_iff, ← Array.getElem?_eq_none_iff]
    obtain ⟨hp, hq⟩ | ⟨c, d, hp, hq, -, -⟩ := h.getElem?_cases slot <;> simp [hp, hq]
  exact Nat.le_antisymm ((hnone _).2 (Nat.le_refl _)) ((hnone _).1 (Nat.le_refl _))

theorem SameSlots.size : q.size = p.size := by
  simp only [Pool.size, h.cells_size, h.free]

theorem SameSlots.nextVersion (slot : Nat) : q.nextVersion slot = p.nextVersion slot := by
  unfold Pool.nextVersion
  obtain ⟨hp, hq⟩ | ⟨c, d, hp, hq, hv, -⟩ := h.getElem?_cases slot
  · rw [hp, hq]
  · rw [hp, hq]
    simp [hv]

/-- The next record gets the same handle. -/
theorem SameSlots.nextHandle : q.nextHandle = p.nextHandle := by
  unfold Pool.nextHandle
  rw [h.free, h.cells_size]
  cases p.free.back? with
  | none => rfl
  | some slot => simp only [h.nextVersion]

theorem SameSlots.sound (hp : p.Sound) : q.Sound := by
  constructor
  · intro slot hs
    obtain ⟨cell, hc, hr⟩ := hp.vacant slot (h.free ▸ hs)
    obtain ⟨hn, -⟩ | ⟨c, d, hc', hd, -, hi⟩ := h.getElem?_cases slot
    · simp [hc] at hn
    · rw [hc] at hc'
      cases hc'
      exact ⟨d, hd, by simpa [hr] using hi⟩
  · intro slot cell hc hr
    obtain ⟨-, hn⟩ | ⟨c, d, hc', hd, -, hi⟩ := h.getElem?_cases slot
    · simp [hc] at hn
    · rw [hc] at hd
      cases hd
      rw [h.free]
      exact hp.listed slot c hc' (by simpa [hr] using hi.symm)
  · rw [h.free]
    exact hp.nodup

theorem SameSlots.contains (x : Handle) : q.contains x = p.contains x := by
  unfold Pool.contains get?
  obtain ⟨hp, hq⟩ | ⟨c, d, hp, hq, hv, hi⟩ := h.getElem?_cases x.slot
  · rw [hp, hq]
  · rw [hp, hq]
    simp only [hv]
    split
    · exact hi
    · rfl

theorem SameSlots.symm : SameSlots q p := ⟨h.free.symm, fun slot => (h.cells slot).symm⟩

theorem SameSlots.insert (a b : α) : SameSlots (p.insert a) (q.insert b) := by
  unfold Pool.insert
  rw [h.free]
  cases hb : p.free.back? with
  | none =>
    refine ⟨rfl, fun slot => ?_⟩
    have hcells := h.cells slot
    simp only [Array.getElem?_push, h.cells_size]
    split
    · rfl
    · exact hcells
  | some s =>
    refine ⟨rfl, fun slot => ?_⟩
    have hcells := h.cells slot
    dsimp only
    simp only [h.nextVersion, Array.getElem?_setIfInBounds, h.cells_size]
    split
    · split <;> rfl
    · exact hcells

theorem SameSlots.erase (x : Handle) : SameSlots (p.erase x) (q.erase x) := by
  unfold Pool.erase
  rw [h.contains]
  split
  · refine ⟨by rw [h.free], fun slot => ?_⟩
    have hcells := h.cells slot
    simp only [Array.getElem?_setIfInBounds, h.cells_size]
    split
    · rfl
    · exact hcells
  · exact h

end Kept

theorem modify_of_not_contains {p : Pool α} {h : Handle} (hh : p.contains h = false) (f : α → α) :
    p.modify h f = p := by
  simp [modify, hh]

/-- Changes that commute on every record commute in a pool, be it in one slot or in two. -/
theorem modify_comm (p : Pool α) (h h' : Handle) {f g : α → α} (hfg : ∀ a, f (g a) = g (f a)) :
    (p.modify h f).modify h' g = (p.modify h' g).modify h f := by
  have hleft := (sameSlots_modify p h f).contains h'
  have hright := (sameSlots_modify p h' g).contains h
  cases hh : p.contains h with
  | false =>
    rw [hh] at hright
    rw [modify_of_not_contains hh, modify_of_not_contains hright]
  | true =>
    cases hh' : p.contains h' with
    | false =>
      rw [hh'] at hleft
      rw [modify_of_not_contains hh', modify_of_not_contains hleft]
    | true =>
      rw [hh] at hright
      rw [hh'] at hleft
      have hrecord : ∀ record : Option α, (record.map f).map g = (record.map g).map f := by
        intro record
        rw [Option.map_map, Option.map_map]
        exact congrArg (record.map ·) (funext fun a => (hfg a).symm)
      have hcells : ∀ cells : Array (Cell α),
          (cells.modify h.slot fun cell => ⟨cell.version, cell.record.map f⟩).modify h'.slot
              (fun cell => ⟨cell.version, cell.record.map g⟩) =
            (cells.modify h'.slot fun cell => ⟨cell.version, cell.record.map g⟩).modify h.slot
              fun cell => ⟨cell.version, cell.record.map f⟩ := by
        intro cells
        apply Array.ext_getElem?
        intro slot
        simp only [Array.getElem?_modify]
        split <;> split <;> simp [Option.map_map, Function.comp_def, hrecord]
      simp only [modify, hh, hh', if_true] at hleft hright ⊢
      simp only [hleft, hright, if_true, hcells]

/-- A record that is changed right after it came in might have come in changed. -/
theorem modify_nextHandle {p : Pool α} (hp : p.Sound) (a : α) (f : α → α) :
    (p.insert a).modify p.nextHandle f = p.insert (f a) := by
  have hnew : (p.insert a).contains p.nextHandle = true :=
    contains_of_get? (a := a) (by rw [get?_insert hp, if_pos rfl])
  rw [modify, if_pos hnew]
  unfold insert nextHandle
  cases p.free.back? with
  | none =>
    refine congrArg (Pool.mk · p.free) (Array.ext_getElem? fun slot => ?_)
    simp only [Array.getElem?_modify, Array.getElem?_push]
    by_cases he : slot = p.cells.size
    · simp [he]
    · simp [he, Ne.symm he]
  | some last =>
    refine congrArg (Pool.mk · p.free.pop) (Array.ext_getElem? fun slot => ?_)
    simp only [Array.getElem?_modify, Array.getElem?_setIfInBounds]
    by_cases he : last = slot
    · by_cases hin : slot < p.cells.size <;> simp [he, hin]
    · simp [he]

/-! ## Listing -/

theorem mem_entries {p : Pool α} {h : Handle} {a : α} : (h, a) ∈ p.entries ↔ p.get? h = some a := by
  unfold entries
  rw [List.mem_filterMap, get?_eq_some]
  constructor
  · rintro ⟨⟨cell, slot⟩, hm, hr⟩
    obtain ⟨b, hb, he⟩ := Option.map_eq_some_iff.1 hr
    obtain ⟨rfl, rfl⟩ := Prod.mk.inj he
    exact ⟨cell, by simpa using List.mk_mem_zipIdx_iff_getElem?.1 hm, rfl, hb⟩
  · rintro ⟨cell, hc, hv, hr⟩
    refine ⟨(cell, h.slot), List.mk_mem_zipIdx_iff_getElem?.2 (by simpa using hc), ?_⟩
    simp [hr, hv]

/-- A pool is listed by ascending slot. -/
theorem entries_ascending (p : Pool α) : p.entries.Pairwise fun e e' => e.1.slot < e'.1.slot := by
  have hz : (p.cells.toList.zipIdx.map Prod.snd).Pairwise (· < ·) := by
    rw [List.zipIdx_map_snd]
    exact List.pairwise_lt_range'
  rw [entries, List.pairwise_filterMap]
  apply (List.pairwise_map.1 hz).imp
  rintro ⟨c, i⟩ ⟨d, j⟩ hij ⟨h, a⟩ ha ⟨h', b⟩ hb
  simp only [Option.map_eq_some_iff, Prod.mk.injEq] at ha hb
  obtain ⟨-, -, rfl, -⟩ := ha
  obtain ⟨-, -, rfl, -⟩ := hb
  exact hij

/-- The size counts what is held, though it is computed from the free slots. -/
theorem length_entries {p : Pool α} (hp : p.Sound) : p.entries.length = p.size := by
  have hvacant : (p.cells.toList.zipIdx.filter fun c => c.1.record.isNone).length = p.free.size := by
    have hperm : ((p.cells.toList.zipIdx.filter fun c => c.1.record.isNone).map Prod.snd).Perm
        p.free.toList := by
      refine (List.perm_ext_iff_of_nodup ?_ hp.nodup).2 fun slot => ?_
      · have hz : (p.cells.toList.zipIdx.map Prod.snd).Nodup := by
          rw [List.zipIdx_map_snd]
          exact List.nodup_range'
        exact hz.sublist (List.filter_sublist.map _)
      · simp only [List.mem_map, List.mem_filter, Prod.exists, exists_eq_right,
          List.mk_mem_zipIdx_iff_getElem?, Option.isNone_iff_eq_none, Array.getElem?_toList,
          Array.mem_toList_iff]
        exact ⟨fun ⟨cell, hc, hr⟩ => hp.listed slot cell hc hr, fun hs => hp.vacant slot hs⟩
    simpa using hperm.length_eq
  have hheld : p.entries.length =
      (p.cells.toList.zipIdx.filter fun c => !c.1.record.isNone).length := by
    rw [entries, List.length_filterMap_eq_countP, List.countP_eq_length_filter]
    congr 1
    apply List.filter_congr
    intro c _
    obtain ⟨cell, slot⟩ := c
    cases hr : cell.record <;> simp [hr]
  have hall := List.length_eq_length_filter_add (l := p.cells.toList.zipIdx)
    fun c => c.1.record.isNone
  rw [List.length_zipIdx, Array.length_toList, hvacant] at hall
  rw [hheld, size]
  omega

/-! ## Handles that were given out

The version of a slot never goes down, and a new record gets a version that its slot has not had. So a
handle whose record has left resolves never again.
-/

/-- The slot of the handle is in use or has been, and has come to the handle's version. -/
def Issued (p : Pool α) (h : Handle) : Prop :=
  ∃ cell, p.cells[h.slot]? = some cell ∧ h.version ≤ cell.version

theorem issued_of_get? {p : Pool α} {h : Handle} {a : α} (hh : p.get? h = some a) : p.Issued h := by
  obtain ⟨cell, hc, hv, -⟩ := get?_eq_some.1 hh
  exact ⟨cell, hc, by omega⟩

theorem not_issued_nextHandle {p : Pool α} (hp : p.Sound) : ¬p.Issued p.nextHandle := by
  rintro ⟨cell, hc, hv⟩
  cases hb : p.free.back? with
  | some slot =>
    obtain ⟨old, ho, -⟩ := hp.vacant slot (Array.mem_of_back? hb)
    have hn : p.nextHandle = ⟨slot, old.version + 1⟩ := by simp [nextHandle, nextVersion, hb, ho]
    rw [hn] at hc hv
    obtain rfl : old = cell := Option.some.inj (ho.symm.trans hc)
    exact Nat.not_succ_le_self old.version hv
  | none =>
    have hn : p.nextHandle = ⟨p.cells.size, 1⟩ := by simp [nextHandle, hb]
    rw [hn] at hc
    simp at hc

theorem Issued.insert {p : Pool α} (hp : p.Sound) (a : α) {h : Handle} (hh : p.Issued h) :
    (p.insert a).Issued h := by
  obtain ⟨cell, hc, hv⟩ := hh
  have hin : h.slot < p.cells.size := (Array.getElem?_eq_some_iff.1 hc).1
  obtain ⟨s, old, -, ho, -, -, hi⟩ | ⟨-, -, hi⟩ := nextHandle_cases hp a
  · rw [hi]
    by_cases he : s = h.slot
    · subst he
      rw [hc] at ho
      cases ho
      exact ⟨⟨cell.version + 1, some a⟩, by simp [hin], Nat.le_succ_of_le hv⟩
    · exact ⟨cell, by simpa [he] using hc, hv⟩
  · rw [hi]
    refine ⟨cell, ?_, hv⟩
    rw [Array.getElem?_push, if_neg (Nat.ne_of_lt hin)]
    exact hc

theorem Issued.erase {p : Pool α} {h : Handle} (hh : p.Issued h) (x : Handle) :
    (p.erase x).Issued h := by
  cases hx : p.get? x with
  | none => rwa [erase_of_not_contains (contains_eq_false.2 hx)]
  | some a =>
    obtain ⟨cell, hc, hv⟩ := hh
    obtain ⟨cell', hc', hv', -⟩ := get?_eq_some.1 hx
    have hin : h.slot < p.cells.size := (Array.getElem?_eq_some_iff.1 hc).1
    simp only [Pool.erase, contains_of_get? hx, if_true]
    by_cases he : x.slot = h.slot
    · rw [he, hc] at hc'
      cases hc'
      exact ⟨⟨x.version + 1, none⟩, by simp [he, hin], by dsimp only; omega⟩
    · exact ⟨cell, by simpa [he] using hc, hv⟩

theorem SameSlots.issued {p q : Pool α} (hs : SameSlots p q) {h : Handle} (hh : p.Issued h) :
    q.Issued h := by
  obtain ⟨cell, hc, hv⟩ := hh
  obtain ⟨hn, -⟩ | ⟨c, d, hc', hd, hvd, -⟩ := hs.getElem?_cases h.slot
  · rw [hc] at hn
    cases hn
  · rw [hc] at hc'
    cases hc'
    exact ⟨d, hd, by omega⟩

/-! ## Slots that are taken again -/

theorem nextHandle_erase {p : Pool α} {h : Handle} {a : α} (hh : p.get? h = some a) :
    (p.erase h).nextHandle = ⟨h.slot, h.version + 2⟩ := by
  obtain ⟨cell, hc, -⟩ := get?_eq_some.1 hh
  have hin : h.slot < p.cells.size := (Array.getElem?_eq_some_iff.1 hc).1
  simp [erase, contains_of_get? hh, nextHandle, nextVersion, hin]

/-- A record that comes in after another one has left takes its slot. -/
theorem insert_erase {p : Pool α} {h : Handle} {a : α} (hh : p.get? h = some a) (b : α) :
    (p.erase h).insert b = ⟨p.cells.setIfInBounds h.slot ⟨h.version + 2, some b⟩, p.free⟩ := by
  obtain ⟨cell, hc, -⟩ := get?_eq_some.1 hh
  have hin : h.slot < p.cells.size := (Array.getElem?_eq_some_iff.1 hc).1
  simp [erase, contains_of_get? hh, insert, nextVersion, hin]

theorem nextHandle_insert_erase {p : Pool α} (hp : p.Sound) {h : Handle} {a : α}
    (hh : p.get? h = some a) (b : α) : ((p.erase h).insert b).nextHandle = p.nextHandle := by
  obtain ⟨cell, hc, -, hr⟩ := get?_eq_some.1 hh
  rw [insert_erase hh]
  unfold nextHandle nextVersion
  dsimp only
  rw [Array.size_setIfInBounds]
  cases hb : p.free.back? with
  | none => rfl
  | some slot =>
    obtain ⟨cell', hc', hr'⟩ := hp.vacant slot (Array.mem_of_back? hb)
    have hne : h.slot ≠ slot := by
      rintro rfl
      rw [hc] at hc'
      cases hc'
      rw [hr] at hr'
      cases hr'
    dsimp only
    rw [Array.getElem?_setIfInBounds_ne hne]

/-- A pool is a lawful store. -/
theorem lawful : LawfulStore (empty : Pool α) get? nextHandle insert erase modify entries size Sound
    Issued SameSlots where
  sound_empty := sound_empty
  sound_insert := sound_insert
  sound_erase := sound_erase
  get?_empty := get?_empty
  get?_insert := get?_insert
  get?_erase := get?_erase
  get?_modify := get?_modify
  not_issued_nextHandle := not_issued_nextHandle
  issued_of_get? := issued_of_get?
  issued_insert hp a _ hh := hh.insert hp a
  issued_erase hh x := hh.erase x
  nextHandle_erase := nextHandle_erase
  nextHandle_insert_erase := nextHandle_insert_erase
  slots := ⟨.refl, .symm, .trans⟩
  slots_insert hs := hs.insert
  slots_erase hs := hs.erase
  slots_modify := sameSlots_modify
  nextHandle_slots hs := hs.nextHandle
  isSome_slots hs := hs.contains
  size_slots hs := hs.size
  sound_slots hs := hs.sound
  issued_slots hs _ hh := hs.issued hh
  mem_entries := mem_entries
  entries_ascending := entries_ascending
  length_entries := length_entries
  modify_eq_self := modify_eq_self
  modify_comm := modify_comm
  modify_nextHandle := modify_nextHandle

end MemIndex.Pool
