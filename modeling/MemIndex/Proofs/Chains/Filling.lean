import MemIndex.Proofs.Chains.Levels

/-!
# Filling an entry and relinking it

The content of a slot and the links are changed without regard to each other. So an entry may be filled
before a step of the chains or after it: the links, the buckets and the answers are the same either way,
and it does not matter whether the links are in order.
-/
namespace MemIndex.Chains

variable {κ ν ρ : Type}

/-- Fills the slot of an entry among those that are being dealt out. -/
def Deal.setValue (d : Deal κ ν) (h : Handle) (value : Option (Held ν)) : Deal κ ν :=
  ⟨d.heads, d.entries.modify h (·.withValue value)⟩

section Pools

variable (p : Pool (Entry κ ν)) (h : Handle) (value : Option (Held ν))

theorem size_withValue : (p.modify h (·.withValue value)).size = p.size :=
  (Pool.lawful.slots_modify p h _).size

theorem get?_withValue_none {x : Handle} (hx : p.get? x = none) :
    (p.modify h (·.withValue value)).get? x = none := by
  rw [Pool.lawful.get?_modify]
  split
  · rename_i he
    rw [← he, hx, Option.map_none]
  · exact hx

/-- Any entry is found again, with the same hash and the same link. -/
theorem get?_withValue {x : Handle} {entry : Entry κ ν} (hx : p.get? x = some entry) :
    ∃ entry', (p.modify h (·.withValue value)).get? x = some entry' ∧ entry'.hash = entry.hash ∧
      entry'.next = entry.next := by
  rw [Pool.lawful.get?_modify]
  split
  · rename_i he
    exact ⟨entry.withValue value, by rw [← he, hx, Option.map_some], rfl, rfl⟩
  · exact ⟨entry, hx, rfl, rfl⟩

theorem modify?_withNext_withValue (x : Handle) (link : Option Handle) :
    (p.modify h (·.withValue value)).modify? x (·.withNext link) =
      (p.modify? x (·.withNext link)).map fun p => p.modify h (·.withValue value) := by
  have hcontains := (Pool.lawful.slots_modify p h (·.withValue value)).contains x
  have hcomm := Pool.lawful.modify_comm p h x (f := (·.withValue value)) (g := (·.withNext link))
    fun _ => rfl
  unfold Pool.modify?
  rw [hcontains, hcomm]
  split <;> rfl

end Pools

/-! ## Dealing out -/

theorem dealFrom_setValue (count budget : Nat) (link : Option Handle) (d : Deal κ ν) (h : Handle)
    (value : Option (Held ν)) :
    dealFrom count budget link (d.setValue h value) =
      (dealFrom count budget link d).map fun d => d.setValue h value := by
  induction budget generalizing link d with
  | zero => cases link <;> rfl
  | succ budget ih =>
    cases link with
    | none => rfl
    | some x =>
      obtain ⟨heads, entries⟩ := d
      simp only [Deal.setValue, dealFrom, Option.bind_eq_bind]
      cases hx : entries.get? x with
      | none => simp [get?_withValue_none entries h value hx]
      | some entry =>
        obtain ⟨entry', hx', hhash, hnext⟩ := get?_withValue entries h value hx
        rw [hx', Option.bind_some, Option.bind_some, hhash, hnext]
        cases heads[bucketOf count entry.hash]? with
        | none => rfl
        | some head =>
          rw [Option.bind_some, Option.bind_some, modify?_withNext_withValue]
          cases entries.modify? x (·.withNext head) with
          | none => rfl
          | some entries => exact ih entry.next ⟨_, entries⟩

theorem dealAll_setValue (count : Nat) (links : List (Option Handle)) (d : Deal κ ν) (h : Handle)
    (value : Option (Held ν)) :
    dealAll count links (d.setValue h value) =
      (dealAll count links d).map fun d => d.setValue h value := by
  induction links generalizing d with
  | nil => rfl
  | cons link rest ih =>
    have hsize : (d.setValue h value).entries.size = d.entries.size :=
      size_withValue d.entries h value
    rw [dealAll, dealAll, hsize, dealFrom_setValue]
    cases dealFrom count d.entries.size link d with
    | none => rfl
    | some d => exact ih d

/-! ## Steps of the chains -/

variable (c : Chains κ ν) (h : Handle) (value : Option (Held ν))

theorem size_setValue : (c.setValue h value).size = c.size := size_withValue c.entries h value

theorem setNext_setValue (bucket : Nat) (prev link : Option Handle) :
    (c.setValue h value).setNext bucket prev link =
      (c.setNext bucket prev link).map fun c => c.setValue h value := by
  cases prev with
  | none =>
    by_cases hb : bucket < c.heads.size <;> simp [setNext, setValue, hb]
  | some x =>
    simp only [setNext, setValue, modify?_withNext_withValue, Option.map_map]
    rfl

/-- An entry may come in filled, or be filled once it is in. -/
theorem link_withValue (hs : c.entries.Sound) (spot : Spot) (entry : Entry κ ν) :
    c.link spot (entry.withValue value) =
      (c.link spot entry).map fun (c, h) => (c.setValue h value, h) := by
  have hinsert : (⟨c.heads, c.entries.insert (entry.withValue value), c.rung⟩ : Chains κ ν) =
      setValue ⟨c.heads, c.entries.insert entry, c.rung⟩ c.entries.nextHandle value := by
    rw [setValue, Pool.lawful.modify_nextHandle hs]
  simp only [link, hinsert, setNext_setValue, Option.map_map]
  rfl

variable [LoadScale ρ] (alloc : Allocator) (thresholds : Thresholds ρ)

theorem target?_setValue : (c.setValue h value).target? thresholds = c.target? thresholds := by
  have hload : ((c.setValue h value).load : ρ) = c.load := by
    rw [load, size_setValue]
    rfl
  rw [target?, hload]
  rfl

theorem adjust_setValue :
    (c.setValue h value).adjust alloc thresholds =
      (c.adjust alloc thresholds).map fun (c, stepped) => (c.setValue h value, stepped) := by
  unfold adjust
  rw [target?_setValue]
  cases c.target? thresholds with
  | none => rfl
  | some rung =>
    cases hcount : Ladder.buckets? rung with
    | none => simp [hcount]
    | some count =>
      have hdeal := dealAll_setValue count c.heads.toList ⟨Array.replicate count none, c.entries⟩ h
        value
      simp only [Deal.setValue] at hdeal
      cases halloc : alloc count with
      | false => simp [hcount, halloc]
      | true => simp [hcount, halloc, setValue, hdeal, Option.map_map, Function.comp_def]

end MemIndex.Chains
