import MemIndex.Pool

/-!
# Laws of a store

The indexes keep their records in a store, and nothing is proved of them that rests on more than these
laws of it. A handle is given out once and never again. Its slot is: the one that was freed last is taken
first, under a later version. Which handles come next depends on the slots alone, not on what the records
in them are.
-/
namespace MemIndex

/-- The laws of a store and of three relations: a store is sound if its operations have made it, a handle
is issued once it has been given out, and stores have the same slots if they use the same ones, under the
same versions, and would reuse the free ones in the same order. -/
structure LawfulStore {P : Type u} {α : Type v} (empty : P) (get? : P → Handle → Option α)
    (nextHandle : P → Handle) (insert : P → α → P) (erase : P → Handle → P)
    (modify : P → Handle → (α → α) → P) (entries : P → List (Handle × α)) (size : P → Nat)
    (Sound : P → Prop) (Issued : P → Handle → Prop) (SameSlots : P → P → Prop) : Prop where
  sound_empty : Sound empty
  sound_insert {p : P} (hp : Sound p) (a : α) : Sound (insert p a)
  sound_erase {p : P} (hp : Sound p) (h : Handle) : Sound (erase p h)
  get?_empty (h : Handle) : get? empty h = none
  get?_insert {p : P} (hp : Sound p) (a : α) (h : Handle) :
    get? (insert p a) h = if h = nextHandle p then some a else get? p h
  get?_erase (p : P) (h h' : Handle) :
    get? (erase p h) h' = if h' = h then none else get? p h'
  get?_modify (p : P) (h h' : Handle) (f : α → α) :
    get? (modify p h f) h' = if h' = h then (get? p h).map f else get? p h'
  /-- No version of a slot comes round again. -/
  not_issued_nextHandle {p : P} (hp : Sound p) : ¬Issued p (nextHandle p)
  issued_of_get? {p : P} {h : Handle} {a : α} (hh : get? p h = some a) : Issued p h
  issued_insert {p : P} (hp : Sound p) (a : α) {h : Handle} (hh : Issued p h) :
    Issued (insert p a) h
  issued_erase {p : P} {h : Handle} (hh : Issued p h) (x : Handle) : Issued (erase p x) h
  /-- The slot that was freed last is taken first. -/
  nextHandle_erase {p : P} {h : Handle} {a : α} (hh : get? p h = some a) :
    nextHandle (erase p h) = ⟨h.slot, h.version + 2⟩
  /-- Once it has been taken, the others come in the order that they were in. -/
  nextHandle_insert_erase {p : P} (hp : Sound p) {h : Handle} {a : α} (hh : get? p h = some a) (b : α) :
    nextHandle (insert (erase p h) b) = nextHandle p
  slots : Equivalence SameSlots
  slots_insert {p q : P} (hs : SameSlots p q) (a b : α) : SameSlots (insert p a) (insert q b)
  slots_erase {p q : P} (hs : SameSlots p q) (h : Handle) : SameSlots (erase p h) (erase q h)
  slots_modify (p : P) (h : Handle) (f : α → α) : SameSlots p (modify p h f)
  nextHandle_slots {p q : P} (hs : SameSlots p q) : nextHandle q = nextHandle p
  isSome_slots {p q : P} (hs : SameSlots p q) (h : Handle) :
    (get? q h).isSome = (get? p h).isSome
  size_slots {p q : P} (hs : SameSlots p q) : size q = size p
  sound_slots {p q : P} (hs : SameSlots p q) (hp : Sound p) : Sound q
  issued_slots {p q : P} (hs : SameSlots p q) {h : Handle} (hh : Issued p h) : Issued q h
  mem_entries {p : P} {h : Handle} {a : α} : (h, a) ∈ entries p ↔ get? p h = some a
  entries_ascending (p : P) : (entries p).Pairwise fun e e' => e.1.slot < e'.1.slot
  length_entries {p : P} (hp : Sound p) : (entries p).length = size p
  /-- Writing back what is there changes nothing. -/
  modify_eq_self {p : P} {h : Handle} {a : α} {f : α → α} (hh : get? p h = some a) (hf : f a = a) :
    modify p h f = p
  /-- Changes that commute on every record commute in a store, be it under one handle or under two. -/
  modify_comm (p : P) (h h' : Handle) {f g : α → α} (hfg : ∀ a, f (g a) = g (f a)) :
    modify (modify p h f) h' g = modify (modify p h' g) h f
  /-- A record that is changed right after it came in might have come in changed. -/
  modify_nextHandle {p : P} (hp : Sound p) (a : α) (f : α → α) :
    modify (insert p a) (nextHandle p) f = insert p (f a)

namespace LawfulStore

variable {P : Type u} {α : Type v} {empty : P} {get? : P → Handle → Option α}
  {nextHandle : P → Handle} {insert : P → α → P} {erase : P → Handle → P}
  {modify : P → Handle → (α → α) → P} {entries : P → List (Handle × α)} {size : P → Nat}
  {Sound : P → Prop} {Issued : P → Handle → Prop} {SameSlots : P → P → Prop}
  (laws : LawfulStore empty get? nextHandle insert erase modify entries size Sound Issued SameSlots)

include laws

theorem get?_nextHandle {p : P} (hp : Sound p) : get? p (nextHandle p) = none := by
  cases hh : get? p (nextHandle p) with
  | none => rfl
  | some a => exact absurd (laws.issued_of_get? hh) (laws.not_issued_nextHandle hp)

theorem get?_foldl_erase (hs : List Handle) (p : P) (h : Handle) :
    get? (hs.foldl erase p) h = if h ∈ hs then none else get? p h := by
  induction hs generalizing p with
  | nil => simp
  | cons x rest ih =>
    rw [List.foldl_cons, ih, laws.get?_erase]
    by_cases hx : h = x <;> by_cases hr : h ∈ rest <;> simp [hx, hr]

theorem sound_foldl_erase {p : P} (hp : Sound p) (hs : List Handle) : Sound (hs.foldl erase p) := by
  induction hs generalizing p with
  | nil => exact hp
  | cons x rest ih => exact ih (laws.sound_erase hp x)

theorem slots_modify_congr {p q : P} (hpq : SameSlots p q) (h : Handle) (f g : α → α) :
    SameSlots (modify p h f) (modify q h g) :=
  laws.slots.trans (laws.slots.symm (laws.slots_modify p h f))
    (laws.slots.trans hpq (laws.slots_modify q h g))

theorem slots_foldl_erase {p q : P} (hpq : SameSlots p q) (hs : List Handle) :
    SameSlots (hs.foldl erase p) (hs.foldl erase q) := by
  induction hs generalizing p q with
  | nil => exact hpq
  | cons x rest ih => exact ih (laws.slots_erase hpq x)

end LawfulStore

end MemIndex
