import MemIndex.Proofs.HashedIndex.Runs

/-!
# Maps from classes of keys

With lawful functions a hashed index is a finite map: to a class of keys that are the same it gives the
key of the class that was stored first, and a value if there is one. What each operation answers can be
told from the map alone. A map has no order, so it may be listed anew before each operation; a sweep
and a listing of the pairs go by this order, which is all that they depend on.
-/
namespace MemIndex.HashedIndex

variable {κ ν ρ : Type}

/-- Stored keys with their values. -/
abbrev KeyMap (κ ν : Type) := List (κ × Option (Held ν))

namespace KeyMap

section Classes

variable (same : κ → κ → Bool) (m : KeyMap κ ν)

/-- The stored key that is the same as the given one, with its value. -/
def find? (key : κ) : Option (κ × Option (Held ν)) := List.find? (fun pair => same pair.1 key) m

def without (key : κ) : KeyMap κ ν := m.eraseP fun pair => same pair.1 key

/-- No two of the stored keys are the same. -/
def Distinct : Prop := m.Pairwise fun a b => same a.1 b.1 = false

end Classes

def plain (m : KeyMap κ ν) : List (κ × Option ν) :=
  m.map fun pair => (pair.1, pair.2.map Held.value)

/-- What a sweep leaves, and how it ended. -/
structure Swept (κ ν σ : Type) where
  kept : KeyMap κ ν
  verdict : Verdict
  state : σ

/-- Shows the pairs in the order of the list until the visitor ends the sweep; a pair whose removal is
asked for is left out. -/
def sweep {σ : Type} (visit : EntryVisitor κ ν σ) : KeyMap κ ν → σ → Swept κ ν σ
  | [], state => ⟨[], .proceed, state⟩
  | pair :: rest, state =>
    let answer := visit pair.1 (pair.2.map Held.value) state
    let others : Swept κ ν σ :=
      if answer.verdict = .proceed then sweep visit rest answer.state
      else ⟨rest, answer.verdict, answer.state⟩
    ⟨if answer.remove then others.kept else pair :: others.kept, others.verdict, others.state⟩

section Answers

variable (same : κ → κ → Bool) (keys : Policy κ) (values : Policy ν)

/-- Stores a value: under a known class the first key stays and the value is replaced. -/
def set (m : KeyMap κ ν) (key : κ) (value : ν) : Except TableError Change × KeyMap κ ν :=
  match (values.store value).result with
  | .error cause => (.error cause, m)
  | .ok held =>
    match find? same m key with
    | some pair => (.ok .updated, (pair.1, some held) :: without same m key)
    | none =>
      match (keys.store key).result with
      | .error cause => (.error cause, m)
      | .ok heldKey => (.ok .inserted, (heldKey.value, some held) :: m)

/-- Acts on the value of a class; an unknown class comes in without a value first. -/
def emplace (m : KeyMap κ ν) (key : κ) (actions : List (SlotAction ν)) :
    Except TableError (List (SlotReply ν)) × KeyMap κ ν :=
  match find? same m key with
  | some pair =>
    let acted := slotRun values actions pair.2
    (.ok acted.1, (pair.1, acted.2) :: without same m key)
  | none =>
    match (keys.store key).result with
    | .error cause => (.error cause, m)
    | .ok heldKey =>
      let acted := slotRun values actions none
      (.ok acted.1, (heldKey.value, acted.2) :: m)

/-- What a map answers to an operation, and what it is afterwards. -/
def answer (m : KeyMap κ ν) : Op κ ν → Reply κ ν × KeyMap κ ν
  | .set key value => let r := set same keys values m key value; (.stored r.1, r.2)
  | .emplace key actions => let r := emplace same keys values m key actions; (.slot r.1, r.2)
  | .get key => (.value ((find? same m key).bind fun pair => pair.2.map Held.value), m)
  | .contains key => (.contained (find? same m key).isSome, m)
  | .take key => (.taken ((find? same m key).bind Prod.snd), without same m key)
  | .delete key => (.deleted (find? same m key).isSome, without same m key)
  | .sweep visit state =>
    let s := sweep visit m state
    (.swept (if s.verdict = .fail then .error .visitorFailed else .ok ()) s.state, s.kept)
  | .purge => (.purged, [])
  | .pairs => (.pairs m.plain, m)
  | .size => (.size m.length, m)

/-- A map, listed in some order before each operation, gives these replies and is another one at the
end. -/
inductive Answers : KeyMap κ ν → List (Op κ ν) → List (Reply κ ν) → KeyMap κ ν → Prop
  | nil {m : KeyMap κ ν} : Answers m [] [] m
  | cons {m listing m' m'' : KeyMap κ ν} {op : Op κ ν} {ops : List (Op κ ν)} {reply : Reply κ ν}
    {replies : List (Reply κ ν)} (order : listing.Perm m)
    (first : answer same keys values listing op = (reply, m')) (rest : Answers m' ops replies m'') :
    Answers m (op :: ops) (reply :: replies) m''

end Answers

section Lemmas

variable {same : κ → κ → Bool} {m : KeyMap κ ν} {key : κ}

theorem find?_cons {pair : κ × Option (Held ν)} (h : same pair.1 key = true) :
    find? same (pair :: m) key = some pair := by
  simp [find?, h]

theorem without_cons {pair : κ × Option (Held ν)} (h : same pair.1 key = true) :
    without same (pair :: m) key = m := by
  simp [without, h]

theorem find?_eq_none (h : ∀ pair ∈ m, same pair.1 key = false) : find? same m key = none := by
  rw [find?, List.find?_eq_none]
  intro pair hp
  rw [h pair hp]
  decide

theorem without_eq_self (h : ∀ pair ∈ m, same pair.1 key = false) : without same m key = m := by
  apply List.eraseP_of_forall_not
  intro pair hp
  rw [h pair hp]
  decide

end Lemmas

end KeyMap

end MemIndex.HashedIndex
