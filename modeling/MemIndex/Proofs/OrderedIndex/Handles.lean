import Mathlib.Data.List.Nodup
import MemIndex.Proofs.OrderedIndex.Runs

/-!
# Handles over a run

A handle stands for its record from the insertion that answers it to the removal that hands the record
over, and for nothing before and after. In the order of the tree an insertion adds one record and a
removal takes one out, so records that stay keep their order. Rotations and the moves of heirs do not
show. The comparator may be any function.
-/
namespace MemIndex.OrderedIndex

variable {α : Type u}

/-- The records from left to right, if the links spell a tree. -/
def listed? (index : OrderedIndex α) : Option (List (Record α)) := index.tree?.map Tree.toList

theorem Linked.listed?_eq {index : OrderedIndex α} {t : Tree α} (h : index.Linked t) :
    index.listed? = some t.toList := by
  rw [listed?, h.tree?_eq]
  rfl

/-- What an operation with this answer does to the listed records. -/
inductive Edits : Op α → Answer α → List (Record α) → List (Record α) → Prop
  | insert {item : α} {h : Handle} {before after : List (Record α)} :
    Edits (.insert item) (.handle h) (before ++ after) (before ++ ⟨h, item⟩ :: after)
  | remove {probe : α} {x : Record α} {before after : List (Record α)} :
    Edits (.remove probe) (.record (some x)) (before ++ x :: after) (before ++ after)
  | removeNothing {probe : α} {listed : List (Record α)} :
    Edits (.remove probe) (.record none) listed listed
  | find {probe : α} {found : Option (Record α)} {listed : List (Record α)} :
    Edits (.find probe) (.record found) listed listed
  | min {found : Option (Record α)} {listed : List (Record α)} :
    Edits .min (.record found) listed listed
  | max {found : Option (Record α)} {listed : List (Record α)} :
    Edits .max (.record found) listed listed

theorem Served.edits {cmp : α → α → Ordering} {t t' : Tree α} {op : Op α} {answer : Answer α}
    (hs : Served cmp t op answer t') : Edits op answer t.toList t'.toList := by
  cases hs with
  | insert item fresh =>
    obtain ⟨before, after, ht, hi⟩ := Tree.toList_insert cmp ⟨_, item⟩ t
    rw [ht, hi]
    exact .insert
  | remove probe =>
    cases hr : (t.remove cmp probe).removed with
    | none =>
      rw [Tree.remove_none hr]
      exact .removeNothing
    | some x =>
      obtain ⟨before, after, ht, hi⟩ := Tree.toList_remove_some hr
      rw [ht, hi]
      exact .remove
  | find probe => exact .find
  | min => exact .min
  | max => exact .max

/-! ## What a run hands out and takes back -/

/-- The handle that an operation gives out. -/
def givenBy : Op α → Answer α → Option Handle
  | .insert _, .handle h => some h
  | _, _ => none

/-- The record that an operation hands over. -/
def takenBy : Op α → Answer α → Option (Record α)
  | .remove _, .record x => x
  | _, _ => none

/-- The handles that the insertions of a run give out. -/
def given (ops : List (Op α)) (answers : List (Answer α)) : List Handle :=
  (ops.zip answers).filterMap fun (op, answer) => givenBy op answer

/-- The records that the removals of a run hand over. -/
def taken (ops : List (Op α)) (answers : List (Answer α)) : List (Record α) :=
  (ops.zip answers).filterMap fun (op, answer) => takenBy op answer

theorem given_cons (op : Op α) (answer : Answer α) (ops : List (Op α)) (answers : List (Answer α)) :
    given (op :: ops) (answer :: answers) = (givenBy op answer).toList ++ given ops answers := by
  cases h : givenBy op answer <;> simp [given, h]

theorem taken_cons (op : Op α) (answer : Answer α) (ops : List (Op α)) (answers : List (Answer α)) :
    taken (op :: ops) (answer :: answers) = (takenBy op answer).toList ++ taken ops answers := by
  cases h : takenBy op answer <;> simp [taken, h]

/-- From one arena and tree to later ones, where these handles have been given out and these records
taken meanwhile. -/
structure Passage (a : Arena α) (t : Tree α) (given : List Handle) (taken : List (Record α))
    (a' : Arena α) (t' : Tree α) : Prop where
  issued : ∀ h, a.Issued h → a'.Issued h
  new : ∀ h ∈ given, ¬a.Issued h
  counted : ∀ h ∈ given, a'.Issued h
  stays : ∀ x ∈ t.toList, x.handle ∉ taken.map Record.handle → x ∈ t'.toList
  leaves : ∀ x ∈ t.toList, ∀ y ∈ taken, y.handle = x.handle → y = x ∧ x.handle ∉ t'.handles
  /-- A handle whose record has left comes back in no way. -/
  out : ∀ h, a.Issued h → h ∉ t.handles → h ∉ t'.handles ∧ h ∉ taken.map Record.handle
  sameOrder : t.handles.filter (· ∈ t'.handles) = t'.handles.filter (· ∈ t.handles)

theorem Passage.refl (a : Arena α) (t : Tree α) : Passage a t [] [] a t where
  issued _ h := h
  new _ hh := by cases hh
  counted _ hh := by cases hh
  stays _ hx _ := hx
  leaves _ _ _ hy := by cases hy
  out _ _ hh := ⟨hh, List.not_mem_nil⟩
  sameOrder := rfl

/-- Lists that agree with a list between them on their common members agree on these. -/
theorem filter_mem_trans {l₁ l₂ l₃ : List Handle}
    (h : l₁.filter (· ∈ l₂) = l₂.filter (· ∈ l₁)) (h' : l₂.filter (· ∈ l₃) = l₃.filter (· ∈ l₂))
    (hmid : ∀ x ∈ l₁, x ∈ l₃ → x ∈ l₂) : l₁.filter (· ∈ l₃) = l₃.filter (· ∈ l₁) := by
  have hleft : l₁.filter (· ∈ l₃) = (l₁.filter (· ∈ l₂)).filter (· ∈ l₃) := by
    rw [List.filter_filter]
    apply List.filter_congr
    intro x hx
    rw [Bool.eq_iff_iff]
    simpa using hmid x hx
  have hright : l₃.filter (· ∈ l₁) = (l₃.filter (· ∈ l₂)).filter (· ∈ l₁) := by
    rw [List.filter_filter]
    apply List.filter_congr
    intro x hx
    rw [Bool.eq_iff_iff]
    simpa using fun hx' => hmid x hx' hx
  rw [hleft, hright, h, ← h', List.filter_comm]

theorem Passage.trans {a₁ a₂ a₃ : Arena α} {t₁ t₂ t₃ : Tree α} {given given' : List Handle}
    {taken taken' : List (Record α)} (hheld : ∀ h ∈ t₁.handles, a₁.Issued h)
    (h : Passage a₁ t₁ given taken a₂ t₂) (h' : Passage a₂ t₂ given' taken' a₃ t₃) :
    Passage a₁ t₁ (given ++ given') (taken ++ taken') a₃ t₃ where
  issued x hx := h'.issued x (h.issued x hx)
  new x hx := by
    rcases List.mem_append.1 hx with hx | hx
    · exact h.new x hx
    · exact fun hi => h'.new x hx (h.issued x hi)
  counted x hx := by
    rcases List.mem_append.1 hx with hx | hx
    · exact h'.issued x (h.counted x hx)
    · exact h'.counted x hx
  stays x hx hn := by
    rw [List.map_append, List.mem_append, not_or] at hn
    exact h'.stays x (h.stays x hx hn.1) hn.2
  leaves x hx y hy he := by
    have hissued := h.issued x.handle (hheld x.handle (List.mem_map_of_mem hx))
    rcases List.mem_append.1 hy with hy | hy
    · obtain ⟨rfl, hgone⟩ := h.leaves x hx y hy he
      exact ⟨rfl, (h'.out y.handle hissued hgone).1⟩
    · by_cases hm : x.handle ∈ taken.map Record.handle
      · -- What has left before cannot be taken now.
        obtain ⟨z, hz, hzx⟩ := List.mem_map.1 hm
        obtain ⟨-, hgone⟩ := h.leaves x hx z hz hzx
        exact absurd (he ▸ List.mem_map_of_mem hy) (h'.out x.handle hissued hgone).2
      · exact h'.leaves x (h.stays x hx hm) y hy he
  out x hi hx := by
    obtain ⟨hx₂, hn⟩ := h.out x hi hx
    obtain ⟨hx₃, hn'⟩ := h'.out x (h.issued x hi) hx₂
    exact ⟨hx₃, by rw [List.map_append, List.mem_append, not_or]; exact ⟨hn, hn'⟩⟩
  sameOrder := by
    apply filter_mem_trans h.sameOrder h'.sameOrder
    intro x hx hx'
    by_contra hgone
    exact (h'.out x (h.issued x (hheld x hx)) hgone).1 hx'

/-! ## One operation -/

section Step

variable {index index' : OrderedIndex α} {t t' : Tree α} {op : Op α} {answer : Answer α}

theorem Linked.issued_of_mem (h : index.Linked t) {x : Handle} (hx : x ∈ t.handles) :
    index.arena.Issued x := by
  obtain ⟨node, hnode⟩ := Pool.contains_iff.1 ((h.held x).1 hx)
  exact Pool.lawful.issued_of_get? hnode

/-- An operation keeps count of the handles, and what it gives out is new. -/
theorem Linked.issued_of_perform (h : index.Linked t)
    (hop : index.perform op = some (index', answer)) :
    (∀ x, index.arena.Issued x → index'.arena.Issued x) ∧
      ∀ x ∈ givenBy op answer, ¬index.arena.Issued x := by
  cases op with
  | insert item =>
    obtain ⟨r, hrun, hr⟩ := h.insert item
    obtain ⟨rfl, rfl⟩ : r.index = index' ∧ .handle r.handle = answer := by
      simpa [OrderedIndex.perform, hrun] using hop
    refine ⟨hr.issued, fun x hx => ?_⟩
    obtain rfl : r.handle = x := by simpa [givenBy] using hx
    rw [hr.handle]
    exact Pool.lawful.not_issued_nextHandle h.sound
  | remove probe =>
    obtain ⟨r, hrun, hr⟩ := h.remove probe
    obtain ⟨rfl, rfl⟩ : r.index = index' ∧ .record r.record = answer := by
      simpa [OrderedIndex.perform, hrun] using hop
    exact ⟨hr.issued, fun x hx => by cases hx⟩
  | find probe =>
    obtain ⟨rfl, -⟩ : index = index' ∧ _ := by
      simpa [OrderedIndex.perform, h.find_eq] using hop
    exact ⟨fun _ hx => hx, fun x hx => by cases hx⟩
  | min =>
    obtain ⟨rfl, -⟩ : index = index' ∧ _ := by
      simpa [OrderedIndex.perform, OrderedIndex.min, h.extreme_eq] using hop
    exact ⟨fun _ hx => hx, fun x hx => by cases hx⟩
  | max =>
    obtain ⟨rfl, -⟩ : index = index' ∧ _ := by
      simpa [OrderedIndex.perform, OrderedIndex.max, h.extreme_eq] using hop
    exact ⟨fun _ hx => hx, fun x hx => by cases hx⟩

/-- A list and the same list with one more member agree on the common ones. -/
theorem filter_mem_middle {x : Handle} {before after : List Handle} (hx : x ∉ before ++ after) :
    (before ++ after).filter (· ∈ before ++ x :: after) =
      (before ++ x :: after).filter (· ∈ before ++ after) := by
  have hkept : ∀ l : List Handle, l ⊆ before ++ after → l.filter (· ∈ before ++ after) = l :=
    fun l hl => List.filter_eq_self.2 fun y hy => decide_eq_true (hl hy)
  have hall : (before ++ after).filter (· ∈ before ++ x :: after) = before ++ after := by
    apply List.filter_eq_self.2
    intro y hy
    simp only [List.mem_append, List.mem_cons, decide_eq_true_eq] at hy ⊢
    tauto
  rw [hall, List.filter_append, List.filter_cons_of_neg (by simpa using hx),
    hkept before (List.subset_append_left _ _), hkept after (List.subset_append_right _ _)]

variable {a a' : Arena α} {x : Record α} {before after : List (Record α)}

theorem passage_insert (ht : t.toList = before ++ after) (ht' : t'.toList = before ++ x :: after)
    (hissued : ∀ h, a.Issued h → a'.Issued h) (hnew : ¬a.Issued x.handle)
    (hheld : ∀ h ∈ t.handles, a.Issued h) (hheld' : ∀ h ∈ t'.handles, a'.Issued h) :
    Passage a t [x.handle] [] a' t' := by
  have hs : t.handles = before.map Record.handle ++ after.map Record.handle := by
    simp [Tree.handles, ht]
  have hs' : t'.handles = before.map Record.handle ++ x.handle :: after.map Record.handle := by
    simp [Tree.handles, ht']
  have hother : x.handle ∉ t.handles := fun hx => hnew (hheld _ hx)
  constructor
  · exact hissued
  · intro h hh
    rwa [List.mem_singleton.1 hh]
  · intro h hh
    apply hheld'
    simp [hs', List.mem_singleton.1 hh]
  · intro y hy _
    rw [ht, List.mem_append] at hy
    rw [ht', List.mem_append, List.mem_cons]
    tauto
  · intro y _ z hz
    cases hz
  · intro h hi hh
    refine ⟨fun hm => ?_, List.not_mem_nil⟩
    rw [hs, List.mem_append] at hh
    rw [hs', List.mem_append, List.mem_cons] at hm
    have he : h = x.handle := by tauto
    exact hnew (he ▸ hi)
  · rw [hs] at hother ⊢
    rw [hs']
    exact filter_mem_middle hother

theorem passage_remove (ht : t.toList = before ++ x :: after) (ht' : t'.toList = before ++ after)
    (hissued : ∀ h, a.Issued h → a'.Issued h) (hn : t.handles.Nodup) :
    Passage a t [] [x] a' t' := by
  have hs : t.handles = before.map Record.handle ++ x.handle :: after.map Record.handle := by
    simp [Tree.handles, ht]
  have hs' : t'.handles = before.map Record.handle ++ after.map Record.handle := by
    simp [Tree.handles, ht']
  have hgone : x.handle ∉ t'.handles := by
    rw [hs, List.nodup_middle, List.nodup_cons, ← hs'] at hn
    exact hn.1
  constructor
  · exact hissued
  · intro h hh
    cases hh
  · intro h hh
    cases hh
  · intro y hy hne
    rw [ht, List.mem_append, List.mem_cons] at hy
    rw [ht', List.mem_append]
    have hyx : y ≠ x := fun he => hne (by simp [he])
    tauto
  · intro y hy z hz he
    obtain rfl := List.mem_singleton.1 hz
    have hz' : z ∈ t.toList := by simp [ht]
    exact ⟨List.inj_on_of_nodup_map hn hz' hy he, he ▸ hgone⟩
  · intro h _ hh
    rw [hs, List.mem_append, List.mem_cons] at hh
    rw [hs', List.mem_append]
    simp only [List.map_cons, List.map_nil, List.mem_singleton]
    tauto
  · rw [hs'] at hgone ⊢
    rw [hs]
    exact (filter_mem_middle hgone).symm

theorem passage_same (ht : t'.toList = t.toList) (hissued : ∀ h, a.Issued h → a'.Issued h) :
    Passage a t [] [] a' t' := by
  have hs : t'.handles = t.handles := congrArg (List.map Record.handle) ht
  constructor
  · exact hissued
  · intro h hh
    cases hh
  · intro h hh
    cases hh
  · intro y hy _
    rwa [ht]
  · intro y _ z hz
    cases hz
  · intro h _ hh
    rw [hs]
    exact ⟨hh, List.not_mem_nil⟩
  · rw [hs]

/-- Every operation is a passage, by what it gives out and hands over. -/
theorem Linked.exists_passage (h : index.Linked t) (op : Op α) :
    ∃ index' answer t', index.perform op = some (index', answer) ∧ index'.Linked t' ∧
      Edits op answer t.toList t'.toList ∧
      Passage index.arena t (givenBy op answer).toList (takenBy op answer).toList index'.arena t' := by
  obtain ⟨index', answer, t', hop, -, hserved, h'⟩ := h.perform op
  obtain ⟨hissued, hnew⟩ := h.issued_of_perform hop
  refine ⟨index', answer, t', hop, h', hserved.edits, ?_⟩
  have hedits := hserved.edits
  generalize hl : t.toList = l at hedits
  generalize hl' : t'.toList = l' at hedits
  cases hedits with
  | insert =>
    exact passage_insert hl hl' hissued (hnew _ rfl) (fun x hx => h.issued_of_mem hx)
      fun x hx => h'.issued_of_mem hx
  | remove => exact passage_remove hl hl' hissued h.nodup
  | removeNothing | find | min | max => exact passage_same (hl'.trans hl.symm) hissued

end Step

/-! ## Runs -/

theorem Linked.exists_run_passage {index : OrderedIndex α} {t : Tree α} (h : index.Linked t)
    (ops : List (Op α)) :
    ∃ index' answers t', index.run ops = some (index', answers) ∧ index'.Linked t' ∧
      Passage index.arena t (given ops answers) (taken ops answers) index'.arena t' := by
  induction ops generalizing index t with
  | nil => exact ⟨index, [], t, rfl, h, .refl _ _⟩
  | cons op ops ih =>
    obtain ⟨index₁, answer, t₁, hop, h₁, -, hfirst⟩ := h.exists_passage op
    obtain ⟨index₂, answers, t₂, hops, h₂, hrest⟩ := ih h₁
    refine ⟨index₂, answer :: answers, t₂, by simp [OrderedIndex.run, hop, hops], h₂, ?_⟩
    rw [given_cons, taken_cons]
    exact hfirst.trans (fun x hx => h.issued_of_mem hx) hrest

/-- A record stands under its handle unless one of these removed records has the handle; then that is
the record itself, and its handle stands for nothing. -/
structure Stands (index : OrderedIndex α) (x : Record α) (removed : List (Record α)) : Prop where
  kept : x.handle ∉ removed.map Record.handle →
    index.get? x.handle = some x.item ∧ index.contains x.handle = true
  gone : ∀ y ∈ removed, y.handle = x.handle →
    y = x ∧ index.get? x.handle = none ∧ index.contains x.handle = false

theorem Linked.stands {a : Arena α} {index : OrderedIndex α} {t t' : Tree α} {given : List Handle}
    {taken : List (Record α)} (h : index.Linked t') (hp : Passage a t given taken index.arena t')
    {x : Record α} (hx : x ∈ t.toList) : index.Stands x taken where
  kept hn := by
    have hx' := hp.stays x hx hn
    exact ⟨h.get?_of_mem hx', (h.held _).1 (List.mem_map_of_mem hx')⟩
  gone y hy he := by
    obtain ⟨hyx, hout⟩ := hp.leaves x hx y hy he
    rw [h.held, Bool.not_eq_true] at hout
    refine ⟨hyx, ?_, hout⟩
    rw [get?, Pool.contains_eq_false.1 hout]
    rfl

/-- Under any comparator, after any run: the next operation adds one record to the listed ones, takes
one out or leaves them as they are. An inserted item stands under a handle that was never given out
before and never is again, until the removal that hands the very item over, and never after it.
Records that stay over a run keep their order. -/
theorem run_keeps_handles (cmp : α → α → Ordering) (ops : List (Op α)) :
    ∃ index answers listed, (empty cmp).run ops = some (index, answers) ∧
      index.listed? = some listed ∧
      (∀ op, ∃ index' answer listed', index.perform op = some (index', answer) ∧
        index'.listed? = some listed' ∧ Edits op answer listed listed') ∧
      (∀ item more, ∃ index₁ h index₂ answers₂,
        index.perform (.insert item) = some (index₁, .handle h) ∧
        index₁.run more = some (index₂, answers₂) ∧
        h ∉ given ops answers ∧ h ∉ given more answers₂ ∧
        index₂.Stands ⟨h, item⟩ (taken more answers₂)) ∧
      ∀ more, ∃ index₂ answers₂ listed₂, index.run more = some (index₂, answers₂) ∧
        index₂.listed? = some listed₂ ∧
        (listed.map Record.handle).filter (· ∈ listed₂.map Record.handle) =
          (listed₂.map Record.handle).filter (· ∈ listed.map Record.handle) := by
  obtain ⟨index, answers, t, hrun, h, hpast⟩ := (linked_empty cmp).exists_run_passage ops
  refine ⟨index, answers, t.toList, hrun, h.listed?_eq, fun op => ?_, fun item more => ?_,
    fun more => ?_⟩
  · obtain ⟨index', answer, t', hop, h', hedits, -⟩ := h.exists_passage op
    exact ⟨index', answer, t'.toList, hop, h'.listed?_eq, hedits⟩
  · obtain ⟨index₁, answer, t₁, hop, h₁, hedits, hinsert⟩ := h.exists_passage (.insert item)
    obtain ⟨index₂, answers₂, t₂, hmore, h₂, hafter⟩ := h₁.exists_run_passage more
    generalize hl : t.toList = l at hedits
    generalize hl' : t₁.toList = l' at hedits
    cases hedits with
    | @insert _ handle before after =>
      have hx : ⟨handle, item⟩ ∈ t₁.toList := by simp [hl']
      have hgiven : handle ∈ (givenBy (.insert item) (.handle handle)).toList := by simp [givenBy]
      refine ⟨index₁, handle, index₂, answers₂, hop, hmore, fun hm => ?_, fun hm => ?_,
        h₂.stands hafter hx⟩
      · exact hinsert.new handle hgiven (hpast.counted handle hm)
      · exact hafter.new handle hm (hinsert.counted handle hgiven)
  · obtain ⟨index₂, answers₂, t₂, hmore, h₂, hafter⟩ := h.exists_run_passage more
    exact ⟨index₂, answers₂, t₂.toList, hmore, h₂.listed?_eq, hafter.sameOrder⟩

end MemIndex.OrderedIndex
