import MemIndex.Walk.Traverse

/-!
# What a visitor is shown

A visitor that takes notes gives the verdicts that it would give without them. Its notes tell in full
what a walk has shown: every node with its position, and the verdict on it. A walk along a list numbers
the nodes from 0, ends right behind the first verdict that ends it, and counts what it has shown.
-/
namespace MemIndex.Walk

variable {ι : Type u} {σ : Type v}

/-- A node as it was shown, with the verdict on it. -/
structure Note (ι : Type u) where
  index : Nat
  node : ι
  verdict : Verdict

/-- The visitor with its notes beside its state. -/
def noting (visit : Visitor ι σ) : Visitor ι (σ × List (Note ι)) :=
  fun index node kept =>
    let answer := visit index node kept.1
    (answer.1, answer.2, kept.2 ++ [⟨index, node, answer.1⟩])

/-- The visitor that goes on whatever it is shown. -/
def proceeding (step : Nat → ι → σ → σ) : Visitor ι σ :=
  fun index node state => (.proceed, step index node state)

/-- What is noted on the way along a list. -/
def notes (visit : Visitor ι σ) : List ι → Progress σ → List (Note ι)
  | [], _ => []
  | node :: rest, p =>
    let answer := visitNode visit node p
    ⟨p.visited, node, answer.1⟩ ::
      if answer.1 = .proceed then notes visit rest answer.2 else []

section Lists

variable (visit : Visitor ι σ) (nodes : List ι) (p : Progress σ)

theorem visitAll_cons (node : ι) :
    visitAll visit (node :: nodes) p =
      if (visitNode visit node p).1 = .proceed then visitAll visit nodes (visitNode visit node p).2
      else visitNode visit node p := by
  rw [visitAll]
  rcases visitNode visit node p with ⟨_ | _ | _, q⟩ <;> rfl

/-- A walk that comes to the end of one list goes on with the next one. -/
theorem visitAll_append_of_proceed {visit : Visitor ι σ} {nodes : List ι} {p : Progress σ}
    (hgo : (visitAll visit nodes p).1 = .proceed) (more : List ι) :
    visitAll visit (nodes ++ more) p = visitAll visit more (visitAll visit nodes p).2 := by
  rw [visitAll_append]
  rcases hv : visitAll visit nodes p with ⟨_ | _ | _, p'⟩
  · rfl
  · cases hgo.symm.trans (congrArg Prod.fst hv)
  · cases hgo.symm.trans (congrArg Prod.fst hv)

/-- A walk that is ended in one list does not come to the next one. -/
theorem visitAll_append_of_ended {visit : Visitor ι σ} {nodes : List ι} {p : Progress σ}
    (hended : (visitAll visit nodes p).1 ≠ .proceed) (more : List ι) :
    visitAll visit (nodes ++ more) p = visitAll visit nodes p := by
  rw [visitAll_append]
  rcases hv : visitAll visit nodes p with ⟨_ | _ | _, p'⟩
  · exact absurd (congrArg Prod.fst hv) hended
  · rfl
  · rfl

theorem visitAll_singleton (node : ι) : visitAll visit [node] p = visitNode visit node p := by
  rw [visitAll_cons, visitAll_nil]
  split
  · rename_i hgo
    rw [← hgo]
  · rfl

theorem visitNode_noting (node : ι) (before : List (Note ι)) :
    visitNode (noting visit) node ⟨p.visited, p.state, before⟩ =
      ((visitNode visit node p).1, ⟨(visitNode visit node p).2.visited,
        (visitNode visit node p).2.state,
        before ++ [⟨p.visited, node, (visitNode visit node p).1⟩]⟩) := rfl

theorem visitAll_noting (before : List (Note ι)) :
    visitAll (noting visit) nodes ⟨p.visited, p.state, before⟩ =
      ((visitAll visit nodes p).1, ⟨(visitAll visit nodes p).2.visited,
        (visitAll visit nodes p).2.state, before ++ notes visit nodes p⟩) := by
  induction nodes generalizing p before with
  | nil => simp [notes]
  | cons node rest ih =>
    rw [visitAll_cons, visitAll_cons, visitNode_noting, notes]
    by_cases hgo : (visitNode visit node p).1 = .proceed
    · simp [hgo, ih]
    · simp [hgo]

theorem visited_visitAll :
    (visitAll visit nodes p).2.visited = p.visited + (notes visit nodes p).length := by
  induction nodes generalizing p with
  | nil => rfl
  | cons node rest ih =>
    rw [visitAll_cons, notes]
    split
    · rw [ih]
      simp only [visitNode, List.length_cons]
      omega
    · rfl

theorem index_notes :
    (notes visit nodes p).map Note.index = List.range' p.visited (notes visit nodes p).length := by
  induction nodes generalizing p with
  | nil => rfl
  | cons node rest ih =>
    rw [notes]
    split
    · simp only [List.map_cons, List.length_cons, List.range'_succ, ih, visitNode]
    · rfl

theorem node_notes_prefix : (notes visit nodes p).map Note.node <+: nodes := by
  induction nodes generalizing p with
  | nil => exact List.nil_prefix
  | cons node rest ih =>
    rw [notes, List.map_cons, List.cons_prefix_cons]
    refine ⟨rfl, ?_⟩
    split
    · exact ih _
    · exact List.nil_prefix

/-- No verdict but the last one ends the walk. -/
theorem proceed_of_mem_dropLast :
    ∀ note ∈ (notes visit nodes p).dropLast, note.verdict = .proceed := by
  induction nodes generalizing p with
  | nil => simp [notes]
  | cons node rest ih =>
    rw [notes]
    split
    · rename_i hgo
      intro note hnote
      cases hrest : notes visit rest (visitNode visit node p).2 with
      | nil => simp [hrest] at hnote
      | cons first others =>
        rw [hrest, List.dropLast_cons_cons, List.mem_cons, ← hrest] at hnote
        obtain rfl | hnote := hnote
        · exact hgo
        · exact ih _ note hnote
    · simp

/-- The last verdict is the one that a walk along the list comes to. -/
theorem verdict_visitAll :
    (visitAll visit nodes p).1 =
      ((notes visit nodes p).getLast?.map Note.verdict).getD .proceed := by
  induction nodes generalizing p with
  | nil => rfl
  | cons node rest ih =>
    rw [visitAll_cons, notes]
    split
    · rename_i hgo
      rw [ih, List.getLast?_cons, hgo]
      cases (notes visit rest (visitNode visit node p).2).getLast? <;> rfl
    · rfl

/-- Where no verdict ends the walk, all nodes are shown. -/
theorem node_notes (hgo : (visitAll visit nodes p).1 = .proceed) :
    (notes visit nodes p).map Note.node = nodes := by
  induction nodes generalizing p with
  | nil => rfl
  | cons node rest ih =>
    rw [visitAll_cons] at hgo
    rw [notes, List.map_cons]
    split at hgo
    · rename_i hone
      rw [if_pos hone, ih _ hgo]
    · rename_i hone
      exact absurd hgo hone

end Lists

theorem visitAll_proceeding (step : Nat → ι → σ → σ) (nodes : List ι) (p : Progress σ) :
    (visitAll (proceeding step) nodes p).1 = .proceed := by
  induction nodes generalizing p with
  | nil => rfl
  | cons node rest ih => exact ih _

/-! ## Reports -/

/-- The report of a visitor that has gone along a list. -/
def along (visit : Visitor ι σ) (nodes : List ι) (state : σ) : Report σ :=
  let ended := visitAll visit nodes ⟨0, state⟩
  Report.ofVerdict ended.1 ended.2

theorem result_ofVerdict (verdict : Verdict) (p : Progress σ) :
    (Report.ofVerdict verdict p).result =
      if verdict = .fail then .error (.visitorFailed p.visited) else .ok p.visited := by
  cases verdict <;> rfl

section Along

variable (visit : Visitor ι σ) (nodes : List ι) (state : σ)

theorem along_noting :
    along (noting visit) nodes (state, []) =
      ⟨(along visit nodes state).result, (along visit nodes state).state,
        notes visit nodes ⟨0, state⟩⟩ := by
  have hnoted := visitAll_noting visit nodes ⟨0, state⟩ []
  rw [List.nil_append] at hnoted
  rw [along, along, hnoted]
  rcases visitAll visit nodes ⟨0, state⟩ with ⟨_ | _ | _, p⟩ <;> rfl

/-- The result of a walk by its notes: they are numbered from 0, no verdict but the last one ends the
walk, and the result counts them. -/
structure Reported (result : Except WalkError Nat) (notes : List (Note ι)) : Prop where
  numbered : notes.map Note.index = List.range notes.length
  cut : ∀ note ∈ notes.dropLast, note.verdict = .proceed
  result : result =
    if notes.getLast?.map Note.verdict = some .fail then .error (.visitorFailed notes.length)
    else .ok notes.length

theorem reported_along :
    Reported (along visit nodes state).result (notes visit nodes ⟨0, state⟩) where
  numbered := by rw [index_notes, List.range_eq_range']
  cut := proceed_of_mem_dropLast visit nodes ⟨0, state⟩
  result := by
    have hvisited := visited_visitAll visit nodes ⟨0, state⟩
    rw [Nat.zero_add] at hvisited
    rw [along, result_ofVerdict, verdict_visitAll, hvisited]
    rcases (notes visit nodes ⟨0, state⟩).getLast? with _ | ⟨_, _, _ | _ | _⟩ <;> simp

/-- A visitor that goes along a list asks for no room. -/
theorem along_ne_alloc (cause : AllocError) : (along visit nodes state).result ≠ .error (.alloc cause) := by
  rw [along, result_ofVerdict]
  split <;> nofun

end Along

theorem result_along_proceeding (step : Nat → ι → σ → σ) (nodes : List ι) (state : σ) :
    (along (proceeding step) nodes state).result =
      .ok (notes (proceeding step) nodes ⟨0, state⟩).length := by
  rw [along, result_ofVerdict, visitAll_proceeding, visited_visitAll, Nat.zero_add]
  rfl

end MemIndex.Walk
