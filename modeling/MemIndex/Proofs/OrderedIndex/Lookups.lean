import MemIndex.Proofs.OrderedIndex.Runs

/-!
# Look-ups and removals

A look-up and a removal with one probe walk down the same path and ask the comparator the same
questions, whatever it answers, so they agree on whether there is a record and on which one. A removal
writes every link that it followed back on its way up; where nothing was found it writes back what was
there.
-/
namespace MemIndex

variable {α : Type u}

/-! ## The way down -/

/-- A search answers what a removal answers, after the same calls. -/
theorem Tree.find_eq_remove (cmp : α → α → Ordering) (probe : α) (t : Tree α) :
    t.find cmp probe = ⟨(t.remove cmp probe).removed, (t.remove cmp probe).calls⟩ := by
  induction t with
  | leaf => rfl
  | node l b x r ihl ihr =>
    unfold find remove
    dsimp only
    split
    · rfl
    · rw [ihl]
    · rw [ihr]

/-! ## The way back up -/

@[simp] theorem Node.withChild_child (n : Node α) (side : Side) :
    n.withChild side (n.child side) = n := by
  cases side <;> rfl

namespace Arena

theorem setChild_child {a : Arena α} {h : Handle} {node : Node α} (hn : a.get? h = some node)
    (side : Side) : a.setChild h side (node.child side) = some a := by
  rw [setChild, Pool.modify?_of_get? hn, Pool.lawful.modify_eq_self hn (node.withChild_child side)]

/-- A subtree that has kept its root and its height is joined again without a change. -/
theorem joinShrunk_child {a : Arena α} {h : Handle} {node : Node α} (hn : a.get? h = some node)
    (side : Side) : a.joinShrunk h side (node.child side) false = some (a, h, false) := by
  simp [joinShrunk, setChild_child hn]

/-- A removal that meets no equal record leaves all links and the root as they are, also where the links
spell no tree. -/
theorem removeBelow_none {cmp : α → α → Ordering} {probe : α} {budget : Nat} {a : Arena α}
    {link : Option Handle} {result : Removal α}
    (hrun : removeBelow cmp probe budget a link = some result) (hmiss : result.removed = none) :
    result.toShrinkage = ⟨a, link, false⟩ := by
  induction budget generalizing link result with
  | zero =>
    cases link with
    | none =>
      cases hrun
      rfl
    | some h => cases hrun
  | succ budget ih =>
    cases link with
    | none =>
      cases hrun
      rfl
    | some h =>
      obtain ⟨node, hnode, hrun⟩ := Option.bind_eq_some_iff.1 hrun
      -- Below either child nothing was found, and the child is written back.
      have hdescent : ∀ side,
          ((removeBelow cmp probe budget a (node.child side)).bind fun below =>
            (joinShrunk below.arena h side below.root below.shrank).bind fun joined =>
              some (⟨⟨joined.1, some joined.2.1, joined.2.2⟩, below.removed,
                (probe, node.item) :: below.calls⟩ : Removal α)) = some result →
          result.toShrinkage = ⟨a, some h, false⟩ := by
        intro side hside
        obtain ⟨below, hbelow, hside⟩ := Option.bind_eq_some_iff.1 hside
        obtain ⟨joined, hjoined, he⟩ := Option.bind_eq_some_iff.1 hside
        cases he
        have hkept := ih hbelow hmiss
        rw [hkept, joinShrunk_child hnode] at hjoined
        cases hjoined
        rfl
      cases hcmp : cmp probe node.item with
      | eq =>
        simp only [hcmp] at hrun
        obtain ⟨shrunk, -, he⟩ := Option.bind_eq_some_iff.1 hrun
        cases he
        cases hmiss
      | lt =>
        simp only [hcmp] at hrun
        exact hdescent .left hrun
      | gt =>
        simp only [hcmp] at hrun
        exact hdescent .right hrun

end Arena

namespace OrderedIndex

theorem Linked.remove_missed {index : OrderedIndex α} {t : Tree α} (h : index.Linked t) {probe : α}
    (hmiss : (t.find index.cmp probe).found = none) :
    index.remove probe = some ⟨index, none, (t.find index.cmp probe).calls⟩ := by
  obtain ⟨cmp, arena, root⟩ := index
  obtain rfl : t.link = root := h.root
  obtain ⟨shrunk, hrun, htook⟩ : ∃ shrunk,
      Arena.removeBelow cmp probe arena.size arena t.link = some shrunk ∧
        Arena.Took arena t (t.remove cmp probe) shrunk :=
    Arena.removeBelow_took cmp probe h.lies h.nodup h.height_le
  rw [Tree.find_eq_remove] at hmiss ⊢
  have hremoved : shrunk.removed = none := by
    rw [htook.removed]
    exact congrArg (Option.map Record.handle) hmiss
  have hkept := Arena.removeBelow_none hrun hremoved
  obtain ⟨⟨arena', root', shrank⟩, removed, calls⟩ := shrunk
  cases hkept
  have hcalls : calls = (t.remove cmp probe).calls := htook.calls
  cases hremoved
  rw [OrderedIndex.remove, hrun, ← hcalls]
  rfl

/-- Under any comparator a removal asks what a look-up with its probe asks, in the same order, and takes
out the record that the look-up finds. Where the look-up finds none, the removal leaves every node, the
root and the free slots as they are. -/
theorem run_removes_found (cmp : α → α → Ordering) (ops : List (Op α)) :
    ∃ index answers, (empty cmp).run ops = some (index, answers) ∧
      ∀ probe, ∃ f r, index.find probe = some f ∧ index.remove probe = some r ∧
        r.calls = f.calls ∧ r.record = f.found ∧ (f.found = none → r.index = index) := by
  obtain ⟨index, answers, t, hrun, h⟩ := (linked_empty cmp).run ops
  refine ⟨index, answers, hrun, fun probe => ?_⟩
  obtain ⟨r, hr, hleft⟩ := h.remove probe
  refine ⟨_, r, h.find_eq probe, hr, ?_, ?_, fun hmiss => ?_⟩
  · rw [hleft.calls, Tree.find_eq_remove]
  · rw [hleft.record, Tree.find_eq_remove]
  · obtain rfl : r = _ := Option.some.inj (hr.symm.trans (h.remove_missed hmiss))
    rfl

end OrderedIndex

end MemIndex
