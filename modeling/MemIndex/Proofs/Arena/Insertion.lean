import MemIndex.Proofs.Arena.Rotation

/-!
# Insertion among linked nodes

Linking a new node in below some link does to the tree there what the insertion into the tree as a
value does, with the same report of growth and the same calls of the comparator.
-/
namespace MemIndex

namespace Tree

variable {α : Type u}

theorem insert_fork {cmp : α → α → Ordering} {new : Record α} {side : Side} {n : Tree α} {b : Int}
    {x : Record α} {f : Tree α}
    (hside : (if cmp new.item x.item = .lt then Side.left else .right) = side) :
    (fork side n b x f).insert cmp new =
      ⟨joinGrown side (n.insert cmp new).toGrown b x f,
        (new.item, x.item) :: (n.insert cmp new).calls⟩ := by
  by_cases hlt : cmp new.item x.item = .lt
  · rw [if_pos hlt] at hside
    subst hside
    simp [fork, insert, hlt]
  · rw [if_neg hlt] at hside
    subst hside
    simp [fork, insert, hlt]

theorem mem_handles_insert {cmp : α → α → Ordering} {new : Record α} {t : Tree α} {h : Handle} :
    h ∈ (t.insert cmp new).tree.handles ↔ h = new.handle ∨ h ∈ t.handles := by
  obtain ⟨before, after, ht, hi⟩ := toList_insert cmp new t
  simp only [handles, ht, hi, List.map_append, List.map_cons, List.mem_append, List.mem_cons]
  tauto

theorem nodup_handles_insert {cmp : α → α → Ordering} {new : Record α} {t : Tree α}
    (hn : t.handles.Nodup) (hnew : new.handle ∉ t.handles) :
    (t.insert cmp new).tree.handles.Nodup := by
  obtain ⟨before, after, ht, hi⟩ := toList_insert cmp new t
  rw [handles, hi, List.map_append, List.map_cons, List.nodup_middle]
  rw [handles, ht, List.map_append] at hn hnew
  exact List.nodup_cons.2 ⟨hnew, hn⟩

/-- The subtree with a new record in it may stand where it stood before. -/
theorem Apart.insert {cmp : α → α → Ordering} {new x : Record α} {n f : Tree α} (h : Apart n x f)
    (hx : new.handle ≠ x.handle) (hn : new.handle ∉ n.handles) (hf : new.handle ∉ f.handles) :
    Apart (n.insert cmp new).tree x f where
  near := nodup_handles_insert h.near hn
  far := h.far
  root_near hm := (mem_handles_insert.1 hm).elim (fun he => hx he.symm) h.root_near
  root_far := h.root_far
  disjoint y hm hy := (mem_handles_insert.1 hm).elim (fun he => hf (he ▸ hy))
    fun hm => h.disjoint y hm hy

end Tree

namespace Arena

open MemIndex.Tree (Apart)

variable {α : Type u}

/-- An insertion among linked nodes has turned one tree into another. -/
structure Grew (a : Arena α) (before : Tree α) (new : Handle) (after : Tree.Insertion α)
    (result : Growth α) : Prop where
  link : after.tree.link = some result.root
  lies : after.tree.LiesIn result.arena
  relinked : Relinked a result.arena (new :: before.handles)
  grew : result.grew = after.grew
  calls : result.calls = after.calls

theorem insertBelow_fork {cmp : α → α → Ordering} {new : Record α} {a : Arena α} (side : Side)
    {n : Tree α} {b : Int} {x : Record α} {f : Tree α} {budget : Nat}
    (hside : (if cmp new.item x.item = .lt then Side.left else .right) = side)
    (ht : (Tree.fork side n b x f).LiesIn a) (hn : (Tree.fork side n b x f).handles.Nodup)
    (hnew : a.get? new.handle = some (.single new.item))
    (hfresh : new.handle ∉ (Tree.fork side n b x f).handles)
    (ih : ∃ result, insertBelow cmp new.handle budget a n.link = some result ∧
      Grew a n new.handle (n.insert cmp new) result) :
    ∃ result, insertBelow cmp new.handle (budget + 1) a (some x.handle) = some result ∧
      Grew a (.fork side n b x f) new.handle ((Tree.fork side n b x f).insert cmp new) result := by
  obtain ⟨hx, -, hfl⟩ := Tree.liesIn_fork.1 ht
  have hapart := Tree.nodup_fork.1 hn
  rw [Tree.mem_handles_fork, not_or, not_or] at hfresh
  obtain ⟨hnewx, hnewn, hnewf⟩ := hfresh
  obtain ⟨below, hrun, hbelow⟩ := ih
  have hnew' : Apart (n.insert cmp new).tree x f := hapart.insert hnewx hnewn hnewf
  obtain ⟨⟨a', root, grew⟩, hjoin, hres⟩ := joinGrown_resized ht hbelow.relinked
    (by simp [Ne.symm hnewx, hapart.root_near])
    (fun h hf hm => (List.mem_cons.1 hm).elim (fun he => hnewf (he ▸ hf))
      fun hm => hapart.disjoint h hm hf) hbelow.link hbelow.lies hnew'
  rw [Tree.insert_fork hside]
  refine ⟨⟨a', root, grew, (new.item, x.item) :: below.calls⟩, ?_, hres.link, hres.lies,
    hres.relinked.mono fun h hm => ?_, hres.changed, by rw [hbelow.calls]⟩
  · simp [insertBelow, hnew, hx, Node.single, hside, hrun, hbelow.grew, hjoin]
  · rw [List.mem_append, Tree.mem_handles_fork, Tree.mem_handles_insert, List.mem_cons] at hm
    rw [List.mem_cons, Tree.mem_handles_fork]
    tauto

/-- Linking a node in follows the insertion into the tree, within a budget of the tree's height. -/
theorem insertBelow_grew (cmp : α → α → Ordering) (new : Record α) {a : Arena α} {t : Tree α}
    {budget : Nat} (ht : t.LiesIn a) (hn : t.handles.Nodup)
    (hnew : a.get? new.handle = some (.single new.item)) (hfresh : new.handle ∉ t.handles)
    (hb : t.height ≤ budget) :
    ∃ result, insertBelow cmp new.handle budget a t.link = some result ∧
      Grew a t new.handle (t.insert cmp new) result := by
  induction t generalizing budget with
  | leaf =>
    refine ⟨⟨a, new.handle, true, []⟩, by cases budget <;> rfl, rfl, ?_, .refl _ _, rfl, rfl⟩
    exact ⟨hnew, trivial, trivial⟩
  | node l b x r ihl ihr =>
    cases budget with
    | zero => simp [Tree.height] at hb
    | succ budget =>
      simp only [Tree.height, Nat.add_le_add_iff_right, Nat.max_le] at hb
      have hapart := Tree.nodup_fork.1 (show (Tree.fork .left l b x r).handles.Nodup from hn)
      obtain ⟨hl, -, hr⟩ : new.handle ∉ l.handles ∧ new.handle ≠ x.handle ∧
          new.handle ∉ r.handles := by
        simpa [not_or] using hfresh
      -- The search goes to one side, and the tree is read as a fork on that side.
      by_cases hlt : cmp new.item x.item = .lt
      · exact insertBelow_fork .left (if_pos hlt) ht hn hnew hfresh
          (ihl ht.2.1 hapart.near hl hb.1)
      · exact insertBelow_fork .right (if_neg hlt)
          (Tree.liesIn_fork.2 ⟨ht.1, ht.2.2, ht.2.1⟩) hn hnew hfresh
          (ihr ht.2.2 hapart.far hr hb.2)

end Arena

end MemIndex
