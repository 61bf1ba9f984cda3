import MemIndex.Proofs.Arena.Traced
import MemIndex.Proofs.Pool

/-!
# Traces account for every change

A node that is not afterwards what it was before has been written on the way, and the trace has the balance
that stands there now. So no balance comes into an arena that its trace does not tell of.
-/
namespace MemIndex

variable {α : Type u}

/-- Every node of the arena afterwards is as it was before, or has been written with its balance. -/
def Arena.Accounted (a a' : Arena α) (acts : List Act) : Prop :=
  ∀ h node, a'.get? h = some node → a.get? h = some node ∨ .written h node.balance ∈ acts

theorem Arena.Accounted.refl (a : Arena α) (acts : List Act) : Accounted a a acts :=
  fun _ _ hnode => .inl hnode

theorem Arena.Accounted.trans {a a₁ a₂ : Arena α} {acts acts' : List Act}
    (h : Accounted a a₁ acts) (h' : Accounted a₁ a₂ acts') : Accounted a a₂ (acts ++ acts') := by
  intro x node hnode
  obtain hold | hwritten := h' x node hnode
  · exact (h x node hold).imp_right (List.mem_append_left _)
  · exact .inr (List.mem_append_right _ hwritten)

namespace Traced

variable {β γ : Type u}

/-- What an update on the arena answers holds an arena that its trace accounts for. -/
def Accounts (m : Traced β) (a : Arena α) (arena : β → Arena α) : Prop :=
  ∀ b, m.result = some b → a.Accounted (arena b) m.acts

theorem accounts_pure {a : Arena α} {arena : β → Arena α} {b : β} (h : arena b = a) :
    (pure b : Traced β).Accounts a arena := by
  rintro _ ⟨⟩
  rw [h]
  exact .refl a _

theorem accounts_exhausted {a : Arena α} {arena : β → Arena α} :
    (exhausted : Traced β).Accounts a arena :=
  fun _ h => by cases h

/-- What does not touch the arena. -/
theorem Accounts.of_unchanged {a : Arena α} (m : Traced β) : m.Accounts a fun _ => a :=
  fun _ _ => .refl a _

theorem Accounts.bind {m : Traced β} {f : β → Traced γ} {a : Arena α} {mid : β → Arena α}
    {arena : γ → Arena α} (hm : m.Accounts a mid) (hf : ∀ b, (f b).Accounts (mid b) arena) :
    (m >>= f).Accounts a arena := by
  obtain ⟨acts, _ | b⟩ := m
  · intro _ h
    cases h
  · intro c hc
    exact (hm b rfl).trans (hf b c hc)

/-- After what does not touch the arena. -/
theorem accounts_after {m : Traced β} {f : β → Traced γ} {a : Arena α} {arena : γ → Arena α}
    (hf : ∀ b, (f b).Accounts a arena) : (m >>= f).Accounts a arena :=
  (Accounts.of_unchanged m).bind hf

end Traced

namespace Arena

open Traced

theorem accounts_writeTraced {a : Arena α} {h : Handle} {g : Node α → Node α} :
    (a.writeTraced h g).Accounts a id := by
  unfold writeTraced
  cases hold : a.get? h with
  | none =>
    intro _ hend
    cases hend
  | some old =>
    rintro _ ⟨⟩ x node hnode
    rw [id, Pool.lawful.get?_modify] at hnode
    split at hnode
    · rename_i he
      rw [hold, Option.map_some, Option.some.injEq] at hnode
      rw [he, ← hnode]
      exact .inr (List.mem_singleton_self _)
    · exact .inl hnode

theorem accounts_rotateTraced {a : Arena α} {top : Handle} {side : Side} :
    (a.rotateTraced top side).Accounts a Prod.fst := by
  refine accounts_after fun node => ?_
  split
  · exact accounts_after fun _ => accounts_pure rfl
  · exact accounts_after fun _ => accounts_writeTraced.bind fun _ =>
      accounts_writeTraced.bind fun _ => accounts_after fun _ => accounts_after fun _ =>
      accounts_after fun _ => accounts_after fun _ => accounts_writeTraced.bind fun _ =>
      accounts_writeTraced.bind fun _ => accounts_pure rfl

theorem accounts_rebalanceTraced {a : Arena α} {top : Handle} :
    (a.rebalanceTraced top).Accounts a Prod.fst := by
  refine accounts_after fun node => accounts_after fun _ => ?_
  dsimp only
  generalize (if 0 < node.balance then Side.right else .left) = heavy
  cases node.child heavy with
  | none => exact accounts_after fun _ => accounts_pure rfl
  | some child =>
    refine accounts_after fun _ => accounts_after fun _ => ?_
    split
    · exact accounts_rotateTraced.bind fun _ => accounts_writeTraced.bind fun _ =>
        accounts_rotateTraced
    · exact accounts_rotateTraced

theorem accounts_growTraced {a : Arena α} {top : Handle} {side : Side} :
    (a.growTraced top side).Accounts a Prod.fst := by
  refine accounts_after fun node => accounts_after fun _ => accounts_writeTraced.bind fun _ => ?_
  split
  · exact accounts_pure rfl
  · split
    · exact accounts_pure rfl
    · exact accounts_rebalanceTraced.bind fun _ => accounts_pure rfl

theorem accounts_shrinkTraced {a : Arena α} {top : Handle} {side : Side} :
    (a.shrinkTraced top side).Accounts a Prod.fst := by
  refine accounts_after fun node => accounts_after fun _ => accounts_writeTraced.bind fun _ => ?_
  split
  · exact accounts_pure rfl
  · split
    · exact accounts_pure rfl
    · refine accounts_after fun node => ?_
      split
      · exact accounts_rebalanceTraced.bind fun _ => accounts_pure rfl
      · exact accounts_after fun _ => accounts_rebalanceTraced.bind fun _ => accounts_pure rfl

theorem accounts_joinGrownTraced {a : Arena α} {top : Handle} {side : Side} {child : Handle}
    {grew : Bool} : (a.joinGrownTraced top side child grew).Accounts a Prod.fst := by
  refine accounts_writeTraced.bind fun _ => ?_
  split
  · exact accounts_growTraced
  · exact accounts_pure rfl

theorem accounts_joinShrunkTraced {a : Arena α} {top : Handle} {side : Side} {child : Option Handle}
    {shrank : Bool} : (a.joinShrunkTraced top side child shrank).Accounts a Prod.fst := by
  refine accounts_writeTraced.bind fun _ => ?_
  split
  · exact accounts_shrinkTraced
  · exact accounts_pure rfl

theorem accounts_insertBelowTraced {cmp : α → α → Ordering} {new : Handle} {budget : Nat}
    {a : Arena α} {link : Option Handle} :
    (insertBelowTraced cmp new budget a link).Accounts a Growth.arena := by
  induction budget generalizing link with
  | zero =>
    cases link with
    | none => exact accounts_pure rfl
    | some h => exact accounts_exhausted
  | succ budget ih =>
    cases link with
    | none => exact accounts_pure rfl
    | some h =>
      exact accounts_after fun _ => accounts_after fun _ => ih.bind fun _ =>
        accounts_joinGrownTraced.bind fun _ => accounts_pure rfl

theorem accounts_detachExtremeTraced {side : Side} {budget : Nat} {a : Arena α} {top : Handle} :
    (detachExtremeTraced side budget a top).Accounts a Detachment.arena := by
  induction budget generalizing top with
  | zero => exact accounts_exhausted
  | succ budget ih =>
    refine accounts_after fun node => ?_
    split
    · exact accounts_pure rfl
    · exact ih.bind fun _ => accounts_joinShrunkTraced.bind fun _ => accounts_pure rfl

theorem accounts_replaceTraced {budget : Nat} {a : Arena α} {h : Handle} {side : Side}
    {child : Handle} : (a.replaceTraced budget h side child).Accounts a Shrinkage.arena := by
  refine accounts_detachExtremeTraced.bind fun d => accounts_after fun node =>
    accounts_writeTraced.bind fun _ => accounts_writeTraced.bind fun _ => ?_
  split
  · exact accounts_shrinkTraced.bind fun _ => accounts_pure rfl
  · exact accounts_pure rfl

theorem accounts_unlinkTraced {budget : Nat} {a : Arena α} {h : Handle} :
    (a.unlinkTraced budget h).Accounts a Shrinkage.arena := by
  refine accounts_after fun node => ?_
  split
  · exact accounts_replaceTraced
  · exact accounts_replaceTraced
  · exact accounts_pure rfl

theorem accounts_removeBelowTraced {cmp : α → α → Ordering} {probe : α} {budget : Nat}
    {a : Arena α} {link : Option Handle} :
    (removeBelowTraced cmp probe budget a link).Accounts a (·.arena) := by
  induction budget generalizing link with
  | zero =>
    cases link with
    | none => exact accounts_pure rfl
    | some h => exact accounts_exhausted
  | succ budget ih =>
    cases link with
    | none => exact accounts_pure rfl
    | some h =>
      refine accounts_after fun node => ?_
      dsimp only
      split
      · exact accounts_unlinkTraced.bind fun _ => accounts_pure rfl
      · exact ih.bind fun _ => accounts_joinShrunkTraced.bind fun _ => accounts_pure rfl
      · exact ih.bind fun _ => accounts_joinShrunkTraced.bind fun _ => accounts_pure rfl

end Arena

end MemIndex
