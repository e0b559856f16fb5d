import Mathlib.Data.List.Nodup
import TypeEngine.Proofs.Tree.Links

/-!
# Ownership

The two records of ownership always agree: a branch is among the children of another exactly if that
one is its parent, and it stands there once. `Change.linked` and `Moved.linked` are the steps,
`run_owned` is the result for any sequence of calls.
-/

namespace TypeEngine.Tree

variable {t t' : Tree} {i s : Nat}

/-- Parents and children agree, and no branch is listed twice. -/
structure Linked (t : Tree) : Prop where
  mem_iff (p c : Nat) : c ∈ t.children p ↔ t.parentOf c = some p
  nodup (p : Nat) : (t.children p).Nodup

namespace Linked

theorem valid (linked : Linked t) (p c : Nat) (member : c ∈ t.children p) : c < t.size :=
  lt_size_of_parentOf ((linked.mem_iff p c).mp member)

theorem empty : Linked .empty where
  mem_iff p c := by simp [children, parentOf, branch?, Tree.empty]
  nodup p := by simp [children, branch?, Tree.empty]

theorem nodup_all (linked : Linked t) : ((List.range t.size).flatMap t.children).Nodup := by
  rw [List.nodup_flatMap]
  refine ⟨fun p _ => linked.nodup p, List.nodup_range.imp ?_⟩
  intro p q other c first second
  rw [linked.mem_iff] at first second
  exact other (Option.some.inj (first.symm.trans second))

end Linked

theorem Change.linked (change : Change t t') (linked : Linked t) : Linked t' := by
  cases change with
  | same size parents children =>
    refine ⟨fun p c => ?_, fun p => ?_⟩
    · rw [parents, children]
      exact linked.mem_iff p c
    · rw [children]
      exact linked.nodup p
  | adopted p c cs size owner valid other free notAbove ends parents children order =>
    have new : ∀ q, c ∉ t.children q := fun q member => by
      rw [linked.mem_iff, free] at member
      cases member
    refine ⟨fun q d => ?_, fun q => ?_⟩
    · rw [parents, children, Function.update_apply, Function.update_apply]
      by_cases here : q = p <;> by_cases this : d = c
      · simp [here, this, order.mem_iff]
      · simp [here, this, order.mem_iff, linked.mem_iff]
      · simp [here, this, new, Ne.symm here]
      · simp [here, this, linked.mem_iff]
    · rw [children, Function.update_apply]
      split
      · exact order.nodup_iff.mpr (List.nodup_cons.mpr ⟨new p, linked.nodup p⟩)
      · exact linked.nodup q
  | released p gone kept size parents children order =>
    obtain ⟨_, distinct, apart⟩ := List.nodup_append.mp (order.nodup_iff.mp (linked.nodup p))
    have split : ∀ d, d ∈ t.children p ↔ d ∈ gone ∨ d ∈ kept := fun d => by
      rw [order.mem_iff, List.mem_append]
    refine ⟨fun q d => ?_, fun q => ?_⟩
    · rw [parents, children, Function.update_apply]
      by_cases lost : d ∈ gone
      · have owner := (linked.mem_iff p d).mp ((split d).mpr (.inl lost))
        have dropped : d ∉ kept := fun member => apart d lost d member rfl
        by_cases here : q = p
        · simp [here, lost, dropped]
        · simp [here, lost, linked.mem_iff, owner, Ne.symm here]
      · by_cases here : q = p
        · simp [here, lost, ← linked.mem_iff, split]
        · simp [here, lost, linked.mem_iff]
    · rw [children, Function.update_apply]
      split
      · exact distinct
      · exact linked.nodup q

theorem Moved.linked (moved : Moved t t' i s) (linked : Linked t) : Linked t' := by
  have free : ∀ q, s ∉ t.children q := fun q member => by
    rw [linked.mem_iff, moved.free] at member
    cases member
  refine ⟨fun q d => ?_, fun q => ?_⟩
  · have other := moved.other
    have owned := linked.mem_iff
    rw [moved.parents, moved.children, Function.update_apply, Function.update_apply, Function.update_apply]
    by_cases source : d = s
    · grind
    · by_cases carried : d ∈ t.children s <;> by_cases dropped : d ∈ t.children i <;> grind
  · rw [moved.children, Function.update_apply, Function.update_apply]
    split
    · exact List.nodup_nil
    · split
      · exact linked.nodup s
      · exact linked.nodup q

theorem changes_linked (changes : Relation.ReflTransGen Change t t') (linked : Linked t) : Linked t' := by
  induction changes with
  | refl => exact linked
  | tail _ change ih => exact change.linked ih

theorem apply_linked (linked : Linked t) (op : Operation) : Linked (op.apply t) := by
  by_cases moves : ∃ i s, op.Moves t i s
  · obtain ⟨i, s, moves⟩ := moves
    exact (moved_of_moves linked.valid moves).linked linked
  · exact changes_linked (apply_changes linked.valid fun i s this => moves ⟨i, s, this⟩) linked

theorem run_linked (ops : List Operation) : Linked (Operation.run ops) := by
  suffices all : ∀ t, Linked t → Linked (ops.foldl Operation.apply t) from all .empty .empty
  induction ops with
  | nil => exact fun t linked => linked
  | cons op ops ih => exact fun t linked => ih _ (apply_linked linked op)

/-- After any calls, also failed ones, every child is a branch, children and parents agree, and no
branch is listed twice. -/
theorem run_owned (ops : List Operation) :
    (∀ p, ∀ c ∈ (Operation.run ops).children p, c < (Operation.run ops).size) ∧
      (∀ p c, c ∈ (Operation.run ops).children p ↔ (Operation.run ops).parentOf c = some p) ∧
      ((List.range (Operation.run ops).size).flatMap (Operation.run ops).children).Nodup :=
  ⟨(run_linked ops).valid, (run_linked ops).mem_iff, (run_linked ops).nodup_all⟩

end TypeEngine.Tree
