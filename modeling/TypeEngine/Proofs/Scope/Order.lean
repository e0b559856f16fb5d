import TypeEngine.Proofs.Ty.Equality

/-!
# Order of paths

Blocks are compared by kind and then by name. Paths are compared by their first blocks that differ,
and if there are none the longer path comes first. That makes a total order of paths up to equality
(`order_total`).
-/

namespace TypeEngine

open Std

/-! ### Blocks -/

namespace Block

instance : TransCmp order :=
  inferInstanceAs (TransCmp (compareLex (compareOn fun b : Block => b.kind.code) (compareOn Block.name)))

instance : LawfulBEqCmp order where
  compare_eq_iff_beq {a b} := by
    obtain ⟨⟨code⟩, name, index⟩ := a
    obtain ⟨⟨code'⟩, name', index'⟩ := b
    simp [order, Ordering.then_eq_eq, beq_iff_bare, bare]

end Block

/-! ### Rows of blocks -/

namespace Path

variable {a b : Block} {as bs cs : List Block}

theorem orderBlocks_swap : orderBlocks as bs = (orderBlocks bs as).swap := by
  induction as generalizing bs with
  | nil => cases bs <;> rfl
  | cons a as ih =>
    cases bs with
    | nil => rfl
    | cons b bs => rw [orderBlocks, orderBlocks, Ordering.swap_then, ← ih, ← OrientedCmp.eq_swap]

theorem orderBlocks_eq_iff : orderBlocks as bs = .eq ↔ sameBlocks as bs = true := by
  induction as generalizing bs with
  | nil => cases bs <;> simp [orderBlocks, sameBlocks]
  | cons a as ih =>
    cases bs with
    | nil => simp [orderBlocks, sameBlocks]
    | cons b bs =>
      rw [orderBlocks, sameBlocks, Ordering.then_eq_eq, LawfulBEqCmp.compare_eq_iff_beq, ih, Bool.and_eq_true]

/-- The row comes first at its first block, or later on after equal blocks. -/
theorem isLE_cons_iff : (orderBlocks (a :: as) (b :: bs)).isLE = true ↔
    a.order b = .lt ∨ a.order b = .eq ∧ (orderBlocks as bs).isLE = true := Ordering.isLE_then_iff_or

theorem orderBlocks_trans (first : (orderBlocks as bs).isLE = true) (second : (orderBlocks bs cs).isLE = true) :
    (orderBlocks as cs).isLE = true := by
  induction as generalizing bs cs with
  | nil =>
    -- only the empty row comes after the empty row
    cases bs with
    | nil => exact second
    | cons b bs => cases first
  | cons a as ih =>
    cases cs with
    | nil => rfl
    | cons c cs =>
      cases bs with
      | nil => cases second
      | cons b bs =>
        rw [isLE_cons_iff] at first second ⊢
        rcases first with less | ⟨equal, rest⟩
        · rcases second with less' | ⟨equal', _⟩
          · exact .inl (TransCmp.lt_trans less less')
          · exact .inl ((TransCmp.congr_right equal').symm.trans less)
        · rw [TransCmp.congr_left equal]
          exact second.imp_right fun later => ⟨later.1, ih rest later.2⟩

theorem orderBlocks_of_hasPrefix (inside : hasPrefixBlocks as bs = true) (longer : bs.length < as.length) :
    orderBlocks as bs = .lt := by
  induction bs generalizing as with
  | nil =>
    cases as with
    | nil => cases longer
    | cons a as => rfl
  | cons b bs ih =>
    cases as with
    | nil => cases longer
    | cons a as =>
      obtain ⟨first, rest⟩ := Bool.and_eq_true_iff.mp inside
      have equal : a.order b = .eq := LawfulBEqCmp.compare_eq_iff_beq.mpr first
      rw [orderBlocks, equal]
      exact ih rest (Nat.lt_of_succ_lt_succ longer)

/-! ### Paths -/

/-- Paths are totally ordered up to equality, and a path comes before those that it extends. -/
theorem order_total (p q r : Path) : p.order q = (q.order p).swap ∧
    (p.order q = .eq ↔ (p == q) = true) ∧
    ((p.order q).isLE = true → (q.order r).isLE = true → (p.order r).isLE = true) ∧
    (p.hasPrefix q = true → q.length < p.length → p.order q = .lt) :=
  ⟨orderBlocks_swap, orderBlocks_eq_iff, orderBlocks_trans, orderBlocks_of_hasPrefix⟩

end Path

end TypeEngine
