import TypeEngine.Ty.Shape

/-!
# Equality of types

Equality passes over slot names and the indexes of anonymous blocks. `bare` removes both, and
`beq_iff_bare` says that types are equal exactly when their bare forms are the same.
-/

namespace TypeEngine

/-! ### Blocks and paths -/

/-- The block as equality sees it. -/
def Block.bare (b : Block) : Block := { b with index := 0 }

theorem Block.beq_iff_bare {a b : Block} : (a == b) = true ↔ a.bare = b.bare := by
  cases a
  cases b
  simp [BEq.beq, Block.same, Block.bare]

namespace Path

/-- The path as equality sees it. -/
def bare (p : Path) : Path := ⟨p.blocks.map Block.bare⟩

theorem sameBlocks_iff {as bs : List Block} :
    sameBlocks as bs = true ↔ as.map Block.bare = bs.map Block.bare := by
  induction as generalizing bs with
  | nil => cases bs <;> simp [sameBlocks]
  | cons a as ih =>
    cases bs with
    | nil => simp [sameBlocks]
    | cons b bs => simp [sameBlocks, Block.beq_iff_bare, ih]

theorem beq_iff_bare {p q : Path} : (p == q) = true ↔ p.bare = q.bare := by
  change sameBlocks p.blocks q.blocks = true ↔ _
  rw [sameBlocks_iff, bare, bare, Path.mk.injEq]

@[simp] theorem bare_bare (p : Path) : p.bare.bare = p.bare := by
  simp [bare, Function.comp_def, Block.bare]

theorem beq_bare (p q : Path) : (p.bare == q) = (p == q) := by
  rw [Bool.eq_iff_iff, beq_iff_bare, beq_iff_bare, bare_bare]

@[simp] theorem key_bare (p : Path) : p.bare.key = p.key := by
  simp [key, bare, Function.comp_def, Block.bare]

theorem key_congr {p q : Path} (same : p.bare = q.bare) : p.key = q.key := by
  rw [← key_bare p, same, key_bare]

@[simp] theorem leaf_bare (p : Path) : p.bare.leaf = p.leaf := by
  simp [leaf, last?, bare, Block.bare, Function.comp_def]

@[simp] theorem isPrimitive_bare (p : Path) : p.bare.isPrimitive = p.isPrimitive := by
  obtain ⟨blocks⟩ := p
  match blocks with
  | [] => rfl
  | [_] => rfl
  | _ :: _ :: _ => rfl

@[simp] theorem isParameter_bare (p : Path) : p.bare.isParameter = p.isParameter := by
  simp only [isParameter, last?, bare, List.getLast?_map, Option.any_map]
  rfl

@[simp] theorem isEmpty_bare (p : Path) : p.bare.isEmpty = p.isEmpty := by
  simp [isEmpty, bare]

end Path

/-! ### Types -/

namespace Ty

mutual

/-- The type as equality sees it. -/
def bare : Ty → Ty
  | mk main extra => mk main.bare (bareSlots extra)

def bareSlots : List Slot → List Slot
  | [] => []
  | .type _ t :: slots => .type "" (bare t) :: bareSlots slots
  | .value _ text :: slots => .value "" text :: bareSlots slots

end

mutual

theorem same_iff_bare : ∀ a b : Ty, same a b = true ↔ a.bare = b.bare
  | mk p xs, mk q ys => by
    rw [same, Bool.and_eq_true, Path.beq_iff_bare, sameSlots_iff_bare xs ys, bare, bare, mk.injEq]

theorem sameSlots_iff_bare : ∀ xs ys : List Slot, sameSlots xs ys = true ↔ bareSlots xs = bareSlots ys
  | [], [] => by simp [sameSlots, bareSlots]
  | .type _ t :: xs, .type _ u :: ys => by
    simp [sameSlots, bareSlots, same_iff_bare t u, sameSlots_iff_bare xs ys]
  | .value _ v :: xs, .value _ w :: ys => by
    simp [sameSlots, bareSlots, sameSlots_iff_bare xs ys]
  | [], .type .. :: _ => by simp [sameSlots, bareSlots]
  | [], .value .. :: _ => by simp [sameSlots, bareSlots]
  | .type .. :: _, [] => by simp [sameSlots, bareSlots]
  | .value .. :: _, [] => by simp [sameSlots, bareSlots]
  | .type .. :: _, .value .. :: _ => by simp [sameSlots, bareSlots]
  | .value .. :: _, .type .. :: _ => by simp [sameSlots, bareSlots]

end

theorem beq_iff_bare {a b : Ty} : (a == b) = true ↔ a.bare = b.bare := same_iff_bare a b

theorem beq_rfl (a : Ty) : (a == a) = true := beq_iff_bare.mpr rfl

theorem beq_symm {a b : Ty} (same : (a == b) = true) : (b == a) = true :=
  beq_iff_bare.mpr (beq_iff_bare.mp same).symm

theorem beq_trans {a b c : Ty} (left : (a == b) = true) (right : (b == c) = true) : (a == c) = true :=
  beq_iff_bare.mpr ((beq_iff_bare.mp left).trans (beq_iff_bare.mp right))

theorem beq_congr {a b : Ty} (same : (a == b) = true) (c : Ty) : (a == c) = (b == c) := by
  rw [Bool.eq_iff_iff, beq_iff_bare, beq_iff_bare, beq_iff_bare.mp same]

theorem beq_congr_right {a b : Ty} (same : (a == b) = true) (c : Ty) : (c == a) = (c == b) := by
  rw [Bool.eq_iff_iff, beq_iff_bare, beq_iff_bare, beq_iff_bare.mp same]

end Ty

end TypeEngine
