import Mathlib.Data.List.Forall2
import TypeEngine.Proofs.Ty.Reading
import TypeEngine.Proofs.Ty.Congruence

/-!
# Arguments by position and parts

Operations that rewrite arguments put the results back by name. If no name stands twice in an
argument list, this is the same as going by position (`putTypes_eq`). The parts of a type are the
types in its arguments, at any depth; its generic parameters are among them.
-/

namespace TypeEngine

/-! ### Slots by position -/

namespace Slot

/-- Slots of the same kind: related types, or the same value. -/
inductive Both (R : Ty → Ty → Prop) : Slot → Slot → Prop where
  | type {name name' : String} {t u : Ty} : R t u → Both R (.type name t) (.type name' u)
  | value {name name' text : String} : Both R (.value name text) (.value name' text)

variable {R S : Ty → Ty → Prop} {xs ys zs : List Slot}

theorem both_imp (related : List.Forall₂ (Both R) xs ys)
    (weaker : ∀ n t m u, .type n t ∈ xs → .type m u ∈ ys → R t u → S t u) :
    List.Forall₂ (Both S) xs ys := by
  induction related with
  | nil => exact .nil
  | cons first _ ih =>
    refine .cons ?_ (ih fun n t m u left right => weaker n t m u (List.mem_cons_of_mem _ left)
      (List.mem_cons_of_mem _ right))
    cases first with
    | type holds => exact .type (weaker _ _ _ _ List.mem_cons_self List.mem_cons_self holds)
    | value => exact .value

theorem both_comp (left : List.Forall₂ (Both R) xs ys) (right : List.Forall₂ (Both S) ys zs) :
    List.Forall₂ (Both fun t v => ∃ u, R t u ∧ S u v) xs zs := by
  induction left generalizing zs with
  | nil =>
    cases right
    exact .nil
  | cons first _ ih =>
    cases right with
    | cons second rest =>
      refine .cons ?_ (ih rest)
      cases first with
      | type holds =>
        cases second with
        | type holds' => exact .type ⟨_, holds, holds'⟩
      | value =>
        cases second
        exact .value

theorem both_diagonal (related : List.Forall₂ (Both R) xs xs) :
    ∀ name t, .type name t ∈ xs → R t t := by
  induction xs with
  | nil => exact fun _ _ member => by cases member
  | cons x xs ih =>
    intro name t member
    obtain ⟨first, rest⟩ := List.forall₂_cons.mp related
    rcases List.mem_cons.mp member with rfl | member
    · cases first with
      | type holds => exact holds
    · exact ih rest name t member

theorem exists_both {name : String} {t : Ty} (related : List.Forall₂ (Both R) xs ys)
    (slot : .type name t ∈ xs) : ∃ name' u, .type name' u ∈ ys ∧ R t u := by
  induction related with
  | nil => cases slot
  | cons first _ ih =>
    rcases List.mem_cons.mp slot with rfl | slot
    · cases first with
      | type holds => exact ⟨_, _, List.mem_cons_self, holds⟩
    · obtain ⟨name', u, member, holds⟩ := ih slot
      exact ⟨name', u, List.mem_cons_of_mem _ member, holds⟩

theorem both_refl (holds : ∀ name t, .type name t ∈ xs → R t t) : List.Forall₂ (Both R) xs xs := by
  induction xs with
  | nil => exact .nil
  | cons x xs ih =>
    refine .cons ?_ (ih fun name t member => holds name t (List.mem_cons_of_mem _ member))
    cases x with
    | type name t => exact .type (holds name t List.mem_cons_self)
    | value => exact .value

theorem bareSlots_eq_iff :
    Ty.bareSlots xs = Ty.bareSlots ys ↔ List.Forall₂ (Both fun t u => t.bare = u.bare) xs ys := by
  constructor
  · intro same
    induction xs generalizing ys with
    | nil =>
      cases ys with
      | nil => exact .nil
      | cons y ys => cases y <;> cases same
    | cons x xs ih =>
      cases ys with
      | nil => cases x <;> cases same
      | cons y ys =>
        cases x <;> cases y <;> simp only [Ty.bareSlots, List.cons.injEq, reduceCtorEq, false_and,
          Slot.type.injEq, Slot.value.injEq, true_and] at same
        · exact .cons (.type same.1) (ih same.2)
        · rw [same.1]
          exact .cons .value (ih same.2)
  · intro related
    induction related with
    | nil => rfl
    | cons first _ ih =>
      cases first with
      | type same => rw [Ty.bareSlots, Ty.bareSlots, same, ih]
      | value => rw [Ty.bareSlots, Ty.bareSlots, ih]

section

variable {ε : Type} {f : Ty → Except ε Ty} {slots before out : List Slot}

/-- Rewrites the types among the slots, in order. -/
def mapTypes (f : Ty → Except ε Ty) : List Slot → Except ε (List Slot)
  | [] => .ok []
  | .type name t :: slots => do
    let t ← f t
    let slots ← mapTypes f slots
    return .type name t :: slots
  | .value name text :: slots => do
    let slots ← mapTypes f slots
    return .value name text :: slots

/-- Rewrites the types among the first slots and puts them, by name, into the second. -/
def putTypes (f : Ty → Except ε Ty) : List Slot → List Slot → Except ε (List Slot)
  | [], out => .ok out
  | .type name t :: slots, out => do
    let t ← f t
    putTypes f slots (put (.type name t) out)
  | .value .. :: slots, out => putTypes f slots out

theorem put_append {s old : Slot} {after : List Slot} (new : ∀ x ∈ before, x.name ≠ s.name)
    (here : old.name = s.name) : put s (before ++ old :: after) = before ++ s :: after := by
  induction before with
  | nil => rw [List.nil_append, List.nil_append, put, if_pos here]
  | cons x before ih =>
    rw [List.forall_mem_cons] at new
    rw [List.cons_append, List.cons_append, put, if_neg new.1, ih new.2]

theorem putTypes_append (distinct : ((before ++ slots).map name).Nodup) :
    putTypes f slots (before ++ slots) = (mapTypes f slots).map (before ++ ·) := by
  induction slots generalizing before with
  | nil => rfl
  | cons s slots ih =>
    cases s with
    | type n t =>
      rw [putTypes, mapTypes]
      cases f t with
      | error v => rfl
      | ok u =>
        have apart : ∀ x ∈ before, x.name ≠ n := by
          intro x member same
          rw [List.map_append, List.nodup_append] at distinct
          exact distinct.2.2 _ (List.mem_map_of_mem member) n (by simp [Slot.name]) same
        have more : putTypes f slots ((before ++ [.type n u]) ++ slots) = _ :=
          ih (by simpa [Slot.name] using distinct)
        have placed : put (.type n u) (before ++ .type n t :: slots) = before ++ .type n u :: slots :=
          put_append apart rfl
        rw [List.append_assoc, List.singleton_append] at more
        rw [Ty.bind_ok, Ty.bind_ok, placed, more]
        cases mapTypes f slots with
        | error v => rfl
        | ok rest => simp [Except.map, bind, Except.bind, pure, Except.pure]
    | value n text =>
      rw [putTypes, mapTypes]
      have more : putTypes f slots ((before ++ [.value n text]) ++ slots) = _ :=
        ih (by simpa [Slot.name] using distinct)
      rw [List.append_assoc, List.singleton_append] at more
      rw [more]
      cases mapTypes f slots with
      | error v => rfl
      | ok rest => simp [Except.map, bind, Except.bind, pure, Except.pure]

theorem putTypes_eq (distinct : (slots.map name).Nodup) :
    putTypes f slots slots = mapTypes f slots := by
  have same : putTypes f slots ([] ++ slots) = _ := putTypes_append distinct
  rw [List.nil_append] at same
  rw [same]
  cases mapTypes f slots <;> rfl

theorem putTypes_congr {g : Ty → Except ε Ty} (each : ∀ name t, .type name t ∈ slots → f t = g t)
    (out : List Slot) : putTypes f slots out = putTypes g slots out := by
  induction slots generalizing out with
  | nil => rfl
  | cons s slots ih =>
    have ih := ih fun name t member => each name t (List.mem_cons_of_mem _ member)
    cases s with
    | type name t => simp only [putTypes, each name t List.mem_cons_self, ih]
    | value name text => simp only [putTypes, ih]

theorem putTypes_cases {g : Ty → Except ε Ty} {fault : ε}
    (each : ∀ name t, .type name t ∈ slots → f t = .error fault ∨ f t = g t) (out : List Slot) :
    putTypes f slots out = .error fault ∨ putTypes f slots out = putTypes g slots out := by
  induction slots generalizing out with
  | nil => exact .inr rfl
  | cons s slots ih =>
    have ih := ih fun name t member => each name t (List.mem_cons_of_mem _ member)
    cases s with
    | type name t =>
      rw [putTypes, putTypes]
      rcases each name t List.mem_cons_self with failed | same
      · rw [failed]
        exact .inl rfl
      · rw [same]
        cases g t with
        | error other => exact .inr rfl
        | ok u => exact ih _
    | value name text =>
      rw [putTypes, putTypes]
      exact ih out

theorem exists_of_putTypes_error {fault : ε} {out : List Slot}
    (failed : putTypes f slots out = .error fault) :
    ∃ name t, .type name t ∈ slots ∧ f t = .error fault := by
  induction slots generalizing out with
  | nil => cases failed
  | cons s slots ih =>
    cases s with
    | type name t =>
      rw [putTypes] at failed
      cases done : f t with
      | error other =>
        rw [done] at failed
        cases failed
        exact ⟨name, t, List.mem_cons_self, done⟩
      | ok u =>
        rw [done] at failed
        obtain ⟨name, t, member, found⟩ := ih failed
        exact ⟨name, t, List.mem_cons_of_mem _ member, found⟩
    | value name text =>
      rw [putTypes] at failed
      obtain ⟨name, t, member, found⟩ := ih failed
      exact ⟨name, t, List.mem_cons_of_mem _ member, found⟩

theorem both_of_mapTypes (done : mapTypes f slots = .ok out) :
    List.Forall₂ (Both fun t u => f t = .ok u) slots out := by
  induction slots generalizing out with
  | nil =>
    obtain rfl := Except.ok.inj done
    exact .nil
  | cons s slots ih =>
    cases s with
    | type n t =>
      rw [mapTypes] at done
      obtain ⟨u, first, done⟩ := Ty.exists_of_bind done
      obtain ⟨rest, later, done⟩ := Ty.exists_of_bind done
      obtain rfl := Except.ok.inj done
      exact .cons (.type first) (ih later)
    | value n text =>
      rw [mapTypes] at done
      obtain ⟨rest, later, done⟩ := Ty.exists_of_bind done
      obtain rfl := Except.ok.inj done
      exact .cons .value (ih later)

theorem mapTypes_of_both (related : List.Forall₂ (Both fun t u => ∃ v, f t = .ok v ∧ v.bare = u.bare)
    slots out) : ∃ found, mapTypes f slots = .ok found ∧ Ty.bareSlots found = Ty.bareSlots out := by
  induction related with
  | nil => exact ⟨[], rfl, rfl⟩
  | cons first _ ih =>
    obtain ⟨rest, later, alike⟩ := ih
    cases first with
    | @type name _ _ _ holds =>
      obtain ⟨v, here, same⟩ := holds
      refine ⟨.type name v :: rest, ?_, ?_⟩
      · rw [mapTypes, here, later]
        rfl
      · rw [Ty.bareSlots, Ty.bareSlots, same, alike]
    | @value name _ text =>
      refine ⟨.value name text :: rest, ?_, ?_⟩
      · rw [mapTypes, later]
        rfl
      · rw [Ty.bareSlots, Ty.bareSlots, alike]

end

end Slot

namespace Ty

theorem canonicalSlots_eq_putTypes (slots out : List Slot) :
    canonicalSlots slots out = Slot.putTypes canonical slots out := by
  induction slots generalizing out with
  | nil => rw [canonicalSlots, Slot.putTypes]
  | cons s slots ih => cases s <;> simp only [canonicalSlots, Slot.putTypes, ih]

/-! ### Parts -/

mutual

/-- The type and all types in its arguments. -/
def parts : Ty → List Ty
  | mk main extra => mk main extra :: slotParts extra

def slotParts : List Slot → List Ty
  | [] => []
  | .type _ t :: slots => parts t ++ slotParts slots
  | .value .. :: slots => slotParts slots

end

variable {t u elem : Ty} {n : Int}

theorem parts_eq (t : Ty) : t.parts = t :: slotParts t.extra := by cases t; rfl

theorem self_mem_parts (t : Ty) : t ∈ t.parts := by
  rw [parts_eq]
  exact List.mem_cons_self

theorem mem_slotParts {slots : List Slot} :
    u ∈ slotParts slots ↔ ∃ name t, .type name t ∈ slots ∧ u ∈ t.parts := by
  induction slots with
  | nil => simp [slotParts]
  | cons s slots ih =>
    cases s with
    | type name t =>
      rw [slotParts, List.mem_append, ih]
      constructor
      · rintro (here | ⟨name', t', member, inside⟩)
        · exact ⟨name, t, List.mem_cons_self, here⟩
        · exact ⟨name', t', List.mem_cons_of_mem _ member, inside⟩
      · rintro ⟨name', t', member, inside⟩
        rcases List.mem_cons.mp member with same | member
        · obtain ⟨_, rfl⟩ := Slot.type.inj same
          exact .inl inside
        · exact .inr ⟨name', t', member, inside⟩
    | value name text => simp [slotParts, ih]

theorem mem_parts_of_slot {name : String} {v : Ty} (slot : .type name u ∈ t.extra)
    (part : v ∈ u.parts) : v ∈ t.parts := by
  rw [parts_eq]
  exact List.mem_cons_of_mem _ (mem_slotParts.mpr ⟨name, u, slot, part⟩)

theorem forall_parts {P : Ty → Prop} :
    (∀ v ∈ t.parts, P v) ↔ P t ∧ ∀ name u, .type name u ∈ t.extra → ∀ v ∈ u.parts, P v := by
  rw [parts_eq, List.forall_mem_cons]
  refine and_congr_right fun _ => ⟨fun all name u slot v part => ?_, fun all v part => ?_⟩
  · exact all v (mem_slotParts.mpr ⟨name, u, slot, part⟩)
  · obtain ⟨name, u, slot, part⟩ := mem_slotParts.mp part
    exact all name u slot v part

theorem sizeOf_slot {name : String} (slot : .type name u ∈ t.extra) : sizeOf u < sizeOf t := by
  obtain ⟨main, extra⟩ := t
  have := List.sizeOf_lt_of_mem slot
  simp only [Ty.extra, Slot.type.sizeOf_spec] at this
  simp only [mk.sizeOf_spec]
  omega

@[elab_as_elim]
theorem slotInduction {motive : Ty → Prop}
    (step : ∀ t, (∀ name u, .type name u ∈ t.extra → motive u) → motive t) (t : Ty) : motive t := by
  induction size : sizeOf t using Nat.strongRecOn generalizing t with
  | ind size ih =>
    refine step t fun name u slot => ?_
    have smaller := sizeOf_slot slot
    exact ih (sizeOf u) (by omega) u rfl

mutual

theorem mem_collectParams {x : String} : ∀ (t : Ty) (seen : List String), x ∈ collectParams seen t ↔
    x ∈ seen ∨ ∃ u ∈ t.parts, u.isParam = true ∧ u.main.leaf = x
  | mk main extra, seen => by
    rw [collectParams, parts]
    split
    · rename_i parameter
      have none : extra = [] := List.isEmpty_iff.mp (Bool.and_eq_true_iff.mp parameter).1
      subst none
      have only : (∃ u ∈ [mk main []], u.isParam = true ∧ u.main.leaf = x) ↔ main.leaf = x := by
        simp only [List.mem_singleton, exists_eq_left]
        exact ⟨And.right, fun leaf => ⟨parameter, leaf⟩⟩
      rw [slotParts, only]
      split
      · rename_i known
        rw [List.contains_iff_mem] at known
        exact ⟨.inl, fun cases_ => cases_.elim id fun same => same ▸ known⟩
      · simp [eq_comm]
    · rename_i other
      rw [mem_collectSlotParams extra seen]
      have never : ¬(mk main extra).isParam = true := other
      simp [never]

theorem mem_collectSlotParams {x : String} : ∀ (slots : List Slot) (seen : List String),
    x ∈ collectSlotParams seen slots ↔
      x ∈ seen ∨ ∃ u ∈ slotParts slots, u.isParam = true ∧ u.main.leaf = x
  | [], seen => by simp [collectSlotParams, slotParts]
  | .type _ t :: slots, seen => by
    rw [collectSlotParams, mem_collectSlotParams slots, mem_collectParams t, slotParts]
    simp only [List.mem_append, or_and_right, exists_or, or_assoc]
  | .value .. :: slots, seen => by
    rw [collectSlotParams, mem_collectSlotParams slots, slotParts]

end

theorem mem_params_iff {x : String} :
    x ∈ t.params ↔ ∃ u ∈ t.parts, u.isParam = true ∧ u.main.leaf = x := by
  rw [params, mem_collectParams]
  simp

/-! ### Nesting -/

mutual

/-- The levels of arguments below a type. -/
def nesting : Ty → Nat
  | mk _ extra => slotNesting extra

def slotNesting : List Slot → Nat
  | [] => 0
  | .type _ t :: slots => max (nesting t + 1) (slotNesting slots)
  | .value .. :: slots => slotNesting slots

end

theorem nesting_eq (t : Ty) : t.nesting = slotNesting t.extra := by
  cases t
  rw [nesting]
  rfl

theorem slotNesting_le {slots : List Slot} {n : Nat} :
    slotNesting slots ≤ n ↔ AllTypes (fun t => t.nesting + 1 ≤ n) slots := by
  induction slots with
  | nil => exact ⟨fun _ => allTypes_nil, fun _ => by rw [slotNesting]; omega⟩
  | cons s slots ih =>
    cases s with
    | type name t => rw [slotNesting, Nat.max_le, ih, allTypes_type]
    | value name text => rw [slotNesting, ih, allTypes_value]

theorem nesting_slot {name : String} (slot : .type name elem ∈ t.extra) :
    elem.nesting + 1 ≤ t.nesting := by
  rw [nesting_eq t]
  exact slotNesting_le.mp (Nat.le_refl _) name elem slot

end Ty

end TypeEngine
