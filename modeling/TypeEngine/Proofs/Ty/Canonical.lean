import TypeEngine.Proofs.Ty.Slots
import TypeEngine.Proofs.Ty.Tidy

/-!
# Canonical form of what is read

The reader builds lists in run-length form and names slots by position, so bringing a type that was
read into canonical form changes nothing. `parse_written` sums up what a type that was read is like.
-/

namespace TypeEngine.Ty

open Cursor

variable {slots : List Slot} {main : Path} {t : Ty}

theorem validateSlots_ok (valid : validateSlots slots = .ok ()) :
    AllTypes (fun t => t.validate = .ok ()) slots := by
  induction slots with
  | nil => exact allTypes_nil
  | cons s slots ih =>
    cases s with
    | type name t =>
      rw [validateSlots] at valid
      obtain ⟨_, first, valid⟩ := exists_of_bind valid
      exact allTypes_type.mpr ⟨first, ih valid⟩
    | value name text =>
      rw [validateSlots] at valid
      exact allTypes_value.mpr (ih valid)

theorem validate_ok {extra : List Slot} (valid : (mk main extra).validate = .ok ()) :
    (mk main extra).validateTop = .ok () ∧ AllTypes (fun t => t.validate = .ok ()) extra := by
  rw [validate] at valid
  obtain ⟨_, top, valid⟩ := exists_of_bind valid
  exact ⟨top, validateSlots_ok valid⟩

theorem canonicalSlots_eq {out : List Slot} (subset : slots ⊆ out)
    (distinct : (out.map Slot.name).Nodup) (fixed : AllTypes (fun t => t.canonical = .ok t) slots) :
    canonicalSlots slots out = .ok out := by
  induction slots with
  | nil => rw [canonicalSlots]
  | cons s slots ih =>
    obtain ⟨here, later⟩ := List.cons_subset.mp subset
    cases s with
    | type name t =>
      obtain ⟨first, fixed⟩ := allTypes_type.mp fixed
      rw [canonicalSlots, first, bind_ok, Slot.put_eq_self here distinct, ih later fixed]
    | value name text => rw [canonicalSlots, ih later (allTypes_value.mp fixed)]

theorem listParts_of_validateTop (valid : t.validateTop = .ok ()) (list : t.isList = true) :
    ∃ parts, t.listParts = .ok parts := by
  unfold validateTop at valid
  dsimp only at valid
  split at valid
  · cases valid
  · exact exists_of_discard valid

theorem isList_of_validateTop (empty : (mk main []).isList = true → slots = [])
    (valid : (mk main (Slot.positional slots)).validateTop = .ok ()) :
    (mk main []).isList = false := by
  cases list : (mk main []).isList with
  | false => rfl
  | true =>
    obtain ⟨parts, answer⟩ := listParts_of_validateTop valid list
    rw [empty list, listParts, if_pos (by exact list)] at answer
    cases answer

theorem components_of_validateTop (valid : t.validateTop = .ok ())
    (notList : t.isList = false) (tuple : t.isTuple = true) : ∃ parts, t.components = .ok parts := by
  unfold validateTop at valid
  dsimp only at valid
  split at valid
  · cases valid
  · rw [notList] at valid
    exact exists_of_discard valid

theorem layers_of_validateTop {n : Int} {elem : Ty} (valid : (layered n elem).validateTop = .ok ()) :
    1 ≤ n ∧ n ≤ Numeral.greatest := by
  obtain ⟨parts, answer⟩ := listParts_of_validateTop valid (isList_layered n elem)
  exact (listParts_layered_iff.mp answer).2

theorem canonical_layered {n : Int} {elem : Ty} (bounds : 1 ≤ n ∧ n ≤ Numeral.greatest)
    (notList : elem.isList = false) (fixed : elem.canonical = .ok elem) :
    (layered n elem).canonical = .ok (layered n elem) := by
  rw [canonical_list (listParts_layered bounds), fixed, bind_ok, listN_layered bounds.1 notList]

theorem canonical_positional (notList : (mk main []).isList = false)
    (fixed : AllTypes (fun t => t.canonical = .ok t) slots) :
    (mk main (Slot.positional slots)).canonical = .ok (mk main (Slot.positional slots)) := by
  have other : ¬(main == .ofPrimitive "list") = true := by simpa [isList, Ty.main] using notList
  have same : canonicalSlots (Slot.positional slots) (Slot.positional slots) =
      .ok (Slot.positional slots) := by
    refine canonicalSlots_eq (List.Subset.refl _) (Slot.nodup_numberFrom _ _) ?_
    intro name t member
    obtain ⟨name', member'⟩ := Slot.type_mem_numberFrom.mp ⟨name, member⟩
    exact fixed name' t member'
  unfold Ty.canonical
  rw [if_neg other, same]
  rfl

namespace Written

variable {generics : List String} {budget : Nat} {t : Ty}

theorem canonical (written : Written generics budget t) (valid : t.validate = .ok ()) :
    t.canonical = .ok t := by
  induction written with
  | @named budget names slots some _ notList _ ih =>
    obtain ⟨top, nested⟩ := validate_ok valid
    refine canonical_positional (isList_of_validateTop notList top) fun name t member => ?_
    obtain ⟨name', member'⟩ := Slot.type_mem_numberFrom.mpr ⟨name, member⟩
    exact ih name t member (nested name' t member')
  | @tuple budget components some _ ih =>
    obtain ⟨top, nested⟩ := validate_ok valid
    refine canonical_positional rfl fun name t member => ?_
    obtain ⟨u, inside, same⟩ := List.mem_map.mp member
    obtain ⟨_, rfl⟩ := Slot.type.inj same
    obtain ⟨name', member'⟩ := Slot.type_mem_numberFrom.mpr ⟨_, member⟩
    exact ih u inside (nested name' u member')
  | @list budget n elem notList inner ih =>
    obtain ⟨top, nested⟩ := validate_ok valid
    obtain ⟨name, member⟩ := elem_mem_layered n elem
    exact canonical_layered (layers_of_validateTop top) notList (ih (nested name elem member))

end Written

theorem parse_written {s : String} {generics : List String} (read : parseBytes s generics = .ok t) :
    Written generics (defaultLimit + 1) t ∧ t.validate = .ok () ∧ t.canonical = .ok t := by
  have read := ok_of_mapError read
  unfold readAll at read
  obtain ⟨⟨u, c⟩, whole, read⟩ := exists_of_bind read
  dsimp only at read
  split at read
  · have written := readType_yields generics _ whole
    cases valid : u.validate with
    | error v =>
      rw [valid] at read
      cases read
    | ok _ =>
      rw [valid] at read
      have fixed := written.canonical valid
      obtain rfl := Except.ok.inj (fixed.symm.trans (ok_of_mapError read))
      exact ⟨written, valid, fixed⟩
  · cases read

end TypeEngine.Ty
