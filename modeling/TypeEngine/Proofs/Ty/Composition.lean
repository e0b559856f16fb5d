import TypeEngine.Proofs.Ty.Substitution

/-!
# Substitution after substitution

`replace` is substitution without a limit on the depth. Substituting in a type and then in what came
out is substituting once, with the images substituted in (`Makes.replace`). This needs no bound on
the layers of lists: a sum of layers that leaves the 64-bit range leaves behind a list that cannot be
counted, and wrapping such a list is the only way in which `replace` fails (`replace_shaped`).
-/

namespace TypeEngine

namespace Slot

variable {R : Ty → Ty → Prop} {xs ys slots out : List Slot} {ε : Type} {f : Ty → Except ε Ty}

theorem both_flip (related : List.Forall₂ (Both R) xs ys) :
    List.Forall₂ (Both fun u t => R t u) ys xs := by
  induction related with
  | nil => exact .nil
  | cons first _ ih =>
    refine .cons ?_ ih
    cases first with
    | type holds => exact .type holds
    | value => exact .value

/-- Two rewritings of the same slots, position by position. -/
theorem both_of_mapTypes_twice {g : Ty → Except ε Ty} {out' : List Slot}
    (left : mapTypes f slots = .ok out) (right : mapTypes g slots = .ok out')
    (each : ∀ name t m u u', .type name t ∈ slots → f t = .ok u → .type m u ∈ out → g t = .ok u' →
      R u u') : List.Forall₂ (Both R) out out' := by
  have first := both_imp (S := fun t u => f t = .ok u ∧ ∃ name, .type name t ∈ slots)
    (both_of_mapTypes left) fun name t _ u slot _ here => ⟨here, name, slot⟩
  refine both_imp (both_comp (both_flip first) (both_of_mapTypes right)) fun m u _ u' member _ pair => ?_
  obtain ⟨t, ⟨here, name, slot⟩, there⟩ := pair
  exact each name t m u u' slot here member there

theorem names_mapTypes (done : mapTypes f slots = .ok out) : out.map name = slots.map name := by
  induction slots generalizing out with
  | nil =>
    obtain rfl := Except.ok.inj done
    rfl
  | cons s slots ih =>
    cases s with
    | type n t =>
      rw [mapTypes] at done
      obtain ⟨u, _, done⟩ := Ty.exists_of_bind done
      obtain ⟨rest, later, done⟩ := Ty.exists_of_bind done
      obtain rfl := Except.ok.inj done
      exact congrArg (n :: ·) (ih later)
    | value n text =>
      rw [mapTypes] at done
      obtain ⟨rest, later, done⟩ := Ty.exists_of_bind done
      obtain rfl := Except.ok.inj done
      exact congrArg (n :: ·) (ih later)

theorem ok_of_putTypes {new : List Slot} {name : String} {t : Ty}
    (done : putTypes f slots out = .ok new) (slot : .type name t ∈ slots) : ∃ u, f t = .ok u := by
  induction slots generalizing out with
  | nil => cases slot
  | cons s slots ih =>
    cases s with
    | type n v =>
      rw [putTypes] at done
      obtain ⟨u, first, done⟩ := Ty.exists_of_bind done
      rcases List.mem_cons.mp slot with same | slot
      · obtain ⟨_, rfl⟩ := Slot.type.inj same
        exact ⟨u, first⟩
      · exact ih done slot
    | value n text =>
      rw [putTypes] at done
      rcases List.mem_cons.mp slot with same | slot
      · cases same
      · exact ih done slot

/-- If each type is rewritten well or fails in a certain way, so do the slots. -/
theorem mapTypes_answers {P : Ty → Prop} {Q : ε → Prop} (each : ∀ name t, .type name t ∈ slots →
      (∃ u, f t = .ok u ∧ P u) ∨ ∃ fault, f t = .error fault ∧ Q fault) :
    (∃ out, mapTypes f slots = .ok out ∧ ∀ name u, .type name u ∈ out → P u) ∨
      ∃ fault, mapTypes f slots = .error fault ∧ Q fault := by
  induction slots with
  | nil => exact .inl ⟨[], rfl, fun _ _ member => absurd member List.not_mem_nil⟩
  | cons s slots ih =>
    have ih := ih fun name t member => each name t (List.mem_cons_of_mem _ member)
    cases s with
    | type n t =>
      rcases each n t List.mem_cons_self with ⟨u, first, holds⟩ | ⟨fault, first, blame⟩
      · rw [mapTypes, first, Ty.bind_ok]
        rcases ih with ⟨out, later, all⟩ | ⟨fault, later, blame⟩
        · refine .inl ⟨.type n u :: out, by rw [later]; rfl, ?_⟩
          intro name v member
          rcases List.mem_cons.mp member with same | member
          · obtain ⟨_, rfl⟩ := Slot.type.inj same
            exact holds
          · exact all name v member
        · exact .inr ⟨fault, by rw [later]; rfl, blame⟩
      · exact .inr ⟨fault, by rw [mapTypes, first]; rfl, blame⟩
    | value n text =>
      rw [mapTypes]
      rcases ih with ⟨out, later, all⟩ | ⟨fault, later, blame⟩
      · refine .inl ⟨.value n text :: out, by rw [later]; rfl, ?_⟩
        intro name v member
        rcases List.mem_cons.mp member with same | member
        · cases same
        · exact all name v member
      · exact .inr ⟨fault, by rw [later]; rfl, blame⟩

end Slot

namespace Ty

open Slot

variable {s s' σ : Subst} {limit depth : Nat} {t u v a a' elem : Ty} {n : Int}

/-! ### Substitution without a limit -/

/-- Replaces every generic parameter that `s` binds, at any depth. -/
def replace (s : Subst) (t : Ty) : Except Fault Ty := applyAt s t.nesting 0 t

theorem applyAt_of_shallow (shallow : depth + t.nesting ≤ limit) :
    applyAt s limit depth t = replace s t := by
  have answers : applyAt s t.nesting 0 t ≠ .error (.tooComplex .substitute t.nesting) :=
    applyAt_shallow (by omega)
  exact ((applyAt_limit (by omega) t).resolve_left answers).symm

theorem replace_param (parameter : t.isParam = true) :
    replace s t = .ok ((s.get? t.main.leaf).getD t) := applyAt_param (Nat.not_lt_zero _) parameter

theorem replace_list (parts : t.listParts = .ok (some (n, elem))) :
    replace s t = (replace s elem >>= fun u => (u.listN n).mapError .broken) := by
  obtain ⟨_, name, slot⟩ := slotParts_of_listParts parts
  have deeper := nesting_slot slot
  rw [replace, applyAt_list (Nat.not_lt_zero _) parts, applyAt_of_shallow (by omega)]

theorem replace_list_eq_ok (parts : t.listParts = .ok (some (n, elem))) :
    replace s t = .ok u ↔ ∃ v, replace s elem = .ok v ∧ v.listN n = .ok u := by
  rw [replace_list parts]
  constructor
  · intro done
    obtain ⟨v, inner, wrapped⟩ := exists_of_bind done
    exact ⟨v, inner, ok_of_mapError wrapped⟩
  · rintro ⟨v, inner, wrapped⟩
    rw [inner, bind_ok, wrapped]
    rfl

theorem replace_malformed {v : Violation} (parts : t.listParts = .error v) :
    replace s t = .error (.broken v) := applyAt_malformed (Nat.not_lt_zero _) parts

theorem replace_named (notParam : t.isParam = false) (notList : t.isList = false) :
    replace s t = (putTypes (replace s) t.extra t.extra).map (mk t.main) := by
  have slots : ∀ name u, .type name u ∈ t.extra → applyAt s t.nesting 1 u = replace s u := by
    intro name u slot
    have deeper := nesting_slot slot
    exact applyAt_of_shallow (by omega)
  rw [replace, applyAt_named (Nat.not_lt_zero _) notParam notList, putTypes_congr slots]

theorem replace_other (notParam : t.isParam = false) (notList : t.isList = false)
    (distinct : (t.extra.map Slot.name).Nodup) :
    replace s t = (mapTypes (replace s) t.extra).map (mk t.main) := by
  rw [replace_named notParam notList, putTypes_eq distinct]

theorem ok_of_slot {name : String} (done : applyAt s limit depth t = .ok u)
    (slot : .type name v ∈ t.extra) : ∃ w, applyAt s limit (depth + 1) v = .ok w := by
  have shallow := shallow_of_ok done
  cases parameter : t.isParam with
  | true =>
    rw [List.isEmpty_iff.mp (Bool.and_eq_true_iff.mp parameter).1] at slot
    cases slot
  | false =>
    cases parts : t.listParts with
    | error broken =>
      rw [applyAt_malformed shallow parts] at done
      cases done
    | ok found =>
      cases found with
      | some p =>
        obtain ⟨n, elem⟩ := p
        obtain rfl := eq_elem_of_slot parts slot
        rw [applyAt_list shallow parts] at done
        obtain ⟨w, inner, _⟩ := exists_of_bind done
        exact ⟨w, inner⟩
      | none =>
        rw [applyAt_named shallow parameter (isList_of_none parts)] at done
        obtain ⟨out, slots, _⟩ := exists_of_map done
        exact ok_of_putTypes slots slot

theorem nesting_of_ok (done : applyAt s limit depth t = .ok u) : depth + t.nesting ≤ limit := by
  induction t using slotInduction generalizing depth u with
  | step t ih =>
    have shallow := shallow_of_ok done
    have within : t.nesting ≤ limit - depth := by
      rw [nesting_eq, slotNesting_le]
      intro name v slot
      obtain ⟨w, inner⟩ := ok_of_slot done slot
      have below := ih name v slot inner
      omega
    omega

theorem sound_of_ok (done : replace s t = .ok u) : t.Sound := by
  induction t using slotInduction generalizing u with
  | step t ih =>
    refine forall_parts.mpr ⟨?_, fun name v slot => ?_⟩
    · cases parts : t.listParts with
      | ok found => exact ⟨found, rfl⟩
      | error broken =>
        rw [replace_malformed parts] at done
        cases done
    · have deeper := nesting_slot slot
      obtain ⟨w, inner⟩ := ok_of_slot done slot
      rw [applyAt_of_shallow (by omega)] at inner
      exact ih name v slot inner

/-! ### Substituting in the result -/

theorem listN_listN {m : Int} (first : 1 ≤ m) (second : 1 ≤ n) (total : n + m ≤ Numeral.greatest)
    (once : t.listN m = .ok u) (twice : u.listN n = .ok v) : t.listN (n + m) = .ok v := by
  rcases listN_cases once with ⟨found, rfl⟩ | ⟨k, elem, found, rfl⟩
  · rw [listN_of_listParts second (listParts_layered ⟨first, by omega⟩) total] at twice
    exact (listN_layered (by omega) (isList_of_none found)).trans twice
  · rcases listN_cases twice with ⟨none, _⟩ | ⟨_, _, counted, rfl⟩
    · cases isList_of_none none
    obtain ⟨same, bounds⟩ := listParts_layered_iff.mp counted
    cases same
    have inner := listParts_bounds found
    rw [Numeral.wrap_eq_of_pos (by omega) (by omega) inner.2 bounds.1, listN, if_neg (by omega), found,
      bind_ok, ← Int.add_assoc]
    rfl

theorem Sound.of_listN (sound : u.Sound) (done : t.listN n = .ok u) : t.Sound := by
  rcases listN_cases done with ⟨found, rfl⟩ | ⟨k, elem, found, rfl⟩
  · obtain ⟨name, slot⟩ := elem_mem_layered n t
    exact sound.slot slot
  · obtain ⟨name, slot⟩ := elem_mem_layered (wrap (n + k)) elem
    refine forall_parts.mpr ⟨⟨_, found⟩, fun name' v slot' => ?_⟩
    obtain rfl := eq_elem_of_slot found slot'
    exact sound.slot slot

/-- Up to equality, `σ` makes `u` of `t`. -/
def Makes (σ : Subst) (t u : Ty) : Prop := ∃ v, replace σ t = .ok v ∧ v.bare = u.bare

theorem makes_self (runs : t.RunLength) (names : ∀ u ∈ t.parts, (u.extra.map Slot.name).Nodup)
    (none : t.params = []) (σ : Subst) : Makes σ t t :=
  applyAt_self runs names (by rw [none]; nofun) (by omega)

theorem listN_ok_congr (same : t.bare = u.bare) (done : u.listN n = .ok v) :
    ∃ w, t.listN n = .ok w ∧ w.bare = v.bare := by
  have alike := listN_congr n same
  rw [done] at alike
  exact exists_of_map alike

theorem Makes.listN {b b' : Ty} (makes : Makes σ a a') (bounds : 1 ≤ n ∧ n ≤ Numeral.greatest)
    (wrapped : a.listN n = .ok b) (sound : b.Sound) (wrapped' : a'.listN n = .ok b') : Makes σ b b' := by
  obtain ⟨c, done, same⟩ := makes
  obtain ⟨w, again, equal⟩ := listN_ok_congr same wrapped'
  rcases listN_cases wrapped with ⟨found, rfl⟩ | ⟨k, core, found, rfl⟩
  · exact ⟨w, (replace_list_eq_ok (listParts_layered bounds)).mpr ⟨c, done, again⟩, equal⟩
  · -- the layers of the element, those around it and those that `σ` brings along add up
    have inner := listParts_bounds found
    obtain ⟨parts, counted⟩ := sound _ (self_mem_parts _)
    obtain ⟨rfl, total⟩ := listParts_layered_iff.mp counted
    have sum := Numeral.wrap_eq_of_pos (by omega) bounds.2 inner.2 total.1
    rw [sum] at total counted ⊢
    obtain ⟨d, below, once⟩ := (replace_list_eq_ok found).mp done
    have both := listN_listN inner.1 bounds.1 total.2 once again
    exact ⟨w, (replace_list_eq_ok counted).mpr ⟨d, below, both⟩, equal⟩

theorem exists_of_replace (notParam : t.isParam = false) (notList : t.isList = false)
    (distinct : (t.extra.map Slot.name).Nodup) (done : t.replace s = .ok u) :
    ∃ out, mapTypes (replace s) t.extra = .ok out ∧ u = mk t.main out := by
  rw [replace_other notParam notList distinct] at done
  obtain ⟨out, mapped, made⟩ := exists_of_map done
  exact ⟨out, mapped, made.symm⟩

theorem isParam_mapTypes {f : Ty → Except Fault Ty} {out : List Slot} (mapped : mapTypes f t.extra = .ok out) :
    (mk t.main out).isParam = t.isParam := by
  have lengths := congrArg List.length (names_mapTypes mapped)
  rw [List.length_map, List.length_map] at lengths
  unfold isParam
  congr 1
  rw [Bool.eq_iff_iff, List.isEmpty_iff, List.isEmpty_iff, ← List.length_eq_zero_iff,
    ← List.length_eq_zero_iff]
  exact lengths ▸ Iff.rfl

/-- What `σ` makes of the arguments it makes of the type. -/
theorem makes_mk {out out' : List Slot} (notParam : t.isParam = false) (notList : t.isList = false)
    (distinct : (t.extra.map Slot.name).Nodup) (mapped : mapTypes (replace s) t.extra = .ok out)
    (slots : List.Forall₂ (Both (Makes σ)) out out') : Makes σ (mk t.main out) (mk t.main out') := by
  have same := names_mapTypes mapped
  have notParam : (mk t.main out).isParam = false := (isParam_mapTypes mapped).trans notParam
  obtain ⟨found, again, alike⟩ := mapTypes_of_both slots
  refine ⟨mk t.main found, ?_, by rw [bare, bare, alike]⟩
  rw [replace_other notParam notList (same ▸ distinct)]
  exact congrArg (Except.map (mk t.main)) again

/-- Substituting with `s` and then with `σ` is substituting with `s'`, if `σ` makes the images under
`s'` of those under `s`. Images that are not sound do not count: nothing sound comes of them. -/
theorem Makes.replace {b : Ty} (names : ∀ u ∈ b.parts, (u.extra.map Slot.name).Nodup)
    (images : ∀ x ∈ b.params, ∃ v v', s.get? x = some v ∧ s'.get? x = some v' ∧
      (v.Sound → Makes σ v v'))
    (done : b.replace s = .ok a) (sound : a.Sound) (done' : b.replace s' = .ok a') : Makes σ a a' := by
  induction b using formInduction generalizing a a' with
  | param b parameter =>
    obtain ⟨v, v', bound, bound', makes⟩ := images _ (leaf_mem_params parameter)
    rw [replace_param parameter, bound] at done
    rw [replace_param parameter, bound'] at done'
    obtain rfl := Except.ok.inj done
    obtain rfl := Except.ok.inj done'
    exact makes sound
  | list b n elem parts ih =>
    obtain ⟨_, name, slot⟩ := slotParts_of_listParts parts
    obtain ⟨r, inner, wrapped⟩ := (replace_list_eq_ok parts).mp done
    obtain ⟨r', inner', wrapped'⟩ := (replace_list_eq_ok parts).mp done'
    have element := ih (fun u part => names u (mem_parts_of_slot slot part))
      (fun x known => images x (mem_params_of_slot slot known)) inner (sound.of_listN wrapped) inner'
    exact element.listN (listParts_bounds parts) wrapped sound wrapped'
  | malformed b v parts =>
    rw [replace_malformed parts] at done
    cases done
  | other b notParam notList ih =>
    have distinct := names b b.self_mem_parts
    obtain ⟨out, mapped, rfl⟩ := exists_of_replace notParam notList distinct done
    obtain ⟨out', mapped', rfl⟩ := exists_of_replace notParam notList distinct done'
    refine makes_mk notParam notList distinct mapped ?_
    refine both_of_mapTypes_twice mapped mapped' fun name t m u u' slot here member there => ?_
    exact ih name t slot (fun v part => names v (mem_parts_of_slot slot part))
      (fun x known => images x (mem_params_of_slot slot known)) here (sound.slot member) there

/-! ### The only fault -/

/-- A list that cannot be counted has a count, but one that is out of range. -/
def Shaped (t : Ty) : Prop :=
  ∀ u ∈ t.parts, ∀ v, u.listParts = .error v → ∃ text, v = .listCount text

theorem Shaped.slot {name : String} (shaped : t.Shaped) (slot : .type name elem ∈ t.extra) :
    elem.Shaped := fun u part => shaped u (mem_parts_of_slot slot part)

theorem Sound.shaped (sound : t.Sound) : t.Shaped := by
  intro u part v broken
  obtain ⟨found, counted⟩ := sound u part
  cases counted.symm.trans broken

theorem shaped_layered (shaped : elem.Shaped) (n : Int) : (layered n elem).Shaped := by
  refine forall_parts.mpr ⟨fun v broken => ?_, fun name u slot => ?_⟩
  · by_cases bounds : 1 ≤ n ∧ n ≤ Numeral.greatest
    · cases (listParts_layered bounds).symm.trans broken
    · exact ⟨_, (Except.error.inj ((listParts_layered_of_not bounds).symm.trans broken)).symm⟩
  · exact eq_elem_of_mem_layered slot ▸ shaped

theorem Shaped.listN (shaped : t.Shaped) (positive : 1 ≤ n) :
    (∃ u, t.listN n = .ok u ∧ u.Shaped) ∨ ∃ text, t.listN n = .error (.listCount text) := by
  rw [Ty.listN, if_neg (by omega)]
  cases parts : t.listParts with
  | error v =>
    obtain ⟨text, rfl⟩ := shaped t t.self_mem_parts v parts
    exact .inr ⟨text, rfl⟩
  | ok found =>
    cases found with
    | none => exact .inl ⟨_, rfl, shaped_layered shaped n⟩
    | some p =>
      obtain ⟨k, elem⟩ := p
      obtain ⟨_, name, slot⟩ := slotParts_of_listParts parts
      exact .inl ⟨_, rfl, shaped_layered (shaped.slot slot) _⟩

/-- The count of a list has left the 64-bit range. -/
def Overflow (fault : Fault) : Prop := ∃ text, fault = .broken (.listCount text)

theorem replace_shaped (sound : t.Sound) (names : ∀ u ∈ t.parts, (u.extra.map Slot.name).Nodup)
    (images : ∀ x v, s.get? x = some v → v.Shaped) :
    (∃ u, t.replace s = .ok u ∧ u.Shaped) ∨ ∃ fault, t.replace s = .error fault ∧ Overflow fault := by
  induction t using formInduction with
  | param t parameter =>
    rw [replace_param parameter]
    refine .inl ⟨_, rfl, ?_⟩
    cases bound : s.get? t.main.leaf with
    | none => exact sound.shaped
    | some v => exact images _ v bound
  | list t n elem parts ih =>
    obtain ⟨_, name, slot⟩ := slotParts_of_listParts parts
    rw [replace_list parts]
    rcases ih (sound.slot slot) fun u part => names u (mem_parts_of_slot slot part) with
      ⟨u, inner, shaped⟩ | ⟨fault, inner, overflow⟩
    · rw [inner, bind_ok]
      rcases shaped.listN (listParts_bounds parts).1 with ⟨w, wrapped, shaped⟩ | ⟨text, broken⟩
      · exact .inl ⟨w, by rw [wrapped]; rfl, shaped⟩
      · exact .inr ⟨_, by rw [broken]; rfl, text, rfl⟩
    · exact .inr ⟨fault, by rw [inner]; rfl, overflow⟩
  | malformed t v parts =>
    obtain ⟨found, counted⟩ := sound t t.self_mem_parts
    cases counted.symm.trans parts
  | other t notParam notList ih =>
    have slots := fun name u slot => ih name u slot (sound.slot slot)
      fun v part => names v (mem_parts_of_slot slot part)
    rw [replace_other notParam notList (names t t.self_mem_parts)]
    rcases mapTypes_answers slots with ⟨out, mapped, shaped⟩ | ⟨fault, failed, overflow⟩
    · refine .inl ⟨mk t.main out, by rw [mapped]; rfl, forall_parts.mpr ⟨?_, shaped⟩⟩
      intro v broken
      rw [listParts_of_notList (by exact notList)] at broken
      cases broken
    · exact .inr ⟨fault, by rw [failed]; rfl, overflow⟩

/-! ### Substitution with a limit -/

theorem apply_empty {limit : Int} (empty : s.isEmpty = true) (t : Ty) : t.apply s limit = .ok t :=
  if_pos empty

theorem apply_of_ok {limit : Int} (bound : s.isEmpty = false) (bound' : s'.isEmpty = false)
    (done : t.apply s limit = .ok u) : t.apply s' limit = t.replace s' := by
  unfold apply at done ⊢
  rw [if_neg (by simp [bound])] at done
  rw [if_neg (by simp [bound'])]
  exact applyAt_of_shallow (nesting_of_ok done)

theorem main_of_apply {limit : Int} (notParam : t.isParam = false) (done : t.apply s limit = .ok u) :
    u.main.bare = t.main.bare := by
  cases empty : s.isEmpty with
  | true =>
    rw [apply_empty empty] at done
    rw [Except.ok.inj done]
  | false =>
    rw [apply_of_ok empty empty done] at done
    cases parts : t.listParts with
    | error v =>
      rw [replace_malformed parts] at done
      cases done
    | ok found =>
      cases found with
      | some p =>
        rw [replace_list parts] at done
        obtain ⟨w, _, wrapped⟩ := exists_of_bind done
        obtain ⟨k, elem, rfl⟩ := exists_layered (ok_of_mapError wrapped)
        exact (Path.beq_iff_bare.mp (isList_of_listParts parts)).symm
      | none =>
        rw [replace_named notParam (isList_of_none parts)] at done
        obtain ⟨out, _, rfl⟩ := exists_of_map done
        rfl

theorem kinds_of_apply {limit : Int} (notParam : t.isParam = false) (notList : t.isList = false)
    (distinct : (t.extra.map Slot.name).Nodup) (done : t.apply s limit = .ok u) :
    List.Forall₂ (Both fun _ _ => True) t.extra u.extra := by
  cases empty : s.isEmpty with
  | true =>
    rw [apply_empty empty] at done
    rw [← Except.ok.inj done]
    exact both_refl fun _ _ _ => trivial
  | false =>
    rw [apply_of_ok empty empty done] at done
    obtain ⟨out, mapped, rfl⟩ := exists_of_replace notParam notList distinct done
    exact both_imp (both_of_mapTypes mapped) fun _ _ _ _ _ _ _ => trivial

section

variable {limit : Int} {b : Ty} (alike : s.isEmpty = s'.isEmpty)
  (images : ∀ x ∈ b.params, ∃ v v', s.get? x = some v ∧ s'.get? x = some v' ∧ (v.Sound → Makes σ v v'))
  (done : b.apply s limit = .ok a) (done' : b.apply s' limit = .ok a')
include alike images done done'

theorem apply_twice : (a = b ∧ a' = b ∧ b.params = []) ∨
    (b.replace s = .ok a ∧ b.replace s' = .ok a') := by
  cases empty : s.isEmpty with
  | true =>
    rw [apply_empty empty] at done
    rw [apply_empty (alike ▸ empty)] at done'
    refine .inl ⟨(Except.ok.inj done).symm, (Except.ok.inj done').symm, ?_⟩
    refine List.eq_nil_iff_forall_not_mem.mpr fun x known => ?_
    obtain ⟨v, _, bound, _⟩ := images x known
    cases (Subst.get?_of_isEmpty empty x).symm.trans bound
  | false =>
    have empty' := alike ▸ empty
    rw [apply_of_ok empty empty done] at done
    rw [apply_of_ok empty' empty' done'] at done'
    exact .inr ⟨done, done'⟩

variable (runs : b.RunLength) (names : ∀ u ∈ b.parts, (u.extra.map Slot.name).Nodup)
include runs names

theorem Makes.apply (sound : a.Sound) : Makes σ a a' := by
  rcases apply_twice alike images done done' with ⟨rfl, rfl, none⟩ | ⟨made, made'⟩
  · exact makes_self runs names none σ
  · exact Makes.replace names images made sound made'

theorem Makes.apply_slots (notParam : b.isParam = false) (notList : b.isList = false) :
    List.Forall₂ (Both fun v v' => v.Sound → Makes σ v v') a.extra a'.extra := by
  rcases apply_twice alike images done done' with ⟨rfl, rfl, none⟩ | ⟨made, made'⟩
  · refine both_refl fun name v slot _ => makes_self (runs.slot slot)
      (fun u part => names u (mem_parts_of_slot slot part)) ?_ σ
    refine List.eq_nil_iff_forall_not_mem.mpr fun x known => ?_
    have := mem_params_of_slot slot known
    rw [none] at this
    cases this
  · have distinct := names b b.self_mem_parts
    obtain ⟨out, mapped, rfl⟩ := exists_of_replace notParam notList distinct made
    obtain ⟨out', mapped', rfl⟩ := exists_of_replace notParam notList distinct made'
    refine both_of_mapTypes_twice mapped mapped' fun name t _ u u' slot here _ there sound => ?_
    exact Makes.replace (fun v part => names v (mem_parts_of_slot slot part))
      (fun x known => images x (mem_params_of_slot slot known)) here sound there

end

theorem apply_shaped {limit : Int} (sound : t.Sound)
    (names : ∀ u ∈ t.parts, (u.extra.map Slot.name).Nodup) (alike : s.isEmpty = s'.isEmpty)
    (images : ∀ x v, s'.get? x = some v → v.Shaped) (done : t.apply s limit = .ok u) :
    (∃ u', t.apply s' limit = .ok u' ∧ u'.Shaped) ∨
      ∃ fault, t.apply s' limit = .error fault ∧ Overflow fault := by
  cases empty : s.isEmpty with
  | true => exact .inl ⟨t, apply_empty (alike ▸ empty) t, sound.shaped⟩
  | false =>
    rw [apply_of_ok empty (alike ▸ empty) done]
    exact replace_shaped sound names images

end Ty

end TypeEngine
