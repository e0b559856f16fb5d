import TypeEngine.Proofs.Ty.Canonical
import TypeEngine.Proofs.Ty.NormalForm

/-!
# Well-formed types

A type is well-formed if it keeps the rules on shapes, is in canonical form, and tells its arguments
apart by name. The rest of the engine relies on this. Every text that is accepted denotes such a type
(`parse_wellFormed`), and substituting such types in such a type makes another one, as long as the
layers of lists can be counted (`apply_wellFormed`).
-/

namespace TypeEngine

namespace Slot

variable {R : Ty → Ty → Prop} {xs ys : List Slot}

theorem types?_both {ts : List Ty} (related : List.Forall₂ (Both R) xs ys) (typed : types? xs = some ts) :
    ∃ us, types? ys = some us ∧ us.length = ts.length := by
  induction related generalizing ts with
  | nil => exact ⟨[], rfl, by rw [← Option.some.inj typed]⟩
  | cons first _ ih =>
    cases first with
    | type holds =>
      obtain ⟨rest, found, rfl⟩ := Option.map_eq_some_iff.mp typed
      obtain ⟨us, found', lengths⟩ := ih found
      exact ⟨_ :: us, by rw [types?, found']; rfl, congrArg (· + 1) lengths⟩
    | value => cases typed

end Slot

namespace Ty

open Slot

variable {s : Subst} {t u v r elem : Ty} {n : Int} {x : String}

/-! ### Rules on shapes -/

theorem validateSlots_iff {slots : List Slot} : validateSlots slots = .ok () ↔
    ∀ name u, .type name u ∈ slots → u.validate = .ok () := by
  refine ⟨validateSlots_ok, fun each => ?_⟩
  induction slots with
  | nil => rfl
  | cons s slots ih =>
    have rest := ih fun name u slot => each name u (List.mem_cons_of_mem _ slot)
    cases s with
    | type name u => rw [validateSlots, each name u List.mem_cons_self, bind_ok, rest]
    | value name text => rw [validateSlots, rest]

theorem validate_iff : t.validate = .ok () ↔
    t.validateTop = .ok () ∧ ∀ name u, .type name u ∈ t.extra → u.validate = .ok () := by
  obtain ⟨main, extra⟩ := t
  refine ⟨validate_ok, fun ⟨top, slots⟩ => ?_⟩
  rw [validate, top, bind_ok]
  exact validateSlots_iff.mpr slots

theorem sound_of_validate (valid : t.validate = .ok ()) : t.Sound := by
  induction t using slotInduction with
  | step t ih =>
    obtain ⟨top, slots⟩ := validate_iff.mp valid
    refine forall_parts.mpr ⟨?_, fun name u slot => ih name u slot (slots name u slot)⟩
    cases list : t.isList with
    | true => exact listParts_of_validateTop top list
    | false => exact ⟨none, listParts_of_notList list⟩

theorem validateTop_eq (notList : t.isList = false) : t.validateTop =
    if (t.main.isPrimitive && plainNames.contains t.main.leaf && !t.extra.isEmpty) = true then
      .error (.plainArguments t.main.leaf)
    else if t.isTuple = true then discard t.components
    else if t.isFunc = true then discard t.funcParts
    else .ok () := by
  unfold validateTop
  rw [notList]
  rfl

section

variable {R : Ty → Ty → Prop} {main : Path} {xs ys : List Slot} (related : List.Forall₂ (Both R) xs ys)
include related

theorem components_both {ts : List Ty} (found : (mk main xs).components = .ok ts) :
    ∃ us, (mk main ys).components = .ok us := by
  unfold components at found ⊢
  split at found
  · rename_i tuple
    rw [if_pos (by exact tuple)]
    cases typed : types? xs with
    | none =>
      rw [Ty.extra, typed] at found
      cases found
    | some ts =>
      obtain ⟨us, typed', _⟩ := types?_both related typed
      exact ⟨us, by rw [Ty.extra, typed']⟩
  · rename_i other
    exact ⟨[], if_neg (by exact other)⟩

theorem funcParts_both {parts : Option (Ty × List Ty)} (found : (mk main xs).funcParts = .ok parts) :
    ∃ parts', (mk main ys).funcParts = .ok parts' := by
  unfold funcParts at found ⊢
  split at found
  · rename_i func
    rw [if_pos (by exact func)]
    split at found
    · rename_i typed
      obtain ⟨us, typed', lengths⟩ := types?_both related typed
      cases us with
      | nil => cases lengths
      | cons ret params => exact ⟨some (ret, params), by rw [Ty.extra, typed']⟩
    · cases found
  · rename_i other
    exact ⟨none, if_neg (by exact other)⟩

theorem validateTop_both (notList : (mk main xs).isList = false)
    (top : (mk main xs).validateTop = .ok ()) : (mk main ys).validateTop = .ok () := by
  have empty : (mk main ys).extra.isEmpty = (mk main xs).extra.isEmpty := by cases related <;> rfl
  rw [validateTop_eq notList] at top
  rw [validateTop_eq (by exact notList), empty]
  split at top
  · cases top
  rename_i plain
  rw [if_neg (by exact plain)]
  split at top
  · rename_i tuple
    obtain ⟨ts, found⟩ := exists_of_discard top
    obtain ⟨us, found'⟩ := components_both related found
    rw [if_pos (by exact tuple), found']
    rfl
  rename_i notTuple
  rw [if_neg (by exact notTuple)]
  split at top
  · rename_i func
    obtain ⟨parts, found⟩ := exists_of_discard top
    obtain ⟨parts', found'⟩ := funcParts_both related found
    rw [if_pos (by exact func), found']
    rfl
  · rename_i notFunc
    rw [if_neg (by exact notFunc)]

end

theorem validateTop_layered (bounds : 1 ≤ n ∧ n ≤ Numeral.greatest) :
    (layered n elem).validateTop = .ok () := by
  unfold validateTop
  rw [listParts_layered bounds, isList_layered]
  rfl

theorem validate_layered (bounds : 1 ≤ n ∧ n ≤ Numeral.greatest) (valid : elem.validate = .ok ()) :
    (layered n elem).validate = .ok () :=
  validate_iff.mpr ⟨validateTop_layered bounds, fun _ _ slot => eq_elem_of_mem_layered slot ▸ valid⟩

/-! ### Well-formed types -/

/-- The type keeps the rules on shapes, is in canonical form and keeps the names in each argument list
apart. -/
structure WellFormed (t : Ty) : Prop where
  valid : t.validate = .ok ()
  canonical : t.IsCanonical
  names : ∀ u ∈ t.parts, (u.extra.map Slot.name).Nodup

theorem IsCanonical.of_list (canonical : elem.IsCanonical) (parts : t.listParts = .ok (some (n, elem)))
    (form : t.bare = (layered n elem).bare) (notList : elem.isList = false) : t.IsCanonical := by
  obtain ⟨c, done, same⟩ := canonical
  rw [beq_iff_bare] at same
  have notList' : c.isList = false := by rw [← isList_bare, same, isList_bare, notList]
  refine ⟨layered n c, ?_, beq_iff_bare.mpr (by rw [form, layered_congr same])⟩
  rw [canonical_list parts, done, bind_ok, listN_layered (listParts_bounds parts).1 notList']

theorem RunLength.isCanonical (runs : t.RunLength)
    (names : ∀ u ∈ t.parts, (u.extra.map Slot.name).Nodup) : t.IsCanonical := by
  induction runs with
  | @list t elem n parts form notList _ ih =>
    obtain ⟨_, name, slot⟩ := slotParts_of_listParts parts
    exact (ih fun u part => names u (mem_parts_of_slot slot part)).of_list parts form notList
  | @other t notList _ ih =>
    have related : List.Forall₂ (Both fun u w => ∃ v, u.canonical = .ok v ∧ v.bare = w.bare)
        t.extra t.extra := by
      refine both_refl fun name u slot => ?_
      obtain ⟨c, done, same⟩ := ih name u slot fun v part => names v (mem_parts_of_slot slot part)
      exact ⟨c, done, beq_iff_bare.mp same⟩
    obtain ⟨out, mapped, alike⟩ := mapTypes_of_both related
    rw [IsCanonical, canonical_other notList (names t t.self_mem_parts), mapped]
    refine ⟨mk t.main out, rfl, beq_iff_bare.mpr ?_⟩
    cases t
    rw [bare, bare, alike]
    rfl

theorem RunLength.elem_notList (runs : t.RunLength) (parts : t.listParts = .ok (some (n, elem))) :
    elem.isList = false := by
  cases runs with
  | list found _ notList =>
    obtain ⟨rfl, rfl⟩ := listParts_unique parts found
    exact notList
  | other notList =>
    rw [isList_of_listParts parts] at notList
    cases notList

theorem RunLength.part (runs : t.RunLength) (part : u ∈ t.parts) : u.RunLength := by
  induction t using slotInduction with
  | step t inside =>
    rw [parts_eq] at part
    rcases List.mem_cons.mp part with rfl | part
    · exact runs
    · obtain ⟨name, v, slot, part⟩ := mem_slotParts.mp part
      exact inside name v slot (runs.slot slot) part

namespace WellFormed

theorem runLength (formed : t.WellFormed) : t.RunLength := formed.canonical.runLength formed.names

theorem slot {name : String} (formed : t.WellFormed) (slot : .type name u ∈ t.extra) : u.WellFormed where
  valid := (validate_iff.mp formed.valid).2 name u slot
  canonical := (formed.runLength.slot slot).isCanonical fun v part =>
    formed.names v (mem_parts_of_slot slot part)
  names v part := formed.names v (mem_parts_of_slot slot part)

theorem layered (formed : elem.WellFormed) (notList : elem.isList = false)
    (bounds : 1 ≤ n ∧ n ≤ Numeral.greatest) : (Ty.layered n elem).WellFormed := by
  have names := names_layered formed.names n
  have runs : (Ty.layered n elem).RunLength := .list (listParts_layered bounds) rfl notList formed.runLength
  exact ⟨validate_layered bounds formed.valid, runs.isCanonical names, names⟩

theorem of_slots (top : t.validateTop = .ok ()) (notList : t.isList = false)
    (distinct : (t.extra.map Slot.name).Nodup)
    (slots : ∀ name u, .type name u ∈ t.extra → u.WellFormed) : t.WellFormed := by
  have names : ∀ u ∈ t.parts, (u.extra.map Slot.name).Nodup :=
    forall_parts.mpr ⟨distinct, fun name u slot => (slots name u slot).names⟩
  have runs : t.RunLength := .other notList fun name u slot => (slots name u slot).runLength
  have valid : t.validate = .ok () :=
    validate_iff.mpr ⟨top, fun name u slot => (slots name u slot).valid⟩
  exact ⟨valid, runs.isCanonical names, names⟩

end WellFormed

/-! ### What is read -/

/-- A list in run-length form has its element alone, or after a count of two or more in plain decimal. -/
theorem RunLength.list_form (runs : t.RunLength) (list : t.isList = true) : ∃ elem, elem.isList = false ∧
    ((∃ name, t.extra = [.type name elem]) ∨ ∃ n : Int, 2 ≤ n ∧ n ≤ Numeral.greatest ∧
      ∃ name name', t.extra = [.value name (toString n), .type name' elem]) := by
  cases runs with
  | other notList =>
    rw [list] at notList
    cases notList
  | @list _ elem n parts form notList =>
    refine ⟨elem, notList, ?_⟩
    have bounds := listParts_bounds parts
    obtain ⟨_, ⟨_, name, slots⟩ | ⟨name, text, name', slots, _⟩⟩ := listParts_iff.mp parts
    · exact .inl ⟨name, slots⟩
    · have same := congrArg extra form
      rw [extra_bare, extra_bare, slots, extra_layered] at same
      by_cases one : n = 1
      · rw [if_pos one] at same
        cases same
      · rw [if_neg one] at same
        simp only [bareSlots, List.cons.injEq, Slot.value.injEq] at same
        exact .inr ⟨n, by omega, bounds.2, name, name', by rw [slots, same.1.2]⟩

theorem Written.names {generics : List String} {budget : Nat} (written : Written generics budget t) :
    ∀ u ∈ t.parts, (u.extra.map Slot.name).Nodup := by
  induction written with
  | @named budget names slots _ _ _ _ ih =>
    refine forall_parts.mpr ⟨nodup_numberFrom _ _, fun name u slot => ?_⟩
    obtain ⟨name', slot'⟩ := type_mem_numberFrom.mp ⟨name, slot⟩
    exact ih name' u slot'
  | @tuple budget components _ _ ih =>
    refine forall_parts.mpr ⟨nodup_numberFrom _ _, fun name u slot => ?_⟩
    exact ih u (type_mem_ofTypes.mp ⟨name, slot⟩)
  | list _ _ ih => exact names_layered ih _

theorem WellFormed.of_parse {text : String} {generics : List String} (read : parseBytes text generics = .ok t) :
    t.WellFormed := by
  obtain ⟨written, valid, fixed⟩ := parse_written read
  exact ⟨valid, ⟨t, fixed, beq_rfl t⟩, written.names⟩

/-- Every text of bytes that is accepted denotes a type that keeps the rules on shapes and is in canonical form.
Each list in it has its element alone, or after a count of two or more, and the element is no list. -/
theorem parse_wellFormed {text : String} {generics : List String} (read : parseBytes text generics = .ok t) :
    t.validate = .ok () ∧ (∃ u, t.canonical = .ok u ∧ (u == t) = true) ∧
      ∀ u ∈ t.parts, u.isList = true → ∃ elem, elem.isList = false ∧
        ((∃ name, u.extra = [.type name elem]) ∨ ∃ n : Int, 2 ≤ n ∧ n ≤ Numeral.greatest ∧
          ∃ name name', u.extra = [.value name (toString n), .type name' elem]) := by
  have formed := WellFormed.of_parse read
  exact ⟨formed.valid, formed.canonical, fun u part => (formed.runLength.part part).list_form⟩

theorem parse_wellFormed_nested : ∃ t,
    parseBytes "M\xe9p[list(2) list[list() T], list[1, \xff]]" ["T"] = .ok t ∧
      t.display = "M\xe9p[list(4) T, list() \xff]" ∧ t.validate = .ok () ∧
      (∃ u, t.canonical = .ok u ∧ (u == t) = true) := by
  have evaluated : (parseBytes "M\xe9p[list(2) list[list() T], list[1, \xff]]" ["T"]).toOption.any
      (·.display == "M\xe9p[list(4) T, list() \xff]") = true := by
    decide +kernel
  cases read : parseBytes "M\xe9p[list(2) list[list() T], list[1, \xff]]" ["T"] with
  | error fault =>
    rw [read] at evaluated
    cases evaluated
  | ok t =>
    rw [read] at evaluated
    obtain ⟨valid, canonical, _⟩ := parse_wellFormed read
    exact ⟨t, rfl, beq_iff_eq.mp evaluated, valid, canonical⟩

/-! ### What is substituted -/

/-- The layers of the list and those of the type that takes the place of its element add up to a number
of 64 bits. -/
def LayersFit (s : Subst) (t : Ty) : Prop :=
  ∀ n elem v k core, t.listParts = .ok (some (n, elem)) → elem.isParam = true →
    s.get? elem.main.leaf = some v → v.listParts = .ok (some (k, core)) → n + k ≤ Numeral.greatest

/-- No count of a list leaves the 64-bit range when `s` is applied. -/
def Fits (s : Subst) (t : Ty) : Prop := ∀ u ∈ t.parts, LayersFit s u

theorem Fits.slot {name : String} (fits : Fits s t) (slot : .type name u ∈ t.extra) : Fits s u :=
  fun v part => fits v (mem_parts_of_slot slot part)

theorem fits_of_isParam (parameter : t.isParam = true) : Fits s t := by
  refine forall_parts.mpr ⟨fun n elem v k core parts => ?_, fun name u slot => ?_⟩
  · rw [isParam_of_listParts parts] at parameter
    cases parameter
  · rw [List.isEmpty_iff.mp (Bool.and_eq_true_iff.mp parameter).1] at slot
    cases slot

theorem get?_of_replace (formed : t.WellFormed) (notList : t.isList = false) (done : t.replace s = .ok u)
    (list : u.isList = true) : t.isParam = true ∧ s.get? t.main.leaf = some u := by
  cases parameter : t.isParam with
  | true =>
    refine ⟨rfl, ?_⟩
    rw [replace_param parameter] at done
    obtain rfl := Except.ok.inj done
    cases bound : s.get? t.main.leaf with
    | some v => rfl
    | none =>
      rw [bound, Option.getD_none, notList] at list
      cases list
  | false =>
    obtain ⟨out, _, rfl⟩ := exists_of_replace parameter notList (formed.names t t.self_mem_parts) done
    rw [show (mk t.main out).isList = false from notList] at list
    cases list

theorem WellFormed.replace (formed : t.WellFormed) (images : ∀ x v, s.get? x = some v → v.WellFormed)
    (done : t.replace s = .ok r) (fits : Fits s t) : r.WellFormed := by
  induction t using formInduction generalizing r with
  | param t parameter =>
    rw [replace_param parameter] at done
    obtain rfl := Except.ok.inj done
    cases bound : s.get? t.main.leaf with
    | none => exact formed
    | some v => exact images _ v bound
  | list t n elem parts ih =>
    obtain ⟨_, name, slot⟩ := slotParts_of_listParts parts
    have bounds := listParts_bounds parts
    have notList := formed.runLength.elem_notList parts
    obtain ⟨u, inner, wrapped⟩ := (replace_list_eq_ok parts).mp done
    have below := ih (formed.slot slot) inner (fits.slot slot)
    cases below.runLength with
    | other notList =>
      rw [listN_layered bounds.1 notList] at wrapped
      obtain rfl := Except.ok.inj wrapped
      exact below.layered notList bounds
    | @list _ core k found _ notList' =>
      obtain ⟨parameter, bound⟩ :=
        get?_of_replace (formed.slot slot) notList inner (isList_of_listParts found)
      have total := fits t t.self_mem_parts n elem u k core parts parameter bound found
      have bounds' := listParts_bounds found
      obtain ⟨_, name', slot'⟩ := slotParts_of_listParts found
      rw [listN_of_listParts bounds.1 found total] at wrapped
      obtain rfl := Except.ok.inj wrapped
      exact (below.slot slot').layered notList' ⟨by omega, total⟩
  | malformed t v parts =>
    rw [replace_malformed parts] at done
    cases done
  | other t notParam notList ih =>
    have distinct := formed.names t t.self_mem_parts
    obtain ⟨out, mapped, rfl⟩ := exists_of_replace notParam notList distinct done
    have related := both_of_mapTypes mapped
    refine .of_slots ?_ notList ((names_mapTypes mapped).symm ▸ distinct) fun name u slot => ?_
    · obtain ⟨main, extra⟩ := t
      exact validateTop_both related notList (validate_iff.mp formed.valid).1
    · obtain ⟨name', v, slot', inner⟩ := exists_both (both_flip related) slot
      exact ih name' v slot' (formed.slot slot') inner (fits.slot slot')

theorem fits_of_validate (formed : t.WellFormed) (done : t.replace s = .ok r) (valid : r.validate = .ok ()) :
    Fits s t := by
  induction t using formInduction generalizing r with
  | param t parameter => exact fits_of_isParam parameter
  | list t n elem parts ih =>
    obtain ⟨_, name, slot⟩ := slotParts_of_listParts parts
    have bounds := listParts_bounds parts
    have notList := formed.runLength.elem_notList parts
    obtain ⟨u, inner, wrapped⟩ := (replace_list_eq_ok parts).mp done
    cases parameter : elem.isParam with
    | true =>
      refine forall_parts.mpr ⟨fun m elem' v k core parts' _ bound found => ?_, fun name' u' slot' => ?_⟩
      · obtain ⟨rfl, rfl⟩ := listParts_unique parts parts'
        rw [replace_param parameter, bound, Option.getD_some] at inner
        obtain rfl := Except.ok.inj inner
        rw [listN, if_neg (by omega), found, bind_ok] at wrapped
        obtain rfl := Except.ok.inj wrapped
        have inRange := layers_of_validateTop (validate_iff.mp valid).1
        have inside := listParts_bounds found
        rw [Numeral.wrap_eq_of_pos (by omega) bounds.2 inside.2 inRange.1] at inRange
        exact inRange.2
      · exact eq_elem_of_slot parts slot' ▸ fits_of_isParam parameter
    | false =>
      have notList' : u.isList = false := by
        cases list : u.isList with
        | false => rfl
        | true =>
          obtain ⟨isParam, _⟩ := get?_of_replace (formed.slot slot) notList inner list
          exact isParam.symm.trans parameter
      rw [listN_layered bounds.1 notList'] at wrapped
      obtain rfl := Except.ok.inj wrapped
      obtain ⟨name', slot'⟩ := elem_mem_layered n u
      have below := ih (formed.slot slot) inner ((validate_iff.mp valid).2 name' u slot')
      refine forall_parts.mpr ⟨fun m elem' v k core parts' isParam => ?_, fun name' u' slot' => ?_⟩
      · obtain ⟨rfl, rfl⟩ := listParts_unique parts parts'
        rw [parameter] at isParam
        cases isParam
      · exact eq_elem_of_slot parts slot' ▸ below
  | malformed t v parts =>
    rw [replace_malformed parts] at done
    cases done
  | other t notParam notList ih =>
    obtain ⟨out, mapped, rfl⟩ := exists_of_replace notParam notList (formed.names t t.self_mem_parts) done
    refine forall_parts.mpr ⟨fun n elem v k core parts => ?_, fun name u slot => ?_⟩
    · rw [isList_of_listParts parts] at notList
      cases notList
    · obtain ⟨name', v, slot', inner⟩ := exists_both (both_of_mapTypes mapped) slot
      exact ih name u slot (formed.slot slot) inner ((validate_iff.mp valid).2 name' v slot')

/-! ### Parameters -/

theorem params_param (x : String) : (param x).params = [x] := rfl

theorem mem_params_layered : x ∈ (layered n elem).params ↔ x ∈ elem.params := by
  obtain ⟨name, slot⟩ := elem_mem_layered n elem
  refine ⟨fun known => ?_, mem_params_of_slot slot⟩
  obtain ⟨name', u, slot', known⟩ := mem_params_slot (isParam_of_isList (isList_layered n elem)) known
  exact eq_elem_of_mem_layered slot' ▸ known

theorem mem_params_list (parts : t.listParts = .ok (some (n, elem))) : x ∈ t.params ↔ x ∈ elem.params := by
  obtain ⟨_, name, slot⟩ := slotParts_of_listParts parts
  refine ⟨fun known => ?_, mem_params_of_slot slot⟩
  obtain ⟨name', u, slot', known⟩ := mem_params_slot (isParam_of_listParts parts) known
  exact eq_elem_of_slot parts slot' ▸ known

theorem mem_params_listN (done : t.listN n = .ok u) : x ∈ u.params ↔ x ∈ t.params := by
  rcases listN_cases done with ⟨_, rfl⟩ | ⟨k, core, found, rfl⟩
  · exact mem_params_layered
  · rw [mem_params_layered, mem_params_list found]

theorem mem_params_replace (names : ∀ u ∈ t.parts, (u.extra.map Slot.name).Nodup)
    (done : t.replace s = .ok r) : x ∈ r.params ↔ ∃ y ∈ t.params, x ∈ (s.image y).params := by
  induction t using formInduction generalizing r with
  | param t parameter =>
    rw [replace_param parameter] at done
    obtain rfl := Except.ok.inj done
    have own : ∀ y, y ∈ t.params ↔ y = t.main.leaf :=
      fun y => ⟨eq_leaf_of_mem_params parameter, fun same => same ▸ leaf_mem_params parameter⟩
    simp only [own, exists_eq_left, Subst.image]
    cases s.get? t.main.leaf with
    | some v => exact Iff.rfl
    | none =>
      rw [Option.getD_none, Option.getD_none, own, params_param, List.mem_singleton]
  | list t n elem parts ih =>
    obtain ⟨_, name, slot⟩ := slotParts_of_listParts parts
    obtain ⟨u, inner, wrapped⟩ := (replace_list_eq_ok parts).mp done
    rw [mem_params_listN wrapped, ih (fun v part => names v (mem_parts_of_slot slot part)) inner]
    simp only [mem_params_list parts]
  | malformed t v parts =>
    rw [replace_malformed parts] at done
    cases done
  | other t notParam notList ih =>
    obtain ⟨out, mapped, rfl⟩ := exists_of_replace notParam notList (names t t.self_mem_parts) done
    have related := both_of_mapTypes mapped
    have ih := fun {name u w} (slot : .type name u ∈ t.extra) (done : u.replace s = .ok w) =>
      ih name u slot (fun v part => names v (mem_parts_of_slot slot part)) done
    constructor
    · intro known
      obtain ⟨name, u, slot, known⟩ := mem_params_slot ((isParam_mapTypes mapped).trans notParam) known
      obtain ⟨name', v, slot', inner⟩ := exists_both (both_flip related) slot
      obtain ⟨y, known', image⟩ := (ih slot' inner).mp known
      exact ⟨y, mem_params_of_slot slot' known', image⟩
    · rintro ⟨y, known, image⟩
      obtain ⟨name, u, slot, known⟩ := mem_params_slot notParam known
      obtain ⟨name', v, slot', inner⟩ := exists_both related slot
      exact mem_params_of_slot (t := mk t.main out) slot' ((ih slot inner).mpr ⟨y, known, image⟩)

theorem mem_params_image {y : String} : x ∈ (s.image y).params ↔
    (s.get? y = none ∧ x = y) ∨ ∃ v, s.get? y = some v ∧ x ∈ v.params := by
  unfold Subst.image
  cases s.get? y with
  | some v => simp
  | none => simp [params_param]

/-- Substituting well-formed types in a well-formed type makes a valid and canonical type exactly if no
count of a list leaves the 64-bit range. Its parameters are those that are not bound, and those of the
types that take the place of the others. -/
theorem apply_wellFormed {limit : Int} (formed : t.WellFormed) (bound : s.isEmpty = false)
    (images : ∀ x v, s.get? x = some v → v.WellFormed) (done : t.apply s limit = .ok r) :
    (Fits s t ↔ r.validate = .ok () ∧ ∃ u, r.canonical = .ok u ∧ (u == r) = true) ∧
      ∀ x, x ∈ r.params ↔ (x ∈ t.params ∧ s.get? x = none) ∨
        ∃ y ∈ t.params, ∃ v, s.get? y = some v ∧ x ∈ v.params := by
  rw [apply_of_ok bound bound done] at done
  refine ⟨⟨fun fits => ?_, fun ⟨valid, _⟩ => fits_of_validate formed done valid⟩, fun x => ?_⟩
  · have made := formed.replace images done fits
    exact ⟨made.valid, made.canonical⟩
  · rw [mem_params_replace formed.names done]
    simp only [mem_params_image]
    constructor
    · rintro ⟨y, known, ⟨free, rfl⟩ | image⟩
      · exact .inl ⟨known, free⟩
      · exact .inr ⟨y, known, image⟩
    · rintro (⟨known, free⟩ | ⟨y, known, image⟩)
      · exact ⟨x, known, .inl ⟨free, rfl⟩⟩
      · exact ⟨y, known, .inr image⟩

/-- The layers of a list and of what takes the place of its element, beside a parameter that stays. -/
theorem apply_wellFormed_pair : ∃ r,
    (named ⟨[{ kind := .classType, name := "Pair" }]⟩ [layered 2 (param "T"), param "U"]).apply
      ⟨[("T", layered 3 (param "V"))]⟩ 4 = .ok r ∧ r.validate = .ok () ∧
      (∃ u, r.canonical = .ok u ∧ (u == r) = true) ∧ "U" ∈ r.params ∧ "V" ∈ r.params := by
  have formed : (named ⟨[{ kind := .classType, name := "Pair" }]⟩
      [layered 2 (param "T"), param "U"]).WellFormed :=
    ⟨rfl, ⟨_, rfl, by decide +kernel⟩, by decide +kernel⟩
  have images : ∀ x v, Subst.get? ⟨[("T", layered 3 (param "V"))]⟩ x = some v →
      v = layered 3 (param "V") := by
    intro x v found
    rw [Subst.get?, List.lookup_cons] at found
    cases same : x == "T" <;> rw [same] at found <;> cases found
    rfl
  have fits : Fits ⟨[("T", layered 3 (param "V"))]⟩ (named ⟨[{ kind := .classType, name := "Pair" }]⟩
      [layered 2 (param "T"), param "U"]) := by
    intro u part n elem v k core parts _ found counted
    have listed : u ∈ [named ⟨[{ kind := .classType, name := "Pair" }]⟩
      [layered 2 (param "T"), param "U"], layered 2 (param "T"), param "T", param "U"] := part
    obtain rfl := images _ v found
    obtain ⟨rfl, rfl⟩ := eq_of_listParts_layered counted
    simp only [List.mem_cons, List.not_mem_nil, or_false] at listed
    rcases listed with rfl | rfl | rfl | rfl
    · cases parts
    · obtain ⟨rfl, rfl⟩ := eq_of_listParts_layered parts
      decide
    · cases parts
    · cases parts
  have image : (layered 3 (param "V")).WellFormed :=
    ⟨rfl, ⟨_, rfl, by decide +kernel⟩, by decide +kernel⟩
  obtain ⟨r, done⟩ : ∃ r, (named ⟨[{ kind := .classType, name := "Pair" }]⟩
      [layered 2 (param "T"), param "U"]).apply ⟨[("T", layered 3 (param "V"))]⟩ 4 = .ok r := ⟨_, rfl⟩
  obtain ⟨good, params⟩ := apply_wellFormed formed rfl (fun x v found => images x v found ▸ image) done
  obtain ⟨valid, canonical⟩ := good.mp fits
  exact ⟨r, done, valid, canonical, (params "U").mpr (.inl ⟨by decide +kernel, rfl⟩),
    (params "V").mpr (.inr ⟨"T", by decide +kernel, _, rfl, by decide +kernel⟩)⟩

end Ty

end TypeEngine
