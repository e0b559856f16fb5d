import TypeEngine.Proofs.Ty.Parts

/-!
# Types in good form

A regular type is canonical, keeps the names in each argument list apart and has no tuple of one
component. `Tidy` is what this comes to level by level: every list is in run-length form over an
element that is no list. Wrapping an element adds to the layers that it has already; `Layers`
counts them, however the count is written.
-/

namespace TypeEngine.Ty

variable {t u elem : Ty} {n : Int}

/-! ### Lists -/

theorem extra_layered (n : Int) (elem : Ty) : (layered n elem).extra =
    if n = 1 then [.type "1" elem] else [.value "1" (toString n), .type "2" elem] := rfl

theorem eq_elem_of_mem_layered {name : String} (slot : .type name u ∈ (layered n elem).extra) : u = elem := by
  rw [extra_layered] at slot
  split at slot <;> simp_all

theorem layered_congr (same : t.bare = u.bare) (n : Int) : (layered n t).bare = (layered n u).bare := by
  rw [← bare_layered, same, bare_layered]

theorem bare_of_list {main : Path} {slots : List Slot} (list : (main == .ofPrimitive "list") = true) :
    (mk main slots).bare = (mk (.ofPrimitive "list") slots).bare := by
  rw [bare, bare, Path.beq_iff_bare.mp list]

theorem listParts_iff : t.listParts = .ok (some (n, elem)) ↔ t.isList = true ∧
    ((n = 1 ∧ ∃ name, t.extra = [.type name elem]) ∨
      ∃ name text name', t.extra = [.value name text, .type name' elem] ∧
        Numeral.count? text = some n) := by
  constructor
  · intro parts
    unfold listParts layersOf at parts
    split at parts
    · rename_i list
      refine ⟨list, ?_⟩
      split at parts
      · rename_i name _ form
        obtain ⟨rfl, rfl⟩ := Prod.mk.inj (Option.some.inj (Except.ok.inj parts))
        exact .inl ⟨rfl, name, form⟩
      · cases parts
      · rename_i name text name' _ form
        split at parts
        · rename_i counted
          obtain ⟨rfl, rfl⟩ := Prod.mk.inj (Option.some.inj (Except.ok.inj parts))
          exact .inr ⟨name, text, name', form, counted⟩
        · cases parts
      · cases parts
      · cases parts
    · cases parts
  · rintro ⟨list, ⟨rfl, _, form⟩ | ⟨_, _, _, form, counted⟩⟩
    · rw [listParts, if_pos list, form]
      rfl
    · rw [listParts, if_pos list, form, layersOf, counted]
      rfl

/-- A list is written with its element alone, or with a count before it. -/
@[elab_as_elim]
theorem listParts_cases {motive : Ty → Int → Prop} (parts : t.listParts = .ok (some (n, elem)))
    (single : ∀ main name, (main == Path.ofPrimitive "list") = true →
      motive (mk main [.type name elem]) 1)
    (counted : ∀ main name text name', (main == Path.ofPrimitive "list") = true →
      Numeral.count? text = some n → motive (mk main [.value name text, .type name' elem]) n) :
    motive t n := by
  obtain ⟨main, extra⟩ := t
  obtain ⟨list, form⟩ := listParts_iff.mp parts
  rcases form with ⟨rfl, name, form⟩ | ⟨name, text, name', form, count⟩
  · obtain rfl : extra = [.type name elem] := form
    exact single main name list
  · obtain rfl : extra = [.value name text, .type name' elem] := form
    exact counted main name text name' list count

theorem listParts_bounds (parts : t.listParts = .ok (some (n, elem))) :
    1 ≤ n ∧ n ≤ Numeral.greatest := by
  obtain ⟨_, ⟨rfl, _⟩ | ⟨_, _, _, _, counted⟩⟩ := listParts_iff.mp parts
  · decide
  · exact Numeral.count?_bounds counted

theorem listParts_unique {m : Int} {elem' : Ty} (parts : t.listParts = .ok (some (n, elem)))
    (parts' : t.listParts = .ok (some (m, elem'))) : n = m ∧ elem = elem' :=
  Prod.mk.inj (Option.some.inj (Except.ok.inj (parts.symm.trans parts')))

theorem isList_of_listParts (parts : t.listParts = .ok (some (n, elem))) : t.isList = true :=
  (listParts_iff.mp parts).1

theorem listParts_of_notList (notList : t.isList = false) : t.listParts = .ok none := by
  rw [listParts, notList]
  rfl

theorem isList_of_none (parts : t.listParts = .ok none) : t.isList = false := by
  cases list : t.isList with
  | false => rfl
  | true =>
    rw [listParts, if_pos list] at parts
    cases layers : layersOf t.extra <;> rw [layers] at parts <;> cases parts

theorem isList_of_error {v : Violation} (parts : t.listParts = .error v) : t.isList = true := by
  cases list : t.isList with
  | true => rfl
  | false =>
    rw [listParts_of_notList list] at parts
    cases parts

theorem layersOf_of_error {v : Violation} (parts : t.listParts = .error v) :
    layersOf t.extra = .error v := by
  rw [listParts, if_pos (isList_of_error parts)] at parts
  exact error_of_map parts

theorem eq_elem_of_slot {name : String} (parts : t.listParts = .ok (some (n, elem)))
    (slot : .type name u ∈ t.extra) : u = elem := by
  obtain ⟨_, ⟨_, _, form⟩ | ⟨_, _, _, form, _⟩⟩ := listParts_iff.mp parts <;> simp_all

theorem slotParts_of_listParts (parts : t.listParts = .ok (some (n, elem))) :
    slotParts t.extra = elem.parts ∧ ∃ name, .type name elem ∈ t.extra := by
  obtain ⟨_, ⟨_, _, form⟩ | ⟨_, _, _, form, _⟩⟩ := listParts_iff.mp parts <;>
    simp [form, slotParts]

theorem listParts_layered (bounds : 1 ≤ n ∧ n ≤ Numeral.greatest) :
    (layered n elem).listParts = .ok (some (n, elem)) := listParts_layered_iff.mpr ⟨rfl, bounds⟩

theorem eq_of_listParts_layered {m : Int} {core : Ty}
    (parts : (layered n elem).listParts = .ok (some (m, core))) : m = n ∧ core = elem :=
  Prod.mk.inj (Option.some.inj (listParts_layered_iff.mp parts).1)

theorem listParts_layered_of_not (outside : ¬(1 ≤ n ∧ n ≤ Numeral.greatest)) :
    (layered n elem).listParts = .error (.listCount (toString n)) := by
  have several : n ≠ 1 := fun one => outside (by subst one; decide)
  have uncounted : Numeral.count? (toString n) = none := by
    rw [Option.eq_none_iff_forall_ne_some]
    intro m counted
    obtain ⟨rfl, bounds⟩ := Numeral.count?_toString_iff.mp counted
    exact outside bounds
  rw [listParts, if_pos (isList_layered n elem), extra_layered, if_neg several, layersOf, uncounted]
  rfl

theorem listParts_congr (same : t.bare = u.bare) (parts : t.listParts = .ok (some (n, elem))) :
    ∃ elem', u.listParts = .ok (some (n, elem')) ∧ elem'.bare = elem.bare := by
  have alike := congrArg listParts same
  rw [listParts_bare, listParts_bare, parts] at alike
  cases found : u.listParts with
  | error v =>
    rw [found] at alike
    cases alike
  | ok other =>
    rw [found] at alike
    cases other with
    | none => cases Except.ok.inj alike
    | some p =>
      obtain ⟨m, elem'⟩ := p
      obtain ⟨rfl, equal⟩ := Prod.mk.inj (Option.some.inj (Except.ok.inj alike))
      exact ⟨elem', rfl, equal.symm⟩

theorem layered_inj {m : Int} (bounds : 1 ≤ m ∧ m ≤ Numeral.greatest)
    (same : (layered n t).bare = (layered m u).bare) : n = m ∧ t.bare = u.bare := by
  obtain ⟨t', found, equal⟩ := listParts_congr same.symm (listParts_layered bounds)
  obtain ⟨rfl, rfl⟩ := eq_of_listParts_layered found
  exact ⟨rfl, equal⟩

/-- `n` layers over an element, none if `n` is zero. -/
def stacked (n : Int) (elem : Ty) : Ty := if n = 0 then elem else layered n elem

theorem stacked_zero (elem : Ty) : stacked 0 elem = elem := rfl

theorem stacked_pos (positive : 1 ≤ n) : stacked n elem = layered n elem := if_neg (by omega)

theorem peelOne_of_listParts (parts : t.listParts = .ok (some (n, elem)))
    (notList : elem.isList = false) : t.peelOne = .ok (some (stacked (n - 1) elem)) := by
  have bounds := listParts_bounds parts
  rw [peelOne, parts, bind_ok]
  by_cases one : n = 1
  · subst one
    rfl
  · have wrapped : listN elem (n - 1) = .ok (layered (n - 1) elem) :=
      listN_layered (by omega) notList
    dsimp only
    rw [if_neg one, wrapped, stacked_pos (by omega)]
    rfl

theorem listN_of_listParts {m : Int} (positive : 1 ≤ m) (parts : t.listParts = .ok (some (n, elem)))
    (total : m + n ≤ Numeral.greatest) : t.listN m = .ok (layered (m + n) elem) := by
  have bounds := listParts_bounds parts
  rw [listN, if_neg (by omega), parts, bind_ok]
  dsimp only
  rw [Numeral.wrap_eq_self (by omega) total]
  rfl

theorem exists_layered (done : t.listN n = .ok u) : ∃ k elem, u = layered k elem := by
  rcases listN_cases done with ⟨_, made⟩ | ⟨k, elem, _, made⟩
  · exact ⟨n, t, made⟩
  · exact ⟨_, elem, made⟩

/-- Every list in the type has layers that can be counted. -/
def Sound (t : Ty) : Prop := ∀ u ∈ t.parts, ∃ found, u.listParts = .ok found

theorem Sound.slot {name : String} (sound : t.Sound) (slot : .type name elem ∈ t.extra) :
    elem.Sound := fun u part => sound u (mem_parts_of_slot slot part)

theorem isParam_of_isList (list : t.isList = true) : t.isParam = false := by
  have path : t.main.bare = (Path.ofPrimitive "list").bare := Path.beq_iff_bare.mp list
  have other : t.main.isParameter = false := by
    rw [← Path.isParameter_bare, path, Path.isParameter_bare]
    rfl
  rw [isParam, other, Bool.and_false]

/-- Induction on the form of a type: a parameter, a list, a list that is malformed, or anything else
with its arguments. -/
@[elab_as_elim]
theorem formInduction {motive : Ty → Prop} (param : ∀ t, t.isParam = true → motive t)
    (list : ∀ t n elem, t.listParts = .ok (some (n, elem)) → motive elem → motive t)
    (malformed : ∀ t v, t.listParts = .error v → motive t)
    (other : ∀ t, t.isParam = false → t.isList = false →
      (∀ name u, .type name u ∈ t.extra → motive u) → motive t) (t : Ty) : motive t := by
  induction t using slotInduction with
  | step t inside =>
    cases parameter : t.isParam with
    | true => exact param t parameter
    | false =>
      cases parts : t.listParts with
      | error v => exact malformed t v parts
      | ok found =>
        cases found with
        | some p =>
          obtain ⟨n, elem⟩ := p
          obtain ⟨_, name, slot⟩ := slotParts_of_listParts parts
          exact list t n elem parts (inside name elem slot)
        | none => exact other t parameter (isList_of_none parts) inside

/-! ### Layers that an element brings along -/

/-- Up to equality, `t` is `n` layers over `elem`, in whatever way the count is written. -/
def Layers (t : Ty) (n : Int) (elem : Ty) : Prop :=
  (n = 0 ∧ t.isList = false ∧ t.bare = elem.bare) ∨
    ∃ inner, t.listParts = .ok (some (n, inner)) ∧ inner.bare = elem.bare

/-- The list with its count written in plain decimal. -/
def plain (t : Ty) : Ty :=
  match t.listParts with
  | .ok (some (n, elem)) => layered n elem
  | _ => t

theorem plain_of_listParts (parts : t.listParts = .ok (some (n, elem))) :
    t.plain = layered n elem := by
  rw [plain, parts]

theorem plain_of_notList (notList : t.isList = false) : t.plain = t := by
  rw [plain, listParts_of_notList notList]

theorem isList_plain (t : Ty) : t.plain.isList = t.isList := by
  unfold plain
  split
  · rename_i parts
    rw [isList_of_listParts parts, isList_layered]
  · rfl

theorem plain_layered (n : Int) (elem : Ty) : (layered n elem).plain = layered n elem := by
  unfold plain
  split
  · rename_i parts
    obtain ⟨rfl, rfl⟩ := eq_of_listParts_layered parts
    rfl
  · rfl

theorem plain_congr (same : t.bare = u.bare) : t.plain.bare = u.plain.bare := by
  cases parts : t.listParts with
  | ok found =>
    cases found with
    | some p =>
      obtain ⟨n, elem⟩ := p
      obtain ⟨elem', parts', equal⟩ := listParts_congr same parts
      rw [plain_of_listParts parts, plain_of_listParts parts', layered_congr equal]
    | none =>
      have alike := congrArg listParts same
      rw [listParts_bare, listParts_bare, parts] at alike
      have other : u.listParts = .ok none := by
        cases found : u.listParts with
        | error v =>
          rw [found] at alike
          cases alike
        | ok p =>
          rw [found] at alike
          cases p with
          | none => rfl
          | some p => cases Except.ok.inj alike
      rw [plain, plain, parts, other]
      exact same
  | error v =>
    have alike := congrArg listParts same
    rw [listParts_bare, listParts_bare, parts] at alike
    cases found : u.listParts with
    | ok p =>
      rw [found] at alike
      cases alike
    | error w =>
      rw [plain, plain, parts, found]
      exact same

namespace Layers

theorem plain (layers : Layers t n elem) : t.plain.bare = (stacked n elem).bare := by
  rcases layers with ⟨rfl, notList, same⟩ | ⟨inner, parts, same⟩
  · rw [plain_of_notList notList, stacked_zero, same]
  · rw [plain_of_listParts parts, stacked_pos (listParts_bounds parts).1, layered_congr same]

theorem of_plain (natural : 0 ≤ n) (small : n ≤ Numeral.greatest) (notList : elem.isList = false)
    (same : t.plain.bare = (stacked n elem).bare) : Layers t n elem := by
  by_cases zero : n = 0
  · subst zero
    have other : t.isList = false := by
      rw [← isList_plain, ← isList_bare, same, stacked_zero, isList_bare, notList]
    rw [plain_of_notList other] at same
    exact .inl ⟨rfl, other, same⟩
  · have bounds : 1 ≤ n ∧ n ≤ Numeral.greatest := ⟨by omega, small⟩
    rw [stacked_pos bounds.1] at same
    obtain ⟨inner, parts, equal⟩ := listParts_congr same.symm (listParts_layered bounds)
    -- the plain form can be read as a list only if the type itself can
    cases found : t.listParts with
    | ok p =>
      cases p with
      | some p =>
        obtain ⟨m, inner'⟩ := p
        rw [plain_of_listParts found] at same
        obtain ⟨rfl, equal'⟩ := layered_inj bounds same
        exact .inr ⟨inner', found, equal'⟩
      | none =>
        rw [Ty.plain, found] at parts
        rw [parts] at found
        cases found
    | error v =>
      rw [Ty.plain, found] at parts
      rw [parts] at found
      cases found

theorem listN {m : Int} (layers : Layers t n elem) (positive : 1 ≤ m)
    (small : m + n ≤ Numeral.greatest) :
    ∃ u, t.listN m = .ok u ∧ u.bare = (layered (m + n) elem).bare := by
  rcases layers with ⟨rfl, notList, same⟩ | ⟨inner, parts, same⟩
  · exact ⟨_, listN_layered positive notList, by rw [Int.add_zero, layered_congr same]⟩
  · exact ⟨_, listN_of_listParts positive parts small, layered_congr same _⟩

theorem of_listN {m k : Int} (start : 1 ≤ m ∧ m ≤ Numeral.greatest) (done : t.listN m = .ok u)
    (bounds : 1 ≤ k ∧ k ≤ Numeral.greatest) (same : u.bare = (layered k elem).bare) :
    ∃ n, 0 ≤ n ∧ k = m + n ∧ Layers t n elem := by
  rcases listN_cases done with ⟨found, rfl⟩ | ⟨n, inner, found, rfl⟩
  · obtain ⟨rfl, equal⟩ := layered_inj bounds same
    exact ⟨0, Int.le_refl 0, (Int.add_zero _).symm, .inl ⟨rfl, isList_of_none found, equal⟩⟩
  · obtain ⟨total, equal⟩ := layered_inj bounds same
    have inside := listParts_bounds found
    have exact := Numeral.wrap_eq_of_pos (by omega) start.2 inside.2 (total ▸ bounds.1)
    exact ⟨n, by omega, by omega, .inr ⟨inner, found, equal⟩⟩

end Layers

/-! ### Run-length form -/

/-- Every list is in run-length form over an element that is no list. -/
inductive RunLength : Ty → Prop where
  | list {t elem : Ty} {n : Int} : t.listParts = .ok (some (n, elem)) →
      t.bare = (layered n elem).bare → elem.isList = false → RunLength elem → RunLength t
  | other {t : Ty} : t.isList = false → (∀ name u, .type name u ∈ t.extra → RunLength u) → RunLength t

theorem RunLength.slot {name : String} (runs : t.RunLength) (slot : .type name u ∈ t.extra) :
    u.RunLength := by
  cases runs with
  | list parts _ _ inner => exact eq_elem_of_slot parts slot ▸ inner
  | other _ inner => exact inner name u slot

theorem RunLength.sound (runs : t.RunLength) : t.Sound := by
  induction runs with
  | @list t elem n parts _ _ _ ih =>
    refine forall_parts.mpr ⟨⟨_, parts⟩, fun name u slot => ?_⟩
    obtain rfl := eq_elem_of_slot parts slot
    exact ih
  | other notList _ ih => exact forall_parts.mpr ⟨⟨none, listParts_of_notList notList⟩, ih⟩

/-! ### Tidy types -/

/-- Every list is in run-length form over an element that is no list, and no tuple has a single
component. -/
inductive Tidy : Ty → Prop where
  | list {t elem : Ty} {n : Int} : t.listParts = .ok (some (n, elem)) →
      t.bare = (layered n elem).bare → elem.isList = false → Tidy elem → Tidy t
  | other {t : Ty} : t.isList = false → (t.isTuple = true → t.extra.length ≠ 1) →
      (∀ name u, .type name u ∈ t.extra → Tidy u) → Tidy t

theorem RunLength.tidy (runs : t.RunLength)
    (tuples : ∀ u ∈ t.parts, u.isTuple = true → u.extra.length ≠ 1) : t.Tidy := by
  induction runs with
  | list parts form notList _ ih =>
    obtain ⟨_, name, slot⟩ := slotParts_of_listParts parts
    exact .list parts form notList (ih fun u part => tuples u (mem_parts_of_slot slot part))
  | @other t notList _ ih =>
    exact .other notList (tuples t t.self_mem_parts) fun name u slot =>
      ih name u slot fun v part => tuples v (mem_parts_of_slot slot part)

namespace Tidy

theorem runLength (tidy : Tidy t) : t.RunLength := by
  induction tidy with
  | list parts form notList _ ih => exact .list parts form notList ih
  | other notList _ _ ih => exact .other notList ih

theorem list_inv (tidy : Tidy t) (list : t.isList = true) : ∃ n elem,
    t.listParts = .ok (some (n, elem)) ∧ t.bare = (layered n elem).bare ∧ elem.isList = false ∧
      Tidy elem := by
  cases tidy with
  | list parts form notList inner => exact ⟨_, _, parts, form, notList, inner⟩
  | other notList =>
    rw [list] at notList
    cases notList

theorem slots (tidy : Tidy t) (notList : t.isList = false) :
    ∀ name u, .type name u ∈ t.extra → Tidy u := by
  cases tidy with
  | list parts =>
    rw [isList_of_listParts parts] at notList
    cases notList
  | other _ _ inner => exact inner

theorem stacked (natural : 0 ≤ n) (small : n ≤ Numeral.greatest) (notList : elem.isList = false)
    (tidy : Tidy elem) : Tidy (stacked n elem) := by
  by_cases zero : n = 0
  · subst zero
    exact tidy
  · rw [stacked_pos (by omega)]
    exact .list (listParts_layered ⟨by omega, small⟩) rfl notList tidy

theorem unwrap_eq (tidy : Tidy t) : t.unwrap = t := by
  have single : t.isTuple = true → t.extra.length ≠ 1 := by
    cases tidy with
    | list parts =>
      -- a list is no tuple
      intro tuple
      have list := isList_of_listParts parts
      rw [isList, Path.beq_iff_bare] at list
      rw [isTuple, Path.beq_iff_bare, list, ← Path.beq_iff_bare] at tuple
      exact absurd tuple (by decide)
    | other _ single => exact single
  fun_cases unwrap t with
  | case1 main name u tuple => exact absurd rfl (single tuple)
  | case2 => rfl
  | case3 => rfl

theorem plain_eq (tidy : Tidy t) (same : u.bare = t.bare) : u.plain.bare = t.bare := by
  cases tidy with
  | list parts form =>
    obtain ⟨elem', parts', equal⟩ := listParts_congr same.symm parts
    rw [plain_of_listParts parts', form, layered_congr equal]
  | other notList =>
    have notList : u.isList = false := by rw [← isList_bare, same, isList_bare, notList]
    rw [plain_of_notList notList, same]

end Tidy

/-! ### Regular types -/

/-- The canonical form of the type is equal to the type. -/
def IsCanonical (t : Ty) : Prop := ∃ u, t.canonical = .ok u ∧ (u == t) = true

/-- The type is canonical, at every level the names of the slots are different and no tuple has a
single component, and generic parameters are paths of one block. -/
structure Regular (t : Ty) : Prop where
  canonical : t.IsCanonical
  names : ∀ u ∈ t.parts, (u.extra.map Slot.name).Nodup
  tuples : ∀ u ∈ t.parts, u.isTuple = true → u.extra.length ≠ 1
  params : ∀ u ∈ t.parts, u.isParam = true → u.main.blocks.length = 1

theorem canonical_list (parts : t.listParts = .ok (some (n, elem))) :
    t.canonical = elem.canonical >>= fun u => u.listN n := by
  refine listParts_cases parts (fun main name isList => ?_) fun main name text name' isList counted => ?_
  · rw [canonical.eq_def (mk _ _)]
    dsimp only
    rw [if_pos isList]
  · rw [canonical.eq_def (mk _ _)]
    dsimp only
    rw [if_pos isList, counted]

theorem canonical_malformed {v : Violation} (parts : t.listParts = .error v) : t.canonical = .error v := by
  have list := isList_of_error parts
  have layers := layersOf_of_error parts
  obtain ⟨main, extra⟩ := t
  have layers : layersOf extra = .error v := layers
  unfold canonical
  rw [if_pos (by exact list)]
  split
  · cases layers
  · rw [layersOf] at layers
    split
    · rename_i counted
      rw [counted] at layers
      cases layers
    · rename_i counted
      rw [counted] at layers
      cases layers
      rfl
  · rw [layers]
    rfl

/-- A list equal to one in run-length form is in run-length form itself. -/
theorem bare_of_listParts {k : Int} {core : Ty} (parts : t.listParts = .ok (some (n, elem)))
    (same : (layered k core).bare = t.bare) : t.bare = (layered n elem).bare := by
  revert same
  refine listParts_cases parts (fun main name isList _ => ?_)
    fun main name text name' isList counted same => ?_
  · rw [bare_of_list isList]
    simp [layered, bare, bareSlots]
  · rw [bare_of_list isList] at same ⊢
    by_cases one : k = 1
    · rw [layered, if_pos one] at same
      cases same
    · rw [layered, if_neg one] at same
      simp only [bare, bareSlots, mk.injEq, List.cons.injEq, Slot.value.injEq, Slot.type.injEq,
        true_and, and_true] at same
      obtain ⟨rfl, _⟩ := Numeral.count?_toString_iff.mp (same.1 ▸ counted)
      rw [layered, if_neg one]
      simp [bare, bareSlots, same.1]

theorem IsCanonical.list (canonical : t.IsCanonical) (list : t.isList = true) : ∃ n elem,
    t.listParts = .ok (some (n, elem)) ∧ t.bare = (layered n elem).bare ∧ elem.isList = false ∧
      elem.IsCanonical := by
  obtain ⟨c, done, same⟩ := canonical
  rw [beq_iff_bare] at same
  cases parts : t.listParts with
  | error v =>
    rw [canonical_malformed parts] at done
    cases done
  | ok found =>
    cases found with
    | none =>
      rw [isList_of_none parts] at list
      cases list
    | some p =>
      obtain ⟨n, elem⟩ := p
      rw [canonical_list parts] at done
      obtain ⟨c', inner, wrapped⟩ := exists_of_bind done
      have bounds := listParts_bounds parts
      have form : t.bare = (layered n elem).bare := by
        obtain ⟨k, core, rfl⟩ := exists_layered wrapped
        exact bare_of_listParts parts same
      -- wrapping the canonical element gives the list back, so the element brings no layers along
      obtain ⟨j, natural, total, layers⟩ := Layers.of_listN bounds wrapped bounds (same.trans form)
      rcases layers with ⟨_, notList, equal⟩ | ⟨inside, found, _⟩
      · refine ⟨n, elem, rfl, form, ?_, c', inner, beq_iff_bare.mpr equal⟩
        rw [← isList_bare, ← equal, isList_bare, notList]
      · have := (listParts_bounds found).1
        omega

theorem canonical_other (notList : t.isList = false) (distinct : (t.extra.map Slot.name).Nodup) :
    t.canonical = Slot.mapTypes canonical t.extra >>= fun slots => .ok (mk t.main slots) := by
  obtain ⟨main, extra⟩ := t
  have notList : ¬(main == .ofPrimitive "list") = true := Bool.eq_false_iff.mp notList
  have distinct : (extra.map Slot.name).Nodup := distinct
  unfold canonical
  rw [if_neg notList, canonicalSlots_eq_putTypes, Slot.putTypes_eq distinct]
  rfl

theorem IsCanonical.slots (canonical : t.IsCanonical) (notList : t.isList = false)
    (distinct : (t.extra.map Slot.name).Nodup) : ∀ name u, .type name u ∈ t.extra → u.IsCanonical := by
  obtain ⟨c, done, same⟩ := canonical
  rw [canonical_other notList distinct] at done
  obtain ⟨out, mapped, done⟩ := exists_of_bind done
  obtain rfl := Except.ok.inj done
  obtain ⟨main, extra⟩ := t
  rw [beq_iff_bare, bare, bare, mk.injEq, Slot.bareSlots_eq_iff] at same
  have related := Slot.both_comp (Slot.both_of_mapTypes mapped) same.2
  intro name u member
  obtain ⟨c', inner, equal⟩ := Slot.both_diagonal related name u member
  exact ⟨c', inner, beq_iff_bare.mpr equal⟩

theorem IsCanonical.bare_plain (canonical : t.IsCanonical) : t.plain.bare = t.bare := by
  cases list : t.isList with
  | true =>
    obtain ⟨n, elem, parts, form, _⟩ := canonical.list list
    rw [plain_of_listParts parts, form]
  | false => rw [plain_of_notList list]

theorem IsCanonical.runLength (canonical : t.IsCanonical)
    (names : ∀ u ∈ t.parts, (u.extra.map Slot.name).Nodup) : t.RunLength := by
  induction t using slotInduction with
  | step t inside =>
    have inside := fun name u slot canonical => inside name u slot canonical
      fun v member => names v (mem_parts_of_slot slot member)
    cases list : t.isList with
    | true =>
      obtain ⟨n, elem, parts, form, notList, canonical⟩ := canonical.list list
      obtain ⟨_, name, slot⟩ := slotParts_of_listParts parts
      exact .list parts form notList (inside name elem slot canonical)
    | false =>
      have slots := canonical.slots list (names t t.self_mem_parts)
      exact .other list fun name u slot => inside name u slot (slots name u slot)

theorem Regular.tidy (regular : t.Regular) : t.Tidy :=
  (regular.canonical.runLength regular.names).tidy regular.tuples

end TypeEngine.Ty
