import TypeEngine.Proofs.Ty.Tidy
import TypeEngine.Ty.Subst

/-!
# Substitution in tidy types

One equation for each form of type, then what they come to: a substitution that binds none of the
parameters of a type gives the type back (`applyAt_self`), the limit on the depth only turns answers
into refusals (`applyAt_limit`), and two substitutions with the same images, as far as plain counts
go, give equal types (`applyAt_transfer`).
-/

namespace TypeEngine

open Slot

/-- The type that takes the place of the parameter `x`: the parameter itself if nothing else. -/
def Subst.image (s : Subst) (x : String) : Ty := (s.get? x).getD (.param x)

theorem Subst.get?_of_isEmpty {s : Subst} (empty : s.isEmpty = true) (x : String) :
    s.get? x = none := by
  rw [get?, List.isEmpty_iff.mp empty]
  rfl

namespace Ty

variable {s σ : Subst} {limit depth : Nat} {t u a elem : Ty} {n : Int} {x : String}

theorem applySlots_eq_putTypes (slots out : List Slot) :
    applySlots s limit depth slots out = putTypes (applyAt s limit (depth + 1)) slots out := by
  induction slots generalizing out with
  | nil => rw [applySlots, putTypes]
  | cons slot slots ih => cases slot <;> simp only [applySlots, putTypes, ih]

/-! ### One equation for each form -/

theorem applyAt_deep (deep : limit < depth) (t : Ty) :
    applyAt s limit depth t = .error (.tooComplex .substitute limit) := by
  cases t
  unfold applyAt
  rw [if_pos deep]

theorem shallow_of_ok (done : applyAt s limit depth t = .ok u) : ¬limit < depth := by
  intro deep
  rw [applyAt_deep deep] at done
  cases done

theorem applyAt_param (shallow : ¬limit < depth) (parameter : t.isParam = true) :
    applyAt s limit depth t = .ok ((s.get? t.main.leaf).getD t) := by
  obtain ⟨main, extra⟩ := t
  have parameter : (extra.isEmpty && main.isParameter) = true := parameter
  unfold applyAt
  rw [if_neg shallow, if_pos parameter]
  rfl

theorem applyAt_list (shallow : ¬limit < depth) (parts : t.listParts = .ok (some (n, elem))) :
    applyAt s limit depth t =
      (applyAt s limit (depth + 1) elem >>= fun u => (u.listN n).mapError .broken) := by
  refine listParts_cases parts (fun main name isList => ?_) fun main name text name' isList counted => ?_
  · conv => lhs; unfold applyAt
    rw [if_neg shallow, if_neg (by simp), if_pos isList]
  · conv => lhs; unfold applyAt
    rw [if_neg shallow, if_neg (by simp), if_pos isList]
    dsimp only
    rw [counted]

theorem applyAt_malformed {v : Violation} (shallow : ¬limit < depth) (parts : t.listParts = .error v) :
    applyAt s limit depth t = .error (.broken v) := by
  have list := isList_of_error parts
  have notParam := isParam_of_isList list
  have layers := layersOf_of_error parts
  obtain ⟨main, extra⟩ := t
  have notParam : ¬(extra.isEmpty && main.isParameter) = true := Bool.eq_false_iff.mp notParam
  have list : (main == .ofPrimitive "list") = true := list
  have layers : layersOf extra = .error v := layers
  unfold applyAt
  rw [if_neg shallow, if_neg notParam, if_pos list]
  split
  · cases layers
  · rw [layersOf] at layers
    split
    · rename_i counted
      rw [counted] at layers
      cases layers
    · rename_i counted
      rw [counted] at layers
      cases layers
      rfl
  · rw [layers]
    rfl

theorem applyAt_named (shallow : ¬limit < depth) (notParam : t.isParam = false)
    (notList : t.isList = false) : applyAt s limit depth t =
      (putTypes (applyAt s limit (depth + 1)) t.extra t.extra).map (mk t.main) := by
  obtain ⟨main, extra⟩ := t
  have notParam : ¬(extra.isEmpty && main.isParameter) = true := Bool.eq_false_iff.mp notParam
  have notList : ¬(main == .ofPrimitive "list") = true := Bool.eq_false_iff.mp notList
  conv => lhs; unfold applyAt
  rw [if_neg shallow, if_neg notParam, if_neg notList, applySlots_eq_putTypes]
  cases h : putTypes (applyAt s limit (depth + 1)) extra extra <;>
    simp only [Ty.extra, Ty.main, h] <;> rfl

theorem applyAt_other (shallow : ¬limit < depth) (notParam : t.isParam = false)
    (notList : t.isList = false) (distinct : (t.extra.map Slot.name).Nodup) :
    applyAt s limit depth t = (mapTypes (applyAt s limit (depth + 1)) t.extra).map (mk t.main) := by
  rw [applyAt_named shallow notParam notList, putTypes_eq distinct]

/-! ### Declared types -/

/-- The names of slots are different and parameters are paths of one block, at every level. -/
structure IsPattern (t : Ty) : Prop where
  names : ∀ u ∈ t.parts, (u.extra.map Slot.name).Nodup
  params : ∀ u ∈ t.parts, u.isParam = true → u.main.blocks.length = 1

theorem Regular.isPattern (regular : t.Regular) : t.IsPattern := ⟨regular.names, regular.params⟩

namespace IsPattern

theorem slot {name : String} (pattern : t.IsPattern) (slot : .type name u ∈ t.extra) :
    u.IsPattern :=
  ⟨fun v member => pattern.names v (mem_parts_of_slot slot member),
    fun v member => pattern.params v (mem_parts_of_slot slot member)⟩

theorem stacked (pattern : elem.IsPattern) (n : Int) : (stacked n elem).IsPattern := by
  unfold Ty.stacked
  split
  · exact pattern
  have inside : ∀ u ∈ (layered n elem).parts, u = layered n elem ∨ u ∈ elem.parts := by
    intro u member
    rw [parts_eq, List.mem_cons, mem_slotParts] at member
    rcases member with same | ⟨name, v, slot, member⟩
    · exact .inl same
    · exact .inr (eq_elem_of_mem_layered slot ▸ member)
  constructor
  · intro u member
    rcases inside u member with rfl | member
    · rw [extra_layered]
      split <;> simp [Slot.name]
    · exact pattern.names u member
  · intro u member parameter
    rcases inside u member with rfl | member
    · have empty := (Bool.and_eq_true_iff.mp parameter).1
      rw [extra_layered] at empty
      split at empty <;> cases empty
    · exact pattern.params u member parameter

theorem bare_param (pattern : t.IsPattern) (parameter : t.isParam = true) :
    t.bare = (param t.main.leaf).bare := by
  have length := pattern.params t t.self_mem_parts parameter
  obtain ⟨main, extra⟩ := t
  obtain ⟨empty, kind⟩ := Bool.and_eq_true_iff.mp parameter
  obtain rfl : extra = [] := List.isEmpty_iff.mp empty
  obtain ⟨blocks⟩ := main
  match blocks, length with
  | [block], _ =>
    have kind : block.kind = .parameter := by simpa [Path.isParameter, Path.last?, Ty.main] using kind
    simp [param, Path.ofParameter, Path.leaf, Path.last?, bare, bareSlots, Path.bare, Block.bare, kind,
      Ty.main]

theorem bare_image (pattern : t.IsPattern) (parameter : t.isParam = true) (σ : Subst) :
    ((σ.get? t.main.leaf).getD t).bare = (σ.image t.main.leaf).bare := by
  unfold Subst.image
  cases σ.get? t.main.leaf with
  | none => exact pattern.bare_param parameter
  | some u => rfl

end IsPattern

theorem mem_params_of_slot {name : String} (slot : .type name u ∈ t.extra) (known : x ∈ u.params) :
    x ∈ t.params := by
  rw [mem_params_iff] at known ⊢
  obtain ⟨v, part, parameter⟩ := known
  exact ⟨v, mem_parts_of_slot slot part, parameter⟩

theorem leaf_mem_params (parameter : t.isParam = true) : t.main.leaf ∈ t.params :=
  mem_params_iff.mpr ⟨t, t.self_mem_parts, parameter, rfl⟩

theorem eq_leaf_of_mem_params (parameter : t.isParam = true) (known : x ∈ t.params) : x = t.main.leaf := by
  obtain ⟨u, part, _, rfl⟩ := mem_params_iff.mp known
  have empty : t.extra = [] := List.isEmpty_iff.mp (Bool.and_eq_true_iff.mp parameter).1
  rw [parts_eq, empty, slotParts, List.mem_singleton] at part
  rw [part]

theorem mem_params_slot (notParam : t.isParam = false) (known : x ∈ t.params) :
    ∃ name u, .type name u ∈ t.extra ∧ x ∈ u.params := by
  obtain ⟨u, part, parameter, leaf⟩ := mem_params_iff.mp known
  rw [parts_eq] at part
  rcases List.mem_cons.mp part with rfl | part
  · rw [notParam] at parameter
    cases parameter
  · obtain ⟨name, v, slot, inside⟩ := mem_slotParts.mp part
    exact ⟨name, v, slot, mem_params_iff.mpr ⟨u, inside, parameter, leaf⟩⟩

theorem isParam_of_listParts (parts : t.listParts = .ok (some (n, elem))) : t.isParam = false := by
  obtain ⟨_, name, slot⟩ := slotParts_of_listParts parts
  unfold isParam
  cases extra : t.extra with
  | nil =>
    rw [extra] at slot
    cases slot
  | cons => rfl

/-! ### Results -/

theorem applyAt_self (runs : t.RunLength) (names : ∀ u ∈ t.parts, (u.extra.map Slot.name).Nodup)
    (free : ∀ x ∈ t.params, s.get? x = none) (shallow : depth + t.nesting ≤ limit) :
    ∃ u, applyAt s limit depth t = .ok u ∧ u.bare = t.bare := by
  induction runs generalizing depth with
  | @list t elem n parts form notList _ ih =>
    obtain ⟨_, name, slot⟩ := slotParts_of_listParts parts
    have deeper := nesting_slot slot
    obtain ⟨u, inner, same⟩ := @ih (depth + 1) (fun v member => names v (mem_parts_of_slot slot member))
      (fun x known => free x (mem_params_of_slot slot known)) (by omega)
    have other : u.isList = false := by rw [← isList_bare, same, isList_bare, notList]
    refine ⟨layered n u, ?_, by rw [form, layered_congr same]⟩
    rw [applyAt_list (by omega) parts, inner, bind_ok, listN_layered (listParts_bounds parts).1 other]
    rfl
  | @other t notList _ ih =>
    cases parameter : t.isParam with
    | true =>
      rw [applyAt_param (by omega) parameter, free _ (leaf_mem_params parameter)]
      exact ⟨t, rfl, rfl⟩
    | false =>
      have related : List.Forall₂ (Both fun v w => ∃ u, applyAt s limit (depth + 1) v = .ok u ∧
          u.bare = w.bare) t.extra t.extra := by
        refine both_refl fun name v slot => ?_
        have deeper := nesting_slot slot
        exact ih name v slot (fun w member => names w (mem_parts_of_slot slot member))
          (fun x known => free x (mem_params_of_slot slot known)) (by omega)
      obtain ⟨out, mapped, alike⟩ := mapTypes_of_both related
      rw [applyAt_other (by omega) parameter notList (names t t.self_mem_parts), mapped]
      exact ⟨mk t.main out, rfl, by cases t; rw [bare, bare, alike]; rfl⟩

theorem applyAt_limit {more depth' : Nat} (within : limit + depth' ≤ more + depth) (t : Ty) :
    applyAt s limit depth t = .error (.tooComplex .substitute limit) ∨
      applyAt s limit depth t = applyAt s more depth' t := by
  induction t using formInduction generalizing depth depth' with
  | param t parameter =>
    by_cases deep : limit < depth
    · exact .inl (applyAt_deep deep t)
    · exact .inr (by rw [applyAt_param deep parameter, applyAt_param (by omega) parameter])
  | list t n elem parts ih =>
    by_cases deep : limit < depth
    · exact .inl (applyAt_deep deep t)
    rw [applyAt_list deep parts, applyAt_list (by omega) parts]
    rcases @ih (depth + 1) (depth' + 1) (by omega) with refused | same
    · rw [refused]
      exact .inl rfl
    · rw [same]
      exact .inr rfl
  | malformed t v parts =>
    by_cases deep : limit < depth
    · exact .inl (applyAt_deep deep t)
    · exact .inr (by rw [applyAt_malformed deep parts, applyAt_malformed (by omega) parts])
  | other t notParam notList ih =>
    by_cases deep : limit < depth
    · exact .inl (applyAt_deep deep t)
    rw [applyAt_named deep notParam notList, applyAt_named (by omega) notParam notList]
    have inner := fun name v slot => @ih name v slot (depth + 1) (depth' + 1) (by omega)
    rcases putTypes_cases inner t.extra with refused | same
    · rw [refused]
      exact .inl rfl
    · rw [same]
      exact .inr rfl

/-- A substitution fails only below the limit's depth, or on a list that breaks a rule of lists. -/
theorem applyAt_error {fault : Fault} (failed : applyAt s limit depth t = .error fault) :
    fault = .tooComplex .substitute limit ∧ limit < depth + t.nesting ∨ ∃ v, fault = .broken v := by
  induction t using formInduction generalizing depth with
  | param t parameter =>
    by_cases deep : limit < depth
    · rw [applyAt_deep deep] at failed
      exact .inl ⟨(Except.error.inj failed).symm, by omega⟩
    · rw [applyAt_param deep parameter] at failed
      cases failed
  | list t n elem parts ih =>
    by_cases deep : limit < depth
    · rw [applyAt_deep deep] at failed
      exact .inl ⟨(Except.error.inj failed).symm, by omega⟩
    rw [applyAt_list deep parts] at failed
    cases done : applyAt s limit (depth + 1) elem with
    | error other =>
      rw [done] at failed
      cases failed
      obtain ⟨_, name, slot⟩ := slotParts_of_listParts parts
      have deeper := nesting_slot slot
      exact (ih done).imp_left fun ⟨limited, past⟩ => ⟨limited, by omega⟩
    | ok u =>
      rw [done, bind_ok] at failed
      obtain ⟨v, _, broken⟩ := exists_of_mapError failed
      exact .inr ⟨v, broken⟩
  | malformed t v parts =>
    by_cases deep : limit < depth
    · rw [applyAt_deep deep] at failed
      exact .inl ⟨(Except.error.inj failed).symm, by omega⟩
    · rw [applyAt_malformed deep parts] at failed
      exact .inr ⟨v, (Except.error.inj failed).symm⟩
  | other t notParam notList ih =>
    by_cases deep : limit < depth
    · rw [applyAt_deep deep] at failed
      exact .inl ⟨(Except.error.inj failed).symm, by omega⟩
    rw [applyAt_named deep notParam notList] at failed
    obtain ⟨name, u, slot, inner⟩ := exists_of_putTypes_error (error_of_map failed)
    have deeper := nesting_slot slot
    exact (ih name u slot inner).imp_left fun ⟨limited, past⟩ => ⟨limited, by omega⟩

theorem applyAt_shallow {s : Subst} {limit depth : Nat} (shallow : depth + t.nesting ≤ limit) :
    applyAt s limit depth t ≠ .error (.tooComplex .substitute limit) := by
  intro failed
  rcases applyAt_error failed with ⟨_, past⟩ | ⟨v, broken⟩
  · omega
  · cases broken

theorem applyAt_ne_malformed {cause : ParseError} (depth : Nat) (t : Ty) :
    applyAt s limit depth t ≠ .error (.malformed cause) := by
  intro failed
  rcases applyAt_error failed with ⟨limited, _⟩ | ⟨v, broken⟩
  · cases limited
  · cases broken

theorem apply_ne_malformed {cause : ParseError} {limit : Int} (t : Ty) :
    t.apply s limit ≠ .error (.malformed cause) := by
  unfold apply
  split
  · nofun
  · exact applyAt_ne_malformed 0 t

theorem apply_more {s : Subst} {limit more : Nat} (positive : 0 < limit) (within : limit ≤ more)
    (shallow : t.nesting ≤ limit) : t.apply s more = t.apply s limit := by
  unfold apply
  split
  · rfl
  · have answers : applyAt s limit 0 t ≠ .error (.tooComplex .substitute limit) :=
      applyAt_shallow (by omega)
    rw [if_neg (by omega), if_neg (by omega), Int.toNat_natCast, Int.toNat_natCast]
    exact ((applyAt_limit (Nat.add_le_add_right within 0) t).resolve_left answers).symm

theorem apply_ok {s : Subst} {limit more : Nat} {u : Ty} (positive : 0 < limit)
    (within : limit ≤ more) (done : t.apply s limit = .ok u) : t.apply s more = .ok u := by
  unfold apply at done ⊢
  split
  · rename_i empty
    rw [if_pos empty] at done
    exact done
  · rename_i some
    rw [if_neg some, if_neg (by omega), Int.toNat_natCast] at done
    rw [if_neg (by omega), Int.toNat_natCast]
    rcases applyAt_limit (Nat.add_le_add_right within 0) t with refused | same
    · rw [done] at refused
      cases refused
    · rw [← same, done]

theorem applyAt_agree (t : Ty) (agree : ∀ x ∈ t.params, s.get? x = σ.get? x) :
    applyAt s limit depth t = applyAt σ limit depth t := by
  induction t using formInduction generalizing depth with
  | param t parameter =>
    by_cases deep : limit < depth
    · rw [applyAt_deep deep, applyAt_deep deep]
    · rw [applyAt_param deep parameter, applyAt_param deep parameter, agree _ (leaf_mem_params parameter)]
  | list t n elem parts ih =>
    by_cases deep : limit < depth
    · rw [applyAt_deep deep, applyAt_deep deep]
    obtain ⟨_, name, slot⟩ := slotParts_of_listParts parts
    rw [applyAt_list deep parts, applyAt_list deep parts,
      ih fun x known => agree x (mem_params_of_slot slot known)]
  | malformed t v parts =>
    by_cases deep : limit < depth
    · rw [applyAt_deep deep, applyAt_deep deep]
    · rw [applyAt_malformed deep parts, applyAt_malformed deep parts]
  | other t notParam notList ih =>
    by_cases deep : limit < depth
    · rw [applyAt_deep deep, applyAt_deep deep]
    have slots : ∀ name u, .type name u ∈ t.extra →
        applyAt s limit (depth + 1) u = applyAt σ limit (depth + 1) u :=
      fun name u slot => ih name u slot fun x known => agree x (mem_params_of_slot slot known)
    rw [applyAt_named deep notParam notList, applyAt_named deep notParam notList,
      putTypes_congr slots]

/-- What a list was made of: an element with the layers that the declared ones leave over. -/
theorem applyAt_list_inv (tidy : a.Tidy) (parts : t.listParts = .ok (some (n, elem)))
    (done : applyAt σ limit depth t = .ok u) (same : u.plain.bare = a.bare) :
    ∃ u' j inner, applyAt σ limit (depth + 1) elem = .ok u' ∧ 0 ≤ j ∧ n + j ≤ Numeral.greatest ∧
      a.listParts = .ok (some (n + j, inner)) ∧ a.bare = (layered (n + j) inner).bare ∧
      inner.isList = false ∧ inner.Tidy ∧ u'.plain.bare = (stacked j inner).bare := by
  have shallow := shallow_of_ok done
  rw [applyAt_list shallow parts] at done
  obtain ⟨u', inner, done⟩ := exists_of_bind done
  have wrapped := ok_of_mapError done
  obtain ⟨k, core, rfl⟩ := exists_layered wrapped
  rw [plain_layered] at same
  have list : a.isList = true := by rw [← isList_bare, ← same, isList_bare, isList_layered]
  obtain ⟨m, core', found, form, notList, tidy⟩ := tidy.list_inv list
  have bounds := listParts_bounds found
  obtain ⟨j, natural, rfl, layers⟩ :=
    Layers.of_listN (listParts_bounds parts) wrapped bounds (same.trans form)
  exact ⟨u', j, core', inner, natural, bounds.2, found, form, notList, tidy, layers.plain⟩

/-- What arguments were made of, position by position. -/
theorem applyAt_other_inv (tidy : a.Tidy) (notParam : t.isParam = false) (notList : t.isList = false)
    (distinct : (t.extra.map Slot.name).Nodup) (done : applyAt σ limit depth t = .ok u)
    (same : u.plain.bare = a.bare) : t.main.bare = a.main.bare ∧ a.isList = false ∧
    List.Forall₂ (Both fun v w => w.Tidy ∧ ∃ u', applyAt σ limit (depth + 1) v = .ok u' ∧
      u'.plain.bare = w.bare) t.extra a.extra := by
  have shallow := shallow_of_ok done
  rw [applyAt_other shallow notParam notList distinct] at done
  obtain ⟨out, mapped, rfl⟩ := exists_of_map done
  have other : (mk t.main out).isList = false := notList
  rw [plain_of_notList other] at same
  have notList' : a.isList = false := by rw [← isList_bare, ← same, isList_bare, other]
  obtain ⟨main, extra⟩ := a
  rw [bare, bare, mk.injEq, bareSlots_eq_iff] at same
  refine ⟨same.1, notList', ?_⟩
  refine both_imp (both_comp (both_of_mapTypes mapped) same.2) fun n v m w _ slot found => ?_
  obtain ⟨u', done, equal⟩ := found
  have inner := tidy.slots notList' m w slot
  exact ⟨inner, u', done, inner.plain_eq equal⟩

/-- If the images of the parameters in `t` are the same up to the way in which counts are written,
and `σ` makes `a` of `t`, then so does `s`. -/
theorem applyAt_transfer (tidy : t.Tidy) (pattern : t.IsPattern) (tidy' : a.Tidy)
    (images : ∀ x ∈ t.params, ∃ v, s.get? x = some v ∧ v.bare = (σ.image x).plain.bare)
    (done : applyAt σ limit depth t = .ok u) (same : u.plain.bare = a.bare) :
    ∃ v, applyAt s limit depth t = .ok v ∧ v.bare = a.bare := by
  induction tidy generalizing a depth u with
  | @list t elem n parts form notList _ ih =>
    have shallow := shallow_of_ok done
    obtain ⟨u', j, inner, done, natural, small, found, form', notList', tidy', same⟩ :=
      applyAt_list_inv tidy' parts done same
    obtain ⟨_, name, slot⟩ := slotParts_of_listParts parts
    have bounds := listParts_bounds parts
    have tidyOver : (stacked j inner).Tidy := tidy'.stacked natural (by omega) notList'
    obtain ⟨v, applied, equal⟩ := ih (pattern.slot slot) tidyOver
      (fun x known => images x (mem_params_of_slot slot known)) done same
    have layers := Layers.of_plain natural (by omega) notList' (tidyOver.plain_eq equal)
    obtain ⟨w, wrapped, equal'⟩ := layers.listN bounds.1 small
    refine ⟨w, ?_, equal'.trans form'.symm⟩
    rw [applyAt_list shallow parts, applied, bind_ok, wrapped]
    rfl
  | @other t notList _ _ ih =>
    have shallow := shallow_of_ok done
    cases parameter : t.isParam with
    | true =>
      rw [applyAt_param shallow parameter] at done
      obtain rfl := Except.ok.inj done
      obtain ⟨v, bound, equal⟩ := images _ (leaf_mem_params parameter)
      rw [applyAt_param shallow parameter, bound]
      refine ⟨v, rfl, ?_⟩
      rw [equal, ← same, plain_congr (pattern.bare_image parameter σ)]
    | false =>
      have names := pattern.names t t.self_mem_parts
      obtain ⟨main, notList', related⟩ :=
        applyAt_other_inv tidy' parameter notList names done same
      have related := both_imp related fun n v m w slot _ found => by
        obtain ⟨inner, u', done, equal⟩ := found
        exact ih n v slot (pattern.slot slot) inner
          (fun x known => images x (mem_params_of_slot slot known)) done equal
      obtain ⟨out, mapped, alike⟩ := mapTypes_of_both related
      rw [applyAt_other shallow parameter notList names, mapped]
      refine ⟨mk t.main out, rfl, ?_⟩
      obtain ⟨main', extra'⟩ := a
      rw [bare, bare, main, alike]
      rfl

end Ty

end TypeEngine
