import TypeEngine.Proofs.Ty.Layers
import TypeEngine.Proofs.Ty.WellFormed

/-!
# Layers on and off

A type can be wrapped in layers of a list, at once or bit by bit, and a layer that was put on comes off
again. Taking off all layers, through lists, collections and spans alike, ends at a leaf that has none,
and the layers that a type was wrapped in are counted with its own (`layers_exact`). One layer is
written in another way than several, and this does not show.
-/

namespace TypeEngine.Ty

variable {t elem : Ty} {m n : Int}

/-! ### Layers on -/

/-- The layers of a list, none for another type. -/
def listLayers (t : Ty) : Int :=
  match t.listParts with
  | .ok (some (n, _)) => n
  | _ => 0

theorem listLayers_list (parts : t.listParts = .ok (some (n, elem))) : t.listLayers = n := by
  rw [listLayers, parts]

theorem listLayers_other (notList : t.isList = false) : t.listLayers = 0 := by
  rw [listLayers, listParts_of_notList notList]

theorem listLayers_nonneg (t : Ty) : 0 ≤ t.listLayers := by
  unfold listLayers
  split
  · rename_i parts
    have bounds := listParts_bounds parts
    omega
  · exact Int.le_refl 0

/-- Layers are put on a valid type by counting them with those that it has. -/
theorem exists_listN (valid : t.validate = .ok ()) (positive : 1 ≤ n)
    (fits : n + t.listLayers ≤ Numeral.greatest) : ∃ u, t.listN n = .ok u ∧ u.validate = .ok () ∧
      u.listLayers = n + t.listLayers ∧
      ∀ start, peelFrom (wrap start) u = peelFrom (wrap (start + n)) t := by
  obtain ⟨found, parts⟩ := sound_of_validate valid t t.self_mem_parts
  cases found with
  | none =>
    have notList := isList_of_none parts
    rw [listLayers_other notList, Int.add_zero] at fits ⊢
    have made : (layered n t).listParts = .ok (some (n, t)) := listParts_layered ⟨positive, fits⟩
    refine ⟨_, listN_layered positive notList, validate_layered ⟨positive, fits⟩ valid,
      listLayers_list made, fun start => ?_⟩
    rw [peelFrom_list made, Numeral.wrap_wrap_add]
  | some p =>
    obtain ⟨k, core⟩ := p
    obtain ⟨_, name, slot⟩ := slotParts_of_listParts parts
    have bounds := listParts_bounds parts
    rw [listLayers_list parts] at fits ⊢
    have total : 1 ≤ n + k ∧ n + k ≤ Numeral.greatest := ⟨by omega, fits⟩
    have made : (layered (n + k) core).listParts = .ok (some (n + k, core)) := listParts_layered total
    refine ⟨_, listN_of_listParts positive parts fits,
      validate_layered total ((validate_iff.mp valid).2 name core slot), listLayers_list made, fun start => ?_⟩
    rw [peelFrom_list made, peelFrom_list parts, Numeral.wrap_wrap_add, Numeral.wrap_wrap_add, Int.add_assoc]

theorem exists_listN_add (valid : t.validate = .ok ()) (first : 1 ≤ m) (second : 1 ≤ n)
    (fits : m + n + t.listLayers ≤ Numeral.greatest) :
    ∃ u v, t.listN m = .ok u ∧ u.listN n = .ok v ∧ t.listN (m + n) = .ok v := by
  have natural := t.listLayers_nonneg
  obtain ⟨u, once, valid', layers, _⟩ := exists_listN valid first (by omega)
  obtain ⟨v, twice, _⟩ := exists_listN valid' second (by omega)
  refine ⟨u, v, once, twice, ?_⟩
  rw [Int.add_comm]
  exact listN_listN first second (by omega) once twice

/-! ### One layer off -/

theorem peelOne_listOf (canonical : t.IsCanonical) (fits : 1 + t.listLayers ≤ Numeral.greatest) :
    ∃ u v, t.listOf = .ok u ∧ u.peelOne = .ok (some v) ∧ (v == t) = true := by
  cases list : t.isList with
  | false =>
    have inner : (layered 1 t).listParts = .ok (some (1, t)) := listParts_layered (by decide)
    exact ⟨_, _, listN_layered (Int.le_refl 1) list, peelOne_of_listParts inner list, beq_rfl t⟩
  | true =>
    obtain ⟨k, core, parts, form, notList, _⟩ := canonical.list list
    have bounds := listParts_bounds parts
    rw [listLayers_list parts] at fits
    have inner : (layered (1 + k) core).listParts = .ok (some (1 + k, core)) :=
      listParts_layered ⟨by omega, fits⟩
    refine ⟨_, _, listN_of_listParts (Int.le_refl 1) parts fits, peelOne_of_listParts inner notList, ?_⟩
    rw [Int.add_comm, Int.add_sub_cancel, stacked_pos bounds.1, beq_iff_bare, form]

theorem listOf_peelOne (valid : t.validate = .ok ()) (canonical : t.IsCanonical) (list : t.isList = true) :
    ∃ u v, t.peelOne = .ok (some u) ∧ u.listOf = .ok v ∧ (v == t) = true ∧ u.IsCanonical ∧
      u.validate = .ok () := by
  obtain ⟨k, core, parts, form, notList, canonical⟩ := canonical.list list
  obtain ⟨_, name, slot⟩ := slotParts_of_listParts parts
  have valid := (validate_iff.mp valid).2 name core slot
  have bounds := listParts_bounds parts
  have peeled := peelOne_of_listParts parts notList
  by_cases one : k = 1
  · subst one
    exact ⟨core, _, peeled, listN_layered (Int.le_refl 1) notList, beq_iff_bare.mpr form.symm, canonical, valid⟩
  · have fewer : 1 ≤ k - 1 ∧ k - 1 ≤ Numeral.greatest := ⟨by omega, by omega⟩
    have inner : (layered (k - 1) core).listParts = .ok (some (k - 1, core)) := listParts_layered fewer
    rw [stacked_pos fewer.1] at peeled
    refine ⟨_, _, peeled, listN_of_listParts (Int.le_refl 1) inner (by omega), ?_,
      canonical.of_list inner rfl notList, validate_layered fewer valid⟩
    rw [Int.add_comm, Int.sub_add_cancel, beq_iff_bare, form]

/-! ### All layers off -/

theorem exists_leaf (valid : t.validate = .ok ()) : ∃ depth leaf, t.peelList = .ok (depth, leaf) ∧
    (leaf.isList || leaf.isCollection || leaf.isSpan) = false ∧
    ∀ n, 1 ≤ n → n + t.listLayers ≤ Numeral.greatest → n + depth ≤ Numeral.greatest →
      ∃ u, t.listN n = .ok u ∧ u.peelList = .ok (n + depth, leaf) := by
  obtain ⟨leaf, peels⟩ := (peels t).resolve_right fun fails => fails.1 (sound_of_validate valid)
  refine ⟨_, leaf, peels.counts 0, peels.bottom, fun n positive fits small => ?_⟩
  obtain ⟨u, wrapped, _, _, shifts⟩ := exists_listN valid positive fits
  refine ⟨u, wrapped, (shifts 0).trans ?_⟩
  rw [Int.zero_add] at small ⊢
  rw [peels.counts, Int.zero_add, Numeral.wrap_add_of_le positive small]

/-- Layers of valid canonical types add up, and come off again one by one or all at once. -/
theorem layers_exact (valid : t.validate = .ok ()) (canonical : t.IsCanonical) :
    (∀ m n, 1 ≤ m → 1 ≤ n → m + n + t.listLayers ≤ Numeral.greatest →
      ∃ u v, t.listN m = .ok u ∧ u.listN n = .ok v ∧ t.listN (m + n) = .ok v) ∧
    (1 + t.listLayers ≤ Numeral.greatest →
      ∃ u v, t.listOf = .ok u ∧ u.peelOne = .ok (some v) ∧ (v == t) = true) ∧
    (t.isList = true → ∃ u v, t.peelOne = .ok (some u) ∧ u.listOf = .ok v ∧ (v == t) = true ∧
      u.IsCanonical ∧ u.validate = .ok ()) ∧
    ∃ depth leaf, t.peelList = .ok (depth, leaf) ∧
      (leaf.isList || leaf.isCollection || leaf.isSpan) = false ∧
      ∀ n, 1 ≤ n → n + t.listLayers ≤ Numeral.greatest → n + depth ≤ Numeral.greatest →
        ∃ u, t.listN n = .ok u ∧ u.peelList = .ok (n + depth, leaf) :=
  ⟨fun _ _ => exists_listN_add valid, peelOne_listOf canonical, listOf_peelOne valid canonical,
    exists_leaf valid⟩

/-- Three more layers on a list of two, whose element is a collection of spans of lists. -/
theorem layers_exact_queue : ∃ t u v w, t = layered 2 (named ⟨[{ kind := .classType, name := "Queue" }]⟩
      [span (layered 1 int)]) ∧
    t.listN 3 = .ok u ∧ u.peelList = .ok (8, int) ∧
    t.peelOne = .ok (some v) ∧ v.listOf = .ok w ∧ (w == t) = true := by
  obtain ⟨_, _, off, depth, leaf, peeled, _, on⟩ := layers_exact (t := layered 2
    (named ⟨[{ kind := .classType, name := "Queue" }]⟩ [span (layered 1 int)])) rfl
    ⟨_, rfl, by decide +kernel⟩
  obtain ⟨rfl, rfl⟩ : depth = 5 ∧ leaf = int := Prod.mk.inj (Except.ok.inj
    (peeled.symm.trans (peelFrom_list (listParts_layered (by decide)) 0)))
  obtain ⟨u, wrapped, all⟩ := on 3 (by decide) (by decide) (by decide)
  obtain ⟨v, w, one, back, same, _⟩ := off rfl
  exact ⟨_, u, v, w, rfl, wrapped, all, one, back, same⟩

end TypeEngine.Ty
