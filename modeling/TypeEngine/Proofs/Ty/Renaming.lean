import TypeEngine.Proofs.Ty.Layers
import TypeEngine.Proofs.Ty.Substitution

/-!
# Renaming of generic parameters

`rename ρ` calls every generic parameter `x` of a type `ρ x`. The shape of a type does not depend on
these names, so the operations on shapes go with the renaming. Substitution does so where the names
that are left unbound are renamed alike on both sides (`apply_rename`).
-/

namespace TypeEngine

/-! ### Paths -/

namespace Path

variable {ρ : String → String} {p q : Path}

/-- The path of a parameter under its new name; other paths stay. -/
def rename (ρ : String → String) (p : Path) : Path :=
  if p.isParameter then
    ⟨p.blocks.dropLast ++ p.last?.toList.map fun b => { b with name := ρ b.name }⟩
  else p

theorem rename_of_isParameter (ρ : String → String) (parameter : p.isParameter = true) :
    ∃ blocks b, p = ⟨blocks ++ [b]⟩ ∧ b.kind = .parameter ∧
      p.rename ρ = ⟨blocks ++ [{ b with name := ρ b.name }]⟩ := by
  obtain ⟨blocks⟩ := p
  rcases List.eq_nil_or_concat blocks with rfl | ⟨outer, b, rfl⟩
  · cases parameter
  · rw [List.concat_eq_append] at parameter ⊢
    have kind : b.kind = .parameter := by simpa [isParameter, last?] using parameter
    refine ⟨outer, b, rfl, kind, ?_⟩
    rw [rename, if_pos parameter]
    simp [last?]

theorem rename_of_not (other : p.isParameter = false) : p.rename ρ = p := by
  rw [rename, other, if_neg Bool.false_ne_true]

@[simp] theorem isParameter_rename (ρ : String → String) (p : Path) :
    (p.rename ρ).isParameter = p.isParameter := by
  cases parameter : p.isParameter with
  | false => rw [rename_of_not parameter, parameter]
  | true =>
    obtain ⟨blocks, b, _, kind, renamed⟩ := rename_of_isParameter ρ parameter
    simp [renamed, isParameter, last?, kind]

theorem leaf_rename (parameter : p.isParameter = true) : (p.rename ρ).leaf = ρ p.leaf := by
  obtain ⟨blocks, b, rfl, _, renamed⟩ := rename_of_isParameter ρ parameter
  simp [renamed, leaf, last?]

theorem rename_congr {κ : String → String} (parameter : p.isParameter = true)
    (same : κ p.leaf = ρ p.leaf) : p.rename κ = p.rename ρ := by
  rw [rename, rename, if_pos parameter, if_pos parameter]
  rw [leaf] at same
  cases last : p.last? with
  | none => rfl
  | some b =>
    rw [last] at same
    have same : κ b.name = ρ b.name := same
    simp [same]

theorem beq_of_isParameter (parameter : p.isParameter = true) (other : q.isParameter = false) :
    (p == q) = false := by
  refine Bool.eq_false_iff.mpr fun same => ?_
  rw [← p.isParameter_bare, beq_iff_bare.mp same, q.isParameter_bare, other] at parameter
  cases parameter

@[simp] theorem rename_beq_ofPrimitive (ρ : String → String) (p : Path) (name : String) :
    (p.rename ρ == .ofPrimitive name) = (p == .ofPrimitive name) := by
  cases parameter : p.isParameter with
  | false => rw [rename_of_not parameter]
  | true => rw [beq_of_isParameter parameter rfl, beq_of_isParameter (by simp [parameter]) rfl]

theorem isPrimitive_of_isParameter (parameter : p.isParameter = true) : p.isPrimitive = false := by
  obtain ⟨blocks, b, rfl, kind, _⟩ := rename_of_isParameter id parameter
  cases blocks with
  | nil => simp [isPrimitive, kind, Kind.parameter, Kind.primitive]
  | cons c blocks => cases blocks <;> rfl

theorem bare_rename (ρ : String → String) (p : Path) : (p.rename ρ).bare = p.bare.rename ρ := by
  cases parameter : p.isParameter with
  | false => rw [rename_of_not parameter, rename_of_not (by simp [parameter])]
  | true =>
    obtain ⟨blocks, b, rfl, _, renamed⟩ := rename_of_isParameter ρ parameter
    have bare : bare ⟨blocks ++ [b]⟩ = ⟨blocks.map Block.bare ++ [b.bare]⟩ := by simp [Path.bare]
    rw [renamed, rename, if_pos (by simp [parameter]), bare]
    simp [Path.bare, last?, Block.bare]

theorem rename_inj (injective : Function.Injective ρ) (same : p.rename ρ = q.rename ρ) : p = q := by
  have kinds := congrArg isParameter same
  rw [isParameter_rename, isParameter_rename] at kinds
  cases parameter : p.isParameter with
  | false => rwa [rename_of_not parameter, rename_of_not (kinds ▸ parameter)] at same
  | true =>
    obtain ⟨blocks, b, rfl, _, renamed⟩ := rename_of_isParameter ρ parameter
    obtain ⟨blocks', b', rfl, _, renamed'⟩ := rename_of_isParameter ρ (kinds ▸ parameter)
    rw [renamed, renamed', Path.mk.injEq] at same
    obtain ⟨rfl, last⟩ := List.append_inj' same rfl
    obtain ⟨kind, name, index⟩ := Block.mk.inj (List.cons.inj last).1
    obtain rfl : b = b' := by
      cases b
      cases b'
      simp_all [injective.eq_iff]
    rfl

@[simp] theorem rename_id (p : Path) : p.rename id = p := by
  cases parameter : p.isParameter with
  | false => exact rename_of_not parameter
  | true =>
    obtain ⟨blocks, b, rfl, _, renamed⟩ := rename_of_isParameter id parameter
    rw [renamed]
    rfl

end Path

/-! ### Types -/

namespace Ty

mutual

/-- The type with new names for its generic parameters. -/
def rename (ρ : String → String) : Ty → Ty
  | mk main extra => mk (if extra.isEmpty then main.rename ρ else main) (renameSlots ρ extra)

def renameSlots (ρ : String → String) : List Slot → List Slot
  | [] => []
  | .type name t :: slots => .type name (rename ρ t) :: renameSlots ρ slots
  | .value name text :: slots => .value name text :: renameSlots ρ slots

end

variable {ρ κ : String → String} {t u elem : Ty}

@[simp] theorem extra_rename (ρ : String → String) (t : Ty) :
    (t.rename ρ).extra = renameSlots ρ t.extra := by cases t; rfl

theorem main_rename (ρ : String → String) (t : Ty) :
    (t.rename ρ).main = if t.extra.isEmpty then t.main.rename ρ else t.main := by cases t; rfl

@[simp] theorem length_renameSlots (ρ : String → String) (slots : List Slot) :
    (renameSlots ρ slots).length = slots.length := by
  induction slots with
  | nil => rfl
  | cons s slots ih => cases s <;> simp [renameSlots, ih]

@[simp] theorem isEmpty_renameSlots (ρ : String → String) (slots : List Slot) :
    (renameSlots ρ slots).isEmpty = slots.isEmpty := by
  cases slots with
  | nil => rfl
  | cons s slots => cases s <;> rfl

theorem isParam_bare (t : Ty) : t.bare.isParam = t.isParam := by simp [isParam]

@[simp] theorem isParam_rename (ρ : String → String) (t : Ty) : (t.rename ρ).isParam = t.isParam := by
  rw [isParam, isParam, extra_rename, isEmpty_renameSlots, main_rename]
  split <;> simp

theorem leaf_main_rename (parameter : t.isParam = true) : (t.rename ρ).main.leaf = ρ t.main.leaf := by
  obtain ⟨empty, main⟩ := Bool.and_eq_true_iff.mp parameter
  rw [main_rename, if_pos empty, Path.leaf_rename main]

theorem main_rename_of_not (other : t.isParam = false) : (t.rename ρ).main = t.main := by
  rw [main_rename]
  split
  · rename_i empty
    rw [isParam, empty, Bool.true_and] at other
    exact Path.rename_of_not other
  · rfl

theorem rename_congr_param (parameter : t.isParam = true) (same : κ t.main.leaf = ρ t.main.leaf) :
    t.rename κ = t.rename ρ := by
  obtain ⟨main, extra⟩ := t
  obtain ⟨empty, parameter⟩ := Bool.and_eq_true_iff.mp parameter
  obtain rfl : extra = [] := List.isEmpty_iff.mp empty
  exact congrArg (mk · []) (Path.rename_congr parameter same)

mutual

theorem bare_rename (ρ : String → String) : ∀ t : Ty, (t.rename ρ).bare = t.bare.rename ρ
  | mk main extra => by
    rw [rename, bare, bare, rename, isEmpty_bareSlots, bareSlots_rename ρ extra]
    split
    · rw [Path.bare_rename]
    · rfl

theorem bareSlots_rename (ρ : String → String) :
    ∀ slots, bareSlots (renameSlots ρ slots) = renameSlots ρ (bareSlots slots)
  | [] => rfl
  | .type _ t :: slots => by
    simp [renameSlots, bareSlots, bare_rename ρ t, bareSlots_rename ρ slots]
  | .value _ _ :: slots => by simp [renameSlots, bareSlots, bareSlots_rename ρ slots]

end

mutual

theorem rename_inj (injective : Function.Injective ρ) :
    ∀ {t u : Ty}, t.rename ρ = u.rename ρ → t = u
  | mk main extra, mk main' extra', same => by
    rw [rename, rename, mk.injEq] at same
    obtain rfl := renameSlots_inj injective same.2
    split at same
    · rw [Path.rename_inj injective same.1]
    · rw [same.1]

theorem renameSlots_inj (injective : Function.Injective ρ) :
    ∀ {xs ys : List Slot}, renameSlots ρ xs = renameSlots ρ ys → xs = ys
  | [], [], _ => rfl
  | .type _ t :: xs, .type _ u :: ys, same => by
    obtain ⟨head, tail⟩ := List.cons.inj same
    obtain ⟨rfl, equal⟩ := Slot.type.inj head
    rw [rename_inj injective equal, renameSlots_inj injective tail]
  | .value _ _ :: xs, .value _ _ :: ys, same => by
    obtain ⟨head, tail⟩ := List.cons.inj same
    rw [head, renameSlots_inj injective tail]
  | [], .type .. :: _, same | [], .value .. :: _, same => nomatch same
  | .type .. :: _, [], same | .value .. :: _, [], same => nomatch same
  | .type .. :: _, .value .. :: _, same | .value .. :: _, .type .. :: _, same =>
    nomatch (List.cons.inj same).1

end

theorem bare_rename_inj (injective : Function.Injective ρ) :
    (t.rename ρ).bare = (u.rename ρ).bare ↔ t.bare = u.bare := by
  rw [bare_rename, bare_rename]
  exact ⟨rename_inj injective, congrArg _⟩

/-- Renamed types are equal exactly if the types are. -/
theorem rename_beq (injective : Function.Injective ρ) (t u : Ty) :
    (t.rename ρ == u.rename ρ) = (t == u) := by
  rw [Bool.eq_iff_iff, beq_iff_bare, beq_iff_bare, bare_rename_inj injective]

/-- The type stays equal under the new names. -/
def KeptBy (ρ : String → String) (t : Ty) : Prop := (t.rename ρ).bare = t.bare

mutual

@[simp]
theorem rename_id : ∀ t : Ty, t.rename id = t
  | mk main extra => by rw [rename, renameSlots_id extra, Path.rename_id, ite_self]

@[simp]
theorem renameSlots_id : ∀ slots : List Slot, renameSlots id slots = slots
  | [] => rfl
  | .type _ t :: slots => by rw [renameSlots, rename_id t, renameSlots_id slots]
  | .value _ _ :: slots => by rw [renameSlots, renameSlots_id slots]

end

/-! ### Shapes -/

@[simp] theorem beq_ofPrimitive_rename (ρ : String → String) (t : Ty) (name : String) :
    ((t.rename ρ).main == .ofPrimitive name) = (t.main == .ofPrimitive name) := by
  rw [main_rename]
  split <;> simp

@[simp] theorem isList_rename (ρ : String → String) (t : Ty) : (t.rename ρ).isList = t.isList :=
  beq_ofPrimitive_rename ρ t _

@[simp] theorem isTuple_rename (ρ : String → String) (t : Ty) : (t.rename ρ).isTuple = t.isTuple :=
  beq_ofPrimitive_rename ρ t _

@[simp] theorem isFunc_rename (ρ : String → String) (t : Ty) : (t.rename ρ).isFunc = t.isFunc :=
  beq_ofPrimitive_rename ρ t _

@[simp] theorem isSpan_rename (ρ : String → String) (t : Ty) : (t.rename ρ).isSpan = t.isSpan := by
  rw [isSpan, isSpan, beq_ofPrimitive_rename, extra_rename, length_renameSlots]

@[simp] theorem isPrimitive_main_rename (ρ : String → String) (t : Ty) :
    (t.rename ρ).main.isPrimitive = t.main.isPrimitive := by
  cases parameter : t.isParam with
  | false => rw [main_rename_of_not parameter]
  | true =>
    have renamed : (t.rename ρ).isParam = true := by rw [isParam_rename, parameter]
    rw [Path.isPrimitive_of_isParameter (Bool.and_eq_true_iff.mp parameter).2,
      Path.isPrimitive_of_isParameter (Bool.and_eq_true_iff.mp renamed).2]

@[simp] theorem isCollection_rename (ρ : String → String) (t : Ty) :
    (t.rename ρ).isCollection = t.isCollection := by
  obtain ⟨main, extra⟩ := t
  cases extra with
  | nil => rfl
  | cons first rest =>
    cases rest with
    | nil => cases first <;> rfl
    | cons second rest => cases first <;> cases second <;> rfl

theorem types?_renameSlots (ρ : String → String) (slots : List Slot) :
    Slot.types? (renameSlots ρ slots) = (Slot.types? slots).map (List.map (rename ρ)) := by
  induction slots with
  | nil => rfl
  | cons s slots ih =>
    cases s with
    | value name text => rfl
    | type name t =>
      rw [renameSlots, Slot.types?, ih, Slot.types?]
      cases Slot.types? slots <;> rfl

theorem funcParts_rename (ρ : String → String) (t : Ty) : (t.rename ρ).funcParts =
    t.funcParts.map (Option.map (Prod.map (rename ρ) (List.map (rename ρ)))) := by
  rw [funcParts, funcParts, isFunc_rename, extra_rename, types?_renameSlots]
  split
  · cases Slot.types? t.extra with
    | none => rfl
    | some types => cases types <;> rfl
  · rfl

theorem unwrap_rename (ρ : String → String) (t : Ty) : (t.rename ρ).unwrap = t.unwrap.rename ρ := by
  fun_induction unwrap t with
  | case1 main name t tuple ih =>
    change unwrap (mk main [.type name (t.rename ρ)]) = _
    rw [unwrap, if_pos tuple, ih]
  | case2 main name t other =>
    change unwrap (mk main [.type name (t.rename ρ)]) = _
    rw [unwrap, if_neg other]
    rfl
  | case3 t other =>
    obtain ⟨main, extra⟩ := t
    cases extra with
    | nil => rfl
    | cons first rest =>
      cases rest with
      | nil =>
        cases first with
        | value => rfl
        | type name t => exact absurd rfl (other main name t)
      | cons second rest => cases first <;> cases second <;> rfl

/-! ### Lists -/

theorem layersOf_renameSlots (ρ : String → String) (slots : List Slot) :
    layersOf (renameSlots ρ slots) = (layersOf slots).map (Prod.map id (rename ρ)) := by
  cases slots with
  | nil => rfl
  | cons first rest =>
    cases rest with
    | nil => cases first <;> rfl
    | cons second rest =>
      cases rest with
      | nil =>
        cases first with
        | type => cases second <;> rfl
        | value name text =>
          cases second with
          | value => rfl
          | type name t =>
            simp only [renameSlots, layersOf]
            cases Numeral.count? text <;> rfl
      | cons third rest =>
        cases first <;> cases second <;> cases third <;> simp [renameSlots, layersOf, Except.map]

theorem listParts_rename (ρ : String → String) (t : Ty) :
    (t.rename ρ).listParts = t.listParts.map (Option.map (Prod.map id (rename ρ))) := by
  rw [listParts, listParts, isList_rename, extra_rename, layersOf_renameSlots]
  split
  · cases layersOf t.extra <;> rfl
  · rfl

theorem rename_layered (ρ : String → String) (n : Int) (t : Ty) :
    (layered n t).rename ρ = layered n (t.rename ρ) := by
  unfold layered
  split <;> rfl

theorem listN_rename (ρ : String → String) (t : Ty) (n : Int) :
    listN (t.rename ρ) n = (listN t n).map (rename ρ) := by
  rw [listN, listN, listParts_rename]
  split
  · rfl
  · cases t.listParts with
    | error v => rfl
    | ok parts =>
      cases parts with
      | none => exact congrArg Except.ok (rename_layered ρ n t).symm
      | some p => exact congrArg Except.ok (rename_layered ρ _ p.2).symm

theorem peelOne_rename (ρ : String → String) (t : Ty) :
    (t.rename ρ).peelOne = t.peelOne.map (Option.map (rename ρ)) := by
  have first : (renameSlots ρ t.extra).head?.map Slot.heldType =
      (t.extra.head?.map Slot.heldType).map (rename ρ) := by
    cases t.extra with
    | nil => rfl
    | cons slot rest => cases slot <;> rfl
  rw [peelOne, peelOne, listParts_rename]
  cases t.listParts with
  | error v => rfl
  | ok parts =>
    cases parts with
    | none =>
      change (if _ then _ else _) = Except.map _ (if _ then _ else _)
      rw [isCollection_rename, isSpan_rename, extra_rename, first]
      split <;> rfl
    | some p =>
      obtain ⟨n, elem⟩ := p
      change (if n = 1 then _ else _) = Except.map _ (if n = 1 then _ else _)
      split
      · rfl
      · change (listN (elem.rename ρ) (n - 1) >>= _) = _
        rw [listN_rename]
        cases listN elem (n - 1) <;> rfl

theorem peelFrom_rename (ρ : String → String) (depth : Int) (t : Ty) :
    peelFrom depth (t.rename ρ) = (peelFrom depth t).map (Prod.map id (rename ρ)) := by
  induction t using slotInduction generalizing depth with
  | step t ih =>
    have parts' := listParts_rename ρ t
    cases parts : t.listParts with
    | error v =>
      rw [parts] at parts'
      rw [peelFrom_malformed parts', peelFrom_malformed parts]
      rfl
    | ok found =>
      rw [parts] at parts'
      cases found with
      | some p =>
        obtain ⟨_, name, slot⟩ := slotParts_of_listParts parts
        rw [peelFrom_list parts', peelFrom_list parts]
        exact ih name p.2 slot (wrap (depth + p.1))
      | none =>
        have notList := isList_of_none parts
        have notList' := isList_of_none parts'
        have same : ((t.rename ρ).isCollection || (t.rename ρ).isSpan) = (t.isCollection || t.isSpan) := by
          rw [isCollection_rename, isSpan_rename]
        cases layer : t.isCollection || t.isSpan with
        | false =>
          rw [(peel_bottom notList layer).2, (peel_bottom notList' (same.trans layer)).2]
          rfl
        | true =>
          obtain ⟨slot, single⟩ := exists_single layer
          have single' := extra_rename ρ t
          rw [single] at single'
          rw [(peel_single notList layer single).2]
          cases slot with
          | value => exact (peel_single notList' (same.trans layer) single').2 depth
          | type name elem =>
            rw [(peel_single notList' (same.trans layer) single').2]
            exact ih name elem (by simp [single]) (wrap (depth + 1))

theorem peelList_rename (ρ : String → String) (t : Ty) :
    (t.rename ρ).peelList = t.peelList.map (Prod.map id (rename ρ)) := peelFrom_rename ρ 0 t

/-! ### Parameters -/

mutual

theorem parts_rename (ρ : String → String) : ∀ t : Ty, (t.rename ρ).parts = t.parts.map (rename ρ)
  | mk main extra => by
    rw [parts_eq, extra_rename, parts, List.map_cons]
    exact congrArg _ (slotParts_rename ρ extra)

theorem slotParts_rename (ρ : String → String) :
    ∀ slots, slotParts (renameSlots ρ slots) = (slotParts slots).map (rename ρ)
  | [] => rfl
  | .type _ t :: slots => by
    rw [renameSlots, slotParts, slotParts, List.map_append, parts_rename ρ t, slotParts_rename ρ slots]
  | .value .. :: slots => by rw [renameSlots, slotParts, slotParts, slotParts_rename ρ slots]

end

theorem mem_params_rename {x : String} : x ∈ (t.rename ρ).params ↔ ∃ y ∈ t.params, ρ y = x := by
  simp only [mem_params_iff, parts_rename, List.mem_map]
  constructor
  · rintro ⟨_, ⟨u, part, rfl⟩, parameter, rfl⟩
    rw [isParam_rename] at parameter
    exact ⟨_, ⟨u, part, parameter, rfl⟩, (leaf_main_rename parameter).symm⟩
  · rintro ⟨_, ⟨u, part, parameter, rfl⟩, rfl⟩
    exact ⟨_, ⟨u, part, rfl⟩, by rwa [isParam_rename], leaf_main_rename parameter⟩

@[simp] theorem isEmpty_params_rename (ρ : String → String) (t : Ty) :
    (t.rename ρ).params.isEmpty = t.params.isEmpty := by
  rw [Bool.eq_iff_iff, List.isEmpty_iff, List.isEmpty_iff, List.eq_nil_iff_forall_not_mem,
    List.eq_nil_iff_forall_not_mem]
  constructor
  · intro none x known
    exact none (ρ x) (mem_params_rename.mpr ⟨x, known, rfl⟩)
  · intro none x known
    obtain ⟨y, known, _⟩ := mem_params_rename.mp known
    exact none y known

theorem rename_congr (t : Ty) (same : ∀ x ∈ t.params, κ x = ρ x) : t.rename κ = t.rename ρ := by
  induction t using slotInduction with
  | step t ih =>
    cases parameter : t.isParam with
    | true => exact rename_congr_param parameter (same _ (leaf_mem_params parameter))
    | false =>
      have slots : renameSlots κ t.extra = renameSlots ρ t.extra := by
        have inside := fun name u slot => ih name u slot fun x known => same x (mem_params_of_slot slot known)
        generalize t.extra = slots at inside
        induction slots with
        | nil => rfl
        | cons s slots more =>
          have rest := more fun name u slot => inside name u (List.mem_cons_of_mem _ slot)
          cases s with
          | type name u => rw [renameSlots, renameSlots, inside name u List.mem_cons_self, rest]
          | value name text => rw [renameSlots, renameSlots, rest]
      have main : (t.rename κ).main = (t.rename ρ).main := by
        rw [main_rename_of_not parameter, main_rename_of_not parameter]
      obtain ⟨main_, extra⟩ := t
      exact congrArg₂ mk main slots

end Ty

/-! ### Substitutions -/

namespace Subst

variable {ρ κ : String → String} {s : Subst}

/-- The substitution with new names for what it binds, and for the parameters in what it puts. -/
def rename (κ ρ : String → String) (s : Subst) : Subst := ⟨s.bindings.map (Prod.map κ (Ty.rename ρ))⟩

theorem get?_rename (injective : Function.Injective κ) (s : Subst) (x : String) :
    (s.rename κ ρ).get? (κ x) = (s.get? x).map (Ty.rename ρ) := by
  obtain ⟨bindings⟩ := s
  change (bindings.map (Prod.map κ (Ty.rename ρ))).lookup (κ x) = (bindings.lookup x).map (Ty.rename ρ)
  induction bindings with
  | nil => rfl
  | cons binding bindings ih =>
    obtain ⟨y, t⟩ := binding
    have names : (κ x == κ y) = (x == y) := by
      rw [Bool.eq_iff_iff, beq_iff_eq, beq_iff_eq, injective.eq_iff]
    simp only [List.map_cons, Prod.map, List.lookup_cons, names]
    cases x == y with
    | true => rfl
    | false => exact ih

theorem rename_set (injective : Function.Injective κ) (s : Subst) (x : String) (t : Ty) :
    (s.set x t).rename κ ρ = (s.rename κ ρ).set (κ x) (t.rename ρ) := by
  have names : ∀ y, (κ y != κ x) = (y != x) := by
    intro y
    rw [Bool.eq_iff_iff, bne_iff_ne, bne_iff_ne, injective.ne_iff]
  simp [set, rename, List.filter_map, Function.comp_def, names]

theorem rename_bind (injective : Function.Injective κ) (injective' : Function.Injective ρ) (s : Subst)
    (x : String) (t : Ty) :
    (s.rename κ ρ).bind (κ x) (t.rename ρ) = ((s.bind x t).1, (s.bind x t).2.rename κ ρ) := by
  rw [bind, bind, get?_rename injective]
  cases s.get? x with
  | some old => simp [Ty.rename_beq injective']
  | none => simp [rename]

@[simp] theorem isEmpty_rename (κ ρ : String → String) (s : Subst) :
    (s.rename κ ρ).isEmpty = s.isEmpty := by simp [isEmpty, rename]

theorem ofArguments_rename (ρ : String → String) (names : List String) (slots : List Slot) (s : Subst) :
    ofArguments names (Ty.renameSlots ρ slots) (s.rename id ρ) =
      (ofArguments names slots s).rename id ρ := by
  fun_induction ofArguments names slots s with
  | case1 name names _ t slots s ih =>
    rw [Ty.renameSlots, ofArguments, ← ih, rename_set Function.injective_id, id]
  | case2 name names _ _ slots s ih => rw [Ty.renameSlots, ofArguments, ih]
  | case3 names slots s types values =>
    cases slots with
    | nil => cases names <;> rfl
    | cons slot slots =>
      cases names with
      | nil => cases slot <;> rfl
      | cons name names =>
        cases slot with
        | type _ t => exact absurd rfl (types name names _ t slots rfl)
        | value _ text => exact absurd rfl (values name names _ text slots rfl)

end Subst

theorem Ty.bindParams_rename (ρ : String → String) (t : Ty) (names : List String) :
    (t.rename ρ).bindParams names = (t.bindParams names).rename id ρ := by
  rw [bindParams, bindParams, extra_rename, ← Subst.ofArguments_rename]
  rfl

namespace Slot

open Ty

variable {ε : Type} {ρ κ : String → String} {f g : Ty → Except ε Ty} {slots : List Slot}

@[simp] theorem map_name_renameSlots (ρ : String → String) (slots : List Slot) :
    (renameSlots ρ slots).map name = slots.map name := by
  induction slots with
  | nil => rfl
  | cons s slots ih => cases s <;> simp [renameSlots, ih, name]

theorem put_rename (ρ : String → String) (n : String) (t : Ty) (out : List Slot) :
    put (.type n (t.rename ρ)) (renameSlots ρ out) = renameSlots ρ (put (.type n t) out) := by
  induction out with
  | nil => rfl
  | cons s out ih =>
    cases s with
    | type other u => by_cases here : other = n <;> simp [renameSlots, put, Slot.name, here, ih]
    | value other text => by_cases here : other = n <;> simp [renameSlots, put, Slot.name, here, ih]

theorem putTypes_ne_nil {out result : List Slot} (done : putTypes f slots out = .ok result)
    (some : out ≠ []) : result ≠ [] := by
  induction slots generalizing out with
  | nil =>
    obtain rfl := Except.ok.inj done
    exact some
  | cons s slots ih =>
    cases s with
    | value => exact ih done some
    | type name t =>
      obtain ⟨u, _, done⟩ := exists_of_bind done
      refine ih done ?_
      cases out with
      | nil => exact absurd rfl some
      | cons x out =>
        rw [put]
        split <;> simp

theorem putTypes_rename
    (each : ∀ name t, .type name t ∈ slots → g (t.rename ρ) = (f t).map (Ty.rename ρ)) (out : List Slot) :
    putTypes g (renameSlots ρ slots) (renameSlots ρ out) = (putTypes f slots out).map (renameSlots ρ) := by
  induction slots generalizing out with
  | nil => rfl
  | cons s slots ih =>
    have rest := ih fun name t member => each name t (List.mem_cons_of_mem _ member)
    cases s with
    | type name t =>
      rw [renameSlots, putTypes, putTypes, each name t List.mem_cons_self]
      cases f t with
      | error fault => rfl
      | ok u =>
        change putTypes g _ (put (.type name (u.rename ρ)) _) = _
        rw [put_rename, rest]
        rfl
    | value name text =>
      rw [renameSlots, putTypes, putTypes]
      exact rest out

theorem mapTypes_rename
    (each : ∀ name t, .type name t ∈ slots → g (t.rename κ) = (f t).map (Ty.rename ρ)) :
    mapTypes g (renameSlots κ slots) = (mapTypes f slots).map (renameSlots ρ) := by
  induction slots with
  | nil => rfl
  | cons s slots ih =>
    have rest := ih fun name t member => each name t (List.mem_cons_of_mem _ member)
    cases s with
    | type name t =>
      rw [renameSlots, mapTypes, mapTypes, each name t List.mem_cons_self, rest]
      cases f t with
      | error fault => rfl
      | ok u => cases mapTypes f slots <;> rfl
    | value name text =>
      rw [renameSlots, mapTypes, mapTypes, rest]
      cases mapTypes f slots <;> rfl

end Slot

namespace Ty

variable {ρ κ : String → String} {s : Subst} {limit depth : Nat}

/-- What is made of the arguments goes with renaming, and so does what is made of the type. -/
theorem applyAt_other_rename {t : Ty} (notParam : t.isParam = false) (notList : t.isList = false)
    (deep : ¬limit < depth) (slots : κ = ρ ∨ (t.extra.map Slot.name).Nodup)
    (each : ∀ name u, .type name u ∈ t.extra → applyAt (s.rename κ ρ) limit (depth + 1) (u.rename κ) =
      (applyAt s limit (depth + 1) u).map (rename ρ)) :
    applyAt (s.rename κ ρ) limit depth (t.rename κ) = (applyAt s limit depth t).map (rename ρ) := by
  have put : Slot.putTypes (applyAt (s.rename κ ρ) limit (depth + 1)) (renameSlots κ t.extra)
      (renameSlots κ t.extra) =
      (Slot.putTypes (applyAt s limit (depth + 1)) t.extra t.extra).map (renameSlots ρ) := by
    rcases slots with rfl | distinct
    · exact Slot.putTypes_rename each t.extra
    · rw [Slot.putTypes_eq distinct, Slot.putTypes_eq (by simpa using distinct)]
      exact Slot.mapTypes_rename each
  rw [applyAt_named deep (by simp [notParam]) (by simp [notList]), applyAt_named deep notParam notList,
    extra_rename, put, main_rename_of_not notParam]
  cases done : Slot.putTypes (applyAt s limit (depth + 1)) t.extra t.extra with
  | error fault => rfl
  | ok out =>
    -- without arguments the path is not one of a parameter, and with arguments it stays
    have main : (if out.isEmpty then t.main.rename ρ else t.main) = t.main := by
      split
      · rename_i empty
        have none : t.extra = [] := by
          by_contra some
          exact Slot.putTypes_ne_nil done some (List.isEmpty_iff.mp empty)
        rw [isParam, none, List.isEmpty_nil, Bool.true_and] at notParam
        exact Path.rename_of_not notParam
      · rfl
    refine congrArg Except.ok ?_
    rw [rename, main]

/-- Substituting goes with renaming. The type may keep other names (`κ`) than what is put into it, if
those that are not bound become the same and its slots have different names. -/
theorem applyAt_rename (injective : Function.Injective κ) (t : Ty)
    (unbound : ∀ x ∈ t.params, s.get? x = none → κ x = ρ x)
    (slots : κ = ρ ∨ ∀ u ∈ t.parts, (u.extra.map Slot.name).Nodup) :
    applyAt (s.rename κ ρ) limit depth (t.rename κ) = (applyAt s limit depth t).map (rename ρ) := by
  induction t using slotInduction generalizing depth with
  | step t ih =>
    have each : ∀ name u, .type name u ∈ t.extra → applyAt (s.rename κ ρ) limit (depth + 1) (u.rename κ) =
        (applyAt s limit (depth + 1) u).map (rename ρ) := fun name u slot =>
      ih name u slot (fun x known => unbound x (mem_params_of_slot slot known))
        (slots.imp_right fun names v part => names v (mem_parts_of_slot slot part))
    by_cases deep : limit < depth
    · rw [applyAt_deep deep, applyAt_deep deep]
      rfl
    cases t using formInduction with
    | param t parameter =>
      rw [applyAt_param deep (by simp [parameter]), applyAt_param deep parameter,
        leaf_main_rename parameter, Subst.get?_rename injective]
      cases found : s.get? t.main.leaf with
      | some u => rfl
      | none =>
        have same := unbound _ (leaf_mem_params parameter) found
        exact congrArg Except.ok (rename_congr_param parameter same)
    | list t n elem parts =>
      obtain ⟨_, name, slot⟩ := slotParts_of_listParts parts
      have parts' : (t.rename κ).listParts = .ok (some (n, elem.rename κ)) := by
        rw [listParts_rename, parts]
        rfl
      rw [applyAt_list deep parts', applyAt_list deep parts, each name elem slot]
      cases applyAt s limit (depth + 1) elem with
      | error fault => rfl
      | ok u =>
        change (listN (u.rename ρ) n).mapError _ = Except.map _ ((listN u n).mapError _)
        rw [listN_rename]
        cases listN u n <;> rfl
    | malformed t v parts =>
      have parts' : (t.rename κ).listParts = .error v := by
        rw [listParts_rename, parts]
        rfl
      rw [applyAt_malformed deep parts', applyAt_malformed deep parts]
      rfl
    | other t notParam notList =>
      exact applyAt_other_rename notParam notList deep (slots.imp_right fun names => names t t.self_mem_parts) each

/-- The whole substitution, at the limit that stands for a given one. -/
theorem apply_rename (injective : Function.Injective κ) (t : Ty) (limit : Int)
    (unbound : ∀ x ∈ t.params, s.get? x = none → κ x = ρ x)
    (slots : κ = ρ ∨ ∀ u ∈ t.parts, (u.extra.map Slot.name).Nodup) :
    (t.rename κ).apply (s.rename κ ρ) limit = (t.apply s limit).map (rename ρ) := by
  rw [apply, apply, Subst.isEmpty_rename]
  split
  · rename_i empty
    have same : ∀ x ∈ t.params, κ x = ρ x := fun x known =>
      unbound x known (Subst.get?_of_isEmpty empty x)
    exact congrArg Except.ok (rename_congr t same)
  · exact applyAt_rename injective t unbound slots

end Ty

end TypeEngine
