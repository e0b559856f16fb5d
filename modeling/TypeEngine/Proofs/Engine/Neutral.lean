import TypeEngine.Proofs.Engine.Translation
import TypeEngine.Proofs.Engine.Twin

/-!
# Names of generic parameters in the tables

Declarations, the catalog and the built-in interfaces describe supertypes in terms of parameters, and
the arguments of a type take their place. If a renaming keeps the names that no argument takes the
place of (`Neutral`), a type under new names has the supertypes of the type under the new names
(`lookupSupertypes_rename`).
-/

namespace TypeEngine

/-- Every parameter of `t` is bound by `s` or keeps its name, and the slots at any level of `t` have
different names. -/
structure Ty.Settled (ρ : String → String) (s : Subst) (t : Ty) : Prop where
  unbound : ∀ x ∈ t.params, s.get? x = none → ρ x = x
  names : ∀ u ∈ t.parts, (u.extra.map Slot.name).Nodup

theorem Ty.Settled.apply {ρ : String → String} {s : Subst} {t : Ty} (settled : t.Settled ρ s)
    (limit : Int) : t.apply (s.rename id ρ) limit = (t.apply s limit).map (rename ρ) := by
  have applied := apply_rename Function.injective_id t limit
    (fun x known none => (settled.unbound x known none).symm) (.inr settled.names)
  rwa [rename_id] at applied

theorem Ty.Settled.of_closed {ρ : String → String} {s : Subst} {t : Ty} (closed : t.params = [])
    (names : ∀ u ∈ t.parts, (u.extra.map Slot.name).Nodup) : t.Settled ρ s where
  unbound x known := by
    rw [closed] at known
    cases known
  names := names

theorem mapM_eq_map {ε α β γ : Type} {f : α → Except ε β} {g : α → Except ε γ} {h : β → γ} {l : List α}
    (each : ∀ a ∈ l, g a = (f a).map h) : l.mapM g = (l.mapM f).map (List.map h) := by
  induction l with
  | nil => rfl
  | cons a l ih =>
    rw [List.forall_mem_cons] at each
    rw [List.mapM_cons, List.mapM_cons, each.1, ih each.2]
    cases f a with
    | error fault => rfl
    | ok b => cases l.mapM f <;> rfl

theorem mapM_bind_eq_map {ε α β γ δ δ' : Type} {f : α → Except ε β} {g : α → Except ε γ}
    {k : List β → Except ε δ} {k' : List γ → Except ε δ'} {l : List α} (h : β → γ) {m : δ → δ'}
    (each : ∀ a ∈ l, g a = (f a).map h) (next : ∀ bs, k' (bs.map h) = (k bs).map m) :
    (l.mapM g >>= k') = (l.mapM f >>= k).map m := by
  rw [mapM_eq_map each]
  cases l.mapM f with
  | error fault => rfl
  | ok bs => exact next bs

/-! ### Built-in interfaces -/

namespace Builtin

variable {ρ : String → String} {t : Ty}

theorem bindShape_rename (ρ : String → String) (variadic : Bool) (names : List String) (args : List Ty)
    (s : Subst) : bindShape variadic names (args.map (Ty.rename ρ)) (s.rename id ρ) =
      (bindShape variadic names args s).map (Subst.rename id ρ) := by
  fun_induction bindShape variadic names args s with
  | case1 names s => cases names <;> rfl
  | case2 t ts s h => simp [bindShape, h]
  | case3 t ts s h => simp [bindShape, h]
  | case4 name names t ts s ih =>
    rw [List.map_cons, bindShape, ← ih, Subst.rename_set Function.injective_id, id]

theorem shapeArgs_rename (ρ : String → String) (t : Ty) :
    shapeArgs (t.rename ρ) = (shapeArgs t).map (Option.map (Subst.rename id ρ)) := by
  rw [shapeArgs, shapeArgs, Ty.isList_rename]
  split
  · rw [Ty.peelOne_rename]
    cases t.peelOne with
    | error v => rfl
    | ok elem => cases elem <;> rfl
  · cases parameter : t.isParam with
    | true =>
      have none : t.extra = [] := List.isEmpty_iff.mp (Bool.and_eq_true_iff.mp parameter).1
      simp only [Ty.extra_rename, none, Ty.renameSlots, Slot.types?]
      cases shape? (t.rename ρ).main.leaf <;> cases shape? t.main.leaf <;> rfl
    | false =>
      simp only [Ty.main_rename_of_not parameter, Ty.extra_rename, Ty.types?_renameSlots]
      cases shape? t.main.leaf with
      | none => rfl
      | some shape =>
        cases Slot.types? t.extra with
        | none => rfl
        | some args =>
          cases args with
          | nil => rfl
          | cons arg args =>
            have bound := bindShape_rename ρ shape.variadic shape.params (arg :: args) .empty
            rw [List.map_cons] at bound
            change Except.ok (if _ then bindShape _ _ _ (Subst.empty.rename id ρ) else none) = Except.ok _
            rw [bound]
            split <;> rfl

theorem interface_settled {s : Subst} (name : String) (bound : (s.get? "T").isSome = true) :
    (interface name [.param "T"]).Settled ρ s where
  unbound x known none := by
    have only : (interface name [.param "T"]).params = ["T"] := rfl
    rw [only, List.mem_singleton] at known
    rw [known] at none
    rw [none] at bound
    cases bound
  names := by
    have parts : (interface name [.param "T"]).parts = [interface name [.param "T"], .param "T"] := rfl
    rw [parts]
    simp [interface, Ty.named, Ty.param, Ty.extra, Slot.ofTypes, Slot.positional, Slot.numberFrom]

theorem isList_of_leaf (primitive : t.main.isPrimitive = true) (leaf : t.main.leaf = "list") :
    t.isList = true := by
  obtain ⟨⟨blocks⟩, extra⟩ := t
  match blocks with
  | [] | _ :: _ :: _ => cases primitive
  | [b] =>
    have kind : b.kind = .primitive := by simpa [Ty.main, Path.isPrimitive] using primitive
    have name : b.name = "list" := by simpa [Ty.main, Path.leaf, Path.last?] using leaf
    rw [Ty.isList, Path.beq_iff_bare]
    simp [Ty.main, Path.bare, Path.ofPrimitive, Block.bare, kind, name]

theorem get?_shapeArgs {s : Option Subst} (layered : (t.isList || t.isCollection) = true)
    (args : shapeArgs t = .ok s) : ((s.getD .empty).get? "T").isSome = true := by
  unfold shapeArgs at args
  cases list : t.isList with
  | true =>
    rw [list, if_pos rfl] at args
    obtain ⟨elem, _, found⟩ := Ty.exists_of_bind args
    obtain rfl := Except.ok.inj found
    rfl
  | false =>
    have collection : t.isCollection = true := by simpa [list] using layered
    rw [list, if_neg Bool.false_ne_true] at args
    unfold Ty.isCollection at collection
    split at collection
    · rename_i name u extra
      have named : Ty.collectionNames.contains t.main.leaf = true := (Bool.and_eq_true_iff.mp collection).2
      have shapes : ∀ name ∈ Ty.collectionNames, shape? name = some { name, params := ["T"] } := by
        simp [Ty.collectionNames, shape?, shapes]
      rw [shapes _ (List.contains_iff_mem.mp named), extra, named, Bool.or_true] at args
      obtain rfl := Except.ok.inj args
      rfl
    · cases collection

/-- The built-in interfaces have no parameters but that of the shape. -/
theorem declaredInterfaces_settled {s : Option Subst}
    (known : (t.main.isPrimitive || t.isCollection) = true)
    (plain : t.main.isPrimitive = true → Ty.collectionNames.contains t.main.leaf = false)
    (args : shapeArgs t = .ok s) :
    ∀ i ∈ declaredInterfaces t.main.leaf, i.Settled ρ (s.getD .empty) := by
  have compared : (interface "IComparable" []).Settled ρ (s.getD .empty) := .of_closed rfl (by decide)
  have texts : (interface "IEnumerable" [.char]).Settled ρ (s.getD .empty) := .of_closed rfl (by decide)
  unfold declaredInterfaces
  split
  · -- only the list among the primitives has this name, and no collection has it
    rename_i leaf
    have list : t.isList = true := by
      cases primitive : t.main.isPrimitive with
      | true => exact isList_of_leaf primitive leaf
      | false =>
        rw [primitive, Bool.false_or] at known
        unfold Ty.isCollection at known
        split at known
        · rw [leaf] at known
          cases (Bool.and_eq_true_iff.mp known).2
        · cases known
    have bound := get?_shapeArgs (by rw [list, Bool.true_or]) args
    simp [interface_settled, bound]
  · split
    · rename_i named
      have collection : t.isCollection = true := by
        cases primitive : t.main.isPrimitive with
        | true =>
          rw [plain primitive] at named
          cases named
        | false => simpa [primitive] using known
      have bound := get?_shapeArgs (by rw [collection, Bool.or_true]) args
      simp [interface_settled, bound]
    · split
      · simp [compared, texts]
      · split
        · simp [compared]
        · simp

theorem interfaces_rename (ρ : String → String)
    (plain : t.main.isPrimitive = true → Ty.collectionNames.contains t.main.leaf = false) :
    interfaces (t.rename ρ) = (interfaces t).map (List.map (Ty.rename ρ)) := by
  rw [interfaces, interfaces, Ty.isPrimitive_main_rename, Ty.isCollection_rename]
  split
  · rfl
  · rename_i known
    have known : (t.main.isPrimitive || t.isCollection) = true := by
      cases primitive : t.main.isPrimitive <;> simp_all
    have notParam : t.isParam = false := by
      cases parameter : t.isParam with
      | false => rfl
      | true =>
        obtain ⟨empty, main⟩ := Bool.and_eq_true_iff.mp parameter
        rw [Path.isPrimitive_of_isParameter main, Bool.false_or, Ty.isCollection,
          List.isEmpty_iff.mp empty] at known
        cases known
    rw [Ty.main_rename_of_not notParam, shapeArgs_rename]
    cases declared : declaredInterfaces t.main.leaf with
    | nil => rfl
    | cons first rest =>
      cases args : shapeArgs t with
      | error v => rfl
      | ok s =>
        have settled : ∀ i ∈ first :: rest, i.Settled ρ (s.getD .empty) := by
          rw [← declared]
          exact declaredInterfaces_settled known plain args
        have bound : (s.map (Subst.rename id ρ)).getD .empty = (s.getD .empty).rename id ρ := by
          cases s <;> rfl
        change (List.mapM _ (first :: rest) >>= _) = Except.map _ (List.mapM _ (first :: rest) >>= _)
        rw [bound]
        refine mapM_bind_eq_map (Option.map (Ty.rename ρ)) (fun i member => ?_) fun instances => ?_
        · rw [(settled i member).apply]
          cases i.apply (s.getD .empty) Ty.defaultLimit with
          | ok u => rfl
          | error fault => cases fault <;> rfl
        · refine congrArg Except.ok ?_
          rw [List.filterMap_map, List.map_filterMap]
          rfl

end Builtin

/-! ### Types of the host -/

namespace Engine

open Host

variable {ρ : String → String} {e : Engine} {s : Subst} {t : Ty}

theorem path_wrapRef {path : String} {r r' : Ref} (same : r.path = r'.path) (n : Nat) :
    (wrapRef path n r).path = (wrapRef path n r').path := by
  induction n generalizing r r' with
  | zero => exact same
  | succ n ih => exact ih rfl

theorem toNativeSlots_rename {depth : Nat} {slots : List Slot}
    (each : ∀ name u, .type name u ∈ slots → (e.toNativeAt (depth + 1) (u.rename ρ)).map (Option.map Ref.path) =
      (e.toNativeAt (depth + 1) u).map (Option.map Ref.path)) :
    (e.toNativeSlots depth (Ty.renameSlots ρ slots)).map Option.isSome =
      (e.toNativeSlots depth slots).map Option.isSome := by
  induction slots with
  | nil => rfl
  | cons s slots ih =>
    have rest := ih fun name u member => each name u (List.mem_cons_of_mem _ member)
    have next : ∀ r r', ((e.toNativeSlots depth (Ty.renameSlots ρ slots)) >>= fun refs =>
          pure (refs.map (List.cons r))).map Option.isSome =
        ((e.toNativeSlots depth slots) >>= fun refs => pure (refs.map (List.cons r'))).map Option.isSome := by
      intro r r'
      refine map_bind_congr rest fun a b same => ?_
      cases a <;> cases b
      · rfl
      · cases same
      · cases same
      · rfl
    cases s with
    | value name text =>
      rw [Ty.renameSlots, toNativeSlots, toNativeSlots]
      exact next _ _
    | type name t =>
      rw [Ty.renameSlots, toNativeSlots, toNativeSlots]
      refine map_bind_congr (each name t List.mem_cons_self) fun a b same => ?_
      cases a <;> cases b
      · rfl
      · cases same
      · cases same
      · exact next _ _

theorem path_nativeNamed (e : Engine) (main : Path) (args args' : List Ref) :
    (e.nativeNamed main args).map Ref.path = (e.nativeNamed main args').map Ref.path := by
  unfold nativeNamed
  split
  · rfl
  · split <;> rfl

theorem toNativeAt_rename (e : Engine) (ρ : String → String) (depth : Nat) (t : Ty) :
    (e.toNativeAt depth (t.rename ρ)).map (Option.map Ref.path) =
      (e.toNativeAt depth t).map (Option.map Ref.path) := by
  induction t using Ty.slotInduction generalizing depth with
  | step t ih =>
    by_cases deep : e.maxDepth < depth
    · rw [toNativeAt_deep deep, toNativeAt_deep deep]
    cases t using Ty.formInduction with
    | param t parameter =>
      rw [toNativeAt_param deep (by rw [Ty.isParam_rename, parameter]), toNativeAt_param deep parameter]
      rfl
    | list t n elem parts =>
      obtain ⟨_, name, slot⟩ := Ty.slotParts_of_listParts parts
      have parts' : (t.rename ρ).listParts = .ok (some (n, elem.rename ρ)) := by
        rw [Ty.listParts_rename, parts]
        rfl
      rw [toNativeAt_list deep parts', toNativeAt_list deep parts]
      refine map_map_congr (ih name elem slot (depth + 1)) fun r r' same => ?_
      cases r <;> cases r'
      · rfl
      · cases same
      · cases same
      · exact congrArg some (path_wrapRef (Option.some.inj same) _)
    | malformed t v parts =>
      have parts' : (t.rename ρ).listParts = .error v := by
        rw [Ty.listParts_rename, parts]
        rfl
      rw [toNativeAt_malformed deep parts', toNativeAt_malformed deep parts]
    | other t notParam notList =>
      rw [toNativeAt_named deep (by rw [Ty.isParam_rename, notParam]) (by rw [Ty.isList_rename, notList]),
        toNativeAt_named deep notParam notList, Ty.extra_rename, Ty.main_rename_of_not notParam]
      refine map_map_congr (toNativeSlots_rename fun name u slot => ih name u slot (depth + 1))
        fun args args' same => ?_
      cases args <;> cases args'
      · rfl
      · cases same
      · cases same
      · exact path_nativeNamed e t.main _ _

theorem hostInfo_rename (e : Engine) (ρ : String → String) (t : Ty) :
    e.hostInfo (t.rename ρ) = e.hostInfo t := by
  have paths := toNativeAt_rename e ρ 0 t
  rw [hostInfo, hostInfo, hostPath, hostPath, toNative, toNative]
  cases native : e.toNativeAt 0 (t.rename ρ) <;> cases native' : e.toNativeAt 0 t <;>
    rw [native, native'] at paths
  · rw [Except.error.inj paths]
  · cases paths
  · cases paths
  · have paths := Except.ok.inj paths
    change Except.ok ((Option.filter _ (Option.map _ _)).bind _) =
      Except.ok ((Option.filter _ (Option.map _ _)).bind _)
    rw [paths]

theorem instantiateRef_rename {r : Ref}
    (settled : ∀ u, e.toModel r = .ok (some u) → u.Settled ρ s) :
    e.instantiateRef r (s.rename id ρ) = (e.instantiateRef r s).map (Option.map (Ty.rename ρ)) := by
  rw [instantiateRef, instantiateRef]
  cases model : e.toModel r with
  | error v => rfl
  | ok u? =>
    cases u? with
    | none => rfl
    | some u =>
      have applied := (settled u model).apply e.maxDepth
      rw [Ty.bind_ok, Ty.bind_ok]
      dsimp only
      rw [applied]
      cases u.apply s e.maxDepth with
      | ok v => rfl
      | error fault => cases fault <;> rfl

theorem hostSupertypes_rename (isInterface : Bool) {refs : List Ref}
    (settled : ∀ r ∈ refs, ∀ u, e.toModel r = .ok (some u) → u.Settled ρ s) :
    e.hostSupertypes (s.rename id ρ) isInterface refs =
      (e.hostSupertypes s isInterface refs).map (List.map (Supertype.rename ρ)) := by
  induction refs with
  | nil => rfl
  | cons r refs ih =>
    rw [List.forall_mem_cons] at settled
    rw [hostSupertypes, hostSupertypes, instantiateRef_rename settled.1, ih settled.2]
    cases e.instantiateRef r s with
    | error v => rfl
    | ok type? =>
      cases e.hostSupertypes s isInterface refs with
      | error v => rfl
      | ok more => cases type? <;> rfl

end Engine

/-! ### All supertypes -/

/-- The names that the tables bring in for the types of `T` are kept by the renaming, unless an
argument takes their place. Nothing is declared at a parameter, and no primitive has the name of a
collection. -/
structure Neutral (ρ : String → String) (e : Engine) (ts : Tables) (T : Ty → Prop) : Prop where
  undeclared : ∀ p : Path, p.isParameter = true → ts.type? p = none
  primitives : ∀ t, T t → t.main.isPrimitive = true →
    Ty.collectionNames.contains t.main.leaf = false
  declared : ∀ t decl, T t → ts.type? t.main = some decl →
    ∀ b ∈ decl.base?.toList ++ ts.interfaces? t.main, b.Settled ρ (Engine.declSubst decl t)
  hosted : ∀ t info, T t → e.hostInfo t = .ok (some info) →
    ∀ r ∈ info.base?.toList ++ info.interfaces, ∀ u, e.toModel r = .ok (some u) →
      u.Settled ρ (t.bindParams info.typeParams)
  conversions : ∀ t, T t → ∀ edge ∈ ts.conversionEdges t, t.KeptBy ρ ∧ edge.dest.KeptBy ρ

namespace Neutral

variable {ρ : String → String} {e : Engine} {ts : Tables} {T : Ty → Prop} {t : Ty}

theorem catalogSupertypes (neutral : Neutral ρ e ts T) (inside : T t) :
    e.catalogSupertypes (t.rename ρ) =
      (e.catalogSupertypes t).map (List.map (Supertype.rename ρ)) := by
  rw [Engine.catalogSupertypes, Engine.catalogSupertypes, Engine.hostInfo_rename]
  cases found : e.hostInfo t with
  | error v => rfl
  | ok info? =>
    cases info? with
    | none => rfl
    | some info =>
      have settled := neutral.hosted t info inside found
      rw [List.forall_mem_append] at settled
      rw [Ty.bind_ok, Ty.bind_ok]
      dsimp only
      rw [Ty.bindParams_rename, Engine.hostSupertypes_rename false settled.1,
        Engine.hostSupertypes_rename true settled.2]
      cases e.hostSupertypes (t.bindParams info.typeParams) false info.base?.toList with
      | error v => rfl
      | ok bases =>
        cases e.hostSupertypes (t.bindParams info.typeParams) true info.interfaces with
        | error v => rfl
        | ok interfaces => exact congrArg Except.ok List.map_append.symm

theorem declared_rename (neutral : Neutral ρ e ts T) (t : Ty) :
    ts.type? (t.rename ρ).main = ts.type? t.main := by
  cases parameter : t.isParam with
  | false => rw [Ty.main_rename_of_not parameter]
  | true =>
    have renamed : (t.rename ρ).isParam = true := by rw [Ty.isParam_rename, parameter]
    rw [neutral.undeclared _ (Bool.and_eq_true_iff.mp parameter).2,
      neutral.undeclared _ (Bool.and_eq_true_iff.mp renamed).2]

theorem lookupSupertypes_rename (neutral : Neutral ρ e ts T) (inside : T t) :
    e.lookupSupertypes ts (t.rename ρ) =
      (e.lookupSupertypes ts t).map (List.map (Supertype.rename ρ)) := by
  rw [Engine.lookupSupertypes, Engine.lookupSupertypes, neutral.declared_rename]
  cases found : ts.type? t.main with
  | some decl =>
    have settled := neutral.declared t decl inside found
    rw [List.forall_mem_append] at settled
    have notParam : t.isParam = false := by
      refine Bool.eq_false_iff.mpr fun parameter => ?_
      rw [neutral.undeclared _ (Bool.and_eq_true_iff.mp parameter).2] at found
      cases found
    have bound : Engine.declSubst decl (t.rename ρ) = (Engine.declSubst decl t).rename id ρ :=
      t.bindParams_rename ρ _
    dsimp only
    rw [bound]
    refine mapM_bind_eq_map (Ty.rename ρ) (fun b member => (settled.1 b member).apply _) fun bases => ?_
    rw [Ty.main_rename_of_not notParam]
    refine mapM_bind_eq_map (Ty.rename ρ) (fun i member => (settled.2 i member).apply _) fun ifaces => ?_
    refine congrArg Except.ok ?_
    simp [Supertype.rename, Function.comp_def]
  | none =>
    dsimp only
    rw [Builtin.interfaces_rename ρ (neutral.primitives t inside), neutral.catalogSupertypes inside]
    cases Builtin.interfaces t with
    | error v => rfl
    | ok builtin =>
      cases e.catalogSupertypes t with
      | error v => rfl
      | ok host =>
        refine congrArg Except.ok ?_
        simp [Supertype.rename, Function.comp_def]

theorem indifferent (neutral : Neutral ρ e ts T) (injective : Function.Injective ρ) :
    Indifferent ρ e ts T where
  injective := injective
  supertypes _ inside := neutral.lookupSupertypes_rename inside
  conversions := neutral.conversions

end Neutral

end TypeEngine
