import TypeEngine.Engine.Supertypes
import TypeEngine.Proofs.Ty.Slots
import TypeEngine.Proofs.Ty.Substitution

/-!
# Translation within the limit

Types and host references are translated into each other as deep as the engine goes; what is nested
deeper has no translation, which is not a fault. The nesting of a type or a reference counts the
levels of its arguments. A translation that stays within the limit is the same under any greater
limit: `hostInfo_more` for the way to the host, `instantiateRef_more` for the way back.
-/

namespace TypeEngine

namespace Ty

variable {t elem : Ty} {k : Int} {slots : List Slot}

theorem nesting_layered (k : Int) (elem : Ty) : (layered k elem).nesting = elem.nesting + 1 := by
  rw [nesting_eq, extra_layered]
  split <;> simp [slotNesting]

theorem nesting_listN {u : Ty} (done : elem.listN k = .ok u) : u.nesting ≤ elem.nesting + 1 := by
  rcases listN_cases done with ⟨_, rfl⟩ | ⟨m, inner, found, rfl⟩
  · exact Nat.le_of_eq (nesting_layered ..)
  · obtain ⟨_, name, slot⟩ := slotParts_of_listParts found
    have deeper := nesting_slot slot
    rw [nesting_layered]
    omega

theorem slotNesting_numberFrom (slots : List Slot) (start : Nat) :
    slotNesting (Slot.numberFrom start slots) = slotNesting slots := by
  induction slots generalizing start with
  | nil => rfl
  | cons s slots ih => cases s <;> simp [Slot.numberFrom, Slot.rename, slotNesting, ih]

end Ty

namespace Host.Ref

mutual

/-- The levels of type arguments below a reference. -/
def nesting : Ref → Nat
  | mk _ _ _ args => argNesting args

def argNesting : List Ref → Nat
  | [] => 0
  | mk path param value args :: refs =>
    if value ≠ "" then argNesting refs
    else max (nesting (mk path param value args) + 1) (argNesting refs)

end

end Host.Ref

namespace Engine

open Host

variable {slots args : List Slot} {r : Ref}

/-- The engine with another limit on the depth. -/
def withDepth (e : Engine) (more : Nat) : Engine := { e with maxDepth := more }

variable {e : Engine} {more depth : Nat} {t elem : Ty} {n : Int}

/-! ### From types to references -/

/-- The name under which the host would know a type. -/
def hostName (e : Engine) (t : Ty) : String :=
  if t.isParam then ""
  else if t.main.isPrimitive then e.nativeName t.main.leaf
  else ".".intercalate (t.main.blocks.map Block.name)

theorem toNativeAt_deep (deep : e.maxDepth < depth) (t : Ty) : e.toNativeAt depth t = .ok none := by
  cases t
  unfold toNativeAt
  rw [if_pos deep]

theorem toNativeAt_param (shallow : ¬e.maxDepth < depth) (parameter : t.isParam = true) :
    e.toNativeAt depth t = .ok (some (.ofParam t.main.leaf)) := by
  obtain ⟨main, extra⟩ := t
  have parameter : (extra.isEmpty && main.isParameter) = true := parameter
  unfold toNativeAt
  rw [if_neg shallow, if_pos parameter]
  rfl

theorem toNativeAt_list (shallow : ¬e.maxDepth < depth) (parts : t.listParts = .ok (some (n, elem))) :
    e.toNativeAt depth t = (e.toNativeAt (depth + 1) elem).map
      (Option.map (wrapRef (e.nativeName "list") n.toNat)) := by
  refine Ty.listParts_cases parts (fun main name isList => ?_) fun main name text name' isList counted => ?_
  · conv => lhs; unfold toNativeAt
    rw [if_neg shallow, if_neg (by simp), if_pos isList]
    dsimp only
    cases e.toNativeAt (depth + 1) elem <;> rfl
  · conv => lhs; unfold toNativeAt
    rw [if_neg shallow, if_neg (by simp), if_pos isList]
    dsimp only
    rw [counted]
    cases e.toNativeAt (depth + 1) elem <;> rfl

theorem toNativeAt_malformed {v : Violation} (shallow : ¬e.maxDepth < depth)
    (parts : t.listParts = .error v) : e.toNativeAt depth t = .error v := by
  have list := Ty.isList_of_error parts
  have notParam := Ty.isParam_of_isList list
  have layers := Ty.layersOf_of_error parts
  obtain ⟨main, extra⟩ := t
  have notParam : ¬(extra.isEmpty && main.isParameter) = true := Bool.eq_false_iff.mp notParam
  have list : (main == .ofPrimitive "list") = true := list
  have layers : Ty.layersOf extra = .error v := layers
  unfold toNativeAt
  rw [if_neg shallow, if_neg notParam, if_pos list]
  split
  · cases layers
  · rw [Ty.layersOf] at layers
    split
    · rename_i counted
      rw [counted] at layers
      cases layers
    · rename_i counted
      rw [counted] at layers
      cases layers
      rfl
  · rw [layers]
    rfl

theorem toNativeAt_named (shallow : ¬e.maxDepth < depth) (notParam : t.isParam = false)
    (notList : t.isList = false) : e.toNativeAt depth t =
      (e.toNativeSlots depth t.extra).map fun args => args.bind (e.nativeNamed t.main) := by
  obtain ⟨main, extra⟩ := t
  have notParam : ¬(extra.isEmpty && main.isParameter) = true := Bool.eq_false_iff.mp notParam
  have notList : ¬(main == .ofPrimitive "list") = true := Bool.eq_false_iff.mp notList
  conv => lhs; unfold toNativeAt
  rw [if_neg shallow, if_neg notParam, if_neg notList]
  cases h : e.toNativeSlots depth extra <;> simp only [Ty.extra, Ty.main, h] <;> rfl

theorem toNativeSlots_congr {e' : Engine}
    (each : ∀ name t, .type name t ∈ slots → e'.toNativeAt (depth + 1) t = e.toNativeAt (depth + 1) t) :
    e'.toNativeSlots depth slots = e.toNativeSlots depth slots := by
  induction slots with
  | nil => simp only [toNativeSlots]
  | cons s slots ih =>
    have ih := ih fun name t member => each name t (List.mem_cons_of_mem _ member)
    cases s with
    | type name t => simp only [toNativeSlots, each name t List.mem_cons_self, ih]
    | value name text => simp only [toNativeSlots, ih]

theorem toNativeAt_more (within : e.maxDepth ≤ more) (shallow : depth + t.nesting ≤ e.maxDepth) :
    (e.withDepth more).toNativeAt depth t = e.toNativeAt depth t := by
  have below : ¬(e.withDepth more).maxDepth < depth := by
    change ¬more < depth
    omega
  induction t using Ty.formInduction generalizing depth with
  | param t parameter => rw [toNativeAt_param below parameter, toNativeAt_param (by omega) parameter]
  | list t n elem parts ih =>
    obtain ⟨_, name, slot⟩ := Ty.slotParts_of_listParts parts
    have deeper := Ty.nesting_slot slot
    have inner := @ih (depth + 1) (by omega) (by change ¬more < depth + 1; omega)
    rw [toNativeAt_list below parts, toNativeAt_list (by omega) parts, inner]
    rfl
  | malformed t v parts =>
    rw [toNativeAt_malformed below parts, toNativeAt_malformed (by omega) parts]
  | other t notParam notList ih =>
    have slots : (e.withDepth more).toNativeSlots depth t.extra = e.toNativeSlots depth t.extra := by
      refine toNativeSlots_congr fun name u slot => ?_
      have deeper := Ty.nesting_slot slot
      exact ih name u slot (by omega) (by change ¬more < depth + 1; omega)
    rw [toNativeAt_named below notParam notList, toNativeAt_named (by omega) notParam notList, slots]
    rfl

theorem wrapRef_path {path : String} (n : Nat) (here : r.path = path) :
    (wrapRef path n r).path = path := by
  induction n generalizing r with
  | zero => exact here
  | succ n ih => exact ih rfl

theorem hostName_list (list : t.isList = true) : e.hostName t = e.nativeName "list" := by
  have path : t.main.bare = (Path.ofPrimitive "list").bare := Path.beq_iff_bare.mp list
  have primitive : t.main.isPrimitive = true := by
    rw [← Path.isPrimitive_bare, path]
    rfl
  have leaf : t.main.leaf = "list" := by
    rw [← Path.leaf_bare, path]
    rfl
  rw [hostName, Ty.isParam_of_isList list, primitive, leaf]
  rfl

theorem toNativeAt_path (found : e.toNativeAt depth t = .ok (some r)) :
    r.path = e.hostName t := by
  have shallow : ¬e.maxDepth < depth := by
    intro deep
    rw [toNativeAt_deep deep] at found
    cases found
  cases t using Ty.formInduction with
  | param t parameter =>
    rw [toNativeAt_param shallow parameter] at found
    obtain rfl := Option.some.inj (Except.ok.inj found)
    rw [hostName, if_pos parameter]
    rfl
  | list t n elem parts =>
    have bounds := Ty.listParts_bounds parts
    rw [toNativeAt_list shallow parts] at found
    obtain ⟨r?, _, found⟩ := Ty.exists_of_map found
    obtain ⟨r', rfl, rfl⟩ := Option.map_eq_some_iff.mp found
    rw [hostName_list (Ty.isList_of_listParts parts), show n.toNat = n.toNat - 1 + 1 by omega, wrapRef]
    exact wrapRef_path _ rfl
  | malformed t v parts =>
    rw [toNativeAt_malformed shallow parts] at found
    cases found
  | other t notParam notList =>
    rw [toNativeAt_named shallow notParam notList] at found
    obtain ⟨args?, _, found⟩ := Ty.exists_of_map found
    obtain ⟨args, rfl, named⟩ := Option.bind_eq_some_iff.mp found
    rw [hostName, notParam]
    unfold nativeNamed at named
    split at named
    · rename_i primitive
      obtain rfl := Option.some.inj named
      simp [primitive, Ref.ofPath, Ref.path]
    · rename_i other
      split at named
      · cases named
      · obtain rfl := Option.some.inj named
        simp [other, Ref.ofPath, Ref.path]

theorem toNativeSlots_ok
    (each : ∀ name t, .type name t ∈ slots → ∃ r?, e.toNativeAt (depth + 1) t = .ok r?) :
    ∃ args?, e.toNativeSlots depth slots = .ok args? := by
  induction slots with
  | nil => exact ⟨some [], by rw [toNativeSlots]⟩
  | cons s slots ih =>
    obtain ⟨args?, rest⟩ := ih fun name t member => each name t (List.mem_cons_of_mem _ member)
    cases s with
    | type name t =>
      obtain ⟨r?, first⟩ := each name t List.mem_cons_self
      rw [toNativeSlots, first, rest]
      cases r? <;> exact ⟨_, rfl⟩
    | value name text =>
      rw [toNativeSlots, rest]
      exact ⟨_, rfl⟩

theorem toNativeAt_ok (sound : t.Sound) : ∃ r?, e.toNativeAt depth t = .ok r? := by
  by_cases deep : e.maxDepth < depth
  · exact ⟨none, toNativeAt_deep deep t⟩
  induction t using Ty.formInduction generalizing depth with
  | param t parameter => exact ⟨_, toNativeAt_param deep parameter⟩
  | list t n elem parts ih =>
    obtain ⟨_, name, slot⟩ := Ty.slotParts_of_listParts parts
    rw [toNativeAt_list deep parts]
    by_cases deeper : e.maxDepth < depth + 1
    · rw [toNativeAt_deep deeper]
      exact ⟨_, rfl⟩
    · obtain ⟨r?, inner⟩ := ih (sound.slot slot) deeper
      rw [inner]
      exact ⟨_, rfl⟩
  | malformed t v parts =>
    obtain ⟨found, counted⟩ := sound t t.self_mem_parts
    rw [parts] at counted
    cases counted
  | other t notParam notList ih =>
    rw [toNativeAt_named deep notParam notList]
    have slots : ∃ args?, e.toNativeSlots depth t.extra = .ok args? := by
      refine toNativeSlots_ok fun name u slot => ?_
      by_cases deeper : e.maxDepth < depth + 1
      · exact ⟨none, toNativeAt_deep deeper u⟩
      · exact ih name u slot (sound.slot slot) deeper
    obtain ⟨args?, done⟩ := slots
    rw [done]
    exact ⟨_, rfl⟩

theorem hostInfo_unknown (sound : t.Sound) (unknown : e.catalog.lookup? (e.hostName t) = none) :
    e.hostInfo t = .ok none := by
  obtain ⟨r?, done⟩ : ∃ r?, e.toNativeAt 0 t = .ok r? := toNativeAt_ok sound
  unfold hostInfo hostPath toNative
  rw [done]
  cases r? with
  | none => rfl
  | some r =>
    change Except.ok ((((some r).map Ref.path).filter (· ≠ "")).bind e.catalog.lookup?) = _
    rw [Option.map_some, toNativeAt_path done, Option.filter_some]
    split
    · rw [Option.bind_some, unknown]
    · rfl

theorem hostInfo_more (within : e.maxDepth ≤ more)
    (fits : t.nesting ≤ e.maxDepth ∨ t.Sound ∧ e.catalog.lookup? (e.hostName t) = none) :
    (e.withDepth more).hostInfo t = e.hostInfo t := by
  rcases fits with shallow | ⟨sound, unknown⟩
  · have same : (e.withDepth more).toNative t = e.toNative t := toNativeAt_more within (by omega)
    unfold hostInfo hostPath
    rw [same]
    rfl
  · rw [hostInfo_unknown sound unknown]
    exact hostInfo_unknown sound unknown

/-! ### From references to types -/

theorem mem_of_types? {ts : List Ty} (types : Slot.types? slots = some ts)
    (member : t ∈ ts) : ∃ name, .type name t ∈ slots := by
  induction slots generalizing ts with
  | nil =>
    obtain rfl := Option.some.inj types
    cases member
  | cons s slots ih =>
    cases s with
    | type name u =>
      obtain ⟨rest, later, rfl⟩ := Option.map_eq_some_iff.mp types
      rcases List.mem_cons.mp member with rfl | member
      · exact ⟨name, List.mem_cons_self⟩
      · obtain ⟨name', known⟩ := ih later member
        exact ⟨name', List.mem_cons_of_mem _ known⟩
    | value name text => cases types

theorem types?_map (us : List Ty) : Slot.types? (us.map (.type "")) = some us := by
  induction us with
  | nil => rfl
  | cons u us ih => rw [List.map_cons, Slot.types?, ih]; rfl

/-- A primitive is a list of an argument, or a shape that depends on the number of arguments only. -/
theorem modelPrimitive_form {name : String} (done : modelPrimitive name args = .ok (some t)) :
    (name = "list" ∧ ∃ n elem k, .type n elem ∈ args ∧ elem.listN k = .ok t) ∨
    (name ≠ "list" ∧ ∃ ts, t = .named (.ofPrimitive name) ts ∧ (∀ u ∈ ts, ∃ n, .type n u ∈ args) ∧
      ∀ us : List Ty, us.length = ts.length →
        modelPrimitive name (us.map (.type "")) = .ok (some (.named (.ofPrimitive name) us))) := by
  have inside : ∀ {ts}, Slot.types? args = some ts → ∀ u ∈ ts, ∃ n, .type n u ∈ args :=
    fun types u member => mem_of_types? types member
  unfold modelPrimitive at done
  split at done
  · rename_i isList
    refine .inl ⟨isList, ?_⟩
    split at done
    · obtain ⟨u, wrapped, done⟩ := Ty.exists_of_bind done
      cases done
      exact ⟨_, _, 1, List.mem_cons_self, wrapped⟩
    · split at done
      · obtain ⟨u, wrapped, done⟩ := Ty.exists_of_bind done
        cases done
        exact ⟨_, _, _, List.mem_cons_of_mem _ List.mem_cons_self, wrapped⟩
      · cases done
    · cases done
  rename_i notList
  refine .inr ⟨notList, ?_⟩
  split at done
  · rename_i isTuple
    subst isTuple
    obtain ⟨ts, types, rfl⟩ := Option.map_eq_some_iff.mp (Except.ok.inj done)
    refine ⟨ts, rfl, inside types, fun us _ => ?_⟩
    simp only [modelPrimitive, types?_map]
    rfl
  split at done
  · rename_i isFunc
    subst isFunc
    split at done
    · rename_i ret params types
      cases done
      refine ⟨ret :: params, rfl, inside types, fun us length => ?_⟩
      obtain ⟨u, us, rfl⟩ := List.exists_cons_of_length_eq_add_one length
      simp only [modelPrimitive, types?_map]
      rfl
    · cases done
  split at done
  · rename_i isSpan
    subst isSpan
    split at done
    · rename_i inner types
      cases done
      refine ⟨[inner], rfl, inside types, fun us length => ?_⟩
      obtain ⟨u, rfl⟩ := List.length_eq_one_iff.mp length
      simp only [modelPrimitive, types?_map]
      rfl
    · cases done
  · rename_i notTuple notFunc notSpan
    cases done
    refine ⟨[], rfl, by simp, fun us length => ?_⟩
    obtain rfl := List.length_eq_zero_iff.mp length
    unfold modelPrimitive
    rw [if_neg notList, if_neg notTuple, if_neg notFunc, if_neg notSpan]
    rfl

theorem modelPrimitive_nesting {name : String}
    (found : modelPrimitive name args = .ok (some t)) : t.nesting ≤ Ty.slotNesting args := by
  have inside : ∀ n u, .type n u ∈ args → u.nesting + 1 ≤ Ty.slotNesting args :=
    Ty.slotNesting_le.mp (Nat.le_refl _)
  rcases modelPrimitive_form found with ⟨_, n, elem, k, slot, wrapped⟩ | ⟨_, ts, rfl, known, _⟩
  · exact Nat.le_trans (Ty.nesting_listN wrapped) (inside n elem slot)
  · rw [Ty.nesting_eq]
    refine Ty.slotNesting_le.mpr fun n u slot => ?_
    obtain ⟨m, slot⟩ := known u (Slot.type_mem_ofTypes.mp ⟨n, slot⟩)
    exact inside m u slot

theorem isList_scopePath (info : TypeInfo) : (Ty.mk info.scopePath []).isList = false := by
  refine Bool.eq_false_iff.mpr fun list => ?_
  have path : info.scopePath.bare = (Path.ofPrimitive "list").bare := Path.beq_iff_bare.mp list
  have kinds := congrArg (fun p : Path => p.blocks.getLast?.map Block.kind) path
  have innermost : info.kind.toBlock = .primitive := by
    simpa [TypeInfo.scopePath, Path.bare, Block.bare, Path.ofPrimitive] using kinds
  cases kind : info.kind <;> rw [kind] at innermost <;> cases innermost

theorem modelNamed_cases {path : String} (found : e.modelNamed path args = .ok (some t)) :
    (∃ name, modelPrimitive name args = .ok (some t)) ∨
      ∃ main, (Ty.mk main []).isList = false ∧ t = .mk main (Slot.positional args) := by
  unfold modelNamed at found
  split at found
  · exact .inl ⟨_, found⟩
  split at found
  · exact .inl ⟨_, found⟩
  split at found
  · cases found
    exact .inr ⟨_, rfl, rfl⟩
  · obtain ⟨info, _, rfl⟩ := Option.map_eq_some_iff.mp (Except.ok.inj found)
    exact .inr ⟨_, isList_scopePath info, rfl⟩

theorem modelNamed_nesting {path : String}
    (found : e.modelNamed path args = .ok (some t)) : t.nesting ≤ Ty.slotNesting args := by
  rcases modelNamed_cases found with ⟨name, primitive⟩ | ⟨main, _, rfl⟩
  · exact modelPrimitive_nesting primitive
  · rw [Ty.nesting]
    exact Nat.le_of_eq (Ty.slotNesting_numberFrom args 1)

theorem mem_toModelArgs {rs : List Ref} (found : e.toModelArgs depth rs = .ok (some slots)) :
    (∀ n text, .value n text ∈ slots → text ≠ "") ∧
      ∀ n u, .type n u ∈ slots → ∃ r ∈ rs, r.value = "" ∧ e.toModelAt (depth + 1) r = .ok (some u) := by
  induction rs generalizing slots with
  | nil =>
    unfold toModelArgs at found
    cases found
    simp
  | cons r rs ih =>
    obtain ⟨path, param, value, args⟩ := r
    unfold toModelArgs at found
    split at found
    · rename_i present
      obtain ⟨rest?, later, found⟩ := Ty.exists_of_bind found
      obtain ⟨rest, rfl, rfl⟩ := Option.map_eq_some_iff.mp (Except.ok.inj found)
      obtain ⟨values, types⟩ := ih later
      refine ⟨fun n text slot => ?_, fun n u slot => ?_⟩
      · rcases List.mem_cons.mp slot with same | slot
        · cases same
          exact present
        · exact values n text slot
      · obtain ⟨r, member, found⟩ := types n u (by simpa using slot)
        exact ⟨r, List.mem_cons_of_mem _ member, found⟩
    · rename_i typed
      obtain ⟨t?, first, found⟩ := Ty.exists_of_bind found
      cases t? with
      | none => cases found
      | some t =>
        obtain ⟨rest?, later, found⟩ := Ty.exists_of_bind found
        obtain ⟨rest, rfl, rfl⟩ := Option.map_eq_some_iff.mp (Except.ok.inj found)
        obtain ⟨values, types⟩ := ih later
        refine ⟨fun n text slot => values n text (by simpa using slot), fun n u slot => ?_⟩
        rcases List.mem_cons.mp slot with same | slot
        · cases same
          exact ⟨_, List.mem_cons_self, not_not.mp typed, first⟩
        · obtain ⟨r, member, found⟩ := types n u slot
          exact ⟨r, List.mem_cons_of_mem _ member, found⟩

/-- What holds of parameters and of null, and of a name with arguments if it holds of the arguments,
holds of all that references denote. -/
theorem toModelAt_rec {P : Nat → Ty → Prop}
    (param : ∀ {depth name}, depth ≤ e.maxDepth → name ≠ "" → P depth (.param name))
    (null : ∀ {depth}, depth ≤ e.maxDepth → P depth .null)
    (named : ∀ {depth path slots t}, depth ≤ e.maxDepth → path ≠ "" →
      (∀ n text, .value n text ∈ slots → text ≠ "") → (∀ n u, .type n u ∈ slots → P (depth + 1) u) →
      e.modelNamed path slots = .ok (some t) → P depth t) :
    ∀ (r : Ref) {depth : Nat} {t : Ty}, e.toModelAt depth r = .ok (some t) → P depth t
  | .mk path name value args, depth, t, found => by
    unfold toModelAt at found
    split at found
    · cases found
    rename_i shallow
    have within := Nat.le_of_not_lt shallow
    split at found
    · rename_i present
      cases found
      exact param within present
    split at found
    · cases found
    split at found
    · cases found
      exact null within
    rename_i present
    obtain ⟨slots?, inner, found⟩ := Ty.exists_of_bind found
    cases slots? with
    | none => cases found
    | some slots =>
      obtain ⟨values, types⟩ := mem_toModelArgs inner
      refine named within present values (fun n u slot => ?_) found
      obtain ⟨r, member, _, denotes⟩ := types n u slot
      have smaller := List.sizeOf_lt_of_mem member
      exact toModelAt_rec param null named r denotes

theorem toModelAt_nesting {depth : Nat} (found : e.toModelAt depth r = .ok (some t)) :
    depth + t.nesting ≤ e.maxDepth := by
  refine toModelAt_rec (P := fun depth t => depth + t.nesting ≤ e.maxDepth) (fun within _ => within) id
    (fun {depth _ slots _} within _ _ types found => ?_) r found
  have inner : Ty.slotNesting slots ≤ e.maxDepth - depth := by
    refine Ty.slotNesting_le.mpr fun n u slot => ?_
    have below := types n u slot
    omega
  have outer := modelNamed_nesting found
  omega

mutual

theorem toModelAt_more (within : e.maxDepth ≤ more) : ∀ (r : Ref) {depth : Nat},
    depth + r.nesting ≤ e.maxDepth → (e.withDepth more).toModelAt depth r = e.toModelAt depth r
  | .mk path param value args, depth, shallow => by
    have inner : (e.withDepth more).toModelArgs depth args = e.toModelArgs depth args :=
      toModelArgs_more within args (by rwa [Ref.nesting] at shallow)
    have above : ¬e.maxDepth < depth := by omega
    have below : ¬(e.withDepth more).maxDepth < depth := by
      change ¬more < depth
      omega
    unfold toModelAt
    rw [if_neg below, if_neg above, inner]
    rfl

theorem toModelArgs_more (within : e.maxDepth ≤ more) : ∀ (rs : List Ref) {depth : Nat},
    depth + Ref.argNesting rs ≤ e.maxDepth →
      (e.withDepth more).toModelArgs depth rs = e.toModelArgs depth rs
  | [], depth, _ => by
    unfold toModelArgs
    rfl
  | .mk path param value args :: rs, depth, shallow => by
    rw [Ref.argNesting] at shallow
    unfold toModelArgs
    split
    · rename_i literal
      rw [if_pos literal] at shallow
      rw [toModelArgs_more within rs shallow]
    · rename_i typed
      rw [if_neg typed] at shallow
      have first : (e.withDepth more).toModelAt (depth + 1) (.mk path param value args) =
          e.toModelAt (depth + 1) (.mk path param value args) := toModelAt_more within _ (by omega)
      rw [first, toModelArgs_more within rs (by omega)]

end

theorem instantiateRef_more (positive : 0 < e.maxDepth) (within : e.maxDepth ≤ more)
    (shallow : r.nesting ≤ e.maxDepth) (s : Subst) :
    (e.withDepth more).instantiateRef r s = e.instantiateRef r s := by
  have same : (e.withDepth more).toModel r = e.toModel r := toModelAt_more within r (by omega)
  unfold instantiateRef
  rw [same]
  cases found : e.toModel r with
  | error v => rfl
  | ok t? =>
    cases t? with
    | none => rfl
    | some t =>
      have within' := toModelAt_nesting found
      have applied : t.apply s (e.withDepth more).maxDepth = t.apply s e.maxDepth :=
        Ty.apply_more positive within (by omega)
      rw [Ty.bind_ok, Ty.bind_ok]
      dsimp only
      rw [applied]

/-! ### Supertypes -/

theorem hostSupertypes_more (positive : 0 < e.maxDepth) (within : e.maxDepth ≤ more) {rs : List Ref}
    (shallow : ∀ r ∈ rs, r.nesting ≤ e.maxDepth) (s : Subst) (isInterface : Bool) :
    (e.withDepth more).hostSupertypes s isInterface rs = e.hostSupertypes s isInterface rs := by
  induction rs with
  | nil => rfl
  | cons r rs ih =>
    rw [List.forall_mem_cons] at shallow
    rw [hostSupertypes, hostSupertypes, instantiateRef_more positive within shallow.1, ih shallow.2]

/-- The limit of the engine does not cut off a base or an interface in the catalog, nor a type of `T`
on its way to the host. A type with a name that the catalog does not know may be nested deeper. -/
structure Uncut (e : Engine) (ts : Tables) (T : Ty → Prop) : Prop where
  positive : 0 < e.maxDepth
  references : ∀ info ∈ e.catalog.types, ∀ r ∈ info.base?.toList ++ info.interfaces,
    r.nesting ≤ e.maxDepth
  types : ∀ t, T t → ts.type? t.main = none →
    t.nesting ≤ e.maxDepth ∨ t.Sound ∧ e.catalog.lookup? (e.hostName t) = none

variable {ts : Tables} {T : Ty → Prop}

theorem catalogSupertypes_more (uncut : e.Uncut ts T) (within : e.maxDepth ≤ more) (asked : T t)
    (undeclared : ts.type? t.main = none) :
    (e.withDepth more).catalogSupertypes t = e.catalogSupertypes t := by
  unfold catalogSupertypes
  rw [hostInfo_more within (uncut.types t asked undeclared)]
  cases found : e.hostInfo t with
  | error v => rfl
  | ok info? =>
    cases info? with
    | none => rfl
    | some info =>
      have known : info ∈ e.catalog.types := by
        unfold hostInfo at found
        obtain ⟨path?, _, found⟩ := Ty.exists_of_bind found
        obtain ⟨path, _, found⟩ := Option.bind_eq_some_iff.mp (Except.ok.inj found)
        exact List.mem_of_find?_eq_some found
      have references := uncut.references info known
      rw [List.forall_mem_append] at references
      rw [Ty.bind_ok, Ty.bind_ok]
      dsimp only
      rw [hostSupertypes_more uncut.positive within references.1,
        hostSupertypes_more uncut.positive within references.2]

theorem lookupSupertypes_more (uncut : e.Uncut ts T) (within : e.maxDepth ≤ more) (asked : T t)
    {found : List Supertype} (done : e.lookupSupertypes ts t = .ok found) :
    (e.withDepth more).lookupSupertypes ts t = .ok found := by
  unfold lookupSupertypes at done ⊢
  cases declared : ts.type? t.main with
  | none =>
    rw [declared] at done
    dsimp only at done ⊢
    rw [catalogSupertypes_more uncut within asked declared]
    exact done
  | some decl =>
    rw [declared] at done
    dsimp only at done ⊢
    obtain ⟨bases, inherited, done⟩ := Ty.exists_of_bind done
    obtain ⟨ifaces, implemented, done⟩ := Ty.exists_of_bind done
    have applied : ∀ (s : Subst) (b u : Ty), b.apply s e.maxDepth = .ok u →
        b.apply s (e.withDepth more).maxDepth = .ok u :=
      fun s b u => Ty.apply_ok uncut.positive within
    rw [mapM_ok (applied _) inherited, Ty.bind_ok, mapM_ok (applied _) implemented]
    exact done

end Engine

end TypeEngine
