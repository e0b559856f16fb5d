import TypeEngine.Engine.Supertypes
import TypeEngine.Proofs.Ty.Congruence

/-!
# Supertypes of equal types

Where the supertypes of a type come from a declaration, from the built-in interfaces or from the
host catalog, they depend on its bare form only: equal types have equal direct supertypes, in the
same order (`lookupSupertypes_bare`).
-/

namespace TypeEngine

theorem map_mapM_congr {ε α β γ : Type} {f g : α → Except ε β} {h : β → γ} {l : List α}
    (each : ∀ a ∈ l, (f a).map h = (g a).map h) :
    (l.mapM f).map (List.map h) = (l.mapM g).map (List.map h) := by
  induction l with
  | nil => rfl
  | cons a l ih =>
    rw [List.forall_mem_cons] at each
    rw [List.mapM_cons, List.mapM_cons]
    refine map_bind_congr each.1 fun b b' first => ?_
    refine map_bind_congr (ih each.2) fun bs bs' rest => ?_
    simp [Except.map, pure, Except.pure, first, rest]

/-- The supertype as equality sees it. -/
def Supertype.bare (s : Supertype) : Supertype := { s with type := s.type.bare }

theorem Supertype.map_bare (types : List Ty) (isInterface : Bool) :
    (types.map (Supertype.mk · isInterface)).map Supertype.bare =
      (types.map Ty.bare).map (Supertype.mk · isInterface) := by
  simp [Supertype.bare, Function.comp_def]

/-! ### Built-in interfaces -/

namespace Builtin

theorem bindShape_bare (variadic : Bool) (names : List String) (args : List Ty) (s : Subst) :
    bindShape variadic names (args.map Ty.bare) s.bare =
      (bindShape variadic names args s).map Subst.bare := by
  fun_induction bindShape variadic names args s with
  | case1 names s => cases names <;> rfl
  | case2 t ts s h => simp [bindShape, h]
  | case3 t ts s h => simp [bindShape, h]
  | case4 name names t ts s ih => rw [List.map_cons, bindShape, ← Subst.bare_set, ih]

theorem shapeArgs_bare (t : Ty) :
    (shapeArgs t.bare).map (Option.map Subst.bare) = (shapeArgs t).map (Option.map Subst.bare) := by
  rw [shapeArgs, shapeArgs, Ty.isList_bare]
  split
  · refine map_bind_congr t.peelOne_bare fun a b same => ?_
    cases a <;> cases b <;> simp_all [Except.map, pure, Except.pure, Subst.bare]
  · simp only [Ty.main_bare, Path.isPrimitive_bare, Path.leaf_bare, Ty.extra_bare,
      Ty.types?_bareSlots]
    cases shape? t.main.leaf with
    | none => rfl
    | some shape =>
      cases Slot.types? t.extra with
      | none => rfl
      | some args =>
        cases args with
        | nil => rfl
        | cons arg args =>
          have bound := bindShape_bare shape.variadic shape.params (arg :: args) .empty
          rw [List.map_cons] at bound
          change Except.ok (Option.map _ (if _ then bindShape _ _ _ Subst.empty.bare else none)) =
            Except.ok _
          rw [bound]
          split <;> simp [Function.comp_def]

theorem interfaces_bare (t : Ty) :
    (interfaces t.bare).map (List.map Ty.bare) = (interfaces t).map (List.map Ty.bare) := by
  rw [interfaces, interfaces, Ty.main_bare, Path.isPrimitive_bare, Ty.isCollection_bare,
    Path.leaf_bare]
  split
  · rfl
  · cases declaredInterfaces t.main.leaf with
    | nil => rfl
    | cons first declared =>
      refine map_bind_congr (shapeArgs_bare t) fun a b same => ?_
      have bound : (a.getD .empty).bare = (b.getD .empty).bare := by
        cases a <;> cases b <;> simp_all
      refine map_bind_congr (f := List.map (Option.map Ty.bare)) (map_mapM_congr fun i _ => ?_)
        fun xs ys alike => ?_
      · have applied := i.apply_congr bound Ty.defaultLimit
        cases left : i.apply (a.getD .empty) Ty.defaultLimit <;>
          cases right : i.apply (b.getD .empty) Ty.defaultLimit <;>
          simp_all [Except.map]
      · have kept : ∀ zs : List (Option Ty),
            (zs.filterMap id).map Ty.bare = (zs.map (Option.map Ty.bare)).filterMap id := by
          simp [List.map_filterMap, List.filterMap_map]
        simp only [Except.map, pure, Except.pure, kept, alike]

end Builtin

/-! ### Types of the host -/

namespace Engine

variable (e : Engine)

theorem nativeNamed_bare (main : Path) (args : List Host.Ref) :
    e.nativeNamed main.bare args = e.nativeNamed main args := by
  have names : main.bare.blocks.map Block.name = main.blocks.map Block.name := by
    simp [Path.bare, Function.comp_def, Block.bare]
  rw [nativeNamed, nativeNamed, Path.isPrimitive_bare, Path.leaf_bare, Path.isEmpty_bare, names]

mutual

theorem toNativeAt_bare (depth : Nat) :
    ∀ t : Ty, e.toNativeAt depth t.bare = e.toNativeAt depth t
  | .mk main extra => by
    rw [Ty.bare]
    unfold toNativeAt
    rw [Ty.isEmpty_bareSlots, Path.isParameter_bare, Path.leaf_bare, Path.beq_bare,
      funext (e.nativeNamed_bare main), toNativeSlots_bare depth extra]
    by_cases deep : e.maxDepth < depth
    · rw [if_pos deep, if_pos deep]
    rw [if_neg deep, if_neg deep]
    by_cases parameter : (extra.isEmpty && main.isParameter) = true
    · rw [if_pos parameter, if_pos parameter]
    rw [if_neg parameter, if_neg parameter]
    by_cases list : (main == .ofPrimitive "list") = true
    · have malformed : (Ty.layersOf (Ty.bareSlots extra)).map (fun _ => none) =
          (Ty.layersOf extra).map (fun _ => (none : Option Host.Ref)) := by
        rw [Ty.layersOf_bareSlots]
        cases Ty.layersOf extra <;> rfl
      rw [if_pos list, if_pos list]
      match extra, malformed with
      | [.type _ elem], _ =>
        dsimp only [Ty.bareSlots]
        rw [toNativeAt_bare (depth + 1) elem]
      | [.value _ text, .type _ elem], _ =>
        dsimp only [Ty.bareSlots]
        rw [toNativeAt_bare (depth + 1) elem]
      | [], malformed | [.value ..], malformed | .type .. :: .type .. :: _, malformed
      | .type .. :: .value .. :: _, malformed | .value .. :: .value .. :: _, malformed
      | .value .. :: .type .. :: .type .. :: _, malformed
      | .value .. :: .type .. :: .value .. :: _, malformed => exact malformed
    · rw [if_neg list, if_neg list]

theorem toNativeSlots_bare (depth : Nat) :
    ∀ slots, e.toNativeSlots depth (Ty.bareSlots slots) = e.toNativeSlots depth slots
  | [] => rfl
  | .value _ text :: slots => by
    rw [Ty.bareSlots, toNativeSlots, toNativeSlots, toNativeSlots_bare depth slots]
  | .type _ t :: slots => by
    rw [Ty.bareSlots, toNativeSlots, toNativeSlots, toNativeAt_bare (depth + 1) t,
      toNativeSlots_bare depth slots]

end

theorem hostInfo_bare (t : Ty) : e.hostInfo t.bare = e.hostInfo t := by
  rw [hostInfo, hostInfo, hostPath, hostPath, toNative, toNative, toNativeAt_bare]

variable {s s' : Subst}

theorem instantiateRef_congr (same : s.bare = s'.bare) (r : Host.Ref) :
    (e.instantiateRef r s).map (Option.map Ty.bare) =
      (e.instantiateRef r s').map (Option.map Ty.bare) := by
  rw [instantiateRef, instantiateRef]
  refine map_bind_congr (f := id) rfl fun a b equal => ?_
  obtain rfl : a = b := equal
  cases a with
  | none => rfl
  | some t =>
    have applied := t.apply_congr same e.maxDepth
    cases left : t.apply s e.maxDepth <;> cases right : t.apply s' e.maxDepth <;>
      simp_all [Except.map, pure, Except.pure]

theorem hostSupertypes_congr (same : s.bare = s'.bare) (isInterface : Bool) (refs : List Host.Ref) :
    (e.hostSupertypes s isInterface refs).map (List.map Supertype.bare) =
      (e.hostSupertypes s' isInterface refs).map (List.map Supertype.bare) := by
  induction refs with
  | nil => rfl
  | cons r refs ih =>
    rw [hostSupertypes, hostSupertypes]
    refine map_bind_congr (e.instantiateRef_congr same r) fun a b first => ?_
    refine map_bind_congr ih fun xs ys rest => ?_
    cases a <;> cases b <;> simp_all [Except.map, pure, Except.pure, Supertype.bare]

theorem catalogSupertypes_bare (t : Ty) :
    (e.catalogSupertypes t.bare).map (List.map Supertype.bare) =
      (e.catalogSupertypes t).map (List.map Supertype.bare) := by
  rw [catalogSupertypes, catalogSupertypes, hostInfo_bare]
  refine map_bind_congr (f := id) rfl fun info info' same => ?_
  obtain rfl : info = info' := same
  cases info with
  | none => rfl
  | some info =>
    have bound : (t.bare.bindParams info.typeParams).bare = (t.bindParams info.typeParams).bare := by
      rw [Ty.bindParams_bare, Subst.bare_bare]
    refine map_bind_congr (e.hostSupertypes_congr bound false _) fun bases bases' below => ?_
    refine map_bind_congr (e.hostSupertypes_congr bound true _) fun ifaces ifaces' beside => ?_
    simp only [Except.map, pure, Except.pure, List.map_append, below, beside]

theorem lookupSupertypes_bare (ts : Tables) (t : Ty) :
    (e.lookupSupertypes ts t.bare).map (List.map Supertype.bare) =
      (e.lookupSupertypes ts t).map (List.map Supertype.bare) := by
  have declared : ts.type? t.bare.main = ts.type? t.main := by
    simp [Tables.type?, Tables.under]
  have implemented : ts.interfaces? t.bare.main = ts.interfaces? t.main := by
    simp [Tables.interfaces?, Tables.under]
  rw [lookupSupertypes, lookupSupertypes, declared, implemented]
  cases ts.type? t.main with
  | some decl =>
    have bound : (declSubst decl t.bare).bare = (declSubst decl t).bare := by
      rw [declSubst, declSubst, Ty.bindParams_bare, Subst.bare_bare]
    refine map_bind_congr (map_mapM_congr fun b _ => b.apply_congr bound e.maxDepth)
      fun bases bases' below => ?_
    refine map_bind_congr (map_mapM_congr fun i _ => i.apply_congr bound e.maxDepth)
      fun ifaces ifaces' beside => ?_
    simp only [Except.map, pure, Except.pure, List.map_append, Supertype.map_bare, below, beside]
  | none =>
    refine map_mapError_congr (map_bind_congr (Builtin.interfaces_bare t) fun xs ys builtin => ?_)
    refine map_bind_congr (e.catalogSupertypes_bare t) fun zs ws host => ?_
    simp only [Except.map, pure, Except.pure, List.map_append, Supertype.map_bare, builtin, host]

/-- `u` is a direct supertype of `t`. -/
def IsSupertype (e : Engine) (ts : Tables) (t u : Ty) : Prop :=
  ∃ found, e.lookupSupertypes ts t = .ok found ∧ ∃ s ∈ found, s.type = u

theorem IsSupertype.congr {e : Engine} {ts : Tables} {t t' u : Ty} (same : (t == t') = true)
    (above : e.IsSupertype ts t u) : ∃ u', e.IsSupertype ts t' u' ∧ (u == u') = true := by
  obtain ⟨found, answer, s, member, rfl⟩ := above
  have alike := e.lookupSupertypes_bare ts t
  rw [Ty.beq_iff_bare.mp same, e.lookupSupertypes_bare ts t', answer] at alike
  cases answer' : e.lookupSupertypes ts t' with
  | error fault =>
    rw [answer'] at alike
    cases alike
  | ok found' =>
    rw [answer'] at alike
    have listed : s.bare ∈ found.map Supertype.bare := List.mem_map_of_mem member
    rw [← Except.ok.inj alike] at listed
    obtain ⟨s', member', equal⟩ := List.mem_map.mp listed
    exact ⟨s'.type, ⟨found', answer', s', member', rfl⟩,
      Ty.beq_iff_bare.mpr (congrArg Supertype.type equal).symm⟩

end Engine

end TypeEngine
