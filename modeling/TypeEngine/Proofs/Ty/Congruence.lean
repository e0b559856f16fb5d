import TypeEngine.Engine.Session
import TypeEngine.Proofs.Ty.Equality

/-!
# Operations on equal types

What an operation makes of a type depends on its bare form only, so equal types give equal results.
The operations on shapes come first, then the substitution of arguments for parameters
(`apply_congr`).
-/

namespace TypeEngine

theorem map_bind_congr {ε α β γ δ : Type} {x y : Except ε α} {g k : α → Except ε β} {f : α → γ}
    {h : β → δ} (first : x.map f = y.map f) (next : ∀ a b, f a = f b → (g a).map h = (k b).map h) :
    (x >>= g).map h = (y >>= k).map h := by
  cases x with
  | error => cases y <;> cases first; rfl
  | ok a =>
    cases y with
    | error => cases first
    | ok b => exact next a b (Except.ok.inj first)

theorem map_map_congr {ε α β γ δ : Type} {x y : Except ε α} {g k : α → β} {f : α → γ} {h : β → δ}
    (first : x.map f = y.map f) (next : ∀ a b, f a = f b → h (g a) = h (k b)) :
    (x.map g).map h = (y.map k).map h := by
  cases x with
  | error => cases y <;> cases first; rfl
  | ok a =>
    cases y with
    | error => cases first
    | ok b => exact congrArg Except.ok (next a b (Except.ok.inj first))

theorem map_mapError_congr {ε ε' α β : Type} {x y : Except ε α} {f : ε → ε'} {h : α → β}
    (alike : x.map h = y.map h) : (x.mapError f).map h = (y.mapError f).map h := by
  cases x with
  | error a =>
    cases y with
    | error b => rw [Except.error.inj alike]
    | ok b => cases alike
  | ok a =>
    cases y with
    | error b => cases alike
    | ok b => exact congrArg Except.ok (Except.ok.inj alike)

namespace Ty

mutual

@[simp]
theorem bare_bare : ∀ t : Ty, t.bare.bare = t.bare
  | mk main extra => by rw [bare, bare, Path.bare_bare, bareSlots_bareSlots extra]

@[simp]
theorem bareSlots_bareSlots : ∀ slots : List Slot, bareSlots (bareSlots slots) = bareSlots slots
  | [] => rfl
  | .type _ t :: slots => by simp [bareSlots, bare_bare t, bareSlots_bareSlots slots]
  | .value _ _ :: slots => by simp [bareSlots, bareSlots_bareSlots slots]

end

@[simp] theorem main_bare (t : Ty) : t.bare.main = t.main.bare := by cases t; rfl

@[simp] theorem extra_bare (t : Ty) : t.bare.extra = bareSlots t.extra := by cases t; rfl

@[simp] theorem length_bareSlots (slots : List Slot) : (bareSlots slots).length = slots.length := by
  induction slots with
  | nil => rfl
  | cons s slots ih => cases s <;> simp [bareSlots, ih]

@[simp] theorem isEmpty_bareSlots (slots : List Slot) : (bareSlots slots).isEmpty = slots.isEmpty := by
  cases slots with
  | nil => rfl
  | cons s slots => cases s <;> rfl

@[simp] theorem isList_bare (t : Ty) : t.bare.isList = t.isList := by
  rw [isList, isList, main_bare, Path.beq_bare]

@[simp] theorem isTuple_bare (t : Ty) : t.bare.isTuple = t.isTuple := by
  rw [isTuple, isTuple, main_bare, Path.beq_bare]

@[simp] theorem isFunc_bare (t : Ty) : t.bare.isFunc = t.isFunc := by
  rw [isFunc, isFunc, main_bare, Path.beq_bare]

@[simp] theorem isSpan_bare (t : Ty) : t.bare.isSpan = t.isSpan := by
  rw [isSpan, isSpan, main_bare, Path.beq_bare, extra_bare, length_bareSlots]

@[simp] theorem isCollection_bare (t : Ty) : t.bare.isCollection = t.isCollection := by
  obtain ⟨main, extra⟩ := t
  match extra with
  | [] | [.value ..] => rfl
  | [.type _ t] => simp [isCollection, bare, bareSlots, Ty.main, Ty.extra]
  | .type .. :: .type .. :: _ | .type .. :: .value .. :: _ | .value .. :: .type .. :: _
  | .value .. :: .value .. :: _ => rfl

theorem types?_bareSlots (slots : List Slot) :
    Slot.types? (bareSlots slots) = (Slot.types? slots).map (List.map bare) := by
  induction slots with
  | nil => rfl
  | cons s slots ih =>
    cases s with
    | value name text => rfl
    | type name t =>
      rw [bareSlots, Slot.types?, ih, Slot.types?]
      cases Slot.types? slots <;> rfl

theorem funcParts_bare (t : Ty) :
    t.bare.funcParts = t.funcParts.map (Option.map (Prod.map bare (List.map bare))) := by
  rw [funcParts, funcParts, isFunc_bare, extra_bare, types?_bareSlots]
  split
  · cases Slot.types? t.extra with
    | none => rfl
    | some types => cases types <;> rfl
  · rfl

theorem unwrap_bare (t : Ty) : t.bare.unwrap = t.unwrap.bare := by
  fun_induction unwrap t with
  | case1 main name t tuple ih =>
    rw [bare, bareSlots, bareSlots, unwrap, Path.beq_bare, if_pos tuple, ih]
  | case2 main name t other =>
    rw [bare, bareSlots, bareSlots, unwrap, Path.beq_bare, if_neg other]
  | case3 t other =>
    obtain ⟨main, extra⟩ := t
    match extra with
    | [] | [.value ..] => rfl
    | [.type name t] => exact absurd rfl (other main name t)
    | .type .. :: .type .. :: _ | .type .. :: .value .. :: _ | .value .. :: .type .. :: _
    | .value .. :: .value .. :: _ => rfl

theorem unwrap_unwrap (t : Ty) : t.unwrap.unwrap = t.unwrap := by
  fun_induction unwrap t with
  | case1 main name t tuple ih => exact ih
  | case2 main name t other => rw [unwrap, if_neg other]
  | case3 t other =>
    rw [unwrap]
    exact other

/-! ### Lists -/

theorem layersOf_bareSlots (slots : List Slot) :
    layersOf (bareSlots slots) = (layersOf slots).map (Prod.map id bare) := by
  match slots with
  | [] | [.type ..] | [.value ..] => rfl
  | [.value _ text, .type _ t] =>
    simp only [bareSlots, layersOf]
    cases Numeral.count? text <;> rfl
  | [.type .., .type ..] | [.type .., .value ..] | [.value .., .value ..] => rfl
  | a :: b :: c :: slots =>
    cases a <;> cases b <;> cases c <;> simp [bareSlots, layersOf, Except.map]

theorem listParts_bare (t : Ty) :
    t.bare.listParts = t.listParts.map (Option.map (Prod.map id bare)) := by
  rw [listParts, listParts, isList_bare, extra_bare, layersOf_bareSlots]
  split
  · cases layersOf t.extra <;> rfl
  · rfl

theorem bare_layered (n : Int) (t : Ty) : (layered n t.bare).bare = (layered n t).bare := by
  unfold layered
  split <;> simp [bare, bareSlots]

theorem listN_bare (t : Ty) (n : Int) : (listN t.bare n).map bare = (listN t n).map bare := by
  rw [listN, listN, listParts_bare]
  split
  · rfl
  · cases t.listParts with
    | error v => rfl
    | ok parts =>
      cases parts with
      | none => exact congrArg Except.ok (bare_layered n t)
      | some p => exact congrArg Except.ok (bare_layered _ p.2)

theorem listN_congr {t u : Ty} (n : Int) (same : t.bare = u.bare) :
    (listN t n).map bare = (listN u n).map bare := by
  rw [← listN_bare t, same, listN_bare]

theorem peelOne_bare (t : Ty) :
    t.bare.peelOne.map (Option.map bare) = t.peelOne.map (Option.map bare) := by
  have first : (bareSlots t.extra).head?.map (bare ∘ Slot.heldType) =
      t.extra.head?.map (bare ∘ Slot.heldType) := by
    match t.extra with
    | [] => rfl
    | .value .. :: _ => rfl
    | .type _ u :: _ => simp [bareSlots, Slot.heldType]
  rw [peelOne, peelOne, listParts_bare]
  cases t.listParts with
  | error v => rfl
  | ok parts =>
    cases parts with
    | none =>
      change Except.map _ (if _ then _ else _) = Except.map _ (if _ then _ else _)
      rw [isCollection_bare, isSpan_bare, extra_bare]
      split
      · simpa [Except.map, pure, Except.pure] using first
      · rfl
    | some p =>
      obtain ⟨n, elem⟩ := p
      change Except.map _ (if n = 1 then _ else _) = Except.map _ (if n = 1 then _ else _)
      split
      · simp [Except.map, pure, Except.pure]
      · have fewer := listN_bare elem (n - 1)
        refine map_bind_congr fewer fun a b same => ?_
        simp [Except.map, pure, Except.pure, same]

theorem peelFrom_bare (depth : Int) :
    ∀ t : Ty, peelFrom depth t.bare = (peelFrom depth t).map (Prod.map id bare)
  | mk main extra => by
    have collection := isCollection_bare (mk main extra)
    have span := isSpan_bare (mk main extra)
    rw [bare] at collection span ⊢
    unfold peelFrom
    rw [Path.beq_bare, collection, span]
    by_cases list : (main == .ofPrimitive "list") = true
    · have malformed := layersOf_bareSlots extra
      rw [if_pos list, if_pos list]
      match extra, malformed with
      | [.type _ elem], _ => exact peelFrom_bare (wrap (depth + 1)) elem
      | [.value _ text, .type _ elem], _ =>
        dsimp only [bareSlots]
        cases Numeral.count? text with
        | none => rfl
        | some n => exact peelFrom_bare (wrap (depth + n)) elem
      | [], malformed | [.value ..], malformed | .type .. :: .type .. :: _, malformed
      | .type .. :: .value .. :: _, malformed | .value .. :: .value .. :: _, malformed
      | .value .. :: .type .. :: .type .. :: _, malformed
      | .value .. :: .type .. :: .value .. :: _, malformed => exact malformed
    · rw [if_neg list, if_neg list]
      by_cases layer : ((mk main extra).isCollection || (mk main extra).isSpan) = true
      · rw [if_pos layer, if_pos layer]
        match extra with
        | [.type _ elem] => exact peelFrom_bare (wrap (depth + 1)) elem
        | [] | [.value ..] | .type .. :: .type .. :: _ | .type .. :: .value .. :: _
        | .value .. :: .type .. :: _ | .value .. :: .value .. :: _ => rfl
      · rw [if_neg layer, if_neg layer]
        rfl

theorem peelList_bare (t : Ty) : t.bare.peelList = t.peelList.map (Prod.map id bare) :=
  peelFrom_bare 0 t

end Ty

/-! ### Substitutions -/

namespace Subst

/-- The substitution as equality sees it. -/
def bare (s : Subst) : Subst := ⟨s.bindings.map (Prod.map id Ty.bare)⟩

theorem get?_bare (s : Subst) (name : String) : s.bare.get? name = (s.get? name).map Ty.bare := by
  obtain ⟨bindings⟩ := s
  change (bindings.map (Prod.map id Ty.bare)).lookup name = (bindings.lookup name).map Ty.bare
  induction bindings with
  | nil => rfl
  | cons binding bindings ih =>
    obtain ⟨other, t⟩ := binding
    simp only [List.map_cons, Prod.map, List.lookup_cons, id]
    cases name == other with
    | true => rfl
    | false => exact ih

theorem bare_set (s : Subst) (name : String) (t : Ty) :
    (s.set name t).bare = s.bare.set name t.bare := by
  simp [set, bare, List.filter_map, Function.comp_def]

@[simp] theorem bare_bare (s : Subst) : s.bare.bare = s.bare := by
  simp [bare, Function.comp_def, Prod.map]

theorem isEmpty_bare (s : Subst) : s.bare.isEmpty = s.isEmpty := by simp [isEmpty, bare]

theorem ofArguments_bare (names : List String) (slots : List Slot) (s : Subst) :
    ofArguments names (Ty.bareSlots slots) s.bare = (ofArguments names slots s).bare := by
  fun_induction ofArguments names slots s with
  | case1 name names _ t slots s ih => rw [Ty.bareSlots, ofArguments, ← bare_set, ih]
  | case2 name names _ _ slots s ih => rw [Ty.bareSlots, ofArguments, ih]
  | case3 names slots s types values =>
    match names, slots with
    | [], [] | [], .type .. :: _ | [], .value .. :: _ | _ :: _, [] => rfl
    | name :: names, .type _ t :: slots => exact absurd rfl (types name names _ t slots rfl)
    | name :: names, .value _ text :: slots => exact absurd rfl (values name names _ text slots rfl)

end Subst

theorem Ty.bindParams_bare (t : Ty) (names : List String) :
    t.bare.bindParams names = (t.bindParams names).bare := by
  rw [bindParams, bindParams, extra_bare, ← Subst.ofArguments_bare]
  rfl

/-- The slot as equality sees it, beside its name. -/
def Slot.seen : Slot → String × Slot
  | .type name t => (name, .type "" t.bare)
  | .value name text => (name, .value "" text)

theorem Slot.seen_name (s : Slot) : s.seen.1 = s.name := by cases s <;> rfl

theorem Slot.bareSlots_eq (slots : List Slot) :
    Ty.bareSlots slots = (slots.map Slot.seen).map Prod.snd := by
  induction slots with
  | nil => rfl
  | cons s slots ih => cases s <;> simp [Ty.bareSlots, Slot.seen, ih]

theorem Slot.put_congr {a b : Slot} {xs ys : List Slot} (slot : a.seen = b.seen)
    (slots : xs.map Slot.seen = ys.map Slot.seen) :
    (put a xs).map Slot.seen = (put b ys).map Slot.seen := by
  induction xs generalizing ys with
  | nil =>
    obtain rfl := List.map_eq_nil_iff.mp slots.symm
    simp [put, slot]
  | cons x xs ih =>
    cases ys with
    | nil => cases slots
    | cons y ys =>
      obtain ⟨head, tail⟩ := List.cons.inj slots
      have names : x.name = a.name ↔ y.name = b.name := by
        rw [← seen_name x, ← seen_name y, ← seen_name a, ← seen_name b, head, slot]
      rw [put, put]
      by_cases here : y.name = b.name
      · rw [if_pos here, if_pos (names.mpr here), List.map_cons, List.map_cons, slot, tail]
      · rw [if_neg here, if_neg (mt names.mp here), List.map_cons, List.map_cons, head, ih tail]

namespace Ty

variable {s s' : Subst} {limit : Nat}

mutual

/-- Substituting equal types gives equal types. -/
theorem applyAt_congr (same : s.bare = s'.bare) (depth : Nat) :
    ∀ t, (applyAt s limit depth t).map bare = (applyAt s' limit depth t).map bare
  | mk main extra => by
    unfold applyAt
    by_cases deep : limit < depth
    · rw [if_pos deep, if_pos deep]
    rw [if_neg deep, if_neg deep]
    by_cases parameter : (extra.isEmpty && main.isParameter) = true
    · have bound : (s.get? main.leaf).map bare = (s'.get? main.leaf).map bare := by
        rw [← Subst.get?_bare, ← Subst.get?_bare, same]
      rw [if_pos parameter, if_pos parameter]
      refine congrArg Except.ok ?_
      cases left : s.get? main.leaf <;> cases right : s'.get? main.leaf <;>
        simp_all
    rw [if_neg parameter, if_neg parameter]
    by_cases list : (main == .ofPrimitive "list") = true
    · rw [if_pos list, if_pos list]
      match extra with
      | [.type _ elem] =>
        exact map_bind_congr (applyAt_congr same (depth + 1) elem) fun a b equal =>
          map_mapError_congr (listN_congr 1 equal)
      | [.value _ text, .type _ elem] =>
        dsimp only
        cases Numeral.count? text with
        | none => rfl
        | some n =>
          exact map_bind_congr (applyAt_congr same (depth + 1) elem) fun a b equal =>
            map_mapError_congr (listN_congr n equal)
      | [] | [.value ..] | .type .. :: _ :: _ | .value .. :: .value .. :: _
      | .value .. :: .type .. :: _ :: _ => rfl
    · rw [if_neg list, if_neg list]
      refine map_bind_congr (applySlots_congr same depth extra extra extra rfl) fun a b alike => ?_
      simp [Except.map, pure, Except.pure, bare, Slot.bareSlots_eq, alike]

theorem applySlots_congr (same : s.bare = s'.bare) (depth : Nat) :
    ∀ (slots xs ys : List Slot), xs.map Slot.seen = ys.map Slot.seen →
      (applySlots s limit depth slots xs).map (List.map Slot.seen) =
        (applySlots s' limit depth slots ys).map (List.map Slot.seen)
  | [], xs, ys, alike => by
    rw [applySlots, applySlots]
    exact congrArg Except.ok alike
  | .type name t :: slots, xs, ys, alike => by
    rw [applySlots, applySlots]
    refine map_bind_congr (applyAt_congr same (depth + 1) t) fun a b equal => ?_
    exact applySlots_congr same depth slots _ _ (Slot.put_congr (by simp [Slot.seen, equal]) alike)
  | .value name text :: slots, xs, ys, alike => by
    rw [applySlots, applySlots]
    exact applySlots_congr same depth slots xs ys alike

end

theorem apply_congr (same : s.bare = s'.bare) (t : Ty) (limit : Int) :
    (t.apply s limit).map bare = (t.apply s' limit).map bare := by
  have empty : s.isEmpty = s'.isEmpty := by rw [← s.isEmpty_bare, ← s'.isEmpty_bare, same]
  rw [apply, apply, empty]
  split
  · rfl
  · exact applyAt_congr same 0 t

end Ty

end TypeEngine
