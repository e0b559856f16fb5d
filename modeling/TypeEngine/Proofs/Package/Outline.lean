import TypeEngine.Package.Catalog

/-!
# Types up to their arguments

A declared type has the same fields, embedded types and methods whatever its arguments are; only the
types in them differ. `bare` forgets what cannot matter for the members of a type, `outline` the
types in a method, and each part of a type's members is shown to be a function of the bare type. This
needs that no type is declared from a type parameter and none is embedded (`Settled`), which the rules
for programs guarantee.
-/

namespace TypeEngine.Package

namespace Shape

/-! ### Bare types -/

mutual

/-- The type without arguments, and without the types of fields that are not embedded. -/
def bare : Shape → Shape
  | named p n _ => named p n []
  | param o n => param o n
  | struct p ls ts => struct (if ls.all (isExported ·.name) then "" else p) ls (bareFields ls ts)
  | synonym t => bare t
  | _ => basic ""

/-- What is embedded with a field of the type: the type, or the one that it points to. -/
def bareTarget : Shape → Shape
  | named p n _ => named p n []
  | param o n => param o n
  | struct p ls ts => struct (if ls.all (isExported ·.name) then "" else p) ls (bareFields ls ts)
  | synonym t => bareTarget t
  | pointer e => bare e
  | _ => basic ""

def bareFields : List Label → List Shape → List Shape
  | l :: ls, t :: ts => (if l.embedded then bareTarget t else basic "") :: bareFields ls ts
  | _, _ => []

end

/-- The type that is embedded with a field of the type. -/
def target (t : Shape) : Shape := t.resolved.pointee.resolved

theorem bare_resolved (t : Shape) : t.resolved.bare = t.bare := by
  fun_induction resolved t with
  | case1 t ih => rw [ih, bare]
  | case2 => rfl

theorem resolved_ne_synonym (t u : Shape) : t.resolved ≠ synonym u := by
  intro found
  fun_induction resolved t with
  | case1 t ih => exact ih found
  | case2 t notSynonym => exact notSynonym u found

theorem resolved_resolved (t : Shape) : t.resolved.resolved = t.resolved := by
  fun_induction resolved t with
  | case1 t ih => exact ih
  | case2 t notSynonym =>
    cases t with
    | synonym t => exact absurd rfl (notSynonym t)
    | _ => rfl

theorem bareTarget_resolved (t : Shape) : t.resolved.bareTarget = t.bareTarget := by
  fun_induction resolved t with
  | case1 t ih => rw [ih, bareTarget]
  | case2 => rfl

theorem bare_target (t : Shape) : t.target.bare = t.bareTarget := by
  rw [target, bare_resolved, ← bareTarget_resolved]
  fun_induction resolved t with
  | case1 t ih => exact ih
  | case2 t notSynonym =>
    cases t with
    | synonym t => exact absurd rfl (notSynonym t)
    | _ => rfl

/-! ### Types that are the same -/

mutual

theorem bare_plain : ∀ t : Shape, t.plain.bare = t.bare
  | named .. | basic _ | param .. | pointer _ | slice _ | array .. | map .. | chan _ | func .. | union _ => rfl
  | struct p ls ts => by rw [plain, bare, bareFields_plain ls ts, bare]
  | synonym t => by rw [plain, bare_plain t, bare]

theorem bareTarget_plain : ∀ t : Shape, t.plain.bareTarget = t.bareTarget
  | named .. | basic _ | param .. | slice _ | array .. | map .. | chan _ | func .. | union _ => rfl
  | struct p ls ts => by rw [plain, bareTarget, bareFields_plain ls ts, bareTarget]
  | synonym t => by rw [plain, bareTarget_plain t, bareTarget]
  | pointer e => by rw [plain, bareTarget, bare_plain e, bareTarget]

theorem bareFields_plain : ∀ (ls : List Label) (ts : List Shape), bareFields ls (plainAll ts) = bareFields ls ts
  | [], _ => by rw [bareFields, bareFields] <;> simp
  | _ :: _, [] => rfl
  | l :: ls, t :: ts => by rw [plainAll, bareFields, bareFields, bareTarget_plain t, bareFields_plain ls ts]

end

mutual

theorem bare_of_alike : ∀ (a b : Shape), alike a b = true → a.bare = b.bare ∧ a.bareTarget = b.bareTarget := by
  intro a b same
  cases a with
  | named p n args =>
    cases b with
    | named q k args' =>
      rw [alike, Bool.and_eq_true, Bool.and_eq_true, decide_eq_true_eq, decide_eq_true_eq] at same
      obtain ⟨⟨rfl, rfl⟩, _⟩ := same
      exact ⟨rfl, rfl⟩
    | _ => cases same
  | param o n =>
    cases b with
    | param o' k =>
      rw [alike, Bool.and_eq_true, decide_eq_true_eq, decide_eq_true_eq] at same
      obtain ⟨rfl, rfl⟩ := same
      exact ⟨rfl, rfl⟩
    | _ => cases same
  | pointer e =>
    cases b with
    | pointer f => exact ⟨rfl, (bare_of_alike e f same).1⟩
    | _ => cases same
  | synonym t =>
    cases b with
    | synonym u => exact bare_of_alike t u same
    | _ => cases same
  | struct p ls ts =>
    cases b with
    | struct q ls' us =>
      rw [alike, Bool.and_eq_true, Bool.and_eq_true, Bool.or_eq_true, decide_eq_true_eq, decide_eq_true_eq] at same
      obtain ⟨⟨owner, rfl⟩, types⟩ := same
      have fields := bareFields_of_alike ls ts us types
      have owners : (if ls.all (isExported ·.name) then "" else p) =
          if ls.all (isExported ·.name) then "" else q := by
        rcases owner with rfl | all
        · rfl
        · rw [if_pos all, if_pos all]
      exact ⟨by rw [bare, bare, owners, fields], by rw [bareTarget, bareTarget, owners, fields]⟩
    | _ => cases same
  | basic _ | slice _ | array _ _ | map _ _ | chan _ | func _ _ _ | union _ =>
    cases b with
    | named _ _ _ | param _ _ | pointer _ | synonym _ | struct _ _ _ => cases same
    | _ => exact ⟨rfl, rfl⟩

theorem bareFields_of_alike : ∀ (ls : List Label) (ts us : List Shape), allAlike ts us = true →
    bareFields ls ts = bareFields ls us := by
  intro ls ts us same
  cases ts with
  | nil =>
    cases us with
    | nil => rfl
    | cons u us => cases same
  | cons t ts =>
    cases us with
    | nil => cases same
    | cons u us =>
      rw [allAlike, Bool.and_eq_true] at same
      cases ls with
      | nil => rw [bareFields, bareFields] <;> simp
      | cons l ls =>
        rw [bareFields, bareFields, (bare_of_alike t u same.1).2, bareFields_of_alike ls ts us same.2]

end

theorem bare_of_beq {a b : Shape} (same : (a == b) = true) : a.bare = b.bare := by
  rw [← bare_plain a, ← bare_plain b]
  exact (bare_of_alike _ _ same).1

/-! ### Arguments -/

variable {p : Program}

theorem target_ne_param {t : Shape} (can : p.canEmbed t = true) (owner name : String) :
    t.target ≠ param owner name := by
  intro found
  have none : p.body? t.resolved.pointee = none := by
    rw [Program.body?, show t.resolved.pointee.resolved = param owner name from found]
    rfl
  rw [Program.canEmbed, none] at can
  cases can

theorem embedded_ne_param {q : String} {ls : List Label} {ts : List Shape}
    (sound : p.partIsSound (struct q ls ts) = true) {l : Label} {t : Shape} (field : (l, t) ∈ ls.zip ts)
    (embedded : l.embedded = true) (owner name : String) : t.target ≠ param owner name := by
  have fields := (Bool.and_eq_true_iff.mp (Bool.and_eq_true_iff.mp sound).2).2
  have can : (!l.embedded || p.canEmbed t) = true := List.all_eq_true.mp fields (l, t) field
  rw [embedded] at can
  exact target_ne_param can owner name

section Subst

variable (b : Binding)

mutual

theorem bare_subst : ∀ s : Shape, (∀ u ∈ s.parts, p.partIsSound u = true) →
    (∀ o n, s.resolved ≠ param o n) → (s.subst b).bare = s.bare
  | named .., _, _ | basic _, _, _ | pointer _, _, _ | slice _, _, _ | array .., _, _ | map .., _, _ | chan _, _, _
  | func .., _, _ | union _, _, _ => rfl
  | param o n, _, other => absurd rfl (other o n)
  | synonym t, sound, other => by
    rw [subst, bare, bare]
    exact bare_subst t (fun u part => sound u (List.mem_cons_of_mem _ part)) other
  | struct q ls ts, sound, _ => by
    rw [subst, bare, bare, bareFields_subst ls ts (fun u part => sound u (List.mem_cons_of_mem _ part))
      fun l t field embedded => embedded_ne_param (sound _ List.mem_cons_self) field embedded]

theorem bareTarget_subst : ∀ s : Shape, (∀ u ∈ s.parts, p.partIsSound u = true) →
    (∀ o n, s.target ≠ param o n) → (s.subst b).bareTarget = s.bareTarget
  | named .., _, _ | basic _, _, _ | slice _, _, _ | array .., _, _ | map .., _, _ | chan _, _, _ | func .., _, _
  | union _, _, _ => rfl
  | param o n, _, other => absurd rfl (other o n)
  | synonym t, sound, other => by
    rw [subst, bareTarget, bareTarget]
    exact bareTarget_subst t (fun u part => sound u (List.mem_cons_of_mem _ part)) other
  | pointer e, sound, other => by
    rw [subst, bareTarget, bareTarget]
    exact bare_subst e (fun u part => sound u (List.mem_cons_of_mem _ part)) other
  | struct q ls ts, sound, _ => by
    rw [subst, bareTarget, bareTarget, bareFields_subst ls ts (fun u part => sound u (List.mem_cons_of_mem _ part))
      fun l t field embedded => embedded_ne_param (sound _ List.mem_cons_self) field embedded]

theorem bareFields_subst : ∀ (ls : List Label) (ts : List Shape), (∀ u ∈ partsAll ts, p.partIsSound u = true) →
    (∀ l t, (l, t) ∈ ls.zip ts → l.embedded = true → ∀ o n, t.target ≠ param o n) →
    bareFields ls (substAll b ts) = bareFields ls ts
  | [], _, _, _ => by rw [bareFields, bareFields] <;> simp
  | _ :: _, [], _, _ => rfl
  | l :: ls, t :: ts, sound, others => by
    have first : (if l.embedded then (t.subst b).bareTarget else basic "") =
        if l.embedded then t.bareTarget else basic "" := by
      split
      · rename_i embedded
        exact bareTarget_subst t (fun u part => sound u (List.mem_append_left _ part))
          (others l t List.mem_cons_self embedded)
      · rfl
    have rest := bareFields_subst ls ts (fun u part => sound u (List.mem_append_right _ part))
      fun k u field => others k u (List.mem_cons_of_mem _ field)
    rw [substAll, bareFields, bareFields, first, rest]

end

theorem resolved_subst {s : Shape} (other : ∀ o n, s.resolved ≠ param o n) :
    (s.subst b).resolved = s.resolved.subst b := by
  fun_induction resolved s with
  | case1 t ih => exact ih other
  | case2 s notSynonym =>
    cases s with
    | synonym t => exact absurd rfl (notSynonym t)
    | param o n => exact absurd rfl (other o n)
    | _ => rfl

theorem bare_subst_source {s : Shape} (sound : p.isSoundSource s = true) (other : ∀ o n, s.resolved ≠ param o n) :
    (s.subst b).bare = s.bare := by
  have inner := (Bool.and_eq_true_iff.mp sound).2
  split at inner
  · rename_i q n args top
    rw [← bare_resolved, resolved_subst b other, ← bare_resolved s, top]
    rfl
  · rename_i types top
    rw [← bare_resolved, resolved_subst b other, ← bare_resolved s, top]
    rfl
  · exact bare_subst b s (fun u part => (Bool.and_eq_true_iff.mp (List.all_eq_true.mp inner u part)).1) other

end Subst

/-- Types that are bare alike have the same name, or both none. -/
theorem bare_cases {a b : Shape} (same : a.bare = b.bare) :
    (∃ q n as bs, a.resolved = named q n as ∧ b.resolved = named q n bs) ∨
    (∃ o n, a.resolved = param o n ∧ b.resolved = param o n) ∨
    ((∀ q n as, a.resolved ≠ named q n as) ∧ (∀ o n, a.resolved ≠ param o n) ∧
      (∀ q n as, b.resolved ≠ named q n as) ∧ ∀ o n, b.resolved ≠ param o n) := by
  rw [← bare_resolved a, ← bare_resolved b] at same
  cases first : a.resolved with
  | synonym u => exact absurd first (resolved_ne_synonym a u)
  | named q n as =>
    rw [first] at same
    cases second : b.resolved with
    | synonym u => exact absurd second (resolved_ne_synonym b u)
    | named q' n' bs =>
      rw [second, bare, bare, named.injEq] at same
      obtain ⟨rfl, rfl, -⟩ := same
      exact .inl ⟨q, n, as, bs, rfl, rfl⟩
    | _ => rw [second] at same; cases same
  | param o n =>
    rw [first] at same
    cases second : b.resolved with
    | synonym u => exact absurd second (resolved_ne_synonym b u)
    | param o' n' =>
      rw [second, bare, bare] at same
      exact .inr (.inl ⟨o, n, rfl, same.symm⟩)
    | _ => rw [second] at same; cases same
  | _ =>
    rw [first] at same
    refine .inr (.inr ⟨by simp, by simp, ?_, ?_⟩)
    · intro q n as found
      rw [found] at same
      cases same
    · intro o n found
      rw [found] at same
      cases same

end Shape

/-! ### Bodies -/

/-- The signature without its types. -/
def Signature.outline (s : Signature) : Signature :=
  { s with params := s.params.map fun _ => .basic "", results := s.results.map fun _ => .basic "" }

theorem Signature.outline_subst (b : Shape.Binding) (s : Signature) : (s.subst b).outline = s.outline := by
  have erased : ∀ ts : List Shape,
      (Shape.substAll b ts).map (fun _ => Shape.basic "") = ts.map fun _ => .basic "" := by
    intro ts
    induction ts with
    | nil => rfl
    | cons t ts ih => rw [Shape.substAll, List.map_cons, List.map_cons, ih]
  rw [outline, outline, subst, erased, erased]

namespace Body

def bare : Body → Body
  | shape s => shape s.bare
  | interface owner methods embeds =>
    interface owner (methods.map fun (n, s) => (n, s.outline)) (embeds.map Shape.bare)

end Body

namespace Program

variable {p : Program} {a b : Shape}

/-- Arguments for its parameters change nothing but the arguments in the form of a declared type. -/
def Settled (p : Program) : Prop := ∀ d ∈ p.types, ∀ s : Shape.Binding, (d.body.subst s).bare = d.body.bare

theorem bodyAt_shape {s : Shape} (notNamed : ∀ q n as, s ≠ .named q n as) (notParam : ∀ o n, s ≠ .param o n)
    (fuel : Nat) : p.bodyAt fuel s = some (.shape s) := by
  cases s with
  | named q n as => exact absurd rfl (notNamed q n as)
  | param o n => exact absurd rfl (notParam o n)
  | _ => cases fuel <;> rfl

theorem bodyAt_builtin (name : String) (args : List Shape) (fuel : Nat) :
    p.bodyAt fuel (.named "" name args) =
      some (if name = "error" then errorBody else .interface ⟨"", name⟩ [] []) := by
  by_cases error : name = "error"
  · subst error
    cases fuel <;> rfl
  · rw [if_neg error]
    rw [bodyAt]
    exact error

theorem bodyAt_zero {q : String} (package : q ≠ "") (name : String) (args : List Shape) :
    p.bodyAt 0 (.named q name args) = none := by
  rw [bodyAt]
  · exact fun found _ => package found
  · exact package

theorem bodyAt_declared {q name : String} (package : q ≠ "") (args : List Shape) (fuel : Nat) :
    p.bodyAt (fuel + 1) (.named q name args) =
      (p.type? ⟨q, name⟩).bind fun d =>
        match d.body.subst (d.binding args) with
        | .shape s => p.bodyAt fuel s.resolved
        | b => some b := by
  rw [bodyAt]
  · cases p.type? ⟨q, name⟩ <;> rfl
  · exact fun found _ => package found
  · exact package

/-- Only for declared types there is something to show. -/
theorem bodyAt_bare_of {fuel : Nat} (same : a.bare = b.bare)
    (declared : ∀ q n as bs, q ≠ "" →
      (p.bodyAt fuel (.named q n as)).map Body.bare = (p.bodyAt fuel (.named q n bs)).map Body.bare) :
    (p.bodyAt fuel a.resolved).map Body.bare = (p.bodyAt fuel b.resolved).map Body.bare := by
  rcases Shape.bare_cases same with ⟨q, n, as, bs, first, second⟩ | ⟨o, n, first, second⟩ | ⟨an, ap, bn, bp⟩
  · rw [first, second]
    by_cases builtin : q = ""
    · rw [builtin, bodyAt_builtin, bodyAt_builtin]
    · exact declared q n as bs builtin
  · rw [first, second]
  · rw [bodyAt_shape an ap, bodyAt_shape bn bp]
    simp only [Option.map_some, Body.bare, Shape.bare_resolved, same]

theorem bodyAt_bare (settled : p.Settled) (same : a.bare = b.bare) (fuel : Nat) :
    (p.bodyAt fuel a.resolved).map Body.bare = (p.bodyAt fuel b.resolved).map Body.bare := by
  induction fuel generalizing a b with
  | zero =>
    refine bodyAt_bare_of same fun q n as bs package => ?_
    rw [bodyAt_zero package, bodyAt_zero package]
  | succ fuel ih =>
    refine bodyAt_bare_of same fun q n as bs package => ?_
    rw [bodyAt_declared package, bodyAt_declared package]
    cases found : p.type? ⟨q, n⟩ with
    | none => rfl
    | some d =>
      have member : d ∈ p.types := List.mem_of_find?_eq_some found
      have alike := (settled d member (d.binding as)).trans (settled d member (d.binding bs)).symm
      rw [Option.bind_some, Option.bind_some]
      generalize d.body.subst (d.binding as) = x at alike
      generalize d.body.subst (d.binding bs) = y at alike
      cases x with
      | shape s =>
        cases y with
        | shape t => exact ih (Body.shape.inj alike)
        | interface => cases alike
      | interface =>
        cases y with
        | shape t => cases alike
        | interface => exact congrArg some alike

theorem body?_bare (settled : p.Settled) (same : a.bare = b.bare) :
    (p.body? a).map Body.bare = (p.body? b).map Body.bare :=
  bodyAt_bare settled same _

/-- What kind of form types have that are bare alike. -/
theorem body?_cases (settled : p.Settled) (same : a.bare = b.bare) :
    (∃ s t, p.body? a = some (.shape s) ∧ p.body? b = some (.shape t) ∧ s.bare = t.bare) ∨
    (∃ owner methods methods' embeds embeds', p.body? a = some (.interface owner methods embeds) ∧
      p.body? b = some (.interface owner methods' embeds') ∧
      methods.map (fun (n, s) => (n, s.outline)) = methods'.map (fun (n, s) => (n, s.outline)) ∧
      embeds.map Shape.bare = embeds'.map Shape.bare) ∨
    (p.body? a = none ∧ p.body? b = none) := by
  have alike := body?_bare settled same
  cases first : p.body? a with
  | none =>
    rw [first] at alike
    exact .inr (.inr ⟨rfl, Option.map_eq_none_iff.mp alike.symm⟩)
  | some x =>
    rw [first] at alike
    obtain ⟨y, second, alike⟩ := Option.map_eq_some_iff.mp alike.symm
    rw [second]
    cases x with
    | shape s =>
      cases y with
      | shape t => exact .inl ⟨s, t, rfl, rfl, (Body.shape.inj alike).symm⟩
      | interface => cases alike
    | interface owner methods embeds =>
      cases y with
      | shape t => cases alike
      | interface owner' methods' embeds' =>
        obtain ⟨rfl, names, types⟩ := Body.interface.inj alike
        exact .inr (.inl ⟨_, _, _, _, _, rfl, rfl, names.symm, types.symm⟩)

theorem isInterface_bare (settled : p.Settled) (same : a.bare = b.bare) : p.isInterface a = p.isInterface b := by
  unfold isInterface
  rcases body?_cases settled same with
    ⟨s, t, first, second, _⟩ | ⟨_, _, _, _, _, first, second, _⟩ | ⟨first, second⟩ <;> rw [first, second]

end Program

/-! ### Methods -/

/-- The method without its types, however it is reached. -/
def Selection.outline (s : Selection) : Selection := { s with signature := s.signature.outline, via? := none }

namespace Program

variable {p : Program} {a b s t : Shape} {ls : List Label} {ts : List Shape}

theorem addNew_outline (found more : List Selection) :
    (addNew found more).map Selection.outline =
      addNew (found.map Selection.outline) (more.map Selection.outline) := by
  unfold addNew
  rw [List.map_append, List.filter_map, List.filter_congr]
  intro s _
  simp only [Function.comp_apply, List.any_map]
  rfl

theorem foldl_addNew_outline {methods : Shape → List Selection}
    (each : ∀ a b : Shape, a.bare = b.bare → (methods a).map Selection.outline = (methods b).map Selection.outline)
    {embeds embeds' : List Shape} (types : embeds.map Shape.bare = embeds'.map Shape.bare)
    {found found' : List Selection} (start : found.map Selection.outline = found'.map Selection.outline) :
    (embeds.foldl (fun found e => addNew found (methods e)) found).map Selection.outline =
      (embeds'.foldl (fun found e => addNew found (methods e)) found').map Selection.outline := by
  induction embeds generalizing embeds' found found' with
  | nil =>
    obtain rfl := List.map_eq_nil_iff.mp types.symm
    exact start
  | cons e embeds ih =>
    obtain ⟨e', embeds', rfl, same, types⟩ := List.map_eq_cons_iff.mp types.symm
    refine ih types.symm ?_
    rw [addNew_outline, addNew_outline, start, each e e' same.symm]

theorem interfaceMethodsAt_outline (settled : p.Settled) (same : a.bare = b.bare) (fuel : Nat) :
    (p.interfaceMethodsAt fuel a).map Selection.outline = (p.interfaceMethodsAt fuel b).map Selection.outline := by
  induction fuel generalizing a b with
  | zero => rfl
  | succ fuel ih =>
    unfold interfaceMethodsAt
    rcases body?_cases settled same with ⟨s, t, first, second, _⟩ |
      ⟨owner, methods, methods', embeds, embeds', first, second, names, types⟩ | ⟨first, second⟩
    · rw [first, second]
    · rw [first, second]
      refine foldl_addNew_outline (fun _ _ => ih) types ?_
      -- The outline of a method is made of its name and the outline of its signature.
      let own : String × Signature → Selection := fun (name, signature) =>
        { id := .of owner.package name, signature
          declaring? := if owner.package = "" then none else some owner }
      have outlined : ∀ methods : List (String × Signature), (methods.map own).map Selection.outline =
          (methods.map fun (n, s) => (n, s.outline)).map own := by
        intro methods
        rw [List.map_map, List.map_map]
        rfl
      exact (outlined methods).trans ((congrArg _ names).trans (outlined methods').symm)
    · rw [first, second]

theorem interfaceMethods_outline (settled : p.Settled) (same : a.bare = b.bare) :
    (p.interfaceMethods a).map Selection.outline = (p.interfaceMethods b).map Selection.outline :=
  interfaceMethodsAt_outline settled same _

/-- The methods of a type, its own and those of its interface, with whether they need a pointer. -/
def directMethods (p : Program) (s : Shape) : List (Selection × Bool) :=
  p.ownMethods s.resolved ++ (if p.isInterface s then p.interfaceMethods s else []).map (·, false)

theorem ownMethods_outline (same : a.bare = b.bare) :
    (p.ownMethods a.resolved).map (Prod.map Selection.outline id) =
      (p.ownMethods b.resolved).map (Prod.map Selection.outline id) := by
  have none : ∀ s : Shape, (∀ q n as, s ≠ .named q n as) → p.ownMethods s = [] := by
    intro s other
    cases s with
    | named q n as => exact absurd rfl (other q n as)
    | _ => rfl
  rcases Shape.bare_cases same with ⟨q, n, as, bs, first, second⟩ | ⟨o, n, first, second⟩ | ⟨an, _, bn, _⟩
  · rw [first, second, ownMethods, ownMethods, List.map_map, List.map_map]
    refine List.map_congr_left fun m _ => ?_
    simp only [Function.comp_apply, Prod.map_apply, id_eq, Selection.outline, Signature.outline_subst]
  · rw [first, second]
  · rw [none _ an, none _ bn]

theorem directMethods_outline (settled : p.Settled) (same : a.bare = b.bare) :
    (p.directMethods a).map (Prod.map Selection.outline id) =
      (p.directMethods b).map (Prod.map Selection.outline id) := by
  unfold directMethods
  rw [List.map_append, List.map_append, ownMethods_outline same, isInterface_bare settled same]
  congr 1
  split
  · have outlined : ∀ found : List Selection, (found.map (·, false)).map (Prod.map Selection.outline id) =
        (found.map Selection.outline).map (·, false) := by
      intro found
      rw [List.map_map, List.map_map]
      rfl
    rw [outlined, outlined, interfaceMethods_outline settled same]
  · rfl

/-! ### Fields -/

theorem bodyAt_cases {fuel : Nat} (found : p.bodyAt fuel s.resolved = some (.shape t)) :
    t = s.resolved ∨ ∃ q n args, q ≠ "" ∧ s.resolved = .named q n args := by
  rcases Shape.bare_cases (rfl : s.bare = s.bare) with
    ⟨q, n, args, _, top, _⟩ | ⟨o, n, top, _⟩ | ⟨other, notParam, _⟩
  · by_cases builtin : q = ""
    · rw [top, builtin, bodyAt_builtin] at found
      split at found <;> cases found
    · exact .inr ⟨q, n, args, builtin, top⟩
  · rw [top] at found
    cases fuel <;> cases found
  · rw [bodyAt_shape other notParam] at found
    cases found
    exact .inl rfl

theorem resolved_of_bodyAt {fuel : Nat} (found : p.bodyAt fuel s.resolved = some (.shape t)) :
    t.resolved = t := by
  induction fuel generalizing s with
  | zero =>
    rcases bodyAt_cases found with rfl | ⟨q, n, args, package, top⟩
    · exact s.resolved_resolved
    · rw [top, bodyAt_zero package] at found
      cases found
  | succ fuel ih =>
    rcases bodyAt_cases found with rfl | ⟨q, n, args, package, top⟩
    · exact s.resolved_resolved
    · rw [top, bodyAt_declared package] at found
      obtain ⟨d, _, found⟩ := Option.bind_eq_some_iff.mp found
      split at found
      · exact ih found
      · rename_i other
        exact absurd (Option.some.inj found) (other t)

/-- Structures that are bare alike. -/
theorem struct_of_bare (second : t.resolved = t) (same : s.bare = t.bare)
    {q : String} (struct_ : s = .struct q ls ts) :
    ∃ q' us, t = .struct q' ls us ∧ (∀ name ∈ ls.map Label.name, MemberId.of q name = .of q' name) ∧
      Shape.bareFields ls ts = Shape.bareFields ls us := by
  subst struct_
  cases t with
  | struct q' ls' us =>
    rw [Shape.bare, Shape.bare, Shape.struct.injEq] at same
    obtain ⟨owner, rfl, fields⟩ := same
    refine ⟨q', us, rfl, fun name member => ?_, fields⟩
    split at owner
    · rename_i all
      obtain ⟨l, label, rfl⟩ := List.mem_map.mp member
      have exported : isExported l.name = true := List.all_eq_true.mp all l label
      rw [MemberId.of, MemberId.of, if_pos exported, if_pos exported]
    · rw [owner]
  | synonym t => exact absurd second (Shape.resolved_ne_synonym _ t)
  | _ => cases same

/-- A type is a structure if one that is bare alike is. -/
theorem body?_struct (settled : p.Settled) (same : a.bare = b.bare) {q : String}
    (found : p.body? a = some (.shape (.struct q ls ts))) :
    ∃ q' us, p.body? b = some (.shape (.struct q' ls us)) ∧
      (∀ name ∈ ls.map Label.name, MemberId.of q name = .of q' name) ∧
      Shape.bareFields ls ts = Shape.bareFields ls us := by
  rcases body?_cases settled same with ⟨s, t, first, second, alike⟩ | ⟨_, _, _, _, _, first, _⟩ | ⟨first, _⟩ <;>
    rw [first] at found <;> cases found
  obtain ⟨q', us, rfl, owner, fields⟩ := struct_of_bare (resolved_of_bodyAt second) alike rfl
  exact ⟨q', us, second, owner, fields⟩

/-- The types of the embedded fields of a type, with their places. -/
def embeds (p : Program) (s : Shape) : List (Shape × Nat) :=
  ((p.fields s).filter fun ((l, _), _) => l.embedded).map fun ((_, t), i) => (t, i)

/-- The names of the fields of a type. -/
def fieldNames (p : Program) (s : Shape) : List MemberId :=
  match p.body? s with
  | some (.shape (.struct q ls _)) => ls.map fun l => .of q l.name
  | _ => []

theorem embedded_bare {us : List Shape}
    (same : Shape.bareFields ls ts = Shape.bareFields ls us) (start : Nat) :
    (((ls.zip ts).zipIdx start).filter fun ((l, _), _) => l.embedded).map
        (fun ((_, t), i) => (t.bareTarget, i)) =
      (((ls.zip us).zipIdx start).filter fun ((l, _), _) => l.embedded).map
        (fun ((_, t), i) => (t.bareTarget, i)) := by
  induction ls generalizing ts us start with
  | nil => rfl
  | cons l ls ih =>
    cases ts with
    | nil =>
      cases us with
      | nil => rfl
      | cons u us => cases same
    | cons t ts =>
      cases us with
      | nil => cases same
      | cons u us =>
        rw [Shape.bareFields, Shape.bareFields, List.cons.injEq] at same
        rw [List.zip_cons_cons, List.zip_cons_cons, List.zipIdx_cons, List.zipIdx_cons]
        cases embedded : l.embedded with
        | false =>
          rw [List.filter_cons_of_neg (by simpa using embedded), List.filter_cons_of_neg (by simpa using embedded)]
          exact ih same.2 (start + 1)
        | true =>
          rw [embedded] at same
          rw [List.filter_cons_of_pos (by exact embedded), List.filter_cons_of_pos (by exact embedded),
            List.map_cons, List.map_cons, ih same.2]
          exact congrArg (fun x => (x, start) :: _) same.1

theorem type_of_place {u : Shape} {place : Nat} (first : (t, place) ∈ p.embeds s)
    (second : (u, place) ∈ p.embeds s) : t = u := by
  have at_ : ∀ {v : Shape}, (v, place) ∈ p.embeds s → ∃ l, ((l, v), place) ∈ p.fields s := by
    intro v member
    obtain ⟨⟨⟨l, _⟩, _⟩, inFields, same⟩ := List.mem_map.mp member
    cases same
    exact ⟨l, (List.mem_filter.mp inFields).1⟩
  obtain ⟨l, first⟩ := at_ first
  obtain ⟨k, second⟩ := at_ second
  unfold fields at first second
  split at first
  · rename_i q ls ts body
    rw [body] at second
    rw [List.mem_zipIdx_iff_getElem?] at first second
    exact congrArg Prod.snd (Option.some.inj (first.symm.trans second))
  · cases first

theorem no_struct (other : ∀ q ls ts, p.body? s ≠ some (.shape (.struct q ls ts))) :
    p.embeds s = [] ∧ p.fieldNames s = [] := by
  constructor
  · unfold embeds fields
    split
    · rename_i q ls ts found
      exact absurd found (other q ls ts)
    · rfl
  · unfold fieldNames
    split
    · rename_i q ls ts found
      exact absurd found (other q ls ts)
    · rfl

theorem fields_bare (settled : p.Settled) (same : a.bare = b.bare) :
    (p.embeds a).map (fun (t, i) => (t.bareTarget, i)) = (p.embeds b).map (fun (t, i) => (t.bareTarget, i)) ∧
      p.fieldNames a = p.fieldNames b := by
  by_cases struct_ : ∃ q ls ts, p.body? a = some (.shape (.struct q ls ts))
  · obtain ⟨q, ls, ts, first⟩ := struct_
    obtain ⟨q', us, second, owner, fields_⟩ := body?_struct settled same first
    constructor
    · unfold embeds fields
      rw [first, second, List.map_map, List.map_map]
      exact embedded_bare fields_ 0
    · unfold fieldNames
      rw [first, second]
      exact List.map_congr_left fun l label => owner l.name (List.mem_map_of_mem label)
  · have other : ∀ q ls ts, p.body? b ≠ some (.shape (.struct q ls ts)) := by
      intro q ls ts second
      obtain ⟨q', us, first, _⟩ := body?_struct settled same.symm second
      exact struct_ ⟨q', ls, us, first⟩
    have none := no_struct fun q ls ts found => struct_ ⟨q, ls, ts, found⟩
    rw [none.1, none.2, (no_struct other).1, (no_struct other).2]
    exact ⟨rfl, rfl⟩

end Program

end TypeEngine.Package
