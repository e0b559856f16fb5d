import TypeEngine.Proofs.Symbols.Log

/-!
# Types by their names

Types are declared once per path, and found by the name of their innermost block in its container.
Two paths can have the same container and name and still be different, by the kind of their last
blocks. A declaration that is taken makes the name lead to its path, whatever it led to before
(`nestedType?_enlist`), so a declared type is found by its name exactly as long as no other type of
the name is declared in its container (`nestedType?_declared_iff`, `nestedType?_hides`).
-/

namespace TypeEngine

/-- The paths have the same name in the same container. -/
def Path.Namesake (p q : Path) : Prop := (p.pop == q.pop) = true ∧ p.leaf = q.leaf

instance (p q : Path) : Decidable (p.Namesake q) := inferInstanceAs (Decidable (_ ∧ _))

theorem Path.Namesake.refl (p : Path) : p.Namesake p := ⟨Path.beq_iff_bare.mpr rfl, rfl⟩

theorem Path.Plain.pop {p : Path} (plain : p.Plain) : p.pop.Plain :=
  fun b member => plain b (List.dropLast_subset p.blocks member)

theorem Path.namesake_iff {p q : Path} (hp : p.Plain) (hq : q.Plain) :
    p.Namesake q ↔ p.pop.key = q.pop.key ∧ p.leaf = q.leaf :=
  and_congr ⟨fun same => key_congr (beq_iff_bare.mp same), beq_of_key_eq hp.pop hq.pop⟩ Iff.rfl

namespace Tables

variable {ts next : Tables} {path : Path} {c : TableCall} {calls : List TableCall}

/-! ### One declaration -/

/-- The entry is for a name in the container with a key. -/
def entitles (key name : String) (f : Filed (String × Path)) : Bool := f.key = key && f.record.1 = name

theorem entitles_iff {key name : String} {f : Filed (String × Path)} :
    entitles key name f = true ↔ f.key = key ∧ f.record.1 = name := by
  simp [entitles]

/-- Makes the name of a path in its container lead to it. -/
def enlist (nested : List (Filed (String × Path))) (path : Path) : List (Filed (String × Path)) :=
  nested.filter (!entitles path.pop.key path.leaf ·) ++ [⟨path.pop.key, (path.leaf, path)⟩]

theorem nestedType?_eq (ts : Tables) (container : Path) (name : String) :
    ts.nestedType? container name =
      (ts.nested.find? (entitles container.key name)).map (·.record.2) := by
  rw [nestedType?, under, List.find?_map, List.find?_filter, Option.map_map]
  congr 2
  funext f
  simp [entitles]

/-- A name leads to the path that was declared last. -/
theorem nestedType?_enlist (written : next.nested = enlist ts.nested path) (container : Path)
    (name : String) : next.nestedType? container name =
      if path.pop.key = container.key ∧ path.leaf = name then some path
      else ts.nestedType? container name := by
  rw [nestedType?_eq, nestedType?_eq, written, enlist, List.find?_append]
  split
  · rename_i hit
    have none : (ts.nested.filter (!entitles path.pop.key path.leaf ·)).find?
        (entitles container.key name) = none := by
      rw [List.find?_eq_none, hit.1, hit.2]
      intro f member
      simpa using (List.mem_filter.mp member).2
    rw [none, Option.none_or, List.find?_cons_of_pos (entitles_iff.mpr hit)]
    rfl
  · rename_i miss
    -- The entries of another name, or in another container, stay.
    have kept : ∀ f, (decide ((!entitles path.pop.key path.leaf f) = true ∧
        entitles container.key name f = true)) = entitles container.key name f := by
      intro f
      cases here : entitles container.key name f with
      | false => simp
      | true =>
        have other : entitles path.pop.key path.leaf f = false := by
          obtain ⟨container, name⟩ := entitles_iff.mp here
          refine Bool.eq_false_iff.mpr fun own => miss ?_
          rw [entitles_iff, container, name] at own
          exact ⟨own.1.symm, own.2.symm⟩
        simp [other]
    rw [List.find?_filter, funext kept, List.find?_cons_of_neg (fun hit => miss (entitles_iff.mp hit)),
      List.find?_nil, Option.or_none]

theorem nestedType?_enlist_plain {path target : Path} (written : next.nested = enlist ts.nested path)
    (own : path.Plain) (plain : target.Plain) : next.nestedType? target.pop target.leaf =
      if path.Namesake target then some path else ts.nestedType? target.pop target.leaf :=
  (nestedType?_enlist written ..).trans (if_congr (Path.namesake_iff own plain).symm rfl rfl)

/-- Declared types and their names are the same. -/
structure Spares (ts next : Tables) : Prop where
  types : next.types = ts.types
  nested : next.nested = ts.nested

theorem once_spares {taken : Bool} {refusal : Refusal} (spared : ts.Spares next) :
    ts.Spares (ts.settle (if taken then .error refusal else .ok next)) := by
  cases taken with
  | true => exact ⟨rfl, rfl⟩
  | false => exact spared

theorem checked_spares {o : Overload} {write : Overload → Tables} (spared : ts.Spares (write o)) :
    ts.Spares (ts.settle (do return write (← checked o))) := by
  rw [settle_checked]
  split
  · exact spared
  · exact ⟨rfl, rfl⟩

/-- What a call other than a reset does to the declared types: it adds one, or it declares none or
is refused and leaves them alone. -/
inductive Declares (ts : Tables) (c : TableCall) (next : Tables) : Prop where
  | nothing (spared : ts.Spares next)
      (refused : ∀ decl, c = .register (.declareType decl) → ts.Refuses (.declareType decl))
  | type (decl : TypeDecl) (call : c = .register (.declareType decl))
      (accepted : ¬ts.Refuses (.declareType decl)) (types : next.types = ts.types ++ [⟨decl.path.key, decl⟩])
      (nested : next.nested = enlist ts.nested decl.path)

theorem refuses_declareType {decl : TypeDecl} :
    ts.Refuses (.declareType decl) ↔ (ts.type? decl.path).isSome = true :=
  refuses_once rfl

theorem register_spares {r : Registration} (kept : r ≠ .reset) (other : ∀ decl, r ≠ .declareType decl) :
    ts.Spares (ts.register r) := by
  cases r with
  | reset => exact absurd rfl kept
  | declareType decl => exact absurd rfl (other decl)
  | addProperty container p => exact once_spares ⟨rfl, rfl⟩
  | addConstant container k => exact once_spares ⟨rfl, rfl⟩
  | addEnumConstant enum k => exact once_spares ⟨rfl, rfl⟩
  | declareVariable scope v => exact once_spares ⟨rfl, rfl⟩
  | addFunction container name o => exact checked_spares ⟨rfl, rfl⟩
  | addConstructor container o => exact checked_spares ⟨rfl, rfl⟩
  | addIndexer container o => exact checked_spares ⟨rfl, rfl⟩
  | addUnary operand op o => exact checked_spares ⟨rfl, rfl⟩
  | addBinary operand op o => exact checked_spares ⟨rfl, rfl⟩
  | addInterface path iface =>
    change ts.Spares (ts.addInterface path iface)
    unfold addInterface
    split <;> exact ⟨rfl, rfl⟩
  | addConversion src dst warning => exact ⟨rfl, rfl⟩

theorem declareType_declares (ts : Tables) (decl : TypeDecl) :
    ts.Declares (.register (.declareType decl)) (ts.register (.declareType decl)) := by
  have call : ts.register (.declareType decl) = ts.settle (if (ts.type? decl.path).isSome then
      .error (.duplicate .type decl.path.split.1 decl.path.split.2)
    else .ok (invalidate { ts with
      types := ts.types ++ [⟨decl.path.key, decl⟩], nested := enlist ts.nested decl.path })) := rfl
  rw [call, settle_once]
  split
  · rename_i known
    refine .nothing ⟨rfl, rfl⟩ fun decl' same => ?_
    cases same
    exact refuses_declareType.mpr known
  · rename_i new
    exact .type decl rfl (fun refused => new (refuses_declareType.mp refused)) rfl rfl

theorem apply_declares (ts : Tables) (kept : c.isReset = false) : ts.Declares c (c.apply ts) := by
  cases c with
  | memoise src dst way => exact .nothing ⟨rfl, rfl⟩ fun decl same => by cases same
  | register r =>
    by_cases declares : ∃ decl, r = .declareType decl
    · obtain ⟨decl, rfl⟩ := declares
      exact declareType_declares ts decl
    · refine .nothing (register_spares ?_ fun decl same => declares ⟨decl, same⟩) fun decl same =>
        absurd ⟨decl, TableCall.register.inj same⟩ declares
      rintro rfl
      cases kept

theorem Declares.known (declares : ts.Declares c next) (known : (ts.type? path).isSome = true) :
    (next.type? path).isSome = true := by
  cases declares with
  | nothing spared refused => rwa [type?, spared.types]
  | type decl call accepted types nested =>
    rw [type?, List.isSome_head?] at known ⊢
    rw [types, under_concat]
    exact List.append_ne_nil_of_left_ne_nil known _

/-! ### Later calls -/

/-- Every call that declares a namesake of the path is refused when it comes. -/
def Unrivalled (ts : Tables) (path : Path) (calls : List TableCall) : Prop :=
  ∀ done other rest, calls = done ++ .register (.declareType other) :: rest → other.path.Namesake path →
    (done.foldl TableCall.apply ts).Refuses (.declareType other)

theorem unrivalled_cons :
    ts.Unrivalled path (c :: calls) ↔
      (∀ other, c = .register (.declareType other) → other.path.Namesake path →
        ts.Refuses (.declareType other)) ∧ (c.apply ts).Unrivalled path calls := by
  constructor
  · intro all
    refine ⟨fun other call alike => all [] other calls (by rw [call]; rfl) alike,
      fun done other rest split alike => all (c :: done) other rest (by rw [split]; rfl) alike⟩
  · rintro ⟨first, later⟩ done other rest split alike
    cases done with
    | nil => exact first other (List.cons.inj split).1 alike
    | cons d done =>
      obtain ⟨rfl, rest_eq⟩ := List.cons.inj split
      exact later done other rest rest_eq alike

section

variable (target : path.Plain)
include target

/-- A call lets the name of a declared type lead to it as before, unless it declares a namesake. -/
theorem Declares.shows_iff (declares : ts.Declares c next) (known : (ts.type? path).isSome = true)
    (plain : ∀ r, c = .register r → r.Plain) :
    next.nestedType? path.pop path.leaf = some path ↔
      ts.nestedType? path.pop path.leaf = some path ∧
        ∀ other, c = .register (.declareType other) → other.path.Namesake path →
          ts.Refuses (.declareType other) := by
  cases declares with
  | nothing spared refused =>
    rw [nestedType?, spared.nested]
    exact ⟨fun shown => ⟨shown, fun other call _ => refused other call⟩, And.left⟩
  | type decl call accepted types nested =>
    rw [nestedType?_enlist_plain nested (plain _ call _ rfl) target]
    split
    · rename_i alike
      refine ⟨fun shown => ?_, fun all => absurd (all.2 decl call alike) accepted⟩
      -- A path that is declared again is refused.
      rw [← Option.some.inj shown] at known
      exact absurd (refuses_declareType.mpr known) accepted
    · rename_i other
      refine ⟨fun shown => ⟨shown, fun decl' call' alike => ?_⟩, And.left⟩
      obtain rfl : decl = decl' := by
        rw [call] at call'
        cases call'
        rfl
      exact absurd alike other

theorem Declares.namesake (declares : ts.Declares c next) (plain : ∀ r, c = .register r → r.Plain)
    (before : ∃ shown, ts.nestedType? path.pop path.leaf = some shown ∧ shown.Namesake path) :
    ∃ shown, next.nestedType? path.pop path.leaf = some shown ∧ shown.Namesake path := by
  cases declares with
  | nothing spared refused =>
    rw [nestedType?, spared.nested]
    exact before
  | type decl call accepted types nested =>
    rw [nestedType?_enlist_plain nested (plain _ call _ rfl) target]
    split
    · rename_i alike
      exact ⟨decl.path, rfl, alike⟩
    · exact before

theorem foldl_shows_iff {ts : Tables} {calls : List TableCall} (known : (ts.type? path).isSome = true)
    (kept : ∀ c ∈ calls, c.isReset = false) (plain : ∀ r, .register r ∈ calls → r.Plain) :
    (calls.foldl TableCall.apply ts).nestedType? path.pop path.leaf = some path ↔
      ts.nestedType? path.pop path.leaf = some path ∧ ts.Unrivalled path calls := by
  induction calls generalizing ts with
  | nil => exact ⟨fun shown => ⟨shown, fun done other rest split => by simp at split⟩, And.left⟩
  | cons c calls ih =>
    obtain ⟨here, later⟩ := List.forall_mem_cons.mp kept
    have declares := ts.apply_declares here
    rw [List.foldl_cons, ih (declares.known known) later fun r member => plain r (List.mem_cons_of_mem _ member),
      declares.shows_iff target known fun r same => plain r (same ▸ List.mem_cons_self), unrivalled_cons, and_assoc]

theorem foldl_namesake {ts : Tables} {calls : List TableCall}
    (kept : ∀ c ∈ calls, c.isReset = false) (plain : ∀ r, .register r ∈ calls → r.Plain)
    (before : ∃ shown, ts.nestedType? path.pop path.leaf = some shown ∧ shown.Namesake path) :
    ∃ shown, (calls.foldl TableCall.apply ts).nestedType? path.pop path.leaf = some shown ∧
      shown.Namesake path := by
  induction calls generalizing ts with
  | nil => exact before
  | cons c calls ih =>
    obtain ⟨here, later⟩ := List.forall_mem_cons.mp kept
    exact ih later (fun r member => plain r (List.mem_cons_of_mem _ member))
      ((ts.apply_declares here).namesake target (fun r same => plain r (same ▸ List.mem_cons_self)) before)

end

/-! ### Main statement -/

/-- A declaration that is not refused makes the type known, by its path and by its name. -/
theorem declareType_known {decl : TypeDecl} (accepted : ¬ts.Refuses (.declareType decl)) (own : decl.path.Plain) :
    ((ts.register (.declareType decl)).type? decl.path).isSome = true ∧
      (ts.register (.declareType decl)).nestedType? decl.path.pop decl.path.leaf = some decl.path := by
  cases ts.declareType_declares decl with
  | nothing spared refused => exact absurd (refused decl rfl) accepted
  | type decl' call _ types nested =>
    cases call
    refine ⟨?_, by rw [nestedType?_enlist_plain nested own own, if_pos (.refl _)]⟩
    rw [type?, List.isSome_head?, types, under_concat, if_pos rfl]
    exact List.concat_ne_nil _ _

/-- As long as there is no reset, the name of a declared type leads to a type of this name in this
container. It is the declared one exactly if every later declaration of a namesake is for a path that
was declared before it. -/
theorem nestedType?_declared_iff {before after : List TableCall} {decl : TypeDecl}
    (plain : ∀ r, .register r ∈ before ++ .register (.declareType decl) :: after → r.Plain)
    (accepted : ¬(run before).Refuses (.declareType decl)) (kept : ∀ c ∈ after, c.isReset = false) :
    (∃ shown, (run (before ++ .register (.declareType decl) :: after)).nestedType? decl.path.split.1
        decl.path.split.2 = some shown ∧ shown.Namesake decl.path) ∧
      ((run (before ++ .register (.declareType decl) :: after)).nestedType? decl.path.split.1
        decl.path.split.2 = some decl.path ↔
        ∀ done other rest, after = done ++ .register (.declareType other) :: rest →
          other.path.Namesake decl.path → recordsAt Registration.typeDecl?
            (sinceReset (before ++ .register (.declareType decl) :: done)) other.path ≠ []) := by
  have later : ∀ calls, run (before ++ .register (.declareType decl) :: calls) =
      calls.foldl TableCall.apply ((run before).register (.declareType decl)) := fun calls => by
    rw [run, List.foldl_append, List.foldl_cons]
    rfl
  have own : decl.path.Plain := plain _ (List.mem_append_right _ List.mem_cons_self) _ rfl
  have rest : ∀ r, .register r ∈ after → r.Plain :=
    fun r member => plain r (List.mem_append_right _ (List.mem_cons_of_mem _ member))
  obtain ⟨known, shown⟩ := declareType_known accepted own
  refine ⟨later after ▸ foldl_namesake own kept rest ⟨_, shown, .refl _⟩, ?_⟩
  rw [later, Path.split, foldl_shows_iff own known kept rest, and_iff_right shown]
  -- What is refused can be read off the calls.
  refine forall_congr' fun done => forall_congr' fun other => forall_congr' fun more =>
    forall_congr' fun split => imp_congr_right fun _ => ?_
  subst split
  rw [← later]
  refine refuses_iff (fun r member => plain r ?_) (rest _ (List.mem_append_right _ List.mem_cons_self))
  rw [← List.cons_append, ← List.append_assoc]
  exact List.mem_append_left _ member

/-- A type called `A` of some kind in the namespace `N`. -/
def declA (kind : Kind) : TypeDecl :=
  { path := ⟨[{ kind := .namespaceLevel, name := "N" }, { kind, name := "A" }]⟩ }

theorem declA_plain (kind : Kind) : (Registration.declareType (declA kind)).Plain := by
  intro path here
  obtain rfl := Option.mem_some.mp here
  have names : ∀ name ∈ ["N", "A"], Path.mark ∉ name.toList := by decide
  simpa [Path.Plain, declA] using names

/-- After the class, the class itself and the interface that was there before it are declared again. -/
theorem nestedType?_declared_iff_again :
    let before : List TableCall := [.register (.declareType (declA .interfaceType))]
    let after : List TableCall := [.register (.declareType (declA .classType)), .memoise .int .string {},
      .register (.declareType (declA .interfaceType))]
    let calls := before ++ .register (.declareType (declA .classType)) :: after
    let path := (declA .classType).path
    (∀ r, .register r ∈ calls → r.Plain) ∧ ¬(run before).Refuses (.declareType (declA .classType)) ∧
      (∀ c ∈ after, c.isReset = false) ∧
      (∃ shown, (run calls).nestedType? path.split.1 path.split.2 = some shown ∧ shown.Namesake path) ∧
      ((run calls).nestedType? path.split.1 path.split.2 = some path ↔
        ∀ done other rest, after = done ++ .register (.declareType other) :: rest → other.path.Namesake path →
          recordsAt Registration.typeDecl?
            (sinceReset (before ++ .register (.declareType (declA .classType)) :: done)) other.path ≠ []) := by
  intro before after calls path
  have plain : ∀ r, .register r ∈ calls → r.Plain := by
    intro r member
    simp only [calls, before, after, List.mem_cons, List.mem_append, List.not_mem_nil, or_false,
      TableCall.register.injEq, reduceCtorEq, false_or] at member
    rcases member with rfl | rfl | rfl | rfl <;> exact declA_plain _
  have accepted : ¬(run before).Refuses (.declareType (declA .classType)) := by
    rw [refuses_declareType]
    decide +kernel
  have kept : ∀ c ∈ after, c.isReset = false := by decide
  exact ⟨plain, accepted, kept, nestedType?_declared_iff plain accepted kept⟩

/-- A struct of the name hides a class that is declared, and is not refused. -/
theorem nestedType?_hides :
    let calls : List TableCall :=
      [.register (.declareType (declA .classType)), .register (.declareType (declA .structType))]
    let path := (declA .classType).path
    (∀ r, .register r ∈ calls → r.Plain) ∧ ¬(run []).Refuses (.declareType (declA .classType)) ∧
      (∀ c ∈ calls, c.isReset = false) ∧ ((run calls).type? path).isSome = true ∧
      (run calls).nestedType? path.split.1 path.split.2 = some (declA .structType).path ∧
      (run calls).nestedType? path.split.1 path.split.2 ≠ some path := by
  intro calls path
  have plain : ∀ r, .register r ∈ calls → r.Plain := by
    intro r member
    simp only [calls, List.mem_cons, List.not_mem_nil, or_false, TableCall.register.injEq] at member
    rcases member with rfl | rfl <;> exact declA_plain _
  have accepted : ¬(run []).Refuses (.declareType (declA .classType)) := by
    rw [refuses_declareType]
    decide +kernel
  have shown : (run calls).nestedType? path.split.1 path.split.2 = some (declA .structType).path := by rfl
  refine ⟨plain, accepted, by decide, by decide +kernel, shown, ?_⟩
  rw [shown]
  simp [path, declA, Kind.structType, Kind.classType]

end Tables

end TypeEngine
