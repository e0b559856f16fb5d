import TypeEngine.Proofs.Engine.Climb
import TypeEngine.Proofs.Engine.Conversion
import TypeEngine.Proofs.Engine.Supertype

/-!
# Nominal destinations

No rule on shapes is about a nominal destination. A value fits it by its supertypes and the
conversions alone: `compatible_nominal_iff` says that some type above the source is equal to the
destination, is the null type or has a way to the destination.
-/

namespace TypeEngine

open Engine Relation

/-- A type that no rule on shapes is about. -/
def Ty.isNominal (t : Ty) : Bool :=
  !(t == .object || t == .null || t == .layered 1 .object || t.isTuple || t.isList ||
    t.isCollection || t.isFunc || t.isSpan)

/-- A value of type `t` is one of `dst`, or is converted to it. -/
def Matches (ts : Tables) (dst t : Ty) : Prop :=
  (t.unwrap == dst) = true ∨ (t.unwrap == .null) = true ∨ ∃ path, Leads ts true t.unwrap dst path

variable {e : Engine} {ts : Tables} {T : Ty → Prop} {src dst t u : Ty}

theorem Matches.congr (distinct : Distinguished T) (ascending : Ascending e ts T) (inside : T t)
    (inside' : T u) (same : (t == u) = true) (matching : Matches ts dst t) : Matches ts dst u := by
  have same : (t.unwrap == u.unwrap) = true := by
    rw [Ty.beq_iff_bare, ← Ty.unwrap_bare, ← Ty.unwrap_bare, Ty.beq_iff_bare.mp same]
  rcases matching with equal | null | ⟨path, leads⟩
  · exact .inl (by rwa [← Ty.beq_congr same])
  · exact .inr (.inl (by rwa [← Ty.beq_congr same]))
  · exact .inr (.inr ⟨path, leads.congr distinct (ascending.unwrap t inside)
      (ascending.unwrap u inside') same (Ty.beq_rfl dst)⟩)

/-! ### Types above the source -/

theorem Engine.IsSupertype.closed (ascending : Ascending e ts T) (inside : T t)
    (above : e.IsSupertype ts t u) : T u := by
  obtain ⟨found, answer, s, member, rfl⟩ := above
  exact ascending.supertypes t found inside answer s member

theorem closed_above (ascending : Ascending e ts T) (source : T src)
    (above : ReflTransGen (e.IsSupertype ts) src t) : T t := by
  induction above with
  | refl => exact source
  | tail _ step ih => exact step.closed ascending ih

theorem eq_of_no_supertypes (none : e.lookupSupertypes ts src = .ok [])
    (above : ReflTransGen (e.IsSupertype ts) src t) : t = src := by
  induction above with
  | refl => rfl
  | tail _ step ih =>
    obtain ⟨found, answer, s, member, rfl⟩ := step
    rw [ih, none] at answer
    obtain rfl := Except.ok.inj answer
    cases member

theorem exists_above (distinct : Distinguished T) (ascending : Ascending e ts T) (source : T src)
    (found : ReflTransGen (Above e ts T) src t) :
    T t ∧ ∃ t', ReflTransGen (e.IsSupertype ts) src t' ∧ (t == t') = true := by
  induction found with
  | refl => exact ⟨source, src, .refl, Ty.beq_rfl src⟩
  | @tail t u _ step ih =>
    obtain ⟨inside, t', above, same⟩ := ih
    have closed := step.closed ascending
    obtain ⟨found, ⟨asked, known, key, answer⟩, listed⟩ := step
    have equal := (distinct.key_iff known inside).mp key
    obtain ⟨u', higher, same'⟩ :=
      IsSupertype.congr (Ty.beq_trans equal same) ⟨found, answer, listed⟩
    exact ⟨closed, u', above.tail higher, same'⟩

/-- A search that has come to its end has met all types above the source. -/
theorem Climbed.covers {refused : Ty → Prop} {seen : List String} (distinct : Distinguished T)
    (ascending : Ascending e ts T) (source : T src) (climbed : Climbed e ts T refused src [] seen)
    (above : ReflTransGen (e.IsSupertype ts) src t) :
    ∃ t', T t' ∧ (t' == t) = true ∧ (t' = src ∨ refused t') := by
  have met : t.key ∈ seen := by
    induction above with
    | refl => exact climbed.start
    | @tail t u above step ih =>
      have inside := closed_above ascending source above
      obtain ⟨t', inside', key, _, _, open_ | ⟨found, ⟨asked, known, asKey, answer⟩, all⟩⟩ :=
        climbed.known t.key ih
      · cases open_
      have same : (t == asked) = true := (distinct.key_iff inside known).mp (asKey.trans key).symm
      obtain ⟨u', ⟨found', answer', s, member, rfl⟩, equal⟩ := IsSupertype.congr same step
      obtain rfl := Except.ok.inj (answer.symm.trans answer')
      rw [(distinct.key_iff (step.closed ascending inside)
        (ascending.supertypes asked found known answer s member)).mpr equal]
      exact all s member
  obtain ⟨t', inside', key, _, left, _⟩ := climbed.known t.key met
  exact ⟨t', inside',
    (distinct.key_iff inside' (closed_above ascending source above)).mp key, left⟩

/-! ### Comparisons with a nominal type -/

namespace Engine

theorem byShape_nominal (nested : Nested) (nominal : dst.isNominal = true) :
    e.byShape nested src dst =
      pure (if src == dst || src == .null then some .accepted else none) := by
  simp only [Ty.isNominal, Bool.not_eq_true', Bool.or_eq_false_iff] at nominal
  obtain ⟨⟨⟨⟨⟨⟨⟨object, null⟩, anyList⟩, tuple⟩, list⟩, collection⟩, func⟩, span⟩ := nominal
  have sunk : sink src dst = .ok none := by simp [sink, object, null, anyList]
  unfold byShape
  rw [sunk, tuple, list, collection, func, span, Bool.and_false]
  cases src == dst || src == .null <;> rfl

theorem viaConversions_iff (distinct : Distinguished T) (ascending : Ascending e ts T)
    (source : T src) (target : T dst) (different : (src == dst) = false) :
    (viaConversions src dst).Meets (ReachedAt e T ts) fun c =>
      c.ok = true ↔ ∃ path, Leads ts true src dst path := by
  refine .bind (reach_meets source target) fun r way => ?_
  refine .bind .tables fun now agrees => .pure ?_
  rw [← (way.shortest distinct ascending.edges source target different).found_iff]
  cases r.found <;> simp [Compatibility.rejected]

theorem compareAt_iff (distinct : Distinguished T) (ascending : Ascending e ts T)
    (nominal : dst.unwrap.isNominal = true) (budget : Nat) (inside : T t) (target : T dst) :
    (e.compareAt budget t dst).Meets (ReachedAt e T ts) fun c =>
      c.ok = true ↔ Matches ts dst.unwrap t := by
  have source := ascending.unwrap t inside
  have target := ascending.unwrap dst target
  unfold compareAt
  rw [byShape_nominal _ nominal, pure_bind]
  cases equal : t.unwrap == dst.unwrap with
  | true => exact .pure ⟨fun _ => .inl equal, fun _ => rfl⟩
  | false =>
    cases null : t.unwrap == .null with
    | true => exact .pure ⟨fun _ => .inr (.inl null), fun _ => rfl⟩
    | false =>
      refine (viaConversions_iff distinct ascending source target equal).mono fun c iff => ?_
      simp only [Matches, equal, null, Bool.false_eq_true, false_or, iff]

/-- With a nominal destination a comparison decides by the types above the source. -/
theorem compatibleAt_iff (distinct : Distinguished T) (ascending : Ascending e ts T)
    (nominal : dst.unwrap.isNominal = true) (budget : Nat) (source : T src) (target : T dst) :
    (e.compatibleAt budget src dst).Meets (ReachedAt e T ts) fun c => c.ok = true ↔
      ∃ t, ReflTransGen (e.IsSupertype ts) src.unwrap t ∧ Matches ts dst.unwrap t := by
  have source := ascending.unwrap src source
  have target := ascending.unwrap dst target
  cases budget with
  | zero => exact .throw _
  | succ budget =>
    rw [compatibleAt, byShape_nominal _ nominal, pure_bind]
    cases direct : src.unwrap == dst.unwrap || src.unwrap == .null with
    | true =>
      refine .pure ⟨fun _ => ⟨src.unwrap, .refl, ?_⟩, fun _ => rfl⟩
      rw [Bool.or_eq_true] at direct
      rw [Matches, Ty.unwrap_unwrap]
      exact direct.imp_right .inl
    | false =>
      rw [Bool.or_eq_false_iff] at direct
      have climbing : (e.climbAt budget dst.unwrap [src.unwrap] [src.unwrap.key]).Meets
          (ReachedAt e T ts)
          (ClimbAnswer e ts T (fun t c => c.ok = true ↔ Matches ts dst.unwrap t) src.unwrap) := by
        refine climbAt_meets ascending (fun b _ t inside => ?_) (Climbed.initial source)
        have compared := compareAt_iff distinct ascending (by rwa [Ty.unwrap_unwrap]) b inside target
        rwa [Ty.unwrap_unwrap] at compared
      refine .bind climbing fun c climbed => ?_
      rcases climbed with ⟨t, c', inside, found, fit, ok, rfl⟩ | ⟨no, seen, climbed⟩
      · -- a match above the source
        obtain ⟨_, t', above, same⟩ := exists_above distinct ascending source found.to_reflTransGen
        refine .ite (fun _ => .pure ⟨fun _ => ⟨t', above, ?_⟩, fun _ => ok⟩) fun refused => ?_
        · exact (fit.mp ok).congr distinct ascending inside
            (closed_above ascending source above) same
        · exact absurd ok refused
      · -- all types above are refused, so that only a conversion of the source itself is left
        rw [no]
        refine (viaConversions_iff distinct ascending source target direct.1).mono fun c iff => ?_
        rw [iff]
        constructor
        · rintro ⟨path, leads⟩
          exact ⟨src.unwrap, .refl, .inr (.inr ⟨path, by rwa [Ty.unwrap_unwrap]⟩)⟩
        · rintro ⟨t, above, matching⟩
          obtain ⟨t', inside', same, left⟩ := climbed.covers distinct ascending source above
          have matching := matching.congr distinct ascending (closed_above ascending source above)
            inside' (Ty.beq_symm same)
          rcases left with rfl | ⟨c', fit, refused⟩
          · rw [Matches, Ty.unwrap_unwrap, direct.1, direct.2] at matching
            simpa using matching
          · rw [fit.mpr matching] at refused
            cases refused

end Engine

/-- In every reached session a value fits a nominal destination exactly if a type above the source,
the source included, is equal to the destination, is the null type or can be converted to it. -/
theorem Engine.compatible_nominal_iff {s s' : Session} {c : Compatibility} (reached : Reached e T s)
    (ascending : Ascending e s.tables T) (distinct : Distinguished T) (source : T src)
    (target : T dst) (nominal : dst.unwrap.isNominal = true)
    (answer : (e.compatible src dst).run s = (.ok c, s')) :
    c.ok = true ↔
      ∃ t, ReflTransGen (e.IsSupertype s.tables) src.unwrap t ∧ Matches s.tables dst.unwrap t := by
  have meets := compatibleAt_iff distinct ascending nominal (e.maxDepth + 1) source target s
    ⟨reached, .refl _⟩
  rw [← compatible, answer] at meets
  exact meets.2 c rfl

theorem compatible_nominal_upcast :
    ∃ c s', (({} : Engine).compatible (.classNamed "A") (.classNamed "C")).run
        { tables := lossyBase } = (.ok c, s') ∧ c.ok = true ∧
      ∃ t, ReflTransGen (Engine.IsSupertype {} lossyBase) (.classNamed "A") t ∧
        Matches lossyBase (.classNamed "C") t := by
  have source : Ty.classNamed "A" ∈ [Ty.classNamed "A", .classNamed "B", .classNamed "C"] := by simp
  have target : Ty.classNamed "C" ∈ [Ty.classNamed "A", .classNamed "B", .classNamed "C"] := by simp
  have reached : Reached {} (· ∈ [Ty.classNamed "A", .classNamed "B", .classNamed "C"])
    { tables := lossyBase } := .registered _ _ _
  have answer : ((({} : Engine).compatible (.classNamed "A") (.classNamed "C")).run
      { tables := lossyBase }).1 = .ok
        { ok := true
          warning := true
          adapter := [.upcast (.classNamed "B"), .cast (.classNamed "C")] } := rfl
  refine ⟨_, _, Prod.ext answer rfl, rfl, ?_⟩
  exact (Engine.compatible_nominal_iff reached lossyBase_involved.toAscending classes_distinct source
    target (by decide) (Prod.ext answer rfl)).mp rfl

/-- A conversion from `A` to `B`. -/
def oneConversion : Tables :=
  [Registration.addConversion (.classNamed "A") (.classNamed "B") false].foldl .register {}

theorem oneConversion_ascending : Ascending {} oneConversion
    (· ∈ [Ty.classNamed "A", .classNamed "B", .tuple [.classNamed "B"]]) := by
  refine ⟨?_, ?_, ?_⟩
  · have wrapped : (Ty.tuple [.classNamed "B"]).unwrap = .classNamed "B" := rfl
    have plain : ∀ name, (Ty.classNamed name).unwrap = .classNamed name := fun _ => rfl
    simp [wrapped, plain]
  · have ofA : Engine.lookupSupertypes {} oneConversion (.classNamed "A") = .ok [] := rfl
    have ofB : Engine.lookupSupertypes {} oneConversion (.classNamed "B") = .ok [] := rfl
    have ofTuple : Engine.lookupSupertypes {} oneConversion (.tuple [.classNamed "B"]) = .ok [] := rfl
    intro t found inside answer
    simp only [List.mem_cons, List.not_mem_nil, or_false] at inside
    rcases inside with rfl | rfl | rfl <;> simp_all
  · have ofA : oneConversion.conversionEdges (.classNamed "A") = [⟨.classNamed "B", false⟩] := rfl
    have ofB : oneConversion.conversionEdges (.classNamed "B") = [] := rfl
    have ofTuple : oneConversion.conversionEdges (.tuple [.classNamed "B"]) = [] := rfl
    simp [ofA, ofB, ofTuple]

/-- A tuple of one component stands for the component, but no conversion leads to the tuple itself. -/
theorem compatible_wrapped_unreached :
    ∃ T c s', Reached {} T { tables := oneConversion } ∧ Ascending {} oneConversion T ∧
      Distinguished T ∧ T (.classNamed "A") ∧ T (.tuple [.classNamed "B"]) ∧
      (Ty.tuple [.classNamed "B"]).unwrap.isNominal = true ∧
      (({} : Engine).compatible (.classNamed "A") (.tuple [.classNamed "B"])).run
        { tables := oneConversion } = (.ok c, s') ∧ c.ok = true ∧
      ¬∃ t, ReflTransGen (Engine.IsSupertype {} oneConversion) (Ty.classNamed "A").unwrap t ∧
        ((t.unwrap == (Ty.tuple [.classNamed "B"]).unwrap) = true ∨ (t.unwrap == .null) = true ∨
          ∃ path, Leads oneConversion true t.unwrap (.tuple [.classNamed "B"]) path) := by
  have answer : ((({} : Engine).compatible (.classNamed "A") (.tuple [.classNamed "B"])).run
      { tables := oneConversion }).1 = .ok
        { ok := true
          adapter := [.convert (.classNamed "B")] } := rfl
  refine ⟨(· ∈ [.classNamed "A", .classNamed "B", .tuple [.classNamed "B"]]), _, _,
    .registered _ _ _, oneConversion_ascending, .ofList (by decide), by simp, by simp, by decide,
    Prod.ext answer rfl, rfl, ?_⟩
  rintro ⟨t, above, matching⟩
  obtain rfl := eq_of_no_supertypes rfl above
  rcases matching with equal | null | ⟨path, u, route, arrives⟩
  · revert equal; decide
  · revert null; decide
  · have ofA : oneConversion.conversionEdges (.classNamed "A") = [⟨.classNamed "B", false⟩] := rfl
    have ofB : oneConversion.conversionEdges (.classNamed "B") = [] := rfl
    have start : (Ty.classNamed "A").unwrap ∈ [Ty.classNamed "A", .classNamed "B"] :=
      List.mem_cons_self
    have ends : u ∈ [Ty.classNamed "A", .classNamed "B"] :=
      route.closed (T := (· ∈ [Ty.classNamed "A", .classNamed "B"])) (by simp [ofA, ofB]) start
    simp only [List.mem_cons, List.not_mem_nil, or_false] at ends
    rcases ends with rfl | rfl <;> revert arrives <;> decide

end TypeEngine
