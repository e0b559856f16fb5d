import TypeEngine.Proofs.Engine.Lockstep
import TypeEngine.Proofs.Ty.Layers

/-!
# Where adapters end

`compatible_ends` says what the last step of an adapter leads to: the destination, a list whose
leaves were adapted, or a supertype that fits the destination as it is. For the last case a
comparison found deep in a search upward has to be repeated at the top, with another budget and
other memoised answers.
-/

namespace TypeEngine

open Engine Query

/-- The step leads to its target type. Steps over the leaves of a list have no target, and widening
leads to a type that may still be another than the one asked for. -/
def AdapterStep.delivers : AdapterStep → Bool
  | .wrap .. | .stringify _ | .parse _ | .cast _ | .convert _ | .tuple .. => true
  | .upcast _ | .each _ => false

/-- The last step of an adapter that does not end with a supertype. -/
def EndsAt (dst : Ty) (last : AdapterStep) : Prop :=
  (last.delivers = true ∧ (last.target == dst) = true) ∨
  ∃ leaf, last = .each leaf ∧ last.target = .zero ∧
    (dst.isList || dst.isCollection || dst.isSpan) = true

variable {e : Engine} {ts : Tables} {T : Ty → Prop} {src dst t : Ty} {last : AdapterStep}

theorem EndsAt.step (delivers : last.delivers = true) (target : last.target = dst) :
    EndsAt dst last :=
  .inl ⟨delivers, by rw [target, Ty.beq_rfl]⟩

/-! ### The reasons that do not go up -/

theorem Engine.conversionSteps_last {lossy : Bool} {path : List Ty} (route : Route ts lossy src path t) :
    (path = [] ∧ t = src) ∨ ∃ steps last, conversionSteps ts src path = steps ++ [last] ∧
      last.delivers = true ∧ last.target = t := by
  induction route with
  | nil t => exact .inl ⟨rfl, rfl⟩
  | @cons src dst path edge _ _ _ ih =>
    rw [conversionSteps]
    refine .inr ?_
    rcases ih with ⟨rfl, rfl⟩ | ⟨steps, last, same, delivers, target⟩
    · refine ⟨[], _, rfl, ?_, ?_⟩
      · split <;> [rfl; split <;> rfl]
      · split <;> [rfl; split <;> rfl]
    · exact ⟨_ :: steps, last, by rw [same, List.cons_append], delivers, target⟩

/-- The steps of a way found end with a step to the destination. -/
theorem Engine.conversionSteps_ends (distinct : Distinguished T)
    (onward : ∀ t, T t → ∀ edge ∈ ts.conversionEdges t, T edge.dest) (source : T src)
    (target : T dst) (different : (src == dst) = false) {r : Reachability}
    (way : WayFor ts T src dst r) (found : r.found = true) :
    ∃ steps last, conversionSteps ts src r.path = steps ++ [last] ∧ EndsAt dst last := by
  obtain ⟨t, route, arrives⟩ :=
    (way.shortest distinct onward source target different).leads found
  rcases conversionSteps_last route with ⟨_, rfl⟩ | ⟨steps, last, same, delivers, rfl⟩
  · rw [arrives] at different
    cases different
  · exact ⟨steps, last, same, .inl ⟨delivers, arrives⟩⟩

theorem Fits.endsAt (distinct : Distinguished T)
    (onward : ∀ t, T t → ∀ edge ∈ ts.conversionEdges t, T edge.dest) {warning : Bool}
    {adapter : Adapter} (fits : Fits e ts T false src dst warning adapter)
    (small : dst.layerTotal ≤ Numeral.greatest) (ends : adapter.getLast? = some last) :
    EndsAt dst last := by
  cases fits with
  | equal | null | anything | anyList | function => cases ends
  | anyElement | elements | text | stringify =>
    obtain rfl := Option.some.inj ends
    exact .step rfl rfl
  | tuple =>
    split at ends
    · cases ends
    · obtain rfl := Option.some.inj ends
      exact .step rfl rfl
  | @layers _ _ _ sl dl sd dd leaf layered _ peeled deeper =>
    have positive := Ty.peelList_pos layered small peeled
    by_cases less : sd < dd
    · rw [if_pos less, List.getLast?_concat] at ends
      obtain rfl := Option.some.inj ends
      exact .step rfl rfl
    · -- the depths are the same, so the source has layers too
      rw [if_neg less, List.append_nil] at ends
      have nonzero : sd ≠ 0 := by omega
      unfold eachLeaf at ends
      cases leaf with
      | nil => cases ends
      | cons first leaf =>
        rw [if_neg (by simp [nonzero])] at ends
        obtain rfl := Option.some.inj ends
        exact .inr ⟨first :: leaf, rfl, rfl, layered⟩
  | conversion source target different way found =>
    obtain ⟨steps, final, same, endsAt⟩ :=
      conversionSteps_ends distinct onward source target different way found
    rw [same, List.getLast?_concat] at ends
    obtain rfl := Option.some.inj ends
    exact endsAt

/-! ### Supertypes that fit as they are -/

namespace Engine

/-- In every session with right memoised answers, `t` fits `dst` without an adapter. -/
def FitsAsIs (e : Engine) (T : Ty → Prop) (ts : Tables) (t dst : Ty) (warning : Bool) : Prop :=
  ∀ s, MemoisedAt e T ts s → ∃ c s', (e.compatible t dst).run s = (.ok c, s') ∧ c.ok = true ∧
    c.adapter = [] ∧ c.warning = warning

/-- The rules on shapes give the same answer at the top as they give deeper in a search. -/
theorem byShape_again (distinct : Distinguished T) (involved : Involved e ts T) (source : T src)
    (target : T dst) {budget : Nat} (within : budget ≤ e.maxDepth) :
    (e.byShape (e.compatibleAt budget) src dst).Meets (MemoisedAt e T ts) fun answer =>
      ∀ s, MemoisedAt e T ts s → ∃ answer' s',
        (e.byShape (e.compatibleAt e.maxDepth) src dst).run s = (.ok answer', s') ∧
        answer.map Compatibility.bare = answer'.map Compatibility.bare := by
  have names := Indifferent.same_names e ts T
  have nested := compatibleAt_tracks distinct names involved (e.maxDepth - budget) budget
  rw [Nat.sub_add_cancel within] at nested
  refine ((byShape_tracks names.injective involved nested (.refl source) (.refl target)).mono ?_).meets
  rintro _ _ (same | _)
  · exact congrArg some same.bare
  · rfl

theorem fitsAsIs_of_byShape {c : Compatibility} (ok : c.ok = true) (empty : c.adapter = [])
    (again : ∀ s, MemoisedAt e T ts s → ∃ answer s',
      (e.byShape (e.compatibleAt e.maxDepth) t.unwrap dst.unwrap).run s = (.ok answer, s') ∧
      (some c).map Compatibility.bare = answer.map Compatibility.bare) :
    e.FitsAsIs T ts t dst c.warning := by
  intro s at_
  obtain ⟨answer, s', run, same⟩ := again s at_
  cases answer with
  | none => cases same
  | some c' =>
    obtain ⟨ok', warning, adapter, _⟩ := Compatibility.bare_eq_iff.mp (Option.some.inj same)
    refine ⟨c', s', ?_, ok' ▸ ok, ?_, warning.symm⟩
    · rw [compatible, compatibleAt, run_bind, run]
      rfl
    · rw [← List.isEmpty_iff, ← Adapter.isEmpty_congr adapter, empty]
      rfl

/-- What comparing the supertype `t` with the destination answers. -/
def SupertypeEnds (e : Engine) (T : Ty → Prop) (ts : Tables) (dst t : Ty) (c : Compatibility) : Prop :=
  c.ok = true → Fits e ts T false t.unwrap dst.unwrap c.warning c.adapter ∧
    (c.adapter = [] → e.FitsAsIs T ts t dst c.warning)

theorem compareAt_ends (distinct : Distinguished T) (involved : Involved e ts T) (source : T t)
    (target : T dst) {budget : Nat} (within : budget ≤ e.maxDepth) :
    (e.compareAt budget t dst.unwrap).Meets (ReachedAt e T ts) (e.SupertypeEnds T ts dst t) := by
  have source := involved.unwrap t source
  have target := involved.unwrap dst target
  unfold compareAt
  rw [Ty.unwrap_unwrap]
  have shape := byShape_meets involved (compatibleAt_fits involved budget) false source target
  have again := byShape_again distinct involved source target within
  refine .bind (shape.and again fun _ => ReachedAt.memoisedAt) fun answer post => ?_
  obtain ⟨fits, again⟩ := post
  cases answer with
  | some c => exact .pure fun ok => ⟨fits ok, fun empty => fitsAsIs_of_byShape ok empty again⟩
  | none =>
    refine .bind (reach_meets source target) fun r way => ?_
    refine .bind .tables fun now agrees => .pure fun ok => ?_
    split at ok
    · rename_i found
      rw [if_pos found]
      dsimp only
      rw [conversionSteps_congr agrees]
      refine ⟨.conversion source target fits way found, fun empty => ?_⟩
      obtain ⟨steps, last, same, _⟩ :=
        conversionSteps_ends distinct involved.edges source target fits way found
      rw [same] at empty
      simp at empty
    · cases ok

/-- How an answer for `dst` ends. -/
def Ends (e : Engine) (T : Ty → Prop) (ts : Tables) (dst : Ty) (c : Compatibility) : Prop :=
  c.ok = true → dst.unwrap.layerTotal ≤ Numeral.greatest → ∀ last, c.adapter.getLast? = some last →
    EndsAt dst.unwrap last ∨ ∃ t, last = .upcast t ∧ e.FitsAsIs T ts t dst c.warning

theorem ends_of_fits (distinct : Distinguished T) (involved : Involved e ts T) {c : Compatibility}
    (fits : c.ok = true → Fits e ts T false src dst.unwrap c.warning c.adapter) :
    e.Ends T ts dst c :=
  fun ok small _ ends => .inl ((fits ok).endsAt distinct involved.edges small ends)

theorem ends_of_supertype (distinct : Distinguished T) (involved : Involved e ts T)
    {c : Compatibility} (found : e.SupertypeEnds T ts dst t c) :
    e.Ends T ts dst { c with adapter := .upcast t :: c.adapter } := by
  intro ok small last ends
  obtain ⟨fits, asIs⟩ := found ok
  cases steps : c.adapter with
  | nil =>
    dsimp only at ends
    rw [steps, List.getLast?_singleton] at ends
    obtain rfl := Option.some.inj ends
    exact .inr ⟨t, rfl, asIs steps⟩
  | cons first rest =>
    dsimp only at ends
    rw [steps, List.getLast?_cons_cons, ← steps] at ends
    exact .inl (fits.endsAt distinct involved.edges small ends)

theorem compatible_meets_ends (distinct : Distinguished T) (involved : Involved e ts T)
    (source : T src) (target : T dst) :
    (e.compatible src dst).Meets (ReachedAt e T ts) (e.Ends T ts dst) := by
  have source := involved.unwrap src source
  have target' := involved.unwrap dst target
  have shape := byShape_meets involved (compatibleAt_fits involved e.maxDepth) false source target'
  rw [compatible, compatibleAt]
  refine .bind shape fun answer fits => ?_
  cases answer with
  | some c => exact .pure (ends_of_fits distinct involved fits)
  | none =>
    have compares : ∀ b < e.maxDepth, ∀ t, T t → (e.compareAt b t dst.unwrap).Meets
        (ReachedAt e T ts) (e.SupertypeEnds T ts dst t) :=
      fun b less t inside => compareAt_ends distinct involved inside target (Nat.le_of_lt less)
    have climbing := climbAt_meets involved.toAscending compares (.initial source)
    refine .bind climbing fun c climbed => ?_
    refine .ite (fun ok => .pure ?_) fun _ => ?_
    · rcases climbed with ⟨t, c', _, _, found, _, rfl⟩ | ⟨no, _⟩
      · exact ends_of_supertype distinct involved found
      · rw [no] at ok
        cases ok
    · exact (viaConversions_meets false source target' fits).mono fun c fits =>
        ends_of_fits distinct involved fits

/-- The adapter of an answer ends with a step to the destination, with the leaves of a list, or with
a supertype that fits the destination as it is. -/
theorem compatible_ends {s s' : Session} {c : Compatibility} (reached : Reached e T s)
    (involved : Involved e s.tables T) (distinct : Distinguished T) (source : T src)
    (target : T dst) (small : dst.unwrap.layerTotal ≤ Numeral.greatest)
    (answer : (e.compatible src dst).run s = (.ok c, s')) (ok : c.ok = true)
    (ends : c.adapter.getLast? = some last) :
    (last.delivers = true ∧ (last.target == dst.unwrap) = true) ∨
    (∃ leaf, last = .each leaf ∧ last.target = .zero ∧
      (dst.unwrap.isList || dst.unwrap.isCollection || dst.unwrap.isSpan) = true) ∨
    ∃ t, last = .upcast t ∧ ∀ s₁, Reached e T s₁ → s.tables.Agrees s₁.tables →
      ∃ c₁ s₂, (e.compatible t dst).run s₁ = (.ok c₁, s₂) ∧ c₁.ok = true ∧ c₁.adapter = [] ∧
        c₁.warning = c.warning := by
  have meets := compatible_meets_ends distinct involved source target s ⟨reached, .refl _⟩
  rw [answer] at meets
  rcases meets.2 c rfl ok small last ends with endsAt | ⟨t, same, asIs⟩
  · exact endsAt.imp_right .inl
  · refine .inr (.inr ⟨t, same, ?_⟩)
    intro s₁ reached₁ agrees
    exact asIs s₁ ⟨reached₁.memoised, agrees⟩

end Engine

/-- `A` is widened to its base `B`, which is the destination. -/
theorem compatible_ends_upcast :
    ((({} : Engine).compatible (.classNamed "A") (.classNamed "B")).run { tables := lossyBase }).1 =
      .ok (.adapted [.upcast (.classNamed "B")]) ∧
    ∃ c s, (({} : Engine).compatible (.classNamed "B") (.classNamed "B")).run
      { tables := lossyBase } = (.ok c, s) ∧ c.ok = true ∧ c.adapter = [] ∧ c.warning = false := by
  have source : Ty.classNamed "A" ∈ [Ty.classNamed "A", .classNamed "B", .classNamed "C"] := by simp
  have target : Ty.classNamed "B" ∈ [Ty.classNamed "A", .classNamed "B", .classNamed "C"] := by simp
  have reached : Reached {} (· ∈ [Ty.classNamed "A", .classNamed "B", .classNamed "C"])
    { tables := lossyBase } := .registered _ _ _
  have answer : ((({} : Engine).compatible (.classNamed "A") (.classNamed "B")).run
      { tables := lossyBase }).1 = .ok (.adapted [.upcast (.classNamed "B")]) := rfl
  refine ⟨answer, ?_⟩
  rcases Engine.compatible_ends reached lossyBase_involved classes_distinct source target (by decide)
    (Prod.ext answer rfl) rfl rfl with ⟨delivers, _⟩ | ⟨leaf, each, _⟩ | ⟨t, same, asIs⟩
  · cases delivers
  · cases each
  · obtain rfl := AdapterStep.upcast.inj same
    exact asIs _ reached (.refl _)

end TypeEngine
