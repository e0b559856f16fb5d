import TypeEngine.Proofs.Engine.Twin

/-!
# Comparisons in lockstep

Two comparisons of equal types, from sessions whose memoised answers are right for the same tables,
go through the same steps. `compatibleAt_tracks` says that they give the same answer up to equality
of the types in it, also if the second one may go deeper than the first, and also if it is about
types with other names for their generic parameters.
-/

namespace TypeEngine.Engine

open Query

variable {e : Engine} {ts : Tables} {T : Ty → Prop} {src src' dst dst' t t' : Ty} {both : Prop}
  {ρ : String → String}

/-! ### Shapes -/

theorem isTuple_eq (twin : Twin ρ T t t') : t.isTuple = t'.isTuple :=
  twin.shape Ty.isTuple_bare (Ty.isTuple_rename ρ)

theorem components_alike (involved : Involved e ts T) (twin : Twin ρ T t t') :
    Alike ρ (List.Forall₂ (Twin ρ T)) t.components t'.components := by
  have inside := involved.components t
  have inside' := involved.components t'
  have slots := congrArg Ty.extra twin.same
  have types := congrArg Slot.types? slots
  rw [Ty.extra_bare, Ty.extra_bare, Ty.types?_bareSlots, Ty.types?_bareSlots, Ty.extra_rename,
    Ty.types?_renameSlots] at types
  rw [Ty.extra_bare, Ty.extra_bare, Ty.extra_rename] at slots
  unfold Ty.components at inside inside' ⊢
  rw [← isTuple_eq twin] at inside' ⊢
  split
  · rename_i holds
    rw [if_pos holds] at inside inside'
    cases found : Slot.types? t.extra <;> cases found' : Slot.types? t'.extra <;>
      rw [found, found'] at types
    · exact .error (.components slots)
    · cases types
    · cases types
    · rename_i parts parts'
      rw [found] at inside
      rw [found'] at inside'
      have same := Option.some.inj types
      rw [List.map_map] at same
      exact .ok (twins_of_map (inside parts twin.left rfl) (inside' parts' twin.right rfl) same)
  · exact .ok .nil

theorem funcParts_alike (involved : Involved e ts T) (twin : Twin ρ T t t') :
    Alike ρ (Option.Rel fun parts parts' => Twin ρ T parts.1 parts'.1 ∧
      List.Forall₂ (Twin ρ T) parts.2 parts'.2) t.funcParts t'.funcParts := by
  have alike := congrArg Ty.funcParts twin.same
  rw [Ty.funcParts_bare, Ty.funcParts_bare, Ty.funcParts_rename] at alike
  have inside := involved.funcParts t
  have inside' := involved.funcParts t'
  cases answer : t.funcParts <;> cases answer' : t'.funcParts <;> rw [answer, answer'] at alike
  · obtain rfl := Except.error.inj alike
    exact .error (.refl _)
  · cases alike
  · cases alike
  · rename_i parts parts'
    refine .ok ?_
    cases parts <;> cases parts' <;> have same := Except.ok.inj alike
    · exact .none
    · cases same
    · cases same
    · rename_i p p'
      obtain ⟨r, ps⟩ := p
      obtain ⟨r', ps'⟩ := p'
      obtain ⟨ret, params⟩ := Prod.mk.inj (Option.some.inj same)
      obtain ⟨retInside, paramsInside⟩ := inside r ps twin.left answer
      obtain ⟨retInside', paramsInside'⟩ := inside' r' ps' twin.right answer'
      rw [List.map_map] at params
      exact .some ⟨⟨retInside, retInside', ret⟩, twins_of_map paramsInside paramsInside' params⟩

theorem peelList_alike (involved : Involved e ts T) (twin : Twin ρ T t t') :
    Alike ρ (fun parts parts' => parts.1 = parts'.1 ∧ Twin ρ T parts.2 parts'.2) t.peelList
      t'.peelList := by
  have alike := congrArg Ty.peelList twin.same
  rw [Ty.peelList_bare, Ty.peelList_bare, Ty.peelList_rename] at alike
  cases answer : t.peelList <;> cases answer' : t'.peelList <;> rw [answer, answer'] at alike
  · obtain rfl := Except.error.inj alike
    exact .error (.refl _)
  · cases alike
  · cases alike
  · rename_i parts parts'
    obtain ⟨depth, leaf⟩ := Prod.mk.inj (Except.ok.inj alike)
    exact .ok ⟨depth, involved.peelList t _ _ twin.left answer,
      involved.peelList t' _ _ twin.right answer', leaf⟩

theorem peelOne_twin (twin : Twin ρ T t t') :
    t.peelOne.map (Option.map fun u => (u.rename ρ).bare) = t'.peelOne.map (Option.map Ty.bare) := by
  rw [← t'.peelOne_bare, ← twin.same, Ty.peelOne_bare, Ty.peelOne_rename]
  cases t.peelOne with
  | error v => rfl
  | ok elem => cases elem <;> rfl

theorem peelOne_alike (involved : Involved e ts T) (twin : Twin ρ T t t')
    (layered : (t.isList || t.isCollection) = true) :
    Alike ρ (fun elem elem' => ∃ u u', elem = some u ∧ elem' = some u' ∧ Twin ρ T u u') t.peelOne
      t'.peelOne := by
  have layered' : (t'.isList || t'.isCollection) = true := by
    rw [← twin.shape Ty.isList_bare (Ty.isList_rename ρ),
      ← twin.shape Ty.isCollection_bare (Ty.isCollection_rename ρ), layered]
  have alike := peelOne_twin twin
  cases peeled : t.peelOne <;> cases peeled' : t'.peelOne <;> rw [peeled, peeled'] at alike
  · obtain rfl := Except.error.inj alike
    exact .error (.refl _)
  · cases alike
  · cases alike
  · obtain ⟨u, rfl⟩ := Ty.peelOne_isSome layered peeled
    obtain ⟨u', rfl⟩ := Ty.peelOne_isSome layered' peeled'
    refine .ok ⟨u, u', rfl, rfl, ?_⟩
    exact ⟨involved.peelOne t u twin.left peeled, involved.peelOne t' u' twin.right peeled',
      Option.some.inj (Except.ok.inj alike)⟩

theorem sink_alike (injective : Function.Injective ρ) (sources : Twin ρ T src src')
    (targets : Twin ρ T dst dst') :
    Alike ρ (Option.Rel (Compatibility.Matches ρ)) (sink src dst) (sink src' dst') := by
  unfold sink
  rw [targets.beq_kept injective (u := .object) rfl, targets.beq_kept injective (u := .null) rfl,
    targets.beq_kept injective (u := .layered 1 .object) rfl]
  split
  · exact .ok (.some .accepted)
  · split
    · have alike := peelOne_twin sources
      cases peeled : src.peelOne <;> cases peeled' : src'.peelOne <;> rw [peeled, peeled'] at alike
      · obtain rfl := Except.error.inj alike
        exact .error (.refl _)
      · cases alike
      · cases alike
      · rename_i elem elem'
        cases elem <;> cases elem'
        · have wraps : Adapter.Matches ρ [.wrap 1 dst] [.wrap 1 dst'] :=
            congrArg (fun t => [AdapterStep.wrap 1 t]) targets.same
          exact .ok (.some (.adapted wraps))
        · cases alike
        · cases alike
        · exact .ok (.some .accepted)
    · exact .ok .none

/-! ### Nested types -/

/-- The comparisons of nested types go in lockstep. -/
def NestedTracks (ρ : String → String) (both : Prop) (e : Engine) (T : Ty → Prop) (ts : Tables) (nested nested' : Nested) :
    Prop :=
  ∀ src src' dst dst', Twin ρ T src src' → Twin ρ T dst dst' →
    Tracks ρ both (MemoisedAt e T ts) (Compatibility.Matches ρ) (nested src dst) (nested' src' dst')

variable {nested nested' : Nested}

theorem strict_tracks (tracks : NestedTracks ρ both e T ts nested nested') (sources : Twin ρ T src src')
    (targets : Twin ρ T dst dst') :
    Tracks ρ both (MemoisedAt e T ts) (Option.Rel (Adapter.Matches ρ))
      (strict nested src dst) (strict nested' src' dst') := by
  refine .bind (tracks _ _ _ _ sources targets) fun c c' same => .pure ?_
  rw [same.ok, same.warning]
  split
  · exact .some same.adapter
  · exact .none

theorem strictAll_tracks (tracks : NestedTracks ρ both e T ts nested nested')
    {pairs pairs' : List (Ty × Ty)}
    (twins : List.Forall₂ (fun p p' => Twin ρ T p.1 p'.1 ∧ Twin ρ T p.2 p'.2) pairs pairs') :
    Tracks ρ both (MemoisedAt e T ts)
      (Option.Rel (List.Forall₂ (Adapter.Matches ρ)))
      (strictAll nested pairs) (strictAll nested' pairs') := by
  induction twins with
  | nil => exact .pure (.some .nil)
  | @cons p p' pairs pairs' pair _ ih =>
    rw [strictAll, strictAll]
    refine .bind (strict_tracks tracks pair.1 pair.2) fun a a' first => ?_
    cases first with
    | none => exact .pure .none
    | some first =>
      refine .bind ih fun rest rest' more => .pure ?_
      cases more with
      | none => exact .none
      | some more => exact .some (.cons first more)

theorem twins_zip {xs xs' ys ys' : List Ty} (left : List.Forall₂ (Twin ρ T) xs xs')
    (right : List.Forall₂ (Twin ρ T) ys ys') :
    List.Forall₂ (fun p p' => Twin ρ T p.1 p'.1 ∧ Twin ρ T p.2 p'.2) (xs.zip ys) (xs'.zip ys') := by
  induction left generalizing ys ys' with
  | nil => exact .nil
  | cons first _ ih =>
    cases right with
    | nil => exact .nil
    | cons second rest => exact .cons ⟨first, second⟩ (ih rest)

theorem tupleToTuple_tracks (involved : Involved e ts T)
    (tracks : NestedTracks ρ both e T ts nested nested') (sources : Twin ρ T src src')
    (targets : Twin ρ T dst dst') :
    Tracks ρ both (MemoisedAt e T ts) (Compatibility.Matches ρ) (tupleToTuple nested src dst)
      (tupleToTuple nested' src' dst') := by
  refine .ite (by rw [isTuple_eq sources]) (fun _ => .pure .rejected) fun _ => ?_
  refine .bind (.ofViolation (components_alike involved sources)) fun xs xs' left => ?_
  refine .bind (.ofViolation (components_alike involved targets)) fun ys ys' right => ?_
  refine .ite (by rw [left.length_eq, right.length_eq]) (fun _ => .pure .rejected) fun _ => ?_
  refine .bind (strictAll_tracks tracks (twins_zip left right)) fun a a' same => ?_
  cases same with
  | none => exact .pure .rejected
  | some same =>
    refine .pure ?_
    rw [Adapter.Matches.all_isEmpty same]
    split
    · exact .accepted
    · exact .adapted (.tuple targets.same same)

theorem tupleToList_tracks (involved : Involved e ts T)
    (tracks : NestedTracks ρ both e T ts nested nested') (sources : Twin ρ T src src')
    (targets : Twin ρ T dst dst') (layered : (dst.isList || dst.isCollection) = true) :
    Tracks ρ both (MemoisedAt e T ts) (Compatibility.Matches ρ) (e.tupleToList nested src dst)
      (e.tupleToList nested' src' dst') := by
  refine .bind (.ofViolation (components_alike involved sources)) fun xs xs' left => ?_
  refine .ite (by rw [left.length_eq]) (fun _ => .pure ⟨rfl, rfl, rfl, rfl⟩) fun _ => ?_
  refine .bind (.ofViolation (peelOne_alike involved targets layered)) fun _ _ elements => ?_
  obtain ⟨elem, elem', rfl, rfl, elements⟩ := elements
  have twins : List.Forall₂ (fun p p' => Twin ρ T p.1 p'.1 ∧ Twin ρ T p.2 p'.2) (xs.map (·, elem))
      (xs'.map (·, elem')) := by
    rw [List.forall₂_map_left_iff, List.forall₂_map_right_iff]
    exact left.imp fun _ _ twin => ⟨twin, elements⟩
  refine .bind (strictAll_tracks tracks twins) fun a a' same => ?_
  cases same with
  | none => exact .pure .rejected
  | some same => exact .pure (.adapted (.tuple targets.same same))

theorem eachLeaf_matches {leaf leaf' : Adapter} (depth : Int) (same : leaf.Matches ρ leaf') :
    (eachLeaf depth leaf).Matches ρ (eachLeaf depth leaf') := by
  unfold eachLeaf
  rw [same.isEmpty]
  split
  · exact same
  · exact same.each

theorem byLayers_tracks (injective : Function.Injective ρ) (involved : Involved e ts T)
    (tracks : NestedTracks ρ both e T ts nested nested') (sources : Twin ρ T src src')
    (targets : Twin ρ T dst dst') :
    Tracks ρ both (MemoisedAt e T ts) (Compatibility.Matches ρ) (byLayers nested src dst)
      (byLayers nested' src' dst') := by
  refine .bind (.ofViolation (peelList_alike involved sources)) fun p p' left => ?_
  refine .bind (.ofViolation (peelList_alike involved targets)) fun q q' right => ?_
  obtain ⟨sd, sl⟩ := p
  obtain ⟨_, sl'⟩ := p'
  obtain ⟨dd, dl⟩ := q
  obtain ⟨_, dl'⟩ := q'
  obtain ⟨rfl, left⟩ := left
  obtain ⟨rfl, right⟩ := right
  have chars : (sl == .char) = (sl' == .char) := left.beq_kept injective rfl
  have texts : (sl == .string) = (sl' == .string) := left.beq_kept injective rfl
  have chars' : (dl == .char) = (dl' == .char) := right.beq_kept injective rfl
  have texts' : (dl == .string) = (dl' == .string) := right.beq_kept injective rfl
  refine .ite (by rw [chars, texts, chars', texts']) (fun _ => .pure (.adapted ?_)) fun _ => ?_
  · exact congrArg (fun t => [AdapterStep.convert t]) targets.same
  refine .ite (by rw [texts']) (fun _ => .pure (.adapted ?_)) fun _ => ?_
  · exact congrArg (fun t => [AdapterStep.stringify t]) targets.same
  refine .ite Iff.rfl (fun _ => ?_) fun _ => .pure .rejected
  refine .bind (strict_tracks tracks left right) fun a a' same => ?_
  cases same with
  | none => exact .pure .rejected
  | some same =>
    refine .pure (.adapted (.append (eachLeaf_matches sd same) ?_))
    split
    · exact congrArg (fun t => [AdapterStep.wrap _ t]) targets.same
    · rfl

theorem allCompatible_tracks (tracks : NestedTracks ρ both e T ts nested nested') (warning : Bool)
    {pairs pairs' : List (Ty × Ty)}
    (twins : List.Forall₂ (fun p p' => Twin ρ T p.1 p'.1 ∧ Twin ρ T p.2 p'.2) pairs pairs') :
    Tracks ρ both (MemoisedAt e T ts) (Compatibility.Matches ρ)
      (allCompatible nested warning pairs) (allCompatible nested' warning pairs') := by
  induction twins generalizing warning with
  | nil => exact .pure ⟨rfl, rfl, rfl, rfl⟩
  | cons pair _ ih =>
    rw [allCompatible, allCompatible]
    refine .bind (tracks _ _ _ _ pair.1 pair.2) fun c c' same => ?_
    rw [same.warning]
    exact .ite (by rw [same.ok]) (fun _ => ih _) fun _ => .pure .rejected

theorem delegates_tracks (involved : Involved e ts T)
    (tracks : NestedTracks ρ both e T ts nested nested') (sources : Twin ρ T src src')
    (targets : Twin ρ T dst dst') :
    Tracks ρ both (MemoisedAt e T ts) (Compatibility.Matches ρ) (delegates nested src dst)
      (delegates nested' src' dst') := by
  refine .bind (.ofViolation (funcParts_alike involved sources)) fun s s' left => ?_
  refine .bind (.ofViolation (funcParts_alike involved targets)) fun d d' right => ?_
  cases left with
  | none => exact .pure .rejected
  | @some p p' left =>
    cases right with
    | none => exact .pure .rejected
    | @some q q' right =>
      obtain ⟨results, params⟩ := left
      obtain ⟨results', params'⟩ := right
      refine .ite (by rw [params.length_eq, params'.length_eq]) (fun _ => .pure .rejected) fun _ => ?_
      exact allCompatible_tracks tracks false (.cons ⟨results, results'⟩ (twins_zip params' params))

theorem afterLists_tracks (injective : Function.Injective ρ) (involved : Involved e ts T)
    (tracks : NestedTracks ρ both e T ts nested nested') (sources : Twin ρ T src src')
    (targets : Twin ρ T dst dst') :
    Tracks ρ both (MemoisedAt e T ts) (Option.Rel (Compatibility.Matches ρ))
      (afterLists nested src dst) (afterLists nested' src' dst') := by
  have func := sources.shape Ty.isFunc_bare (Ty.isFunc_rename ρ)
  have func' := targets.shape Ty.isFunc_bare (Ty.isFunc_rename ρ)
  refine .ite (by rw [func, func']) (fun _ => ?_) fun _ => ?_
  · exact .bind (delegates_tracks involved tracks sources targets) fun c c' same =>
      .pure (.some same)
  refine .ite (by rw [targets.shape Ty.isSpan_bare (Ty.isSpan_rename ρ)]) (fun _ => ?_) fun _ =>
    .pure .none
  refine .bind (byLayers_tracks injective involved tracks sources targets) fun c c' same => ?_
  exact .ite (by rw [same.ok]) (fun _ => .pure (.some same)) fun _ => .pure .none

theorem byShape_tracks (injective : Function.Injective ρ) (involved : Involved e ts T)
    (tracks : NestedTracks ρ both e T ts nested nested') (sources : Twin ρ T src src')
    (targets : Twin ρ T dst dst') :
    Tracks ρ both (MemoisedAt e T ts) (Option.Rel (Compatibility.Matches ρ))
      (e.byShape nested src dst) (e.byShape nested' src' dst') := by
  have list := targets.shape Ty.isList_bare (Ty.isList_rename ρ)
  have collection := targets.shape Ty.isCollection_bare (Ty.isCollection_rename ρ)
  have null : (src == .null) = (src' == .null) := sources.beq_kept injective rfl
  have after := afterLists_tracks injective involved tracks sources targets
  unfold byShape
  refine .ite (by rw [sources.beq_eq injective targets, null]) (fun _ => .pure (.some .accepted))
    fun _ => ?_
  refine .bind (.ofViolation (sink_alike injective sources targets)) fun sunk sunk' same => ?_
  cases same with
  | some same => exact .pure (.some same)
  | none =>
    refine .ite (by rw [isTuple_eq targets]) (fun _ => ?_) fun _ => ?_
    · exact .bind (tupleToTuple_tracks involved tracks sources targets) fun c c' same =>
        .pure (.some same)
    refine .ite (by rw [list, collection]) (fun layered => ?_) fun _ => after
    refine .ite (by rw [isTuple_eq sources]) (fun _ => ?_) fun _ => ?_
    · exact .bind (tupleToList_tracks involved tracks sources targets layered) fun c c' same =>
        .pure (.some same)
    refine .bind (byLayers_tracks injective involved tracks sources targets) fun c c' same => ?_
    exact .ite (by rw [same.ok]) (fun _ => .pure (.some same)) fun _ => after

/-! ### Conversions and supertypes -/

/-- The steps along types that keep their names, from types with the same edges. -/
theorem conversionSteps_matches {path : List Ty} (edges : ts.conversionEdges src = ts.conversionEdges src')
    (text : (src == .string) = (src' == .string)) (kept : ∀ t ∈ path, t.KeptBy ρ) :
    Adapter.Matches ρ (conversionSteps ts src path) (conversionSteps ts src' path) := by
  induction path generalizing src src' with
  | nil => rfl
  | cons t path ih =>
    obtain ⟨here, rest⟩ := List.forall_mem_cons.mp kept
    rw [conversionSteps, conversionSteps, Tables.edgeWarning, Tables.edgeWarning, edges, text]
    refine congrArg₂ List.cons ?_ (ih rfl rfl rest)
    split
    · exact congrArg AdapterStep.convert here
    · split
      · exact congrArg AdapterStep.parse here
      · exact congrArg AdapterStep.cast here

theorem viaConversions_tracks (distinct : Distinguished T) (indifferent : Indifferent ρ e ts T)
    (ascending : Ascending e ts T) (sources : Twin ρ T src src') (targets : Twin ρ T dst dst') :
    Tracks ρ both (MemoisedAt e T ts) (Compatibility.Matches ρ) (viaConversions src dst)
      (viaConversions src' dst') := by
  refine .bind (reach_tracks distinct indifferent ascending sources targets) fun r r' same => ?_
  obtain ⟨rfl, kept⟩ := same
  refine .bind tables_tracks fun now now' agree => .pure ?_
  rw [conversionSteps_congr agree.1, conversionSteps_congr agree.2]
  split
  · exact ⟨rfl, rfl, conversionSteps_matches (indifferent.conversionEdges_eq distinct sources)
      (sources.beq_kept indifferent.injective rfl) kept, rfl⟩
  · exact .rejected

/-- The keys of twins, in the same order. -/
def SameSeen (ρ : String → String) (T : Ty → Prop) (seen seen' : List String) : Prop :=
  List.Forall₂ (fun k k' => ∃ t t', Twin ρ T t t' ∧ t.key = k ∧ t'.key = k') seen seen'

theorem SameSeen.contains {seen seen' : List String} (distinct : Distinguished T)
    (injective : Function.Injective ρ) (same : SameSeen ρ T seen seen') (twin : Twin ρ T t t') :
    seen.contains t.key = seen'.contains t'.key := by
  induction same with
  | nil => rfl
  | cons first _ ih =>
    obtain ⟨u, u', near, rfl, rfl⟩ := first
    have here : (t.key == u.key) = (t'.key == u'.key) := by
      rw [Bool.eq_iff_iff, beq_iff_eq, beq_iff_eq, twin.key_iff distinct injective near]
    rw [List.contains_cons, List.contains_cons, ih, here]

/-- The outcome of going up one step: the same answer, or the same types met. -/
def SameClimb (ρ : String → String) (T : Ty → Prop) :
    Except Compatibility Climb → Except Compatibility Climb → Prop
  | .error c, .error c' => c.Matches ρ c'
  | .ok climb, .ok climb' =>
    SameSeen ρ T climb.seen climb'.seen ∧ List.Forall₂ (Twin ρ T) climb.next climb'.next
  | _, _ => False

variable {compare compare' : Nested} {climb climb' : Climb}

theorem climbTo_tracks (distinct : Distinguished T) (injective : Function.Injective ρ)
    (targets : Twin ρ T dst dst') (tracks : NestedTracks ρ both e T ts compare compare')
    {supers supers' : List Supertype}
    (twins : List.Forall₂ (fun s s' => Twin ρ T s.type s'.type) supers supers')
    (seen : SameSeen ρ T climb.seen climb'.seen)
    (next : List.Forall₂ (Twin ρ T) climb.next climb'.next) :
    Tracks ρ both (MemoisedAt e T ts) (SameClimb ρ T) (climbTo compare dst supers climb)
      (climbTo compare' dst' supers' climb') := by
  induction twins generalizing climb climb' with
  | nil => exact .pure ⟨seen, next⟩
  | @cons s s' supers supers' twin _ ih =>
    rw [climbTo, climbTo]
    refine .ite (by rw [seen.contains distinct injective twin]) (fun _ => ih seen next) fun _ => ?_
    refine .bind (tracks _ _ _ _ twin targets) fun c c' same => ?_
    refine .ite (by rw [same.ok]) (fun _ => .pure ?_) fun _ => ih ?_ ?_
    · refine ⟨same.ok, same.warning, ?_, same.tooLong⟩
      exact congrArg₂ (fun t a => AdapterStep.upcast t :: a) twin.same same.adapter
    · exact .cons ⟨s.type, s'.type, twin, rfl, rfl⟩ seen
    · exact List.rel_append next (.cons twin .nil)

theorem climbFrom_tracks (distinct : Distinguished T) (indifferent : Indifferent ρ e ts T)
    (ascending : Ascending e ts T) (targets : Twin ρ T dst dst')
    (tracks : NestedTracks ρ both e T ts compare compare') {level level' : List Ty}
    (twins : List.Forall₂ (Twin ρ T) level level') (seen : SameSeen ρ T climb.seen climb'.seen)
    (next : List.Forall₂ (Twin ρ T) climb.next climb'.next) :
    Tracks ρ both (MemoisedAt e T ts) (SameClimb ρ T) (e.climbFrom compare dst level climb)
      (e.climbFrom compare' dst' level' climb') := by
  induction twins generalizing climb climb' with
  | nil => exact .pure ⟨seen, next⟩
  | cons twin _ ih =>
    rw [climbFrom, climbFrom]
    refine .bind (directSupertypes_tracks distinct indifferent ascending twin) fun found found' above => ?_
    refine .bind (climbTo_tracks distinct indifferent.injective targets tracks above seen next)
      fun o o' same => ?_
    cases o <;> cases o'
    · exact .pure same
    · cases same
    · cases same
    · exact ih same.1 same.2

theorem compareAt_tracks (distinct : Distinguished T) (indifferent : Indifferent ρ e ts T)
    (involved : Involved e ts T) {budget budget' : Nat}
    (tracks : NestedTracks ρ both e T ts (e.compatibleAt budget) (e.compatibleAt budget')) :
    NestedTracks ρ both e T ts (e.compareAt budget) (e.compareAt budget') := by
  intro src src' dst dst' sources targets
  have sources := sources.unwrap involved.toAscending
  have targets := targets.unwrap involved.toAscending
  refine .bind (byShape_tracks indifferent.injective involved tracks sources targets) fun c c' same => ?_
  cases same with
  | none => exact viaConversions_tracks distinct indifferent involved.toAscending sources targets
  | some same => exact .pure same

/-- A search upward with a budget that is greater by `spare`. Faults are the same if it is not. -/
theorem climbAt_tracks (distinct : Distinguished T) (indifferent : Indifferent ρ e ts T)
    (ascending : Ascending e ts T) (targets : Twin ρ T dst dst') {spare budget : Nat}
    (tracks : ∀ b < budget,
      NestedTracks ρ (spare = 0) e T ts (e.compareAt b) (e.compareAt (spare + b)))
    {level level' : List Ty} (twins : List.Forall₂ (Twin ρ T) level level')
    {seen seen' : List String} (met : SameSeen ρ T seen seen') :
    Tracks ρ (spare = 0) (MemoisedAt e T ts) (Compatibility.Matches ρ)
      (e.climbAt budget dst level seen) (e.climbAt (spare + budget) dst' level' seen') := by
  induction budget generalizing level level' seen seen' with
  | zero =>
    rw [climbAt]
    by_cases exact : spare = 0
    · subst exact
      exact .throw _
    · exact .spared exact _
  | succ budget ih =>
    rw [← Nat.add_assoc, climbAt, climbAt]
    change Tracks _ _ _ _ (e.climbFrom (e.compareAt budget) dst level { seen, next := [] } >>= _)
      (e.climbFrom (e.compareAt (spare + budget)) dst' level' { seen := seen', next := [] } >>= _)
    refine .bind (climbFrom_tracks distinct indifferent ascending targets
      (tracks budget (Nat.lt_succ_self _)) twins met .nil) fun o o' same => ?_
    cases o <;> cases o'
    · exact .pure same
    · cases same
    · cases same
    · rename_i climb climb'
      obtain ⟨seen, next⟩ := same
      have empty : climb.next.isEmpty = climb'.next.isEmpty := by
        rw [Bool.eq_iff_iff, List.isEmpty_iff_length_eq_zero, List.isEmpty_iff_length_eq_zero,
          next.length_eq]
      refine .ite (by rw [empty]) (fun _ => .pure .rejected) fun _ => ?_
      exact ih (fun b less => tracks b (Nat.lt_succ_of_lt less)) next seen

theorem compatibleAt_tracks (distinct : Distinguished T) (indifferent : Indifferent ρ e ts T)
    (involved : Involved e ts T) (spare budget : Nat) :
    NestedTracks ρ (spare = 0) e T ts (e.compatibleAt budget) (e.compatibleAt (spare + budget)) := by
  induction budget using Nat.strongRecOn with
  | ind budget ih =>
    intro src src' dst dst' sources targets
    have sources := sources.unwrap involved.toAscending
    have targets := targets.unwrap involved.toAscending
    cases budget with
    | zero =>
      rw [compatibleAt]
      by_cases exact : spare = 0
      · subst exact
        exact .throw _
      · exact .spared exact _
    | succ budget =>
      have nested := ih budget (Nat.lt_succ_self _)
      rw [← Nat.add_assoc, compatibleAt, compatibleAt]
      refine .bind (byShape_tracks indifferent.injective involved nested sources targets)
        fun c c' same => ?_
      cases same with
      | some same => exact .pure same
      | none =>
        refine .bind (climbAt_tracks distinct indifferent involved.toAscending targets
          (fun b less => compareAt_tracks distinct indifferent involved (ih b (Nat.lt_succ_of_lt less)))
          (.cons sources .nil) (.cons ⟨_, _, sources, rfl, rfl⟩ .nil)) fun c c' same => ?_
        refine .ite (by rw [same.ok]) (fun _ => .pure same) fun _ => ?_
        exact viaConversions_tracks distinct indifferent involved.toAscending sources targets

theorem compatible_tracks (distinct : Distinguished T) (indifferent : Indifferent ρ e ts T)
    (involved : Involved e ts T) (sources : Twin ρ T src src') (targets : Twin ρ T dst dst') :
    Tracks ρ True (MemoisedAt e T ts) (Compatibility.Matches ρ) (e.compatible src dst)
      (e.compatible src' dst') := by
  have tracks := compatibleAt_tracks distinct indifferent involved 0 (e.maxDepth + 1)
  rw [Nat.zero_add] at tracks
  exact (tracks src src' dst dst' sources targets).spare fun _ => rfl

end TypeEngine.Engine
