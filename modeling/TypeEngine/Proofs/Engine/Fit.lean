import TypeEngine.Proofs.Engine.Climb
import TypeEngine.Proofs.Ty.Congruence

/-!
# Why a value fits

`Fits` lists the reasons for which a comparison of types says yes, one constructor for each rule,
with the warning and the adapter that the rule gives. `compatible_fits` says that there are no
others, so that a property of all answers is proved by induction on the reasons.
-/

namespace TypeEngine

open Engine

/-- The source fits the destination, with a warning and an adapter. Both are unwrapped. Supertypes
of the source count only if `climbs`. -/
inductive Fits (e : Engine) (ts : Tables) (T : Ty → Prop) : Bool → Ty → Ty → Bool → Adapter → Prop where
  | equal {climbs : Bool} {src dst : Ty} : (src == dst) = true → Fits e ts T climbs src dst false []
  | null {climbs : Bool} {src dst : Ty} : (src == .null) = true → Fits e ts T climbs src dst false []
  | anything {climbs : Bool} {src dst : Ty} : (dst == .object || dst == .null) = true →
      Fits e ts T climbs src dst false []
  | anyList {climbs : Bool} {src dst elem : Ty} : (dst == .layered 1 .object) = true →
      src.peelOne = .ok (some elem) → Fits e ts T climbs src dst false []
  | anyElement {climbs : Bool} {src dst : Ty} : (dst == .layered 1 .object) = true →
      src.peelOne = .ok none → Fits e ts T climbs src dst false [.wrap 1 dst]
  | tuple {climbs : Bool} {src dst : Ty} {sources targets : List Ty} {adapters : List Adapter} :
      src.isTuple = true → dst.isTuple = true →
      src.components = .ok sources → dst.components = .ok targets →
      sources.length = targets.length → adapters.length = sources.length →
      (∀ x ∈ (sources.zip targets).zip adapters,
        Fits e ts T true x.1.1.unwrap x.1.2.unwrap false x.2) →
      Fits e ts T climbs src dst false
        (if adapters.all List.isEmpty then [] else [.tuple dst adapters])
  | elements {climbs : Bool} {src dst elem : Ty} {sources : List Ty} {adapters : List Adapter} :
      (dst.isList || dst.isCollection) = true → src.isTuple = true →
      src.components = .ok sources → dst.peelOne = .ok (some elem) →
      sources.length ≤ e.tupleListLimit → adapters.length = sources.length →
      (∀ x ∈ sources.zip adapters, Fits e ts T true x.1.unwrap elem.unwrap false x.2) →
      Fits e ts T climbs src dst false [.tuple dst adapters]
  | text {climbs : Bool} {src dst sl dl : Ty} {sd dd : Int} :
      (dst.isList || dst.isCollection || dst.isSpan) = true →
      src.peelList = .ok (sd, sl) → dst.peelList = .ok (dd, dl) →
      (sl == .char && dl == .string && sd = wrap (dd + 1) ||
        sl == .string && dl == .char && wrap (sd + 1) = dd) = true →
      Fits e ts T climbs src dst false [.convert dst]
  | stringify {climbs : Bool} {src dst sl dl : Ty} {sd dd : Int} :
      (dst.isList || dst.isCollection || dst.isSpan) = true →
      src.peelList = .ok (sd, sl) → dst.peelList = .ok (dd, dl) →
      (dl == .string) = true → dd ≤ sd → 0 < sd →
      Fits e ts T climbs src dst false [.stringify dst]
  | layers {climbs : Bool} {src dst sl dl : Ty} {sd dd : Int} {leaf : Adapter} :
      (dst.isList || dst.isCollection || dst.isSpan) = true →
      src.peelList = .ok (sd, sl) → dst.peelList = .ok (dd, dl) → sd ≤ dd →
      Fits e ts T true sl.unwrap dl.unwrap false leaf →
      Fits e ts T climbs src dst false
        (eachLeaf sd leaf ++ if sd < dd then [.wrap (wrap (dd - sd)) dst] else [])
  | function {climbs : Bool} {src dst sr dr : Ty} {sp dp : List Ty}
      {outcomes : List (Bool × Adapter)} :
      src.isFunc = true → dst.isFunc = true →
      src.funcParts = .ok (some (sr, sp)) → dst.funcParts = .ok (some (dr, dp)) →
      sp.length = dp.length → outcomes.length = sp.length + 1 →
      (∀ x ∈ ((sr, dr) :: dp.zip sp).zip outcomes,
        Fits e ts T true x.1.1.unwrap x.1.2.unwrap x.2.1 x.2.2) →
      Fits e ts T climbs src dst (outcomes.any Prod.fst) []
  | upcast {src dst t : Ty} {warning : Bool} {adapter : Adapter} :
      Relation.TransGen (Above e ts T) src t → Fits e ts T false t.unwrap dst warning adapter →
      Fits e ts T true src dst warning (.upcast t :: adapter)
  | conversion {climbs : Bool} {src dst : Ty} {r : Reachability} :
      T src → T dst → (src == dst) = false → WayFor ts T src dst r → r.found = true →
      Fits e ts T climbs src dst r.warning (conversionSteps ts src r.path)

theorem Ty.peelOne_isSome {t : Ty} {elem? : Option Ty} (layered : (t.isList || t.isCollection) = true)
    (answer : t.peelOne = .ok elem?) : ∃ elem, elem? = some elem := by
  unfold Ty.peelOne Ty.listParts at answer
  cases list : t.isList with
  | true =>
    rw [list, if_pos rfl] at answer
    cases parts : Ty.layersOf t.extra with
    | error v => rw [parts] at answer; cases answer
    | ok p =>
      obtain ⟨n, elem⟩ := p
      rw [parts] at answer
      change (if n = 1 then _ else _) = _ at answer
      split at answer
      · exact ⟨elem, (Except.ok.inj answer).symm⟩
      · cases fewer : Ty.listN elem (n - 1) with
        | error v => rw [fewer] at answer; cases answer
        | ok u => rw [fewer] at answer; exact ⟨u, (Except.ok.inj answer).symm⟩
  | false =>
    have collection : t.isCollection = true := by simpa [list] using layered
    rw [list, if_neg Bool.false_ne_true] at answer
    change (if (t.isCollection || t.isSpan) = true then _ else _) = _ at answer
    rw [collection, Bool.true_or, if_pos rfl] at answer
    unfold Ty.isCollection at collection
    split at collection
    · rename_i name u shape
      rw [shape] at answer
      exact ⟨u, (Except.ok.inj answer).symm⟩
    · cases collection

namespace Engine

variable {e : Engine} {ts : Tables} {T : Ty → Prop} {nested : Nested} {src dst : Ty}

/-- The comparison of nested types says yes only for a reason. -/
def NestedFits (e : Engine) (ts : Tables) (T : Ty → Prop) (nested : Nested) : Prop :=
  ∀ src dst, T src → T dst → (nested src dst).Meets (ReachedAt e T ts) fun c =>
    c.ok = true → Fits e ts T true src.unwrap dst.unwrap c.warning c.adapter

theorem strict_meets (fits : NestedFits e ts T nested) (source : T src) (target : T dst) :
    (strict nested src dst).Meets (ReachedAt e T ts) fun answer => ∀ adapter, answer = some adapter →
      Fits e ts T true src.unwrap dst.unwrap false adapter := by
  refine .bind (fits src dst source target) fun c fit => .pure ?_
  intro adapter same
  split at same
  · rename_i good
    simp only [Bool.and_eq_true, Bool.not_eq_true'] at good
    have fit := fit good.1
    rw [good.2, Option.some.inj same] at fit
    exact fit
  · cases same

theorem strictAll_meets (fits : NestedFits e ts T nested) {pairs : List (Ty × Ty)}
    (inside : ∀ p ∈ pairs, T p.1 ∧ T p.2) :
    (strictAll nested pairs).Meets (ReachedAt e T ts) fun answer => ∀ adapters, answer = some adapters →
      adapters.length = pairs.length ∧
        ∀ x ∈ pairs.zip adapters, Fits e ts T true x.1.1.unwrap x.1.2.unwrap false x.2 := by
  induction pairs with
  | nil =>
    refine .pure ?_
    intro adapters same
    obtain rfl := Option.some.inj same
    simp
  | cons p pairs ih =>
    obtain ⟨src, dst⟩ := p
    obtain ⟨source, target⟩ := inside (src, dst) List.mem_cons_self
    rw [strictAll]
    refine .bind (strict_meets fits source target) fun answer fit => ?_
    cases answer with
    | none => exact .pure (by simp)
    | some adapter =>
      refine .bind (ih fun p member => inside p (List.mem_cons_of_mem _ member)) fun rest post => ?_
      refine .pure ?_
      intro adapters same
      obtain ⟨adapters', rfl, rfl⟩ := Option.map_eq_some_iff.mp same
      obtain ⟨length, all⟩ := post adapters' rfl
      refine ⟨by simp [length], ?_⟩
      intro x member
      rcases List.mem_cons.mp member with rfl | member
      · exact fit adapter rfl
      · exact all x member

theorem tupleToTuple_meets (involved : Involved e ts T) (fits : NestedFits e ts T nested)
    (climbs : Bool) (source : T src) (target : T dst) (tuple : dst.isTuple = true) :
    (tupleToTuple nested src dst).Meets (ReachedAt e T ts) fun c =>
      c.ok = true → Fits e ts T climbs src dst c.warning c.adapter := by
  refine .ite (fun _ => .pure nofun) fun srcTuple => ?_
  refine .bind (.ofViolation fun sources answer => answer) fun sources srcParts => ?_
  refine .bind (.ofViolation fun targets answer => answer) fun targets dstParts => ?_
  refine .ite (fun _ => .pure nofun) fun lengths => ?_
  have inside := involved.zip_components source target srcParts dstParts
  refine .bind (strictAll_meets fits inside) fun answer post => ?_
  cases answer with
  | none => exact .pure nofun
  | some adapters =>
    obtain ⟨length, all⟩ := post adapters rfl
    have same : sources.length = targets.length := Decidable.of_not_not lengths
    have length : adapters.length = sources.length := by simpa [same] using length
    have fit : Fits e ts T climbs src dst false _ :=
      .tuple (by simpa using srcTuple) tuple srcParts dstParts same length all
    refine .pure fun _ => ?_
    split at fit
    · rename_i empty
      rw [if_pos empty]
      exact fit
    · rename_i some
      rw [if_neg some]
      exact fit

theorem tupleToList_meets (involved : Involved e ts T) (fits : NestedFits e ts T nested)
    (climbs : Bool) (source : T src) (target : T dst) (tuple : src.isTuple = true)
    (layered : (dst.isList || dst.isCollection) = true) :
    (e.tupleToList nested src dst).Meets (ReachedAt e T ts) fun c =>
      c.ok = true → Fits e ts T climbs src dst c.warning c.adapter := by
  refine .bind (.ofViolation fun sources answer => answer) fun sources parts => ?_
  refine .ite (fun _ => .pure nofun) fun short => ?_
  refine .bind (.ofViolation fun elem? answer => answer) fun elem? peeled => ?_
  obtain ⟨elem, rfl⟩ := Ty.peelOne_isSome layered peeled
  have inside := involved.map_components source target parts peeled
  refine .bind (strictAll_meets fits inside) fun answer post => ?_
  cases answer with
  | none => exact .pure nofun
  | some adapters =>
    obtain ⟨length, all⟩ := post adapters rfl
    refine .pure fun _ => ?_
    refine .elements layered tuple parts peeled (Nat.le_of_not_lt short) (by simpa using length) ?_
    intro x member
    have pair : ((x.1, elem), x.2) ∈ (sources.map (·, elem)).zip adapters := by
      rw [List.zip_map_left]
      exact List.mem_map.mpr ⟨x, member, rfl⟩
    exact all _ pair

theorem byLayers_meets (involved : Involved e ts T) (fits : NestedFits e ts T nested)
    (climbs : Bool) (source : T src) (target : T dst)
    (layered : (dst.isList || dst.isCollection || dst.isSpan) = true) :
    (byLayers nested src dst).Meets (ReachedAt e T ts) fun c =>
      c.ok = true → Fits e ts T climbs src dst c.warning c.adapter := by
  refine .bind (.ofViolation fun parts answer => answer) fun ⟨sd, sl⟩ srcParts => ?_
  refine .bind (.ofViolation fun parts answer => answer) fun ⟨dd, dl⟩ dstParts => ?_
  refine .ite (fun between => ?_) fun _ => .ite (fun text => ?_) fun _ => .ite (fun deeper => ?_) fun _ => ?_
  · exact .pure fun _ => .text layered srcParts dstParts between
  · simp only [Bool.and_eq_true, decide_eq_true_eq] at text
    exact .pure fun _ => .stringify layered srcParts dstParts text.1.1 text.1.2 text.2
  · refine .bind (strict_meets fits (involved.peelList src sd sl source srcParts)
      (involved.peelList dst dd dl target dstParts)) fun answer fit => ?_
    cases answer with
    | none => exact .pure nofun
    | some leaf => exact .pure fun _ => .layers layered srcParts dstParts deeper (fit leaf rfl)
  · exact .pure nofun

/-- Comparing all pairs collects the warnings of all of them. -/
theorem allCompatible_meets (fits : NestedFits e ts T nested) {pairs : List (Ty × Ty)}
    (inside : ∀ p ∈ pairs, T p.1 ∧ T p.2) (warning : Bool) :
    (allCompatible nested warning pairs).Meets (ReachedAt e T ts) fun c => c.ok = true →
      ∃ outcomes : List (Bool × Adapter), outcomes.length = pairs.length ∧
        (∀ x ∈ pairs.zip outcomes, Fits e ts T true x.1.1.unwrap x.1.2.unwrap x.2.1 x.2.2) ∧
        c.warning = (warning || outcomes.any Prod.fst) ∧ c.adapter = [] := by
  induction pairs generalizing warning with
  | nil => exact .pure fun _ => ⟨[], by simp⟩
  | cons p pairs ih =>
    obtain ⟨src, dst⟩ := p
    obtain ⟨source, target⟩ := inside (src, dst) List.mem_cons_self
    rw [allCompatible]
    refine .bind (fits src dst source target) fun c fit => ?_
    refine .ite (fun ok => ?_) fun _ => .pure nofun
    have ih := ih (fun p member => inside p (List.mem_cons_of_mem _ member)) (warning || c.warning)
    refine ih.mono fun c' post ok' => ?_
    obtain ⟨outcomes, length, all, collected, none⟩ := post ok'
    refine ⟨(c.warning, c.adapter) :: outcomes, by simp [length], ?_, ?_, none⟩
    · intro x member
      rcases List.mem_cons.mp member with rfl | member
      · exact fit ok
      · exact all x member
    · rw [collected, List.any_cons, Bool.or_assoc]

theorem delegates_meets (involved : Involved e ts T) (fits : NestedFits e ts T nested)
    (climbs : Bool) (source : T src) (target : T dst)
    (functions : (src.isFunc && dst.isFunc) = true) :
    (delegates nested src dst).Meets (ReachedAt e T ts) fun c =>
      c.ok = true → Fits e ts T climbs src dst c.warning c.adapter := by
  obtain ⟨srcFunc, dstFunc⟩ := Bool.and_eq_true_iff.mp functions
  refine .bind (.ofViolation fun parts answer => answer) fun s srcParts => ?_
  refine .bind (.ofViolation fun parts answer => answer) fun d dstParts => ?_
  split
  · rename_i sr sp dr dp
    refine .ite (fun _ => .pure nofun) fun lengths => ?_
    have same : sp.length = dp.length := Decidable.of_not_not lengths
    have inside := involved.zip_funcParts source target srcParts dstParts
    refine (allCompatible_meets fits inside false).mono fun c post ok => ?_
    obtain ⟨outcomes, length, all, collected, none⟩ := post ok
    rw [collected, none, Bool.false_or]
    exact .function srcFunc dstFunc srcParts dstParts same (by simpa [same] using length) all
  · exact .pure nofun

theorem sink_fits {climbs : Bool} {c : Compatibility} (answer : sink src dst = .ok (some c)) :
    c.ok = true ∧ Fits e ts T climbs src dst c.warning c.adapter := by
  unfold sink at answer
  split at answer
  · rename_i takesAll
    obtain rfl := Option.some.inj (Except.ok.inj answer)
    exact ⟨rfl, .anything takesAll⟩
  · split at answer
    · rename_i takesLists
      cases peeled : src.peelOne with
      | error v => rw [peeled] at answer; cases answer
      | ok elem? =>
        rw [peeled] at answer
        cases elem? with
        | some elem =>
          obtain rfl := Option.some.inj (Except.ok.inj answer)
          exact ⟨rfl, .anyList takesLists peeled⟩
        | none =>
          obtain rfl := Option.some.inj (Except.ok.inj answer)
          exact ⟨rfl, .anyElement takesLists peeled⟩
    · cases answer

/-- The rules on shapes say yes only for a reason, and leave the question open only for different
types. -/
def ShapeAnswer (e : Engine) (ts : Tables) (T : Ty → Prop) (climbs : Bool) (src dst : Ty) :
    Option Compatibility → Prop
  | some c => c.ok = true → Fits e ts T climbs src dst c.warning c.adapter
  | none => (src == dst) = false

/-- The rules that are left after those on lists. -/
def afterLists (nested : Nested) (src dst : Ty) : Query (Option Compatibility) := do
  if src.isFunc && dst.isFunc then return some (← delegates nested src dst)
  if dst.isSpan then
    let c ← byLayers nested src dst
    if c.ok then return some c
  return none

theorem afterLists_meets (involved : Involved e ts T) (fits : NestedFits e ts T nested)
    (climbs : Bool) (source : T src) (target : T dst) (different : (src == dst) = false) :
    (afterLists nested src dst).Meets (ReachedAt e T ts) (ShapeAnswer e ts T climbs src dst) := by
  refine .ite (fun functions => ?_) fun _ => .ite (fun span => ?_) fun _ => .pure different
  · exact .bind (delegates_meets involved fits climbs source target functions) fun c fit => .pure fit
  · refine .bind (byLayers_meets involved fits climbs source target (by simp [span])) fun c fit => ?_
    exact .ite (fun _ => .pure fit) fun _ => .pure different

theorem byShape_meets (involved : Involved e ts T) (fits : NestedFits e ts T nested)
    (climbs : Bool) (source : T src) (target : T dst) :
    (e.byShape nested src dst).Meets (ReachedAt e T ts) (ShapeAnswer e ts T climbs src dst) := by
  unfold byShape
  refine .ite (fun same => ?_) fun different => ?_
  · refine .pure fun _ => ?_
    rcases Bool.or_eq_true_iff.mp same with same | null
    · exact .equal same
    · exact .null null
  have different : (src == dst) = false := by
    simp only [Bool.or_eq_true, not_or, Bool.not_eq_true] at different
    exact different.1
  have after := afterLists_meets involved fits climbs source target different
  refine .bind (.ofViolation fun answer same => same) fun answer sunk => ?_
  cases answer with
  | some c => exact .pure fun _ => (sink_fits sunk).2
  | none =>
    refine .ite (fun tuple => ?_) fun _ => .ite (fun layered => ?_) fun _ => after
    · exact .bind (tupleToTuple_meets involved fits climbs source target tuple) fun c fit => .pure fit
    refine .ite (fun tuple => ?_) fun _ => ?_
    · exact .bind (tupleToList_meets involved fits climbs source target tuple layered) fun c fit => .pure fit
    · refine .bind (byLayers_meets involved fits climbs source target (by simp [layered])) fun c fit => ?_
      exact .ite (fun _ => .pure fit) fun _ => after

theorem conversionSteps_congr {now : Tables} (agrees : ts.Agrees now) (src : Ty) (path : List Ty) :
    conversionSteps now src path = conversionSteps ts src path := by
  induction path generalizing src with
  | nil => rfl
  | cons t path ih =>
    rw [conversionSteps, conversionSteps, ih, Tables.edgeWarning, Tables.edgeWarning,
      agrees.conversionEdges]

theorem viaConversions_meets (climbs : Bool) (source : T src) (target : T dst)
    (different : (src == dst) = false) :
    (viaConversions src dst).Meets (ReachedAt e T ts) fun c =>
      c.ok = true → Fits e ts T climbs src dst c.warning c.adapter := by
  refine .bind (reach_meets source target) fun r way => ?_
  refine .bind .tables fun now agrees => .pure fun ok => ?_
  split at ok
  · rename_i found
    rw [if_pos found, conversionSteps_congr agrees]
    exact .conversion source target different way found
  · cases ok

theorem compareAt_meets (involved : Involved e ts T) {budget : Nat}
    (fits : NestedFits e ts T (e.compatibleAt budget)) (source : T src)
    (target : T dst) :
    (e.compareAt budget src dst).Meets (ReachedAt e T ts) fun c =>
      c.ok = true → Fits e ts T false src.unwrap dst.unwrap c.warning c.adapter := by
  have source := involved.unwrap src source
  have target := involved.unwrap dst target
  refine .bind (byShape_meets involved fits false source target) fun answer post => ?_
  cases answer with
  | some c => exact .pure post
  | none => exact viaConversions_meets false source target post

theorem compatibleAt_fits (involved : Involved e ts T) (budget : Nat) :
    NestedFits e ts T (e.compatibleAt budget) := by
  induction budget using Nat.strongRecOn with
  | ind budget ih =>
    intro src dst source target
    have source := involved.unwrap src source
    have target := involved.unwrap dst target
    cases budget with
    | zero => exact .throw _
    | succ budget =>
      rw [compatibleAt]
      refine .bind (byShape_meets involved (ih budget (Nat.lt_succ_self _)) true source target)
        fun answer post => ?_
      cases answer with
      | some c => exact .pure post
      | none =>
        have climbing : (e.climbAt budget dst.unwrap [src.unwrap] [src.unwrap.key]).Meets
            (ReachedAt e T ts) (ClimbAnswer e ts T (fun t c => c.ok = true →
              Fits e ts T false t.unwrap dst.unwrap c.warning c.adapter) src.unwrap) := by
          refine climbAt_meets involved.toAscending (fun b less t inside => ?_)
            (Climbed.initial source)
          have fit := compareAt_meets involved (ih b (Nat.lt_succ_of_lt less)) inside target
          rw [Ty.unwrap_unwrap] at fit
          exact fit
        refine .bind climbing fun c climbed => ?_
        refine .ite (fun ok => ?_) fun _ => viaConversions_meets true source target post
        rcases climbed with ⟨t, c', _, above, fit, ok', rfl⟩ | ⟨no, _⟩
        · exact .pure fun _ => .upcast above (fit ok')
        · rw [no] at ok
          cases ok

theorem compatible_fits (involved : Involved e ts T) (source : T src) (target : T dst) :
    (e.compatible src dst).Meets (ReachedAt e T ts) fun c =>
      c.ok = true → Fits e ts T true src.unwrap dst.unwrap c.warning c.adapter :=
  compatibleAt_fits involved _ src dst source target

end Engine

end TypeEngine
