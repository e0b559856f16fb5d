import TypeEngine.Proofs.Engine.Fit
import TypeEngine.Proofs.Engine.Translation

/-!
# Comparisons under a greater limit

A comparison that goes too deep fails. One that answers gives the same answer under any greater
limit on the depth (`compatible_more`), as long as the smaller limit does not cut off a translation
to the host or back: a reference in the catalog that is nested deeper than the limit counts as
absent, and then the answer does depend on the limit (`compatible_cut`).
-/

namespace TypeEngine

namespace Query

variable {α β : Type} {P : Session → Prop} {Q : α → Prop} {q q' : Query α}

/-- From sessions with the property `P`, whatever `q` answers is also the answer of `q'`, with the
same session after it. The session has the property again, and the answer has the property `Q`. -/
def Refines (P : Session → Prop) (Q : α → Prop) (q q' : Query α) : Prop :=
  ∀ s a s', P s → q.run s = (.ok a, s') → q'.run s = (.ok a, s') ∧ P s' ∧ Q a

namespace Refines

theorem pure {a : α} (holds : Q a) : Refines P Q (Pure.pure a) (Pure.pure a) := by
  intro s b s' keeps done
  obtain ⟨answer, rfl⟩ := Prod.mk.inj done
  obtain rfl := Except.ok.inj answer
  exact ⟨rfl, keeps, holds⟩

theorem throw (fault : Fault) : Refines P Q (MonadExcept.throw fault) q' := by
  intro s a s' _ done
  cases (Prod.mk.inj done).1

theorem bind {R : β → Prop} {f f' : α → Query β} (first : Refines P Q q q')
    (next : ∀ a, Q a → Refines P R (f a) (f' a)) : Refines P R (q >>= f) (q' >>= f') := by
  intro s b s' keeps done
  rw [run_bind] at done ⊢
  cases outcome : q.run s with
  | mk result middle =>
    rw [outcome] at done
    cases result with
    | error fault => cases (Prod.mk.inj done).1
    | ok a =>
      obtain ⟨same, kept, holds⟩ := first s a middle keeps outcome
      rw [same]
      exact next a holds middle b s' kept done

theorem of_meets (meets : q.Meets P Q) : Refines P Q q q := by
  intro s a s' keeps done
  obtain ⟨kept, answers⟩ := meets s keeps
  rw [done] at kept answers
  exact ⟨done, kept, answers a rfl⟩

theorem ofViolation {x : Except Violation α} (holds : ∀ a, x = .ok a → Q a) :
    Refines P Q (Query.ofViolation x) (Query.ofViolation x) :=
  of_meets (.ofViolation holds)

theorem ite {c : Prop} [Decidable c] {r r' : Query α} (yes : c → Refines P Q q q')
    (no : ¬c → Refines P Q r r') : Refines P Q (if c then q else r) (if c then q' else r') := by
  split
  · exact yes ‹_›
  · exact no ‹_›

end Refines

end Query

namespace Engine

open Query

variable {e : Engine} {ts : Tables} {T : Ty → Prop} {nested nested' : Nested} {src dst : Ty} {more : Nat}

/-- Whatever `q` answers is also the answer of `q'`. -/
abbrev Answers (e : Engine) (T : Ty → Prop) (ts : Tables) {α : Type} (q q' : Query α) : Prop :=
  Refines (ReachedAt e T ts) (fun _ => True) q q'

def NestedRefines (e : Engine) (T : Ty → Prop) (ts : Tables) (nested nested' : Nested) : Prop :=
  ∀ src dst, T src → T dst → Answers e T ts (nested src dst) (nested' src dst)

theorem strict_refines (refines : NestedRefines e T ts nested nested') (source : T src)
    (target : T dst) : Answers e T ts (strict nested src dst) (strict nested' src dst) :=
  .bind (refines src dst source target) fun _ _ => .pure trivial

theorem strictAll_refines (refines : NestedRefines e T ts nested nested') {pairs : List (Ty × Ty)}
    (inside : ∀ p ∈ pairs, T p.1 ∧ T p.2) :
    Answers e T ts (strictAll nested pairs) (strictAll nested' pairs) := by
  induction pairs with
  | nil => exact .pure trivial
  | cons p pairs ih =>
    obtain ⟨src, dst⟩ := p
    rw [List.forall_mem_cons] at inside
    rw [strictAll, strictAll]
    refine .bind (strict_refines refines inside.1.1 inside.1.2) fun answer _ => ?_
    cases answer with
    | none => exact .pure trivial
    | some adapter => exact .bind (ih inside.2) fun _ _ => .pure trivial

theorem tupleToTuple_refines (involved : Involved e ts T)
    (refines : NestedRefines e T ts nested nested') (source : T src) (target : T dst) :
    Answers e T ts (tupleToTuple nested src dst) (tupleToTuple nested' src dst) := by
  refine .ite (fun _ => .pure trivial) fun _ => ?_
  refine .bind (.ofViolation fun sources answer => answer) fun sources srcParts => ?_
  refine .bind (.ofViolation fun targets answer => answer) fun targets dstParts => ?_
  refine .ite (fun _ => .pure trivial) fun _ => ?_
  have inside := involved.zip_components source target srcParts dstParts
  refine .bind (strictAll_refines refines inside) fun answer _ => ?_
  cases answer <;> exact .pure trivial

theorem tupleToList_refines (involved : Involved e ts T)
    (refines : NestedRefines e T ts nested nested') (source : T src) (target : T dst)
    (layered : (dst.isList || dst.isCollection) = true) :
    Answers e T ts (e.tupleToList nested src dst) (e.tupleToList nested' src dst) := by
  refine .bind (.ofViolation fun sources answer => answer) fun sources parts => ?_
  refine .ite (fun _ => .pure trivial) fun _ => ?_
  refine .bind (.ofViolation fun elem? answer => answer) fun elem? peeled => ?_
  obtain ⟨elem, rfl⟩ := Ty.peelOne_isSome layered peeled
  have inside := involved.map_components source target parts peeled
  refine .bind (strictAll_refines refines inside) fun answer _ => ?_
  cases answer <;> exact .pure trivial

theorem byLayers_refines (involved : Involved e ts T)
    (refines : NestedRefines e T ts nested nested') (source : T src) (target : T dst) :
    Answers e T ts (byLayers nested src dst) (byLayers nested' src dst) := by
  refine .bind (.ofViolation fun parts answer => answer) fun ⟨sd, sl⟩ srcParts => ?_
  refine .bind (.ofViolation fun parts answer => answer) fun ⟨dd, dl⟩ dstParts => ?_
  refine .ite (fun _ => .pure trivial) fun _ => .ite (fun _ => .pure trivial) fun _ => ?_
  refine .ite (fun _ => ?_) fun _ => .pure trivial
  have leaves := strict_refines refines (involved.peelList src sd sl source srcParts)
    (involved.peelList dst dd dl target dstParts)
  refine .bind leaves fun answer _ => ?_
  cases answer <;> exact .pure trivial

theorem allCompatible_refines (refines : NestedRefines e T ts nested nested')
    {pairs : List (Ty × Ty)} (inside : ∀ p ∈ pairs, T p.1 ∧ T p.2) (warning : Bool) :
    Answers e T ts (allCompatible nested warning pairs) (allCompatible nested' warning pairs) := by
  induction pairs generalizing warning with
  | nil => exact .pure trivial
  | cons p pairs ih =>
    obtain ⟨src, dst⟩ := p
    rw [List.forall_mem_cons] at inside
    rw [allCompatible, allCompatible]
    refine .bind (refines src dst inside.1.1 inside.1.2) fun c _ => ?_
    exact .ite (fun _ => ih inside.2 _) fun _ => .pure trivial

theorem delegates_refines (involved : Involved e ts T)
    (refines : NestedRefines e T ts nested nested') (source : T src) (target : T dst) :
    Answers e T ts (delegates nested src dst) (delegates nested' src dst) := by
  refine .bind (.ofViolation fun parts answer => answer) fun s srcParts => ?_
  refine .bind (.ofViolation fun parts answer => answer) fun d dstParts => ?_
  split
  · have inside := involved.zip_funcParts source target srcParts dstParts
    exact .ite (fun _ => .pure trivial) fun _ => allCompatible_refines refines inside false
  · exact .pure trivial

theorem afterLists_refines (involved : Involved e ts T)
    (refines : NestedRefines e T ts nested nested') (source : T src) (target : T dst) :
    Answers e T ts (afterLists nested src dst) (afterLists nested' src dst) := by
  refine .ite (fun _ => ?_) fun _ => .ite (fun _ => ?_) fun _ => .pure trivial
  · exact .bind (delegates_refines involved refines source target) fun _ _ => .pure trivial
  · refine .bind (byLayers_refines involved refines source target) fun c _ => ?_
    exact .ite (fun _ => .pure trivial) fun _ => .pure trivial

theorem byShape_refines (involved : Involved e ts T)
    (refines : NestedRefines e T ts nested nested') (source : T src) (target : T dst) :
    Answers e T ts (e.byShape nested src dst) (e.byShape nested' src dst) := by
  have after := afterLists_refines involved refines source target
  unfold byShape
  refine .ite (fun _ => .pure trivial) fun _ => ?_
  refine .bind (.ofViolation fun _ _ => trivial) fun sunk _ => ?_
  cases sunk with
  | some c => exact .pure trivial
  | none =>
    refine .ite (fun _ => ?_) fun _ => .ite (fun layered => ?_) fun _ => after
    · exact .bind (tupleToTuple_refines involved refines source target) fun _ _ => .pure trivial
    refine .ite (fun _ => ?_) fun _ => ?_
    · exact .bind (tupleToList_refines involved refines source target layered) fun _ _ => .pure trivial
    · refine .bind (byLayers_refines involved refines source target) fun c _ => ?_
      exact .ite (fun _ => .pure trivial) fun _ => after

theorem viaConversions_refines (source : T src) (target : T dst) :
    Answers e T ts (viaConversions src dst) (viaConversions src dst) :=
  .bind (.of_meets (reach_meets source target)) fun _ _ =>
    .bind (.of_meets .tables) fun _ _ => .pure trivial

/-! ### Supertypes -/

theorem directSupertypes_refines (uncut : e.Uncut ts T) (within : e.maxDepth ≤ more) {t : Ty}
    (asked : T t) :
    Refines (ReachedAt e T ts) (SupertypesFor e ts T t) (e.directSupertypes t)
      ((e.withDepth more).directSupertypes t) := by
  intro s found s' at_ done
  obtain ⟨kept, answers⟩ := directSupertypes_meets asked s at_
  rw [done] at kept answers
  refine ⟨?_, kept, answers found rfl⟩
  rw [directSupertypes_run] at done ⊢
  cases cached : s.current.supers.lookup t.key with
  | some known =>
    rw [cached] at done
    exact done
  | none =>
    rw [cached] at done
    have agrees : ts.Agrees s.current.tables := by
      rw [s.current_tables]
      exact at_.agrees
    cases looked : e.lookupSupertypes s.current.tables t with
    | error fault =>
      rw [looked] at done
      cases (Prod.mk.inj done).1
    | ok supers =>
      have greater := lookupSupertypes_more uncut within asked
        ((agrees.lookupSupertypes e t).trans looked)
      rw [agrees.lookupSupertypes] at greater
      rw [looked] at done
      dsimp only at done ⊢
      rw [greater]
      exact done

variable {compare compare' : Nested}

/-- The types that are still to be looked at. -/
def Inside (T : Ty → Prop) : Except Compatibility Climb → Prop
  | .error _ => True
  | .ok climb => ∀ t ∈ climb.next, T t

theorem climbTo_refines (refines : NestedRefines e T ts compare compare') (target : T dst)
    {supers : List Supertype} (inside : ∀ s ∈ supers, T s.type) {climb : Climb}
    (next : ∀ t ∈ climb.next, T t) :
    Refines (ReachedAt e T ts) (Inside T) (climbTo compare dst supers climb)
      (climbTo compare' dst supers climb) := by
  induction supers generalizing climb with
  | nil => exact .pure next
  | cons s supers ih =>
    rw [List.forall_mem_cons] at inside
    rw [climbTo, climbTo]
    refine .ite (fun _ => ih inside.2 next) fun _ => ?_
    refine .bind (refines s.type dst inside.1 target) fun c _ => ?_
    refine .ite (fun _ => .pure trivial) fun _ => ih inside.2 ?_
    exact List.forall_mem_append.mpr ⟨next, List.forall_mem_singleton.mpr inside.1⟩

theorem climbFrom_refines (uncut : e.Uncut ts T) (within : e.maxDepth ≤ more)
    (ascending : Ascending e ts T) (refines : NestedRefines e T ts compare compare') (target : T dst)
    {level : List Ty} (inside : ∀ t ∈ level, T t) {climb : Climb} (next : ∀ t ∈ climb.next, T t) :
    Refines (ReachedAt e T ts) (Inside T) (e.climbFrom compare dst level climb)
      ((e.withDepth more).climbFrom compare' dst level climb) := by
  induction level generalizing climb with
  | nil => exact .pure next
  | cons t level ih =>
    rw [List.forall_mem_cons] at inside
    rw [climbFrom, climbFrom]
    refine .bind (directSupertypes_refines uncut within inside.1) fun found supertypes => ?_
    have upward : ∀ s ∈ found, T s.type := fun s member =>
      Above.closed ascending ⟨found, supertypes, s, member, rfl⟩
    refine .bind (climbTo_refines refines target upward next) fun outcome post => ?_
    cases outcome with
    | error c => exact .pure trivial
    | ok climb' => exact ih inside.2 post

theorem compareAt_refines (involved : Involved e ts T) {budget budget' : Nat}
    (refines : NestedRefines e T ts (e.compatibleAt budget) ((e.withDepth more).compatibleAt budget')) :
    NestedRefines e T ts (e.compareAt budget) ((e.withDepth more).compareAt budget') := by
  intro src dst source target
  have source := involved.unwrap src source
  have target := involved.unwrap dst target
  refine .bind (byShape_refines involved refines source target) fun answer _ => ?_
  cases answer with
  | some c => exact .pure trivial
  | none => exact viaConversions_refines source target

theorem climbAt_refines (uncut : e.Uncut ts T) (within : e.maxDepth ≤ more)
    (ascending : Ascending e ts T) (target : T dst) {spare budget : Nat}
    (refines : ∀ b < budget,
      NestedRefines e T ts (e.compareAt b) ((e.withDepth more).compareAt (spare + b)))
    {level : List Ty} (inside : ∀ t ∈ level, T t) (seen : List String) :
    Answers e T ts (e.climbAt budget dst level seen)
      ((e.withDepth more).climbAt (spare + budget) dst level seen) := by
  induction budget generalizing level seen with
  | zero =>
    rw [climbAt]
    exact .throw _
  | succ budget ih =>
    rw [← Nat.add_assoc, climbAt, climbAt]
    change Answers e T ts (e.climbFrom (e.compareAt budget) dst level { seen, next := [] } >>= _)
      ((e.withDepth more).climbFrom ((e.withDepth more).compareAt (spare + budget)) dst level
        { seen, next := [] } >>= _)
    refine .bind (climbFrom_refines uncut within ascending (refines budget (Nat.lt_succ_self _)) target
      inside (by simp)) fun outcome post => ?_
    cases outcome with
    | error c => exact .pure trivial
    | ok climb =>
      refine .ite (fun _ => .pure trivial) fun _ => ?_
      exact ih (fun b less => refines b (Nat.lt_succ_of_lt less)) post climb.seen

theorem compatibleAt_refines (uncut : e.Uncut ts T) (within : e.maxDepth ≤ more)
    (involved : Involved e ts T) (spare budget : Nat) :
    NestedRefines e T ts (e.compatibleAt budget) ((e.withDepth more).compatibleAt (spare + budget)) := by
  induction budget using Nat.strongRecOn with
  | ind budget ih =>
    intro src dst source target
    have source := involved.unwrap src source
    have target := involved.unwrap dst target
    cases budget with
    | zero =>
      rw [compatibleAt]
      exact .throw _
    | succ budget =>
      rw [← Nat.add_assoc, compatibleAt, compatibleAt]
      refine .bind (byShape_refines involved (ih budget (Nat.lt_succ_self _)) source target)
        fun answer _ => ?_
      cases answer with
      | some c => exact .pure trivial
      | none =>
        have upward : ∀ t ∈ [src.unwrap], T t := List.forall_mem_singleton.mpr source
        refine .bind (climbAt_refines uncut within involved.toAscending target
          (fun b less => compareAt_refines involved (ih b (Nat.lt_succ_of_lt less))) upward _)
          fun c _ => ?_
        exact .ite (fun _ => .pure trivial) fun _ => viaConversions_refines source target

/-- A comparison that answers gives the same answer under any greater limit, unless the limit cuts
off a translation. -/
theorem compatible_more {s : Session} {c : Compatibility} (reached : Reached e T s)
    (involved : Involved e s.tables T) (uncut : e.Uncut s.tables T) (within : e.maxDepth ≤ more)
    (source : T src) (target : T dst) (answer : ((e.compatible src dst).run s).1 = .ok c) :
    (((e.withDepth more).compatible src dst).run s).1 = .ok c := by
  obtain ⟨spare, rfl⟩ := Nat.exists_eq_add_of_le' within
  have refines := compatibleAt_refines uncut within involved spare (e.maxDepth + 1) src dst source target
  have done : (e.compatible src dst).run s = (.ok c, ((e.compatible src dst).run s).2) := by
    rw [← answer]
  have same := (refines s c _ ⟨reached, .refl _⟩ done).1
  exact congrArg Prod.fst same

end Engine

/-! ### A class with a nested base -/

def boxRef : Nat → Host.Ref
  | 0 => .ofPath "Leaf"
  | n + 1 => .ofPath "Box" [boxRef n]

def boxType : Nat → Ty
  | 0 => .classNamed "Leaf"
  | n + 1 => .named ⟨[{ kind := .classType, name := "Box" }]⟩ [boxType n]

/-- The catalog knows a class `Node` with a base of so many boxes around a leaf. -/
def nodeEngine (boxes maxDepth : Nat) : Engine :=
  { catalog :=
      { types := [{ name := "Leaf" }, { name := "Box", typeParams := ["T"] },
          { name := "Node", base? := some (boxRef boxes) }] }
    maxDepth }

/-- The class and its base. -/
def nodeTypes (t : Ty) : Prop := t = .classNamed "Node" ∨ t = boxType 1

theorem nodeTypes_involved : Involved (nodeEngine 1 1) {} nodeTypes where
  unwrap := by
    rintro t (rfl | rfl)
    · exact .inl rfl
    · exact .inr rfl
  supertypes := by
    rintro t found (rfl | rfl) answer
    · have known : (nodeEngine 1 1).lookupSupertypes {} (.classNamed "Node") =
          .ok [⟨boxType 1, false⟩] := rfl
      obtain rfl := Except.ok.inj (known.symm.trans answer)
      exact List.forall_mem_singleton.mpr (.inr rfl)
    · have known : (nodeEngine 1 1).lookupSupertypes {} (boxType 1) = .ok [] := rfl
      obtain rfl := Except.ok.inj (known.symm.trans answer)
      nofun
  edges := by
    have none : ∀ t, nodeTypes t → ({} : Tables).conversionEdges t = [] := by
      rintro t (rfl | rfl) <;> rfl
    intro t asked edge member
    rw [none t asked] at member
    cases member
  components := by
    rintro t parts (rfl | rfl) answer <;> obtain rfl := Except.ok.inj answer <;> nofun
  funcParts := by
    rintro t ret params (rfl | rfl) answer <;> cases answer
  peelOne := by
    rintro t elem (rfl | rfl) answer <;> cases answer
  peelList := by
    rintro t depth leaf (rfl | rfl) answer
    · obtain ⟨_, rfl⟩ := Prod.mk.inj (Except.ok.inj answer)
      exact .inl rfl
    · obtain ⟨_, rfl⟩ := Prod.mk.inj (Except.ok.inj answer)
      exact .inr rfl

theorem nodeTypes_uncut : (nodeEngine 1 1).Uncut {} nodeTypes where
  positive := by decide
  references := by decide
  types := by
    rintro t (rfl | rfl) _ <;> exact .inl (by decide)

theorem compatible_more_upcast : ∃ c,
    (((nodeEngine 1 1).compatible (.classNamed "Node") (boxType 1)).run {}).1 = .ok c ∧ c.ok = true ∧
    ((((nodeEngine 1 1).withDepth 64).compatible (.classNamed "Node") (boxType 1)).run {}).1 = .ok c := by
  have answer : (((nodeEngine 1 1).compatible (.classNamed "Node") (boxType 1)).run {}).1 =
      .ok (.adapted [.upcast (boxType 1)]) := rfl
  exact ⟨_, answer, rfl, Engine.compatible_more .fresh nodeTypes_involved nodeTypes_uncut (by decide)
    (.inl rfl) (.inr rfl) answer⟩

/-- A base that is nested deeper than the limit is passed over in silence. -/
theorem compatible_cut :
    (((nodeEngine 3 2).compatible (.classNamed "Node") (boxType 3)).run {}).1.toOption.map
      Compatibility.ok = some false ∧
    ((((nodeEngine 3 2).withDepth 3).compatible (.classNamed "Node") (boxType 3)).run {}).1.toOption.map
      Compatibility.ok = some true := by
  decide +kernel

end TypeEngine
