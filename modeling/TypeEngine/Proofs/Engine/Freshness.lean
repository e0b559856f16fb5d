import TypeEngine.Engine.Call
import TypeEngine.Engine.Member
import TypeEngine.Proofs.Engine.Fit

/-!
# No memoised answer is stale

The queries of the engine as data, each made of the two kinds that touch the session. Whatever
registrations and queries came before, refused and failed ones among them, `Session.memo_fresh`
says that what is memoised is what the tables give now.
-/

namespace TypeEngine

open Engine Query

/-- Everything that the engine can be asked. -/
inductive Inquiry where
  | reach (src dst : Ty)
  | compatible (src dst : Ty)
  | property (owner : Ty) (name : String)
  | constant (owner : Ty) (name : String)
  | enumMember (enum : Ty) (name : String)
  | score (params : List Parameter) (args : List Ty)
  | call (owner : Ty) (name : String) (args : List Ty)
  | declaredFunction (owner : Ty) (name : String) (args : List Ty)
  | builtinMethod (receiver : Ty) (name : String) (args : List Ty)
  | hostMethod (owner : Ty) (name : String) (args : List Ty)
  | declaredConstructor (t : Ty) (args : List Ty)
  | hostConstructor (owner : Ty) (args : List Ty)
  | indexer (owner : Ty) (args : List Ty)
  | unaryOperator (op : String) (operand : Ty)
  | binaryOperator (op : String) (left right : Ty)

/-- The session after a query, be it answered or not. -/
def Inquiry.ask (e : Engine) (s : Session) : Inquiry → Session
  | reach src dst => ((Engine.reach src dst).run s).2
  | compatible src dst => ((e.compatible src dst).run s).2
  | property owner name => ((e.property owner name).run s).2
  | constant owner name => ((e.constant owner name).run s).2
  | enumMember enum name => ((e.enumMember enum name).run s).2
  | score params args => ((e.score params args).run s).2
  | call owner name args => ((e.call owner name args).run s).2
  | declaredFunction owner name args => ((e.declaredFunction owner name args).run s).2
  | builtinMethod receiver name args => ((e.builtinMethod receiver name args).run s).2
  | hostMethod owner name args => ((e.hostMethod owner name args).run s).2
  | declaredConstructor t args => ((e.declaredConstructor t args).run s).2
  | hostConstructor owner args => ((e.hostConstructor owner args).run s).2
  | indexer owner args => ((e.indexer owner args).run s).2
  | unaryOperator op operand => ((e.unaryOperator op operand).run s).2
  | binaryOperator op left right => ((e.binaryOperator op left right).run s).2

/-- What can happen to a session. -/
inductive Event where
  | register (r : Registration)
  | ask (q : Inquiry)

def Event.apply (e : Engine) (s : Session) : Event → Session
  | register r => { s with tables := s.tables.register r }
  | ask q => q.ask e s

/-! ### What queries keep -/

/-- The query keeps a property of sessions, also when it fails. -/
abbrev Query.Keeps {α : Type} (P : Session → Prop) (q : Query α) : Prop := q.Meets P fun _ => True

/-- A property that the two queries that touch the session keep, and with them comparisons. -/
structure Engine.Stable (e : Engine) (P : Session → Prop) : Prop where
  reach : ∀ src dst, (reach src dst).Keeps P
  directSupertypes : ∀ t, (e.directSupertypes t).Keeps P
  compatible : ∀ src dst, (e.compatible src dst).Keeps P

namespace Engine.Stable

variable {e : Engine} {P : Session → Prop}

theorem tables : Query.tables.Keeps P := fun _ holds => ⟨holds, fun _ _ => trivial⟩

theorem ofFault {α : Type} (x : Except Fault α) : (Query.ofFault x).Keeps P := .ofFault fun _ _ => trivial

theorem ofViolation {α : Type} (x : Except Violation α) : (Query.ofViolation x).Keeps P :=
  .ofViolation fun _ _ => trivial

theorem pure {α : Type} (a : α) : Query.Keeps P (Pure.pure a) := .pure trivial

/-! ### Members -/

theorem findBase (stable : e.Stable P) (p : Ty → Bool) (t : Ty) : (e.findBase p t).Keeps P := by
  unfold Engine.findBase
  generalize e.maxDepth + 1 = fuel
  generalize [t.main.key] = seen
  induction fuel generalizing seen t with
  | zero => exact .throw _
  | succ fuel ih =>
    rw [findBaseFrom]
    refine .bind (stable.directSupertypes t) fun found _ => ?_
    split
    · exact pure _
    · exact .ite (fun _ => pure _) fun _ => .ite (fun _ => pure _) fun _ => ih _ _

theorem lookupMember (stable : e.Stable P) (owner : Ty) (name : String) (table : MemberTable) :
    (e.lookupMember owner name table).Keeps P := by
  refine .bind tables fun ts _ => ?_
  dsimp only
  split
  · exact .ite (fun _ => .bind (ofFault _) fun _ _ => pure _) fun _ => pure _
  · refine .bind (stable.findBase _ owner) fun base _ => ?_
    cases base with
    | some base =>
      dsimp only
      split
      · exact .bind (ofFault _) fun _ _ => pure _
      · exact pure _
    | none =>
      dsimp only
      split
      · exact pure _
      · exact ofViolation _

theorem property (stable : e.Stable P) (owner : Ty) (name : String) :
    (e.property owner name).Keeps P :=
  .bind tables fun _ _ => stable.lookupMember _ _ _

theorem constant (stable : e.Stable P) (owner : Ty) (name : String) :
    (e.constant owner name).Keeps P :=
  .bind tables fun _ _ => stable.lookupMember _ _ _

theorem enumMember (enum : Ty) (name : String) : (e.enumMember enum name).Keeps P := by
  refine .bind tables fun ts _ => ?_
  dsimp only
  split
  · exact pure _
  · refine .bind (ofViolation _) fun info _ => ?_
    cases info with
    | none => exact pure _
    | some info => exact .ite (fun _ => pure _) fun _ => pure _

/-! ### Overloads -/

theorem leading (stable : e.Stable P) (pairs : List (Ty × Ty)) : (e.leading pairs).Keeps P := by
  induction pairs with
  | nil => exact pure _
  | cons pair pairs ih =>
    obtain ⟨param, arg⟩ := pair
    have accepts : (e.accepts param arg).Keeps P :=
      .ite (fun _ => pure _) fun _ => .bind (stable.compatible arg param) fun _ _ => pure _
    rw [Engine.leading]
    refine .bind accepts fun _ _ => .ite (fun _ => ?_) fun _ => pure _
    exact .bind ih fun _ _ => pure _

theorem score (stable : e.Stable P) (params : List Parameter) (args : List Ty) :
    (e.score params args).Keeps P := by
  refine .ite (fun _ => pure _) fun _ => .ite (fun _ => pure _) fun _ => ?_
  exact .bind (stable.leading _) fun _ _ => pure _

theorem resolve (stable : e.Stable P) (args : List Ty) (c : Candidate) :
    (e.resolve args c).Keeps P :=
  .bind (ofFault _) fun _ _ => .bind (ofFault _) fun _ _ => .bind (stable.score _ _) fun _ _ => pure _

theorem rank (stable : e.Stable P) (cands : List Candidate) (args : List Ty) :
    (e.rank cands args).Keeps P := by
  unfold Engine.rank
  generalize ([] : List Resolved) = best
  induction cands generalizing best with
  | nil => exact pure _
  | cons c cands ih =>
    rw [rankFrom]
    refine .bind (stable.resolve args c) fun r _ => ?_
    cases r with
    | none => exact ih _
    | some r => exact ih _

theorem rankDeclared (stable : e.Stable P) (overloads : List Overload) (s : Subst) (origin : Origin)
    (scope : Path) (args : List Ty) : (e.rankDeclared overloads s origin scope args).Keeps P :=
  .bind (ofFault _) fun _ _ => stable.rank _ _

theorem rankHost (stable : e.Stable P) (owner : Ty) (callables : List Host.Callable)
    (constructs : Bool) (args : List Ty) : (e.rankHost owner callables constructs args).Keeps P :=
  .bind (ofViolation _) fun _ _ => .bind (ofViolation _) fun _ _ => stable.rank _ _

theorem hostMethod (stable : e.Stable P) (owner : Ty) (name : String) (args : List Ty) :
    (e.hostMethod owner name args).Keeps P := by
  refine .bind (ofViolation _) fun path _ => ?_
  cases path with
  | none => exact pure _
  | some path => exact stable.rankHost _ _ _ _

theorem hostConstructor (stable : e.Stable P) (owner : Ty) (args : List Ty) :
    (e.hostConstructor owner args).Keeps P := by
  refine .bind (ofViolation _) fun path _ => ?_
  cases path with
  | none => exact pure _
  | some path => exact stable.rankHost _ _ _ _

theorem builtinMethod (stable : e.Stable P) (receiver : Ty) (name : String) (args : List Ty) :
    (e.builtinMethod receiver name args).Keeps P :=
  .bind (ofViolation _) fun _ _ => stable.rankDeclared _ _ _ _ _

theorem declaredFunction (stable : e.Stable P) (owner : Ty) (name : String) (args : List Ty) :
    (e.declaredFunction owner name args).Keeps P := by
  refine .bind tables fun ts _ => ?_
  dsimp only
  split
  · exact stable.rankDeclared _ _ _ _ _
  · refine .bind (stable.findBase _ owner) fun base _ => ?_
    cases base with
    | none => exact pure _
    | some base => exact stable.rankDeclared _ _ _ _ _

theorem declaredConstructor (stable : e.Stable P) (t : Ty) (args : List Ty) :
    (e.declaredConstructor t args).Keeps P :=
  .bind tables fun _ _ => stable.rankDeclared _ _ _ _ _

theorem call (stable : e.Stable P) (owner : Ty) (name : String) (args : List Ty) :
    (e.call owner name args).Keeps P := by
  refine .bind (stable.declaredFunction owner name args) fun declared _ => ?_
  refine .ite (fun _ => pure _) fun _ => ?_
  refine .bind (stable.builtinMethod owner name args) fun builtin _ => ?_
  exact .ite (fun _ => pure _) fun _ => stable.hostMethod owner name args

theorem indexer (stable : e.Stable P) (owner : Ty) (args : List Ty) :
    (e.indexer owner args).Keeps P := by
  refine .bind tables fun ts _ => ?_
  refine .ite (fun _ => ?_) fun _ => ?_
  · exact stable.rankDeclared _ _ _ _ _
  · refine .bind (stable.findBase _ owner) fun base _ => ?_
    cases base with
    | some base => exact stable.rankDeclared _ _ _ _ _
    | none =>
      refine .bind (ofViolation _) fun elem _ => ?_
      cases elem with
      | some elem => exact stable.rank _ _
      | none => exact stable.hostMethod _ _ _

theorem unaryOperator (stable : e.Stable P) (op : String) (operand : Ty) :
    (e.unaryOperator op operand).Keeps P := by
  refine .bind tables fun ts _ => ?_
  refine .ite (fun _ => ?_) fun _ => ?_
  · exact stable.rankDeclared _ _ _ _ _
  · split
    · exact pure _
    · exact .ite (fun _ => pure _) fun _ => .ite (fun _ => pure _) fun _ => pure _

theorem binaryOperator (stable : e.Stable P) (op : String) (left right : Ty) :
    (e.binaryOperator op left right).Keeps P := by
  refine .bind tables fun ts _ => ?_
  refine .bind (stable.rankDeclared _ _ _ _ _) fun ofLeft _ => .ite (fun _ => pure _) fun _ => ?_
  refine .bind (stable.rankDeclared _ _ _ _ _) fun ofRight _ => .ite (fun _ => pure _) fun _ => ?_
  split
  · exact pure _
  · exact pure _

theorem ask (stable : e.Stable P) (q : Inquiry) {s : Session} (holds : P s) : P (q.ask e s) := by
  cases q with
  | reach src dst => exact (stable.reach src dst s holds).1
  | compatible src dst => exact (stable.compatible src dst s holds).1
  | property owner name => exact (stable.property owner name s holds).1
  | constant owner name => exact (stable.constant owner name s holds).1
  | enumMember enum name => exact (enumMember enum name s holds).1
  | score params args => exact (stable.score params args s holds).1
  | call owner name args => exact (stable.call owner name args s holds).1
  | declaredFunction owner name args => exact (stable.declaredFunction owner name args s holds).1
  | builtinMethod receiver name args => exact (stable.builtinMethod receiver name args s holds).1
  | hostMethod owner name args => exact (stable.hostMethod owner name args s holds).1
  | declaredConstructor t args => exact (stable.declaredConstructor t args s holds).1
  | hostConstructor owner args => exact (stable.hostConstructor owner args s holds).1
  | indexer owner args => exact (stable.indexer owner args s holds).1
  | unaryOperator op operand => exact (stable.unaryOperator op operand s holds).1
  | binaryOperator op left right => exact (stable.binaryOperator op left right s holds).1

end Engine.Stable

/-! ### Sessions along a history -/

variable {e : Engine}

theorem Involved.all (e : Engine) (ts : Tables) : Involved e ts fun _ => True where
  unwrap _ _ := trivial
  supertypes _ _ _ _ _ _ := trivial
  edges _ _ _ _ := trivial
  components _ _ _ _ _ _ := trivial
  funcParts _ _ _ _ _ := ⟨trivial, fun _ _ => trivial⟩
  peelOne _ _ _ _ := trivial
  peelList _ _ _ _ _ := trivial

theorem Reached.stable (e : Engine) : e.Stable (Reached e fun _ => True) where
  reach _ _ _ reached := ⟨reached.reach trivial trivial, fun _ _ => trivial⟩
  directSupertypes _ _ reached := ⟨reached.directSupertypes trivial, fun _ _ => trivial⟩
  compatible src dst s reached := by
    have fits : (e.compatible src dst).Meets (ReachedAt e (fun _ => True) s.tables) _ :=
      compatible_fits (.all e s.tables) trivial trivial
    exact ⟨(fits s ⟨reached, .refl _⟩).1.reached, fun _ _ => trivial⟩

theorem Reached.event {s : Session} (reached : Reached e (fun _ => True) s) (event : Event) :
    Reached e (fun _ => True) (event.apply e s) := by
  cases event with
  | register r => exact reached.register r fun _ _ _ => trivial
  | ask q => exact (Reached.stable e).ask q reached

theorem Reached.events (events : List Event) {s : Session} (reached : Reached e (fun _ => True) s) :
    Reached e (fun _ => True) (events.foldl (Event.apply e) s) := by
  induction events generalizing s with
  | nil => exact reached
  | cons event events ih => exact ih (reached.event event)

/-- The session after a history that starts with empty tables. -/
def Session.after (e : Engine) (events : List Event) : Session := events.foldl (Event.apply e) {}

/-- Every memoised way is the one that the conversions give now. So are the memoised supertypes,
unless they are for another revision and will be dropped. -/
theorem Session.memo_fresh (e : Engine) (events : List Event) :
    (∀ entry ∈ (after e events).tables.closure,
      ∃ src dst, entry = ((src.key, dst.key), (after e events).tables.closure? src dst)) ∧
    ((after e events).supersRevision = some (after e events).tables.revision →
      ∀ entry ∈ (after e events).supers,
        ∃ t, entry.1 = t.key ∧ e.lookupSupertypes (after e events).tables t = .ok entry.2) := by
  have memo : Memoised e (fun _ => True) (after e events) := (Reached.fresh.events events).memoised
  refine ⟨?_, ?_⟩
  · intro entry member
    obtain ⟨src, dst, _, _, key, answer⟩ := memo.closure entry member
    exact ⟨src, dst, Prod.ext key answer⟩
  · intro current entry member
    obtain ⟨t, _, key, answer⟩ := memo.supers current entry member
    exact ⟨t, key, answer⟩

/-- `A` gets its base, the way from `B` to `C` is asked for, a conversion is added, `A` is declared
again in vain, and a comparison fills both memos anew. -/
def busyHistory : List Event :=
  [.register (.declareType { path := (Ty.classNamed "A").main, base? := some (.classNamed "B") }),
    .ask (.reach (.classNamed "B") (.classNamed "C")),
    .register (.addConversion (.classNamed "B") (.classNamed "C") true),
    .register (.declareType { path := (Ty.classNamed "A").main }),
    .ask (.compatible (.classNamed "A") (.classNamed "C"))]

theorem memo_fresh_busy :
    (Session.after {} busyHistory).tables.closure.length = 1 ∧
    (Session.after {} busyHistory).supersRevision =
      some (Session.after {} busyHistory).tables.revision ∧
    (Session.after {} busyHistory).supers ≠ [] ∧
    (∀ entry ∈ (Session.after {} busyHistory).tables.closure, ∃ src dst, entry =
      ((src.key, dst.key), (Session.after {} busyHistory).tables.closure? src dst)) ∧
    ∀ entry ∈ (Session.after {} busyHistory).supers, ∃ t, entry.1 = t.key ∧
      Engine.lookupSupertypes {} (Session.after {} busyHistory).tables t = .ok entry.2 := by
  obtain ⟨ways, supers⟩ := Session.memo_fresh {} busyHistory
  exact ⟨rfl, rfl, nofun, ways, supers rfl⟩

end TypeEngine
