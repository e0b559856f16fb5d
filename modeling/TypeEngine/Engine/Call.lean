import TypeEngine.Engine.Promotion
import TypeEngine.Engine.Ranking

/-!
Resolution of calls, constructors, indexers and operators. Declared overloads come first, then
built-in ones, then those of the host catalog.
-/

namespace TypeEngine.Engine

open Host

/-- Substitutes in overloads that belong to one scope. -/
def candidates (e : Engine) (overloads : List Overload) (s : Subst) (origin : Origin)
    (scope : Path) : Except Fault (List Candidate) :=
  overloads.mapM fun o => do return { overload := ← o.apply s e.maxDepth, origin, scope }

def rankDeclared (e : Engine) (overloads : List Overload) (s : Subst) (origin : Origin)
    (scope : Path) (args : List Ty) : Query (List Resolved) := do
  e.rank (← Query.ofFault (e.candidates overloads s origin scope)) args

/-- The bindings of a declared type's parameters to the arguments of `t`. -/
def ownSubst (ts : Tables) (t : Ty) : Subst := ((ts.type? t.main).map (declSubst · t)).getD .empty

/-- The candidates that host callables give. Those that are deprecated as errors or use types that
are unknown here are left out; a constructor returns its owner. -/
def hostCandidates (e : Engine) (owner : Ty) (s : Subst) (constructs : Bool) :
    List Callable → Except Violation (List Candidate)
  | [] => .ok []
  | c :: cs => do
    if c.deprecated = .error then hostCandidates e owner s constructs cs
    else
      let overload? ← e.hostOverload c s
      let more ← hostCandidates e owner s constructs cs
      return (overload?.map fun o =>
        { overload := if constructs then { o with ret := owner } else o
          origin := .native
          scope := owner.main
          native? := some c }).toList ++ more

def rankHost (e : Engine) (owner : Ty) (callables : List Callable) (constructs : Bool)
    (args : List Ty) : Query (List Resolved) := do
  let info ← Query.ofViolation (e.hostInfo owner)
  let s := (info.map fun i => owner.bindParams i.typeParams).getD .empty
  e.rank (← Query.ofViolation (e.hostCandidates owner s constructs callables)) args

def hostMethod (e : Engine) (owner : Ty) (name : String) (args : List Ty) :
    Query (List Resolved) := do
  match ← Query.ofViolation (e.hostPath owner) with
  | none => return []
  | some path => e.rankHost owner (e.catalog.methods path name) false args

def hostConstructor (e : Engine) (owner : Ty) (args : List Ty) : Query (List Resolved) := do
  match ← Query.ofViolation (e.hostPath owner) with
  | none => return []
  | some path => e.rankHost owner (e.catalog.constructors path) true args

/-- A built-in method of the receiver, or one that every object has. -/
def builtinMethod (e : Engine) (receiver : Ty) (name : String) (args : List Ty) :
    Query (List Resolved) := do
  let own := Builtin.methodsOf receiver name
  let overloads := if own.isEmpty then Builtin.objectMethods name else own
  let s ← Query.ofViolation (Builtin.shapeArgs receiver)
  e.rankDeclared overloads (s.getD .empty) .builtin receiver.main args

/-- A declared function visible from `owner`: of its scope, an enclosing scope or a base. The
first scope that declares the name supplies all overloads. -/
def declaredFunction (e : Engine) (owner : Ty) (name : String) (args : List Ty) :
    Query (List Resolved) := do
  let ts ← Query.tables
  match owner.main.outward.find? fun s => !(ts.functions? s name).isEmpty with
  | some scope =>
    let s := if scope == owner.main then ownSubst ts owner else .empty
    e.rankDeclared (ts.functions? scope name) s .user scope args
  | none =>
    match ← e.findBase (fun b => !(ts.functions? b.main name).isEmpty) owner with
    | none => return []
    | some base =>
      e.rankDeclared (ts.functions? base.main name) (ownSubst ts base) .base base.main args

/-- A declared constructor of `t`. Constructors are not inherited. -/
def declaredConstructor (e : Engine) (t : Ty) (args : List Ty) : Query (List Resolved) := do
  let ts ← Query.tables
  let overloads := (ts.constructors? t.main).map fun o => if o.ret.isZero then { o with ret := t } else o
  e.rankDeclared overloads (ownSubst ts t) .user t.main args

/-- A call of `owner.name`: the first kind of method that has a match. -/
def call (e : Engine) (owner : Ty) (name : String) (args : List Ty) : Query (List Resolved) := do
  let declared ← e.declaredFunction owner name args
  if !declared.isEmpty then return declared
  let builtin ← e.builtinMethod owner name args
  if !builtin.isEmpty then return builtin
  e.hostMethod owner name args

def builtinElement (t : Ty) : Except Violation (Option Ty) :=
  if t == .string then .ok (some .char)
  else if t.isList || t.isCollection || t.isSpan then t.peelOne
  else .ok none

/-- Indexing of `owner`: declared indexers of it or a base, built-in element access, or the host
method `Item`. -/
def indexer (e : Engine) (owner : Ty) (args : List Ty) : Query (List Resolved) := do
  let ts ← Query.tables
  let own := ts.indexers? owner.main
  if !own.isEmpty then return ← e.rankDeclared own (ownSubst ts owner) .user owner.main args
  match ← e.findBase (fun b => !(ts.indexers? b.main).isEmpty) owner with
  | some base => e.rankDeclared (ts.indexers? base.main) (ownSubst ts base) .base base.main args
  | none =>
    match ← Query.ofViolation (builtinElement owner) with
    | some elem =>
      let overload : Overload := { ret := elem, params := [{ type := .int, name := "index" }] }
      e.rank [{ overload, origin := .builtin, scope := owner.main }] args
    | none => e.hostMethod owner "Item" args

/-- A primitive operator. Operands are adapted by promotion and not scored. -/
def primitiveOperator (ret : Ty) (params : List Ty) (scope : Path) : List Resolved :=
  [{ overload :=
      { ret, attributes := ⟨[.static]⟩, params := params.map fun type => { type } }
     score := params.length
     complete := true
     origin := .builtin
     scope }]

/-- An operator on one operand: declared ones, or the primitive operators. -/
def unaryOperator (e : Engine) (op : String) (operand : Ty) : Query (List Resolved) := do
  let ts ← Query.tables
  let declared := ts.unaryOperators? operand op
  if !declared.isEmpty then
    return ← e.rankDeclared declared .empty .user operand.main [operand]
  match Builtin.primitiveOf? operand with
  | none => return []
  | some info =>
    if op = "!" && operand == .bool then return primitiveOperator .bool [.bool] operand.main
    else if (["+", "-", "++", "--"].contains op && info.numeric) || (op = "~" && info.integer) then
      return primitiveOperator operand [operand] operand.main
    else return []

/-- The operand and result types of a primitive operator on two operands. -/
def primitiveBinary? (op : String) (left right : Ty) : Option (Ty × Ty × Ty) :=
  if ["&&", "||"].contains op then
    if left == .bool && right == .bool then some (.bool, .bool, .bool) else none
  else if ["==", "!=", "<", ">", "<=", ">="].contains op then
    if left == right && ["==", "!="].contains op then some (.bool, left, right)
    else (Promotion.result? left right).map fun r => (.bool, r, r)
  else if ["+", "-", "*", "/", "%", "pow"].contains op then
    (Promotion.result? left right).map fun r => (r, r, r)
  else if ["&", "|", "^", ">>", "<<"].contains op then
    (Promotion.result? left right).bind fun r =>
      if (Builtin.primitiveOf? r).any Primitive.integer || r == .bool then some (r, r, r) else none
  else none

/-- An operator on two operands: declared by the type of the left or the right one, or the
primitive operators through promotion. -/
def binaryOperator (e : Engine) (op : String) (left right : Ty) : Query (List Resolved) := do
  let ts ← Query.tables
  let args := [left, right]
  let ofLeft ← e.rankDeclared (ts.binaryOperators? left op) .empty .user left.main args
  if !ofLeft.isEmpty then return ofLeft
  let ofRight ← e.rankDeclared (ts.binaryOperators? right op) .empty .user right.main args
  if !ofRight.isEmpty then return ofRight
  match primitiveBinary? op left right with
  | some (ret, l, r) => return primitiveOperator ret [l, r] .empty
  | none => return []

end TypeEngine.Engine
