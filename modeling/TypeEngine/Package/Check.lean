import TypeEngine.Package.Evaluate
import TypeEngine.Package.Resolve

/-!
The rules that the declarations of a program keep.
-/

namespace TypeEngine.Package

/-! ### Names -/

def keywords : List String :=
  ["break", "case", "chan", "const", "continue", "default", "defer", "else", "fallthrough", "for",
    "func", "go", "goto", "if", "import", "interface", "map", "package", "range", "return", "select",
    "struct", "switch", "type", "var"]

def isIdentifier (name : String) : Bool :=
  match name.toList with
  | [] => false
  | c :: cs =>
    ConstToken.isLetter c && cs.all (fun x => ConstToken.isLetter x || x.isDigit) &&
      !keywords.contains name

/-- No name stands twice, blank ones apart. -/
def isDistinct : List String → Bool
  | [] => true
  | n :: ns => (n = "_" || !ns.contains n) && isDistinct ns

namespace TypeExpr

mutual

def names : TypeExpr → List String
  | name text => [text]
  | inst text args => text :: namesAll args
  | pointer e => names e
  | slice e => names e
  | array _ e => names e
  | map k v => names k ++ names v
  | chan e => names e
  | struct _ ts => namesAll ts
  | func _ ps rs _ => namesAll ps ++ namesAll rs

def namesAll : List TypeExpr → List String
  | [] => []
  | t :: ts => names t ++ namesAll ts

end

mutual

/-- Embedded fields are types that have a name, and parameters are named together or not at all. -/
def isWritten : TypeExpr → Bool
  | name _ => true
  | inst _ args => areWritten args
  | pointer e => isWritten e
  | slice e => isWritten e
  | array _ e => isWritten e
  | map k v => isWritten k && isWritten v
  | chan e => isWritten e
  | struct labels ts =>
    (labels.zip ts).all (fun (l, t) => !l.embedded || t.embeddedName?.isSome) && areWritten ts
  | func ns ps rs _ =>
    areNamedTogether ns && isDistinct (ns.filter (· ≠ "")) && areWritten ps && areWritten rs

def areWritten : List TypeExpr → Bool
  | [] => true
  | t :: ts => isWritten t && areWritten ts

def areNamedTogether (ns : List String) : Bool := ns.all (· = "") || ns.all isIdentifier

end

end TypeExpr

namespace SignatureExpr

def types (s : SignatureExpr) : List TypeExpr := s.params ++ s.results

/-- The names of parameters differ from each other and from those of type parameters. -/
def isWritten (typeParams : List String) (s : SignatureExpr) : Bool :=
  TypeExpr.isWritten (.func s.names s.params s.results s.variadic) &&
    isDistinct (typeParams ++ s.names.filter (· ≠ ""))

end SignatureExpr

namespace Source

def typeExprs (s : Source) : List TypeExpr :=
  s.decls.flatMap fun
    | .type d => d.params.map ParamExpr.constraint ++ match d.body with
      | .defined t | .synonym t => [t]
      | .interface embeds methods => embeds ++ methods.flatMap fun (_, sig) => sig.types
    | .func d => d.params.map ParamExpr.constraint ++ d.signature.types
    | .method d => d.signature.types
    | .const d => d.type?.toList
    | .var d => [d.type]

def constNames (s : Source) : List String :=
  s.consts.flatMap fun c => ((ConstExpr.parse? c.value).map ConstExpr.names).getD []

def usedPackages (s : Source) : List String :=
  (TypeExpr.namesAll s.typeExprs ++ s.constNames).filterMap fun text =>
    match (Text.segments text).map fun part => String.ofList (Text.trim part.toList) with
    | [package, _] => some package
    | _ => none

def signatures (s : Source) : List (List String × SignatureExpr) :=
  s.decls.flatMap fun
    | .type d => match d.body with
      | .interface _ methods => methods.map fun (_, sig) => ([], sig)
      | _ => []
    | .func d => [(d.params.map ParamExpr.name, d.signature)]
    | .method d => [(d.params, d.signature)]
    | _ => []

/-- Functions that run by themselves take and give nothing. -/
def isEntry (s : Source) (d : FuncDecl) : Bool := d.name = "init" || (d.name = "main" && s.name = "main")

def isPlain (d : FuncDecl) : Bool :=
  d.params.isEmpty && d.signature.params.isEmpty && d.signature.results.isEmpty

/-- The package is written by the rules that need no other package. -/
def isWritten (s : Source) : Bool :=
  isIdentifier s.name && s.name ≠ "_" &&
    isDistinct s.declared && s.declared.all isIdentifier && !s.declared.contains "init" &&
    s.funcs.all (fun d => !s.isEntry d || isPlain d) &&
    s.types.all (fun d =>
      let names := d.params.map ParamExpr.name
      isDistinct names && names.all isIdentifier) &&
    s.methods.all (fun d => isIdentifier d.name && isDistinct d.params) &&
    s.typeExprs.all TypeExpr.isWritten && s.signatures.all fun (typeParams, sig) => sig.isWritten typeParams

end Source

namespace Known

/-- Imported packages have different names, none of which the package declares, and are used. -/
def importsAreUsed (k : Known) (s : Source) : Bool :=
  let names := (k.imported s).map Source.name
  isDistinct names && names.all fun n => !s.declared.contains n && s.usedPackages.contains n

end Known

namespace Program

/-! ### Types that hold themselves -/

mutual

/-- The declared types of which a value of the type holds a value. -/
def held : Shape → List Shape
  | .named package name args => [.named package name args]
  | .array _ e => held e
  | .struct _ _ ts => heldByAll ts
  | .synonym t => held t
  | _ => []

def heldByAll : List Shape → List Shape
  | [] => []
  | t :: ts => held t ++ heldByAll ts

end

def heldByNamed (p : Program) : Shape → List Shape
  | .named package name args =>
    match p.type? ⟨package, name⟩ with
    | none => []
    | some d =>
      match d.body.subst (d.binding args) with
      | .shape s => held s
      | .interface _ _ embeds => heldByAll embeds
  | _ => []

def isNamed (id : TypeName) : Shape → Bool
  | .named package name _ => id = ⟨package, name⟩
  | _ => false

/-- The declared type is found among what the types hold. -/
def holds (p : Program) (id : TypeName) : Nat → List Shape → Bool
  | 0, _ => false
  | fuel + 1, types =>
    let next := (types.flatMap p.heldByNamed).foldl
      (fun found t => if found.any (· == t) then found else found ++ [t]) []
    next.any (isNamed id) || p.holds id fuel next

def isFinite (p : Program) (d : TypeDef) : Bool :=
  let self : Shape := .named d.id.package d.id.name (d.params.map fun t => .param d.id.key t.name)
  !p.holds d.id (p.types.length + 1) [self]

/-! ### Comparable types -/

def constraint? (p : Program) (owner name : String) : Option Shape :=
  let ofType := fun (d : TypeDef) (names : List String) =>
    (names.zip (d.params.map TypeParam.constraint)).lookup name
  match p.types.find? (·.id.key = owner), p.methods.find? (·.owner = owner),
    p.funcs.find? (·.owner = owner) with
  | some d, _, _ => ofType d (d.params.map TypeParam.name)
  | _, some m, _ => (p.type? m.receiver).bind fun d => ofType d m.params
  | _, _, some f => (f.signature.typeParams.zip f.constraints).lookup name
  | _, _, _ => none

/-- The interface admits only types whose values can be compared. -/
def wantsComparableAt (p : Program) : Nat → Shape → Bool
  | 0, _ => false
  | _ + 1, .named "" "comparable" _ => true
  | fuel + 1, s =>
    match p.body? s with
    | some (.interface _ _ embeds) => embeds.any fun e => p.wantsComparableAt fuel e.resolved
    | _ => false

def wantsComparable (p : Program) (s : Shape) : Bool := p.wantsComparableAt (p.types.length + 2) s.resolved

def isComparableAt (p : Program) : Nat → Shape → Bool
  | 0, _ => true
  | fuel + 1, s =>
    match s with
    | .slice _ | .map .. | .func .. => false
    | .array _ e => p.isComparableAt fuel e
    | .struct _ _ ts => ts.all (p.isComparableAt fuel)
    | .synonym t => p.isComparableAt fuel t
    | .param owner name =>
      match p.constraint? owner name with
      | some (.union _) | none => true
      | some c => p.wantsComparable c || !p.isInterface c
    | .named .. =>
      match p.body? s with
      | some (.shape t) => p.isComparableAt fuel t
      | _ => true
    | _ => true

/-- The deepest type that is looked into. -/
def maxNesting : Nat := 1000

def isComparable (p : Program) (s : Shape) : Bool := p.isComparableAt maxNesting s

/-! ### Constraints -/

def argumentMethods (p : Program) (s : Shape) : List Selection :=
  match s.resolved with
  | .pointer e => p.methodSet e true
  | .param owner name => ((p.constraint? owner name).map p.interfaceMethods).getD []
  | t => p.methodSet t false

/-- The type is one of those that a part of a constraint lists. -/
def isListed (p : Program) (s : Shape) : Shape → Bool
  | .union types => types.any fun t => s == t || match p.body? s with
    | some (.shape u) => u == t
    | _ => false
  | t => s == t

/-- The type can stand for a parameter with the constraint. -/
def satisfies (p : Program) (s constraint : Shape) : Bool :=
  let isParam := match s.resolved with
    | .param .. => true
    | _ => false
  if p.isInterface constraint then
    hasMethods (p.argumentMethods s) (p.interfaceMethods constraint) &&
      (!p.wantsComparable constraint || p.isComparable s) &&
      (isParam || (p.terms constraint).all (p.isListed s))
  else isParam || p.isListed s constraint

/-- The interface only serves as a constraint. -/
def isConstraintOnly (p : Program) (s : Shape) : Bool :=
  match s.resolved with
  | .union _ => true
  | t => p.isInterface t && (!(p.terms t).isEmpty || p.wantsComparable t)

/-! ### Rules for types -/

def argumentsFit (p : Program) : Shape → Bool
  | .named package name args =>
    match p.type? ⟨package, name⟩ with
    | none => true
    | some d =>
      (args.zip d.params).all fun (a, t) => p.satisfies a (t.constraint.subst (d.binding args))
  | _ => true

/-- An embedded type is no pointer by itself, no type parameter, and an interface only without a
pointer to it. -/
def canEmbed (p : Program) (t : Shape) : Bool :=
  let isPointer := match t.resolved with
    | .pointer _ => true
    | _ => false
  match p.body? t.resolved.pointee with
  | some (.shape (.pointer _)) => false
  | some (.interface ..) => !isPointer
  | some _ => true
  | none => false

def partIsSound (p : Program) (s : Shape) : Bool :=
  p.argumentsFit s &&
    match s with
    | .map key _ => p.isComparable key
    | .struct _ labels ts =>
      isDistinct (labels.map Label.name) && labels.all (fun l => isIdentifier l.name) &&
        (labels.zip ts).all fun (l, t) => !l.embedded || p.canEmbed t
    | _ => true

def isSound (p : Program) (s : Shape) : Bool :=
  s.parts.all fun t => p.partIsSound t && !p.isConstraintOnly t

/-- A type that is declared from another one, or embedded in an interface. -/
def isSoundSource (p : Program) (s : Shape) : Bool :=
  p.partIsSound s &&
    match s.resolved with
    | .named _ _ args => args.all p.isSound
    | .union _ => true
    | _ => p.isSound s

def signatureIsSound (p : Program) (sig : Signature) : Bool :=
  sig.params.all p.isSound && sig.results.all p.isSound

/-- The methods of an interface have names, and those of one name are the same. -/
def interfaceIsSound (p : Program) (owner : TypeName) (methods : List (String × Signature))
    (embeds : List Shape) : Bool :=
  let own := methods.map fun (name, signature) => ({ id := .of owner.package name, signature } : Selection)
  let all := own ++ embeds.flatMap p.interfaceMethods
  isDistinct (methods.map Prod.fst) &&
    methods.all (fun (name, sig) =>
      isIdentifier name && name ≠ "_" && p.signatureIsSound sig) &&
    embeds.all p.isSoundSource &&
    all.all fun a => all.all fun b => a.id ≠ b.id || a.signature.type == b.signature.type

def typeIsSound (p : Program) (d : TypeDef) : Bool :=
  p.isFinite d &&
    match d.body with
    | .shape s => p.isSoundSource s
    | .interface owner methods embeds => p.interfaceIsSound owner methods embeds

/-- A method belongs to a type that is no pointer and no interface, and has a name of its own. -/
def methodIsSound (p : Program) (m : MethodDef) : Bool :=
  p.signatureIsSound m.signature &&
    match p.type? m.receiver with
    | none => false
    | some d =>
      d.params.length = m.params.length &&
        match p.body? (.named d.id.package d.id.name (d.params.map fun t => .param d.id.key t.name)) with
        | some (.shape (.pointer _)) | some (.interface ..) | none => false
        | some (.shape (.struct _ labels _)) => m.name = "_" || !(labels.map Label.name).contains m.name
        | some _ => true

def isSoundProgram (p : Program) : Bool :=
  p.types.all p.typeIsSound && p.methods.all p.methodIsSound &&
    p.types.all (fun d => isDistinct ((p.methodsOf d.id).map MethodDef.name)) &&
    p.funcs.all (fun f => p.signatureIsSound f.signature) && p.vars.all p.isSound

end Program

end TypeEngine.Package
