import TypeEngine.Package.MethodSet

/-!
Resolving names. A name is looked for among the type parameters in scope, then among the
declarations of its package, and last among the types that every program knows.
-/

namespace TypeEngine.Package

def basicNames : List String :=
  ["bool", "string", "int", "int8", "int16", "int32", "int64", "uint", "uint8", "uint16", "uint32",
    "uint64", "uintptr", "float32", "float64", "complex64", "complex128", "byte", "rune"]

def interfaceNames : List String := ["any", "error", "comparable"]

/-- The packages of a program, and the types that other names stand for so far. -/
structure Known where
  sources : List Source
  synonyms : List (TypeName × Shape) := []

abbrev ParamScope := List (String × Shape)

/-- The scope of parameters that belong to `owner`. A blank name declares nothing. -/
def paramScope (owner : String) (names : List String) : ParamScope :=
  (names.filter (· ≠ "_")).map fun n => (n, .param owner n)

namespace Known

def source? (k : Known) (path : String) : Option Source := k.sources.find? (·.path = path)

def imported (k : Known) (s : Source) : List Source := s.imports.filterMap k.source?

def builtin? (name : String) (args : List Shape) : Option Shape :=
  if !args.isEmpty then none
  else if basicNames.contains name then some (.basic name)
  else if interfaceNames.contains name then some (.named "" name [])
  else none

/-- A type that a package declares. It takes as many arguments as it has parameters. -/
def declared? (k : Known) (s : Source) (name : String) (args : List Shape) : Option Shape := do
  let d ← s.types.find? (·.name = name)
  if d.params.length ≠ args.length then none
  else if Source.isSynonym d then (k.synonyms.lookup ⟨s.path, name⟩).map .synonym
  else some (.named s.path name args)

def named? (k : Known) (s : Source) (params : ParamScope) (text : String) (args : List Shape) :
    Option Shape :=
  match Text.segments text with
  | [name] =>
    if name = "_" then none
    else
      match params.lookup name with
      | some p => if args.isEmpty then some p else none
      | none =>
        if s.declared.contains name then k.declared? s name args
        else if (k.imported s).any (·.name = name) then none
        else builtin? name args
  | [package, name] =>
    if (params.lookup package).isSome || s.declared.contains package || !isExported name then none
    else do k.declared? (← (k.imported s).find? (·.name = package)) name args
  | _ => none

mutual

def resolve (k : Known) (s : Source) (params : ParamScope) : TypeExpr → Option Shape
  | .name text => k.named? s params text []
  | .inst text args => do
    if args.isEmpty then none else k.named? s params text (← resolveAll k s params args)
  | .pointer e => return .pointer (← resolve k s params e)
  | .slice e => return .slice (← resolve k s params e)
  | .array n e => do
    if n < 0 then none else return .array n (← resolve k s params e)
  | .map key value => return .map (← resolve k s params key) (← resolve k s params value)
  | .chan e => return .chan (← resolve k s params e)
  | .struct labels types => return .struct s.path labels (← resolveAll k s params types)
  | .func _ ps rs variadic =>
    return .func (← resolveAll k s params ps) (← resolveAll k s params rs) variadic

def resolveAll (k : Known) (s : Source) (params : ParamScope) : List TypeExpr → Option (List Shape)
  | [] => some []
  | t :: ts => return (← resolve k s params t) :: (← resolveAll k s params ts)

end

/-! ### Other names for types -/

/-- Adds the other names whose types can be resolved with what is known. -/
def addSynonyms (k : Known) : Known :=
  let found := k.sources.flatMap fun s => s.types.filterMap fun d =>
    match d.body with
    | .synonym t => (k.resolve s [] t).map fun shape => (⟨s.path, d.name⟩, shape)
    | _ => none
  { k with synonyms := found }

/-- One round for each level of names for names. -/
def rounds : Nat → Known → Known
  | 0, k => k
  | n + 1, k => rounds n k.addSynonyms

def ofSources (sources : List Source) : Known :=
  let count := ((sources.flatMap Source.types).filter Source.isSynonym).length
  rounds count { sources }

/-! ### Declarations -/

/-- A restriction to one of several types, as it is written between bars. -/
def unionTerms (text : String) : List String :=
  (Text.splitOn '|' text.toList).map fun term =>
    match Text.trim term with
    | '~' :: rest => .ofList rest
    | cs => .ofList cs

/-- No type is declared from a type parameter or restricted to one. -/
def declarable? (t : Shape) : Option Shape :=
  match t.resolved with
  | .param .. => none
  | _ => some t

/-- A constraint, which may list several types. -/
def constraint? (k : Known) (s : Source) (params : ParamScope) (t : TypeExpr) : Option Shape :=
  match t with
  | .name text =>
    if text.toList.any fun c => c == '|' || c == '~' then do
      return .union (← (unionTerms text).mapM fun term => do declarable? (← k.named? s params term []))
    else do declarable? (← k.named? s params text [])
  | t => do declarable? (← k.resolve s params t)

def signature? (k : Known) (s : Source) (params : ParamScope) (typeParams : List String)
    (e : SignatureExpr) : Option Signature := do
  return { typeParams, names := e.names, params := ← k.resolveAll s params e.params
           results := ← k.resolveAll s params e.results, variadic := e.variadic && !e.params.isEmpty }

def typeDef? (k : Known) (s : Source) (d : TypeDecl) : Option TypeDef := do
  let id : TypeName := ⟨s.path, d.name⟩
  let scope := paramScope id.key (d.params.map ParamExpr.name)
  let params ← d.params.mapM fun p => do
    return { name := p.name, constraint := ← k.constraint? s scope p.constraint : TypeParam }
  let body ← match d.body with
    | .defined t => do pure (Body.shape (← declarable? (← k.resolve s scope t)))
    | .synonym _ => none
    | .interface embeds methods => do
      let methods ← methods.mapM fun (name, e) => do return (name, ← k.signature? s scope [] e)
      pure (Body.interface id methods (← embeds.mapM (k.constraint? s scope)))
  return { id, params, body }

def funcDef? (k : Known) (s : Source) (d : FuncDecl) : Option FuncDef := do
  let names := d.params.map ParamExpr.name
  let scope := paramScope (s.path ++ "." ++ d.name) names
  let constraints ← d.params.mapM fun p => k.constraint? s scope p.constraint
  let signature ← k.signature? s scope names d.signature
  return { package := s.path, name := d.name, signature, constraints }

/-- The declared type that the name of a receiver stands for, and whether it is another name. -/
def receiver? (k : Known) (s : Source) (name : String) : Option (TypeName × Bool) := do
  let d ← s.types.find? (·.name = name)
  if Source.isSynonym d then
    match ((← k.synonyms.lookup ⟨s.path, name⟩)).resolved with
    | .named package name [] => if package = s.path then some (⟨package, name⟩, true) else none
    | _ => none
  else some (⟨s.path, name⟩, false)

def methodDef? (k : Known) (s : Source) (d : MethodDecl) : Option MethodDef := do
  let (receiver, viaSynonym) ← k.receiver? s d.receiver
  let scope := paramScope (receiver.key ++ "." ++ d.name) d.params
  return { receiver, viaSynonym, viaPointer := d.viaPointer, params := d.params, name := d.name
           signature := ← k.signature? s scope [] d.signature }

/-- The keys of what the documentation of a package calls deprecated. -/
def deprecatedKeys (s : Source) : List String :=
  s.decls.filterMap fun
    | .type d => if d.docs.any isDeprecated then some (s.path ++ "." ++ d.name) else none
    | .func d => if isDeprecated d.doc then some (s.path ++ "." ++ d.name) else none
    | .method d =>
      if isDeprecated d.doc then some (s.path ++ "." ++ d.receiver ++ "." ++ d.name) else none
    | _ => none

/-- What the packages declare, constants apart. Only the packages `roots` are described. -/
def program? (k : Known) (roots : List Source) : Option Program := do
  let synonyms := (k.sources.flatMap Source.types).filter Source.isSynonym
  if k.synonyms.length ≠ synonyms.length then none
  else
    let types ← k.sources.mapM fun s =>
      (s.types.filter fun d => !Source.isSynonym d).mapM (k.typeDef? s)
    let methods ← k.sources.mapM fun s => s.methods.mapM (k.methodDef? s)
    let funcs ← k.sources.mapM fun s => s.funcs.mapM (k.funcDef? s)
    let vars ← k.sources.mapM fun s => s.vars.mapM fun v => k.resolve s [] v.type
    return { loaded := roots.map fun s => ⟨s.path, s.name⟩
             types := types.flatten, methods := methods.flatten, funcs := funcs.flatten
             vars := vars.flatten
             deprecated := roots.flatMap deprecatedKeys }

end Known

end TypeEngine.Package
