import TypeEngine.Host.Catalog
import TypeEngine.Package.Load

/-!
Catalogs of packages. The exported types of a package are described with their exported fields and
methods; functions that make a type are its constructors, and constants of a type make it an enum.
-/

namespace TypeEngine.Package

open Host (Catalog TypeInfo Callable Ref)

/-- Basic and well known types, and the primitives of the model that they are. -/
def aliases : List (String × String) :=
  [("any", "object"), ("error", "object"), ("bool", "bool"), ("byte", "byte"), ("uint8", "byte"),
    ("int16", "short"), ("uint16", "ushort"), ("rune", "char"), ("int32", "int"), ("uint32", "uint"),
    ("int64", "long"), ("int", "long"), ("int8", "short"), ("uint64", "ulong"), ("uint", "ulong"),
    ("uintptr", "ulong"), ("big.Int", "bigint"), ("time.Duration", "TimeSpan"),
    ("time.Time", "DateTime"), ("float64", "real"), ("float32", "real"), ("complex128", "complex"),
    ("complex64", "complex"), ("string", "string"), ("func", "func"), ("tuple", "tuple")]

/-- Types of other packages that stand for primitives of the model. -/
def wellKnown : List (String × String) :=
  [("math/big.Int", "big.Int"), ("time.Duration", "time.Duration"), ("time.Time", "time.Time")]

def startingCatalog : Catalog :=
  aliases.foldl (fun c (path, model) => c.withAlias path model) .empty

namespace Program

/-! ### References -/

/-- An interface of errors has a single method that is called `Error`. -/
def isError (p : Program) : Shape → Bool
  | .named package name args =>
    match p.interfaceMethods (.named package name args) with
    | [m] => m.name = "Error"
    | _ => false
  | _ => false

/-- The path of a declared type. Types of packages that are not described are opaque. -/
def namedPath (p : Program) (package name : String) : String :=
  if package = "" then "any"
  else
    match wellKnown.lookup (package ++ "." ++ name), p.packageName? package with
    | some path, _ => path
    | none, some package => package ++ "." ++ name
    | none, none => "any"

/-- Arguments are kept only by types that are described. -/
def keepsArguments (p : Program) (package name : String) : Bool :=
  package ≠ "" && (wellKnown.lookup (package ++ "." ++ name)).isNone && (p.packageName? package).isSome

/-- Results without a final error, as one reference. -/
def resultRef (refs : List Ref) : Ref :=
  match refs with
  | [] => .absent
  | [r] => r
  | rs => .ofPath "tuple" rs

def withoutError (p : Program) (types : List Shape) (refs : List Ref) : List Ref :=
  match types.getLast? with
  | some t => if p.isError t then refs.dropLast else refs
  | none => refs

mutual

def ref (p : Program) : Shape → Ref
  | .basic name => .ofPath name
  | .named package name args =>
    if p.isError (.named package name args) then .ofPath "error"
    else .ofPath (p.namedPath package name) (if p.keepsArguments package name then refAll p args else [])
  | .param _ name => .ofParam name
  | .pointer e => ref p e
  | .slice e => .ofPath "Slice" [ref p e]
  | .array _ e => .ofPath "Array" [ref p e]
  | .map key value => .ofPath "Map" [ref p key, ref p value]
  | .func params results variadic =>
    let ret := resultRef (p.withoutError results (refAll p results))
    .ofPath "func" ((if ret.isAbsent then .ofPath "any" else ret) :: refParams p variadic params)
  | .synonym t => ref p t
  | .chan _ | .struct .. | .union _ => .ofPath "any"

def refAll (p : Program) : List Shape → List Ref
  | [] => []
  | t :: ts => ref p t :: refAll p ts

/-- In the type of a function, a variadic parameter is a slice. -/
def refParams (p : Program) (variadic : Bool) : List Shape → List Ref
  | [] => []
  | [t] => [if variadic then .ofPath "Slice" [ref p t] else ref p t]
  | t :: ts => ref p t :: refParams p variadic ts

end

/-! ### Callables -/

/-- Parameters; the last one may take any number of arguments. -/
def params (p : Program) (names : List String) (variadic : Bool) : List Shape → List Host.Param
  | [] => []
  | t :: ts =>
    let isVariadic := variadic && ts.isEmpty
    { name := names.headD "", type := p.ref t, optional := isVariadic, variadic := isVariadic } ::
      p.params names.tail variadic ts

def callable (p : Program) (name : String) (s : Signature) (key : String) : Callable :=
  { name
    typeParams := s.typeParams
    params := p.params s.names s.variadic s.params
    ret := resultRef (p.withoutError s.results (p.refAll s.results))
    deprecated := if p.deprecated.contains key then .warning else .none }

/-- The type that a function makes: the function is called `New`, or `New` and the name of the
type. -/
def constructed? (f : FuncDef) : Option String :=
  match f.signature.results.head?.map Shape.pointee with
  | some (.named package name _) =>
    if package = f.package && (f.name = "New" ++ name || f.name = "New") then some name else none
  | _ => none

/-- The exported functions of a package that make a type, by name. -/
def constructors (p : Program) (package name : String) : List Callable :=
  let makers := p.funcs.filter fun f =>
    f.package = package && isExported f.name && constructed? f = some name
  (makers.mergeSort fun a b => a.name ≤ b.name).map fun f =>
    { p.callable f.name f.signature f.owner with name }

/-- The exported constants of a package that have the type, by name. -/
def constants (p : Program) (id : TypeName) : List Host.Constant :=
  let own := p.consts.filter fun c => c.package = id.package && isExported c.name && isNamed id c.type
  (own.mergeSort fun a b => a.name ≤ b.name).map fun c =>
    { name := c.name, type := p.ref c.type, value := c.value }

/-! ### Types -/

/-- A type that is declared in a described package as a structure. -/
def isLoadedStruct (p : Program) (t : Shape) : Bool :=
  match t with
  | .named package _ _ =>
    (p.packageName? package).isSome && match p.body? t with
      | some (.shape (.struct ..)) => true
      | _ => false
  | _ => false

def fields (p : Program) (s : Shape) : List ((Label × Shape) × Nat) :=
  match p.body? s with
  | some (.shape (.struct _ labels types)) => (labels.zip types).zipIdx
  | _ => []

/-- The first embedded structure of a described package, which is the base. -/
def base? (p : Program) (s : Shape) : Option ((Label × Shape) × Nat) :=
  (p.fields s).find? fun ((l, t), _) => l.embedded && p.isLoadedStruct t.pointee

def kindOf (p : Program) (s : Shape) : Host.Kind :=
  match p.body? s with
  | some (.shape (.struct ..)) => .structKind
  | some (.interface ..) => .interfaceKind
  | some (.shape (.func ..)) => .delegateKind
  | _ => .classKind

/-- The key of a method's documentation: that of the type that declares the method. -/
def methodKey (owner : TypeName) (s : Selection) : String :=
  (s.declaring?.getD owner).key ++ "." ++ s.name

/-- The exported methods of a type, except those that its base has. -/
def describedMethods (p : Program) (id : TypeName) (s : Shape) : List Callable :=
  let base := (p.base? s).map Prod.snd
  let shown := (p.methodsFor s).filter fun m =>
    isExported m.name && (m.via?.isNone || m.via? ≠ base)
  (shown.mergeSort fun a b => a.name ≤ b.name).map fun m =>
    { p.callable m.name m.signature (methodKey id m) with abstract := p.kindOf s = .interfaceKind }

/-- The exported types of a described package, by name. -/
def exportedTypes (p : Program) (path : String) : List TypeDef :=
  (p.types.filter fun d => d.id.package = path && isExported d.id.name).mergeSort fun a b =>
    a.id.name ≤ b.id.name

/-- A declared type whose parameters stand for themselves. -/
def self (d : TypeDef) : Shape := .named d.id.package d.id.name []

/-- The exported interfaces with methods and without type parameters. -/
def interfaces (p : Program) : List Shape :=
  let all := p.loaded.flatMap fun l => p.exportedTypes l.path
  (all.map fun d => (d, self d)).filterMap fun (d, s) =>
    if d.params.isEmpty && p.isInterface s && !(p.interfaceMethods s).isEmpty then some s else none

def typeInfo (p : Program) (d : TypeDef) : TypeInfo :=
  let self := self d
  let kind := p.kindOf self
  let base := p.base? self
  let constants := p.constants d.id
  let constructors := p.constructors d.id.package d.id.name
  let isBasic := match p.body? self with
    | some (.shape (.basic _)) => true
    | _ => false
  { namespaceName := (p.packageName? d.id.package).getD ""
    name := d.id.name
    kind := if isBasic && !constants.isEmpty then .enumKind else kind
    typeParams := d.params.map TypeParam.name
    base? := base.map fun ((_, t), _) => p.ref t.pointee
    interfaces :=
      if kind = .interfaceKind then [] else (p.interfaces.filter (p.pointerImplements self)).map p.ref
    methods := p.describedMethods d.id self
    constructors :=
      if p.deprecated.contains d.id.key then constructors.map fun c => { c with deprecated := .warning }
      else constructors
    properties := (p.fields self).filterMap fun ((l, t), i) =>
      if isExported l.name && some i ≠ base.map Prod.snd then some { name := l.name, type := p.ref t }
      else none
    constants }

/-! ### Catalogs -/

mutual

def mentionsMap : Ref → Bool
  | .mk path _ _ args => path = "Map" || anyMentionsMap args

def anyMentionsMap : List Ref → Bool
  | [] => false
  | r :: rs => mentionsMap r || anyMentionsMap rs

end

def callableMentionsMap (c : Callable) : Bool :=
  mentionsMap c.ret || c.params.any fun p => mentionsMap p.type

def infoMentionsMap (t : TypeInfo) : Bool :=
  (t.base?.map mentionsMap).getD false || t.interfaces.any mentionsMap ||
    t.methods.any callableMentionsMap || t.properties.any fun p => mentionsMap p.type

/-- Maps are used by a type, or by a function that makes one, described or not. -/
def usesMap (p : Program) (infos : List TypeInfo) : Bool :=
  infos.any infoMentionsMap || p.funcs.any fun f =>
    isExported f.name && (constructed? f).isSome && (p.packageName? f.package).isSome &&
      callableMentionsMap (p.callable f.name f.signature f.owner)

end Program

inductive PackageFault where
  /-- The packages break the rules of their language, or there are none. -/
  | unloadable
  | refused (path : String) (cause : Host.Refusal)

def PackageFault.message : PackageFault → String
  | unloadable => "package errors"
  | refused path cause => "describing " ++ path ++ ": " ++ cause.message

namespace Program

def addPackage (p : Program) (c : Catalog) (l : Loaded) : Except PackageFault Catalog :=
  (((p.exportedTypes l.path).map p.typeInfo).foldlM Catalog.addType c).mapError (.refused l.path)

def catalog (p : Program) : Except PackageFault Catalog := do
  let c ← p.loaded.foldlM p.addPackage startingCatalog
  let map : TypeInfo := { name := "Map", typeParams := ["K", "V"] }
  let c := if p.usesMap c.types then (c.addType map).toOption.getD c else c
  return c.freeze

end Program

/-- The catalog of the packages that patterns match. -/
def catalogOfPackages (sources : List Source) (patterns : List String) : Except PackageFault Catalog :=
  match Program.load? sources patterns with
  | some p => p.catalog
  | none => .error .unloadable

end TypeEngine.Package
