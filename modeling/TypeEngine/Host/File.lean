import TypeEngine.Host.Catalog

/-!
Catalog files. An entry of a file spells its references as text; reading a catalog parses them,
and writing one displays them again. How a file is spelt as a text is up to a codec.
-/

namespace TypeEngine.Host

structure ParamEntry where
  name : String := ""
  type : String := ""
  optional : Bool := false
  variadic : Bool := false
  ref : Bool := false
  out : Bool := false
  default? : Option String := none
  deriving DecidableEq

structure CallableEntry where
  name : String := ""
  typeParams : List String := []
  params : List ParamEntry := []
  ret : String := ""
  static : Bool := false
  abstract : Bool := false
  deprecated : String := ""
  deriving DecidableEq

structure PropertyEntry where
  name : String := ""
  type : String := ""
  static : Bool := false
  readOnly : Bool := false
  deriving DecidableEq

structure ConstantEntry where
  name : String := ""
  type : String := ""
  value : String := ""
  deriving DecidableEq

structure TypeEntry where
  namespaceName : String := ""
  name : String := ""
  kind : String := ""
  typeParams : List String := []
  base : String := ""
  interfaces : List String := []
  methods : List CallableEntry := []
  constructors : List CallableEntry := []
  properties : List PropertyEntry := []
  constants : List ConstantEntry := []
  deriving DecidableEq

/-- The part of a file that maps host paths to model primitives. -/
inductive PrimitivesEntry where
  | absent
  | pairs (aliases : List (String × String))
  | noMapping
  deriving DecidableEq

structure File where
  primitives : PrimitivesEntry := .absent
  types : List TypeEntry := []
  deriving DecidableEq

/-! ### Why a file is no catalog -/

inductive CallableFault where
  | unknownDeprecation (text : String)
  | ret (cause : Ref.Malformed)
  | param (name : String) (cause : Ref.Malformed)
  | variadicNotLast (name : String)

def CallableFault.message : CallableFault → String
  | unknownDeprecation text => "unknown deprecation " ++ Text.quote text
  | ret cause => cause.message
  | param name cause => "param " ++ name ++ ": " ++ cause.message
  | variadicNotLast name => "variadic param " ++ name ++ " must be last"

inductive EntryFault where
  | missingName
  | unknownKind (text : String)
  | reference (cause : Ref.Malformed)
  | method (name : String) (cause : CallableFault)
  | constructor (cause : CallableFault)
  | property (name : String) (cause : Ref.Malformed)
  | constant (name : String) (cause : Ref.Malformed)

def Kind.unknownMessage (text : String) : String := "unknown type kind " ++ Text.quote text

def EntryFault.message : EntryFault → String
  | missingName => "missing name"
  | unknownKind text => Kind.unknownMessage text
  | reference cause => cause.message
  | method name cause => "method " ++ name ++ ": " ++ cause.message
  | constructor cause => "constructor: " ++ cause.message
  | property name cause => "property " ++ name ++ ": " ++ cause.message
  | constant name cause => "constant " ++ name ++ ": " ++ cause.message

inductive FileFault where
  /-- The text is no document of the right shape. -/
  | unreadable
  | primitives
  | entry (index : Nat) (name : String) (cause : EntryFault)
  | refused (cause : Refusal)

def FileFault.message (path : String) : FileFault → String
  | unreadable => "parsing " ++ path
  | primitives => path ++ ": primitives must be a mapping"
  | entry index name cause =>
    path ++ ": types[" ++ toString index ++ "] (" ++ name ++ "): " ++ cause.message
  | refused cause => path ++ ": " ++ cause.message

/-! ### From entries to a catalog -/

def deprecationOf? : String → Option Deprecation
  | "" => some .none
  | "warning" => some .warning
  | "error" => some .error
  | _ => none

/-- Reads parameters; only the last one may be variadic. -/
def readParams (names : List String) : List ParamEntry → Except CallableFault (List Param)
  | [] => .ok []
  | p :: rest => do
    let type ← (Ref.parse p.type names).mapError (.param p.name)
    if p.variadic && !rest.isEmpty then throw (.variadicNotLast p.name)
    let params ← readParams names rest
    return { p with type } :: params

def CallableEntry.read (c : CallableEntry) (typeParams : List String) : Except CallableFault Callable := do
  let names := typeParams ++ c.typeParams
  let some deprecated := deprecationOf? c.deprecated | throw (.unknownDeprecation c.deprecated)
  let ret ← (Ref.parse c.ret names).mapError .ret
  let params ← readParams names c.params
  return { c with params, ret, deprecated }

def PropertyEntry.read (p : PropertyEntry) (typeParams : List String) : Except EntryFault Property := do
  let type ← (Ref.parse p.type typeParams).mapError (.property p.name)
  return { p with type }

/-- A constant without a type has the type that declares it, whose path is `owner`. -/
def ConstantEntry.read (c : ConstantEntry) (owner : String) (typeParams : List String) :
    Except EntryFault Constant := do
  let type ←
    if c.type = "" then .ok (.ofPath owner)
    else (Ref.parse c.type typeParams).mapError (.constant c.name)
  return { c with type }

/-- The dotted, fully qualified name of the type. -/
def TypeEntry.path (t : TypeEntry) : String :=
  TypeInfo.path { namespaceName := t.namespaceName, name := t.name }

def TypeEntry.reference (t : TypeEntry) (s : String) : Except EntryFault Ref :=
  (Ref.parse s t.typeParams).mapError .reference

/-- Reads the members of a type whose kind and base are known. -/
def TypeEntry.readMembers (t : TypeEntry) (kind : Kind) (base? : Option Ref) :
    Except EntryFault TypeInfo := do
  let interfaces ← t.interfaces.mapM t.reference
  let methods ← t.methods.mapM fun m => (m.read t.typeParams).mapError (.method m.name)
  let constructors ← t.constructors.mapM fun c =>
    ((c.read t.typeParams).map fun c => { c with name := t.name }).mapError .constructor
  let properties ← t.properties.mapM (·.read t.typeParams)
  let constants ← t.constants.mapM (·.read t.path t.typeParams)
  return { namespaceName := t.namespaceName, name := t.name, kind, typeParams := t.typeParams, base?,
           interfaces, methods, constructors, properties, constants }

def TypeEntry.read (t : TypeEntry) : Except EntryFault TypeInfo := do
  if t.name = "" then throw .missingName
  let kind ←
    if t.kind = "" then pure .classKind
    else match Kind.ofName? t.kind with
      | some k => pure k
      | none => throw (.unknownKind t.kind)
  let base? ← if t.base = "" then pure none else some <$> t.reference t.base
  t.readMembers kind base?

/-- Adds the types of a file, of which `index` came before. -/
def Catalog.addEntries (c : Catalog) : Nat → List TypeEntry → Except FileFault Catalog
  | _, [] => .ok c
  | index, t :: rest => do
    let info ← t.read.mapError (.entry index t.name)
    let c ← (c.addType info).mapError .refused
    c.addEntries (index + 1) rest

/-- The frozen catalog of a file. -/
def Catalog.ofFile (f : File) : Except FileFault Catalog := do
  let aliases ← match f.primitives with
    | .absent => pure []
    | .pairs aliases => pure aliases
    | .noMapping => throw .primitives
  let c := aliases.foldl (fun c (path, model) => c.withAlias path model) Catalog.empty
  let c ← c.addEntries 0 f.types
  return c.freeze

/-! ### From a catalog to entries -/

def Deprecation.text : Deprecation → String
  | .none => ""
  | .warning => "warning"
  | .error => "error"

def Param.entry (p : Param) : ParamEntry := { p with type := p.type.display }

def Callable.entry (c : Callable) : CallableEntry :=
  { c with params := c.params.map Param.entry, ret := c.ret.display, deprecated := c.deprecated.text }

def TypeInfo.entry (t : TypeInfo) : TypeEntry :=
  { namespaceName := t.namespaceName
    name := t.name
    kind := t.kind.name
    typeParams := t.typeParams
    base := (t.base?.map Ref.display).getD ""
    interfaces := t.interfaces.map Ref.display
    methods := t.methods.map Callable.entry
    constructors := t.constructors.map fun c => { c.entry with name := "" }
    properties := t.properties.map fun p => { p with type := p.type.display }
    constants := t.constants.map fun k => { k with type := k.type.display } }

def Catalog.toFile (c : Catalog) : File :=
  { primitives := if c.aliases.isEmpty then .absent else .pairs c.aliases
    types := c.types.map TypeInfo.entry }

/-! ### Files as text -/

/-- A way to write files as text and to read them. -/
structure Codec where
  encode : File → String
  decode : String → Option File

namespace Codec

variable (k : Codec)

def parse (text : String) : Except FileFault Catalog :=
  match k.decode text with
  | some f => Catalog.ofFile f
  | none => .error .unreadable

def render (c : Catalog) : String := k.encode c.toFile

end Codec

end TypeEngine.Host
