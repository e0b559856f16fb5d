import TypeEngine.Symbols.Builtin

/-!
The symbols of one compilation. Every table files its records under the key of their container.
Registrations that the answers of the engine depend on give the tables a new revision and drop the
answers memoised so far.
-/

namespace TypeEngine

structure Constant where
  name : String
  type : Ty
  value : String
  attributes : Attributes := {}

/-- A member of an enumeration; its type is the enumeration. -/
structure EnumConstant where
  name : String
  value : String

structure Variable where
  name : String
  type : Ty
  isConstant : Bool

/-- A declared type. The base may mention the generic parameters. -/
structure TypeDecl where
  path : Path
  params : List Restriction := []
  base? : Option Ty := none
  attributes : Attributes := {}

def TypeDecl.kind (d : TypeDecl) : Kind := (d.path.last?.map Block.kind).getD .unnamed

/-- What a name can be declared as once per container. -/
inductive Declared where
  | type | property | constant | enumConstant | variable

def Declared.name : Declared → String
  | type => "type"
  | property => "property"
  | constant => "constant"
  | enumConstant => "enum constant"
  | .variable => "variable"

/-- Why a registration is refused. -/
inductive Refusal where
  | duplicate (what : Declared) (scope : Path) (name : String)
  | variadicNotLast (param : String)

def Refusal.message : Refusal → String
  | duplicate what scope name => what.name ++ " " ++ name ++ " already declared in " ++ scope.display
  | variadicNotLast param => "variadic parameter " ++ Text.quote param ++ " must be last"

structure Filed (α : Type) where
  key : String
  record : α

/-- An overload under the key of its container or operand, and a name. -/
structure Signature where
  key : String
  name : String
  overload : Overload

structure Tables where
  types : List (Filed TypeDecl) := []
  /-- The latest type of each name, by container. -/
  nested : List (Filed (String × Path)) := []
  properties : List (Filed Property) := []
  constants : List (Filed Constant) := []
  enumConstants : List (Filed EnumConstant) := []
  locals : List (Filed Variable) := []
  functions : List Signature := []
  constructors : List (Filed Overload) := []
  indexers : List (Filed Overload) := []
  unary : List Signature := []
  binary : List Signature := []
  interfaces : List (Filed Ty) := []
  conversions : ConversionGraph := .empty
  /-- Memoised answers to reachability, by the keys of source and destination. -/
  closure : List ((String × String) × Reachability) := []
  revision : Nat := 0

namespace Tables

instance : Inhabited Tables := ⟨{}⟩

/-- The records filed under a container, in order of registration. -/
def under {α : Type} (table : List (Filed α)) (container : Path) : List α :=
  (table.filter (·.key = container.key)).map Filed.record

/-- Drops memoised answers and moves to a new revision. -/
def invalidate (ts : Tables) : Tables := { ts with closure := [], revision := ts.revision + 1 }

/-- Forgets every registration. -/
def reset (ts : Tables) : Tables := invalidate { revision := ts.revision }

def type? (ts : Tables) (path : Path) : Option TypeDecl := (under ts.types path).head?

/-- The path of the type called `name` that was declared last in `container`. -/
def nestedType? (ts : Tables) (container : Path) (name : String) : Option Path :=
  ((under ts.nested container).find? (·.1 = name)).map Prod.snd

def declareType (ts : Tables) (decl : TypeDecl) : Except Refusal Tables :=
  let (container, name) := decl.path.split
  if (ts.type? decl.path).isSome then .error (.duplicate .type container name)
  else
    let older := ts.nested.filter fun f => !(f.key = container.key && f.record.1 = name)
    let types := ts.types ++ [⟨decl.path.key, decl⟩]
    let nested := older ++ [⟨container.key, (name, decl.path)⟩]
    .ok (invalidate { ts with types, nested })

def properties? (ts : Tables) (container : Path) : List Property := under ts.properties container

def property? (ts : Tables) (container : Path) (name : String) : Option Property :=
  (under ts.properties container).find? (·.name = name)

/-- Registers a property at the next position of its container. -/
def addProperty (ts : Tables) (container : Path) (p : Property) : Except Refusal Tables :=
  if (ts.property? container p.name).isSome then .error (.duplicate .property container p.name)
  else
    let index := (under ts.properties container).length
    .ok { ts with properties := ts.properties ++ [⟨container.key, { p with index }⟩] }

def constant? (ts : Tables) (container : Path) (name : String) : Option Constant :=
  (under ts.constants container).find? (·.name = name)

def addConstant (ts : Tables) (container : Path) (k : Constant) : Except Refusal Tables :=
  if (ts.constant? container k.name).isSome then .error (.duplicate .constant container k.name)
  else .ok { ts with constants := ts.constants ++ [⟨container.key, k⟩] }

def enumConstant? (ts : Tables) (enum : Path) (name : String) : Option EnumConstant :=
  (under ts.enumConstants enum).find? (·.name = name)

def addEnumConstant (ts : Tables) (enum : Path) (k : EnumConstant) : Except Refusal Tables :=
  if (ts.enumConstant? enum k.name).isSome then .error (.duplicate .enumConstant enum k.name)
  else .ok { ts with enumConstants := ts.enumConstants ++ [⟨enum.key, k⟩] }

def localVariable? (ts : Tables) (scope : Path) (name : String) : Option Variable :=
  (under ts.locals scope).find? (·.name = name)

def declareVariable (ts : Tables) (scope : Path) (v : Variable) : Except Refusal Tables :=
  if (ts.localVariable? scope v.name).isSome then .error (.duplicate .variable scope v.name)
  else .ok { ts with locals := ts.locals ++ [⟨scope.key, v⟩] }

/-- Lets an overload through whose variadic parameter is the last one. -/
def checked (o : Overload) : Except Refusal Overload :=
  match o.misplaced? with
  | some p => .error (.variadicNotLast p.name)
  | none => .ok o

def signatures (table : List Signature) (key name : String) : List Overload :=
  (table.filter fun s => s.key = key && s.name = name).map Signature.overload

def functions? (ts : Tables) (container : Path) (name : String) : List Overload :=
  signatures ts.functions container.key name

def addFunction (ts : Tables) (container : Path) (name : String) (o : Overload) :
    Except Refusal Tables := do
  let overload ← checked o
  return { ts with functions := ts.functions ++ [{ key := container.key, name, overload }] }

def constructors? (ts : Tables) (container : Path) : List Overload := under ts.constructors container

def addConstructor (ts : Tables) (container : Path) (o : Overload) : Except Refusal Tables := do
  return { ts with constructors := ts.constructors ++ [⟨container.key, ← checked o⟩] }

def indexers? (ts : Tables) (container : Path) : List Overload := under ts.indexers container

def addIndexer (ts : Tables) (container : Path) (o : Overload) : Except Refusal Tables := do
  return { ts with indexers := ts.indexers ++ [⟨container.key, ← checked o⟩] }

def unaryOperators? (ts : Tables) (operand : Ty) (op : String) : List Overload :=
  signatures ts.unary operand.main.key op

def addUnary (ts : Tables) (operand : Ty) (op : String) (o : Overload) : Except Refusal Tables := do
  let overload ← checked o
  return { ts with unary := ts.unary ++ [{ key := operand.main.key, name := op, overload }] }

def binaryOperators? (ts : Tables) (operand : Ty) (op : String) : List Overload :=
  signatures ts.binary operand.main.key op

def addBinary (ts : Tables) (operand : Ty) (op : String) (o : Overload) : Except Refusal Tables := do
  let overload ← checked o
  return { ts with binary := ts.binary ++ [{ key := operand.main.key, name := op, overload }] }

def interfaces? (ts : Tables) (path : Path) : List Ty := under ts.interfaces path

/-- Registers an interface of a type, once. -/
def addInterface (ts : Tables) (path : Path) (iface : Ty) : Tables :=
  if (ts.interfaces? path).any (· == iface) then ts
  else invalidate { ts with interfaces := ts.interfaces ++ [⟨path.key, iface⟩] }

def addConversion (ts : Tables) (src dst : Ty) (warning : Bool) : Tables :=
  invalidate { ts with conversions := ts.conversions.add src dst warning }

/-- The built-in conversions from `src`, then the registered ones. -/
def conversionEdges (ts : Tables) (src : Ty) : List ConversionEdge :=
  Builtin.conversions.edges src ++ ts.conversions.edges src

def cachedClosure? (ts : Tables) (src dst : Ty) : Option Reachability :=
  ts.closure.lookup (src.key, dst.key)

def storeClosure (ts : Tables) (src dst : Ty) (r : Reachability) : Tables :=
  { ts with closure := ((src.key, dst.key), r) :: ts.closure }

end Tables

end TypeEngine
