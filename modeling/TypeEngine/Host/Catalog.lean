import TypeEngine.Host.Ref

/-!
Catalogs of the types and members that a host provides. Lookups on a type include the members
inherited through its base chain, which follows each base once. A frozen catalog accepts no
further entries.
-/

namespace TypeEngine.Host

inductive Kind where
  | classKind | structKind | interfaceKind | enumKind | delegateKind
  deriving DecidableEq, Repr, Inhabited

namespace Kind

def all : List Kind := [classKind, structKind, interfaceKind, enumKind, delegateKind]

def name : Kind → String
  | classKind => "class"
  | structKind => "struct"
  | interfaceKind => "interface"
  | enumKind => "enum"
  | delegateKind => "delegate"

def ofName? (s : String) : Option Kind := all.find? (·.name = s)

/-- The name of the kind with a given number. Numbers past the last kind are shown as such, and
negative ones have no name. -/
def nameOfCode? (code : Int) : Option String :=
  if code < 0 then none
  else some ((all[code.toNat]?.map name).getD ("Kind(" ++ toString code ++ ")"))

end Kind

inductive Deprecation where
  | none | warning | error
  deriving DecidableEq, Repr, Inhabited

structure Param where
  name : String
  type : Ref
  optional : Bool := false
  variadic : Bool := false
  ref : Bool := false
  out : Bool := false
  default? : Option String := .none

structure Callable where
  name : String
  params : List Param := []
  ret : Ref := .absent
  typeParams : List String := []
  static : Bool := false
  abstract : Bool := false
  deprecated : Deprecation := .none

/-- A field or property. `declaring` is the path of the type that declares it. -/
structure Property where
  name : String
  type : Ref
  declaring : String := ""
  static : Bool := false
  readOnly : Bool := false

/-- A named constant or a member of an enumeration. -/
structure Constant where
  name : String
  type : Ref
  value : String := ""
  declaring : String := ""

structure TypeInfo where
  namespaceName : String := ""
  name : String
  kind : Kind := .classKind
  typeParams : List String := []
  base? : Option Ref := none
  interfaces : List Ref := []
  methods : List Callable := []
  constructors : List Callable := []
  properties : List Property := []
  constants : List Constant := []

def TypeInfo.path (t : TypeInfo) : String :=
  if t.namespaceName = "" then t.name else t.namespaceName ++ "." ++ t.name

/-- Members without a declaring type are declared by the type that lists them. -/
def TypeInfo.declare (t : TypeInfo) : TypeInfo :=
  let owner := fun (d : String) => if d = "" then t.path else d
  { t with
    properties := t.properties.map fun p => { p with declaring := owner p.declaring }
    constants := t.constants.map fun k => { k with declaring := owner k.declaring } }

/-- Why a catalog refuses an entry. -/
inductive Refusal where
  | frozen
  | duplicateType (path : String)

def Refusal.message : Refusal → String
  | frozen => "catalog is frozen"
  | duplicateType path => "duplicate host type " ++ path

/-- Types and primitive aliases in order of registration. -/
structure Catalog where
  types : List TypeInfo := []
  /-- Host paths and the model primitives that they stand for. -/
  aliases : List (String × String) := []
  /-- Model primitives and the first host path registered for each. -/
  natives : List (String × String) := []
  frozen : Bool := false

namespace Catalog

def empty : Catalog := {}

instance : Inhabited Catalog := ⟨empty⟩

def lookup? (c : Catalog) (path : String) : Option TypeInfo := c.types.find? (·.path = path)

def typePaths (c : Catalog) : List String := c.types.map TypeInfo.path

def aliasPaths (c : Catalog) : List String := c.aliases.map Prod.fst

/-- The model primitive that a host path stands for. -/
def primitive? (c : Catalog) (path : String) : Option String := c.aliases.lookup path

/-- The host path that stands for a model primitive. -/
def nativePath? (c : Catalog) (model : String) : Option String := c.natives.lookup model

def addType (c : Catalog) (t : TypeInfo) : Except Refusal Catalog :=
  if c.frozen then .error .frozen
  else if (c.lookup? t.path).isSome then .error (.duplicateType t.path)
  else .ok { c with types := c.types ++ [t.declare] }

/-- Puts an alias at the end of a list, or in the place of an earlier one for the path. -/
def putAlias (path model : String) : List (String × String) → List (String × String)
  | [] => [(path, model)]
  | (p, m) :: rest => if p = path then (p, model) :: rest else (p, m) :: putAlias path model rest

/-- Records an alias whether the catalog is frozen or not. -/
def withAlias (c : Catalog) (path model : String) : Catalog :=
  { c with
    aliases := putAlias path model c.aliases
    natives :=
      if (c.nativePath? model).isSome then c.natives else c.natives ++ [(model, path)] }

/-- Records that a host path stands for a model primitive. The first path of a primitive is the
one by which the host knows it. -/
def addAlias (c : Catalog) (path model : String) : Except Refusal Catalog :=
  if c.frozen then .error .frozen else .ok (c.withAlias path model)

/-- Adds the aliases and types of `other` whose paths are new. -/
def merge (c other : Catalog) : Except Refusal Catalog :=
  if c.frozen then .error .frozen
  else
    let c := other.aliases.foldl
      (fun c (path, model) => if (c.primitive? path).isSome then c else c.withAlias path model) c
    .ok <| other.types.foldl
      (fun c t => if (c.lookup? t.path).isSome then c else { c with types := c.types ++ [t] }) c

def freeze (c : Catalog) : Catalog := { c with frozen := true }

/-- The types met when following bases from `path`, up to the first path that is empty, unknown or
already `seen`. `fuel` bounds their number. -/
def chainFrom (c : Catalog) : Nat → List String → String → List TypeInfo
  | 0, _, _ => []
  | fuel + 1, seen, path =>
    if path = "" || seen.contains path then []
    else
      match c.lookup? path with
      | none => []
      | some t =>
        t ::
          match t.base? with
          | none => []
          | some base => c.chainFrom fuel (path :: seen) base.path

/-- The type at `path` and its bases, nearest first. -/
def chain (c : Catalog) (path : String) : List TypeInfo := c.chainFrom (c.types.length + 1) [] path

/-- The overloads called `name` on the type and its bases, nearest first. -/
def methods (c : Catalog) (path name : String) : List Callable :=
  (c.chain path).flatMap fun t => t.methods.filter (·.name = name)

/-- The constructors of a type. They are not inherited. -/
def constructors (c : Catalog) (path : String) : List Callable :=
  ((c.lookup? path).map TypeInfo.constructors).getD []

def property? (c : Catalog) (path name : String) : Option Property :=
  (c.chain path).findSome? fun t => t.properties.find? (·.name = name)

def constant? (c : Catalog) (path name : String) : Option Constant :=
  (c.chain path).findSome? fun t => t.constants.find? (·.name = name)

end Catalog

end TypeEngine.Host
