import TypeEngine.Engine.Supertypes

/-!
Lookup of properties, constants, enumeration members, types and variables. A member is looked for
in the owner's scope and the scopes around it, along the owner's base chain, among the built-in
members and in the host catalog, in this order.
-/

namespace TypeEngine

/-- A resolved property, constant or enumeration member. -/
structure Member where
  name : String
  type : Ty
  value : String := ""
  attributes : Attributes := {}
  scope : Path := .empty
  origin : Origin := .user

/-- The tables in which one kind of member is looked for. -/
structure MemberTable where
  user : Path → String → Option Member
  builtin : Ty → String → Option Member := fun _ _ => none
  /-- The host member and, for constants, its value. -/
  native : String → String → Option (Host.Property × String)

namespace Engine

/-- Substitutes the owner's arguments in the type of a member. -/
def instantiate (e : Engine) (ts : Tables) (m : Member) (owner : Ty) : Except Fault Member :=
  match ts.type? owner.main with
  | none => .ok m
  | some decl => do return { m with type := ← m.type.apply (declSubst decl owner) e.maxDepth }

/-- Looks for a member in the host catalog. The owner's arguments are substituted in members that
its own type declares. -/
def hostMember (e : Engine) (native : String → String → Option (Host.Property × String))
    (owner : Ty) (name : String) : Except Violation (Option Member) := do
  match ← e.hostPath owner with
  | none => return none
  | some path =>
    match native path name with
    | none => return none
    | some (p, value) =>
      match e.catalog.lookup? p.declaring with
      | none => throw (.hostMember path name p.declaring)
      | some declaring =>
        let s :=
          if p.declaring = path then owner.bindParams declaring.typeParams else Subst.empty
        match ← e.instantiateRef p.type s with
        | none => return none
        | some type =>
          let members :=
            (if p.static then [.static] else []) ++ (if p.readOnly then [.const] else [])
          return some
            { name := p.name
              type
              value
              attributes := ⟨members⟩
              scope := declaring.scopePath
              origin := .native }

/-- Looks for a member of `owner` in the given tables. -/
def lookupMember (e : Engine) (owner : Ty) (name : String) (tables : MemberTable) :
    Query (Option Member) := do
  let ts ← Query.tables
  let here := owner.main.outward.findSome? fun scope =>
    (tables.user scope name).map fun m => { m with scope, origin := .user }
  match here with
  | some m =>
    if m.scope == owner.main then return some (← Query.ofFault (e.instantiate ts m owner))
    else return some m
  | none =>
    match ← e.findBase (fun b => (tables.user b.main name).isSome) owner with
    | some base =>
      match tables.user base.main name with
      | some m =>
        let m := { m with scope := base.main, origin := .base }
        return some (← Query.ofFault (e.instantiate ts m base))
      | none => return none
    | none =>
      match tables.builtin owner name with
      | some m => return some { m with scope := owner.main, origin := .builtin }
      | none => Query.ofViolation (e.hostMember tables.native owner name)

def property (e : Engine) (owner : Ty) (name : String) : Query (Option Member) := do
  let ts ← Query.tables
  let member := fun (p : Property) =>
    { name := p.name, type := p.type, attributes := p.attributes : Member }
  e.lookupMember owner name
    { user := fun scope name => (ts.property? scope name).map member
      builtin := fun t name => (Builtin.property? t name).map member
      native := fun path name => (e.catalog.property? path name).map (·, "") }

def constant (e : Engine) (owner : Ty) (name : String) : Query (Option Member) := do
  let ts ← Query.tables
  e.lookupMember owner name
    { user := fun scope name => (ts.constant? scope name).map fun k =>
        { name := k.name, type := k.type, value := k.value, attributes := k.attributes }
      native := fun path name => (e.catalog.constant? path name).map fun k =>
        ({ name := k.name, type := k.type, declaring := k.declaring, static := true,
           readOnly := true }, k.value) }

/-- A member of an enumeration. Its type is the enumeration. -/
def enumMember (e : Engine) (enum : Ty) (name : String) : Query (Option Member) := do
  let ts ← Query.tables
  let member := fun value origin =>
    { name, type := enum, value, attributes := ⟨[.static, .const]⟩, scope := enum.main, origin :
      Member }
  match ts.enumConstant? enum.main name with
  | some k => return some (member k.value .user)
  | none =>
    match ← Query.ofViolation (e.hostInfo enum) with
    | none => return none
    | some info =>
      if info.kind = .enumKind then
        return (e.catalog.constant? info.path name).map fun k => member k.value .native
      else return none

/-- The type called `name` that is visible from a scope: a declared type nested in an enclosing
scope, a primitive, or a catalog type in an enclosing namespace. -/
def typeNamed (e : Engine) (ts : Tables) (scope : Path) (name : String) : Option Ty :=
  match scope.outward.findSome? (ts.nestedType? · name) with
  | some path => some (.mk path [])
  | none =>
    if Ty.isPrimitiveName name then some (.prim name)
    else
      match e.catalog.primitive? name with
      | some model => some (.prim model)
      | none => scope.outward.findSome? fun s =>
        let qualified := ".".intercalate (s.blocks.map Block.name ++ [name])
        (e.catalog.lookup? qualified).map fun info => .mk info.scopePath []

/-- The variable called `name` that is visible from a scope, and where it is declared. -/
def variableNamed (ts : Tables) (scope : Path) (name : String) : Option (Variable × Path) :=
  scope.outward.findSome? fun s => (ts.localVariable? s name).map (·, s)

end Engine

end TypeEngine
