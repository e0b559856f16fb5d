import TypeEngine.Engine.Session

/-!
Host references as types, and types as host references. Host primitives go through the aliases of
the catalog, host collections keep their name, and catalog types become namespaces around a block
of the type's kind.
-/

namespace TypeEngine

namespace Host

def Kind.toBlock : Kind → TypeEngine.Kind
  | classKind => .classType
  | structKind => .structType
  | interfaceKind => .interfaceType
  | enumKind => .enumType
  | delegateKind => .delegateType

def TypeInfo.scopePath (t : TypeInfo) : Path :=
  let outer := if t.namespaceName = "" then [] else Text.segments t.namespaceName
  ⟨outer.map (fun name => { kind := .namespaceLevel, name }) ++
    [{ kind := t.kind.toBlock, name := t.name }]⟩

end Host

namespace Engine

open Host

/-- The primitive of a given name with arguments, if they have a shape that it can take. -/
def modelPrimitive (name : String) (args : List Slot) : Except Violation (Option Ty) :=
  if name = "list" then
    match args with
    | [.type _ elem] => do return some (← Ty.listOf elem)
    | [.value _ text, .type _ elem] =>
      match Numeral.count? text with
      | some n => do return some (← Ty.listN elem n)
      | none => .ok none
    | _ => .ok none
  else if name = "tuple" then .ok ((Slot.types? args).map Ty.tuple)
  else if name = "func" then
    match Slot.types? args with
    | some (ret :: params) => .ok (some (.func ret params))
    | _ => .ok none
  else if name = "ReadOnlySpan" then
    match Slot.types? args with
    | some [elem] => .ok (some (.span elem))
    | _ => .ok none
  else .ok (some (.prim name))

/-- The type at a host path with arguments that are types already. -/
def modelNamed (e : Engine) (path : String) (args : List Slot) : Except Violation (Option Ty) :=
  match e.catalog.primitive? path with
  | some name => modelPrimitive name args
  | none =>
    if Ty.isPrimitiveName path then modelPrimitive path args
    else if Ty.collectionNames.contains path then
      .ok (some (.mk ⟨[{ kind := .classType, name := path }]⟩ (Slot.positional args)))
    else .ok ((e.catalog.lookup? path).map fun info => .mk info.scopePath (Slot.positional args))

mutual

/-- The type of a reference that stands `depth` levels deep. -/
def toModelAt (e : Engine) (depth : Nat) : Ref → Except Violation (Option Ty)
  | .mk path param value args =>
    if e.maxDepth < depth then .ok none
    else if param ≠ "" then .ok (some (.param param))
    else if value ≠ "" then .ok none
    else if path = "" then .ok (some .null)
    else do
      match ← toModelArgs e depth args with
      | some slots => modelNamed e path slots
      | none => return none

def toModelArgs (e : Engine) (depth : Nat) : List Ref → Except Violation (Option (List Slot))
  | [] => .ok (some [])
  | .mk path param value args :: refs => do
    if value ≠ "" then return (← toModelArgs e depth refs).map (.value "" value :: ·)
    else
      match ← toModelAt e (depth + 1) (.mk path param value args) with
      | some t => return (← toModelArgs e depth refs).map (.type "" t :: ·)
      | none => return none

end

/-- The type that a host reference denotes. The absent reference is the null type. -/
def toModel (e : Engine) (r : Ref) : Except Violation (Option Ty) := toModelAt e 0 r

def nativeName (e : Engine) (model : String) : String := (e.catalog.nativePath? model).getD model

def wrapRef (path : String) : Nat → Ref → Ref
  | 0, r => r
  | n + 1, r => wrapRef path n (.ofPath path [r])

/-- The reference at the path of a type, given the references of its arguments. -/
def nativeNamed (e : Engine) (main : Path) (args : List Ref) : Option Ref :=
  if main.isPrimitive then some (.ofPath (e.nativeName main.leaf) args)
  else if main.isEmpty then none
  else some (.ofPath (".".intercalate (main.blocks.map Block.name)) args)

mutual

/-- The reference of a type that stands `depth` levels deep. Counted lists are written out. -/
def toNativeAt (e : Engine) (depth : Nat) : Ty → Except Violation (Option Ref)
  | .mk main extra =>
    if e.maxDepth < depth then .ok none
    else if extra.isEmpty && main.isParameter then .ok (some (.ofParam main.leaf))
    else if main == .ofPrimitive "list" then
      match extra with
      | [.type _ elem] => do
        return (← toNativeAt e (depth + 1) elem).map (wrapRef (e.nativeName "list") 1)
      | [.value _ text, .type _ elem] =>
        match Numeral.count? text with
        | some n => do
          return (← toNativeAt e (depth + 1) elem).map (wrapRef (e.nativeName "list") n.toNat)
        | none => .error (.listCount text)
      | slots => (Ty.layersOf slots).map fun _ => none
    else do return (← toNativeSlots e depth extra).bind (nativeNamed e main)

def toNativeSlots (e : Engine) (depth : Nat) : List Slot → Except Violation (Option (List Ref))
  | [] => .ok (some [])
  | .value _ text :: slots => do return (← toNativeSlots e depth slots).map (.ofValue text :: ·)
  | .type _ t :: slots => do
    match ← toNativeAt e (depth + 1) t with
    | some r => return (← toNativeSlots e depth slots).map (r :: ·)
    | none => return none

end

def toNative (e : Engine) (t : Ty) : Except Violation (Option Ref) := toNativeAt e 0 t

def hostPath (e : Engine) (t : Ty) : Except Violation (Option String) := do
  return ((← e.toNative t).map Ref.path).filter (· ≠ "")

def hostInfo (e : Engine) (t : Ty) : Except Violation (Option TypeInfo) := do
  return (← e.hostPath t).bind e.catalog.lookup?

/-- The type of a reference, with substitutes for the parameters of the receiver. -/
def instantiateRef (e : Engine) (r : Ref) (s : Subst) : Except Violation (Option Ty) := do
  match ← e.toModel r with
  | none => return none
  | some t =>
    match t.apply s e.maxDepth with
    | .ok t => return some t
    | .error (.broken v) => throw v
    | .error _ => return none

/-- The parameters of a callable, unless one of them has no type here. -/
def hostParams (e : Engine) (s : Subst) : List Param → Except Violation (Option (List Parameter))
  | [] => .ok (some [])
  | p :: ps => do
    match ← e.instantiateRef p.type s with
    | none => return none
    | some type =>
      let flags : ParamFlags :=
        { optional := p.optional, variadic := p.variadic, ref := p.ref, out := p.out }
      let param : Parameter := { type, name := p.name, flags, default? := p.default? }
      return (← hostParams e s ps).map (param :: ·)

/-- The overload of a callable. Its own type parameters stay generic. -/
def hostOverload (e : Engine) (c : Callable) (s : Subst) : Except Violation (Option Overload) := do
  match ← e.instantiateRef c.ret s with
  | none => return none
  | some ret =>
    let members :=
      (if c.static then [.static] else []) ++ (if c.abstract then [.abstract] else []) ++
        (if c.deprecated = .none then [] else [.deprecated])
    let restrictions := c.typeParams.map fun name => { name }
    return (← hostParams e s c.params).map fun params =>
      { restrictions, ret, attributes := ⟨members⟩, params }

end Engine

end TypeEngine
