import TypeEngine.Host.Catalog
import TypeEngine.Proto.Inquiry

/-!
Catalogs of schemas. Messages are structures with a property for each field, enums have their
values as constants, and services are interfaces.
-/

namespace TypeEngine.Proto

open Host (Catalog TypeInfo Callable Ref)

/-- Scalars, and the messages that stand for primitives of the model. -/
def aliases : List (String × String) :=
  [("bool", "bool"), ("byte", "byte"), ("int32", "int"), ("sint32", "int"), ("sfixed32", "int"),
    ("uint32", "uint"), ("fixed32", "uint"), ("int64", "long"), ("sint64", "long"),
    ("sfixed64", "long"), ("uint64", "ulong"), ("fixed64", "ulong"), ("double", "real"),
    ("float", "real"), ("string", "string"), ("list", "list"),
    ("google.protobuf.Timestamp", "DateTime"), ("google.protobuf.Duration", "TimeSpan"),
    ("google.protobuf.Any", "object")]

def startingCatalog : Catalog :=
  aliases.foldl (fun c (path, model) => c.withAlias path model) .empty

/-- Something that a catalog describes, with its path. -/
inductive Item where
  | message (path : String) (m : Message)
  | enum (path : String) (e : Enum)
  | service (path : String) (s : Service)

/-- A message, what is declared in it, and so on. Entries of maps and messages that stand for
primitives are left out with all that is in them. -/
def Message.items (scope : String) : Message → List Item
  | m@{ name, nested, enums, isMapEntry, .. } =>
    let path := qualify scope name
    if isMapEntry || (aliases.lookup path).isSome then []
    else .message path m :: go path nested ++ enums.map fun e => .enum (qualify path e.name) e
where
  go (scope : String) : List Message → List Item
    | [] => []
    | m :: ms => m.items scope ++ go scope ms

def File.items (f : File) : List Item :=
  f.messages.flatMap (·.items f.package) ++ f.enums.map (fun e => .enum (qualify f.package e.name) e) ++
    f.services.map fun s => .service (qualify f.package s.name) s

/-- Everything before the last point of a path, and what follows it. -/
def splitPath (path : String) : String × String :=
  let name := (path.toList.reverse.takeWhile (· != '.')).reverse
  (.ofList (path.toList.take (path.length - name.length - 1)), .ofList name)

/-! ### References -/

def mapPath : String := "Map"

def listOf (r : Ref) : Ref := .ofPath "list" [r]

def FieldType.ref : FieldType → Ref
  | .scalar .bytes => listOf (.ofPath "byte")
  | .scalar s => .ofPath s.name
  | .message path | .group path | .enum path | .named path => .ofPath path

/-- The message that stands for the entries of a field, if the field is a map. -/
def Library.entry? (l : Library) (f : Field) : Option Message :=
  match f.type with
  | .message path | .group path => (l.message? path).filter (·.isMapEntry)
  | _ => none

def Message.refOf (m : Message) (number : Int) : Ref :=
  ((m.fields.find? (·.number = number)).map fun f => f.type.ref).getD .absent

def Library.fieldRef (l : Library) (f : Field) : Ref :=
  match l.entry? f with
  | some entry => .ofPath mapPath [entry.refOf 1, entry.refOf 2]
  | none => if f.label = .repeated then listOf f.type.ref else f.type.ref

/-! ### Types -/

def Method.callable (m : Method) : Callable :=
  let streamed := fun (many : Bool) (path : String) =>
    if many then listOf (.ofPath path) else Ref.ofPath path
  { name := m.name
    params := [{ name := "request", type := streamed m.clientStreaming m.input }]
    ret := streamed m.serverStreaming m.output
    abstract := true
    deprecated := if m.deprecated then .warning else .none }

def Item.info (l : Library) : Item → TypeInfo
  | .message path m =>
    let (namespaceName, name) := splitPath path
    { namespaceName, name, kind := .structKind
      constructors := [{ name }]
      properties := m.fields.map fun f => { name := f.name, type := l.fieldRef f } }
  | .enum path e =>
    let (namespaceName, name) := splitPath path
    { namespaceName, name, kind := .enumKind
      constants := e.values.map fun v =>
        { name := v.name, type := .ofPath path, value := toString v.number } }
  | .service path s =>
    let (namespaceName, name) := splitPath path
    { namespaceName, name, kind := .interfaceKind, methods := s.methods.map Method.callable }

def Item.usesMap (l : Library) : Item → Bool
  | .message _ m => m.fields.any fun f => (l.entry? f).isSome
  | _ => false

/-! ### Catalogs -/

/-- The files reached from `names` through imports: each once, imports first. The first list holds
the names met so far. -/
def Library.reach (l : Library) : Nat → List String × List File → List String → List String × List File
  | 0, done, _ => done
  | _ + 1, done, [] => done
  | fuel + 1, (seen, files), name :: names =>
    if seen.contains name then l.reach fuel (seen, files) names
    else
      match l.file? name with
      | none => l.reach fuel (seen, files) names
      | some f =>
        let (seen, files) := l.reach fuel (name :: seen, files) (f.imports.map Import.path)
        l.reach fuel (seen, files ++ [f]) names

def Library.reached (l : Library) (roots : List String) : List File :=
  let steps := roots.length + l.files.length + (l.files.flatMap File.imports).length + 1
  (l.reach steps ([], []) roots).2

def Library.catalog (l : Library) (roots : List String) : Except Host.Refusal Catalog := do
  let items := (l.reached roots).flatMap File.items
  let c ← (items.map (·.info l)).foldlM Catalog.addType startingCatalog
  let map : TypeInfo := { name := mapPath, typeParams := ["K", "V"] }
  let c := if items.any (·.usesMap l) then (c.addType map).toOption.getD c else c
  return c.freeze

/-- Reads a catalog from the texts of schema files. -/
def catalogOfSources {m : Type → Type} [Monad m] (sources : String → m (Option String))
    (names : List String) (parser : Parser := .builtin) : OptionT m (Except Host.Refusal Catalog) := do
  let l ← OptionT.mk ((parser names).run sources)
  return l.catalog names

/-! ### Servers that describe themselves -/

/-- Why the description of a server cannot be read. -/
inductive ServerFault where
  | unknownService (name : String)
  | refused (cause : Host.Refusal)

def ServerFault.message : ServerFault → String
  | unknownService name => "resolving service " ++ name
  | refused cause => cause.message

def Library.declaring? (l : Library) (service : String) : Option File :=
  l.files.find? fun f => f.services.any fun s => qualify f.package s.name = service

/-- The catalog of the services of a server, which lists them by name. Those by which it describes
itself are left out. -/
def Library.catalogOfServices (l : Library) (services : List String) : Except ServerFault Catalog := do
  let listed := services.mergeSort fun a b => a ≤ b
  let own := listed.filter fun s => !("grpc.reflection.".toList).isPrefixOf s.toList
  let files ← own.mapM fun s =>
    match l.declaring? s with
    | some f => pure f.name
    | none => throw (.unknownService s)
  (l.catalog files.eraseDups).mapError .refused

end TypeEngine.Proto
