import TypeEngine.Proto.Parse

/-!
Linking: names in a schema are resolved to full paths, and the rules that span several elements are
checked. A reference looks for its first part from the innermost scope outwards, and what it finds
there must hold the rest.
-/

namespace TypeEngine.Proto

inductive Symbol where
  | package | message | enum | service
  /-- Fields, values of enums and other elements that hold no others. -/
  | leaf
  deriving DecidableEq, Repr

/-! ### Symbols -/

def Enum.symbols (scope : String) (e : Enum) : List (String × Symbol) :=
  (qualify scope e.name, .enum) :: e.values.map fun v => (qualify scope v.name, .leaf)

/-- The symbols of a message without those of the messages in it. -/
def Message.ownSymbols (path : String) (m : Message) : List (String × Symbol) :=
  (path, .message) :: m.fields.map (fun f => (qualify path f.name, Symbol.leaf)) ++
    m.oneofs.map (fun o => (qualify path o, .leaf)) ++ m.enums.flatMap (Enum.symbols path) ++
    m.extensions.map fun x => (qualify path x.field.name, .leaf)

def Service.symbols (scope : String) (s : Service) : List (String × Symbol) :=
  let path := qualify scope s.name
  (path, .service) :: s.methods.map fun m => (qualify path m.name, .leaf)

def File.symbols (f : File) : List (String × Symbol) :=
  f.allMessages.flatMap (fun (path, m) => m.ownSymbols path) ++
    f.enums.flatMap (Enum.symbols f.package) ++ f.services.flatMap (Service.symbols f.package) ++
    f.extensions.map fun x => (qualify f.package x.field.name, .leaf)

/-- A path and the paths around it, from the inside out. -/
def enclosing (path : String) : List String :=
  (go path.toList.reverse (path.length + 1)).map fun cs => .ofList cs.reverse
where
  go (cs : List Char) : Nat → List (List Char)
    | 0 => []
    | fuel + 1 =>
      if cs.isEmpty then []
      else cs :: go ((cs.dropWhile (· != '.')).drop 1) fuel

def File.packages (f : File) : List String := enclosing f.package

def File.symbol? (f : File) (path : String) : Option Symbol :=
  (f.symbols.lookup path).or (if f.packages.contains path then some .package else none)

/-! ### Resolution -/

/-- The files that a file sees: itself, its imports and what these import publicly. -/
def Library.seenFrom (l : Library) (f : File) : List File :=
  f :: f.imports.flatMap fun i => go (l.files.length + 1) i.path
where
  go : Nat → String → List File
    | 0, _ => []
    | fuel + 1, name =>
      match l.file? name with
      | none => []
      | some g => g :: (g.imports.filter (·.isPublic)).flatMap fun i => go fuel i.path

def seenSymbol? (files : List File) (path : String) : Option Symbol := files.findSome? (·.symbol? path)

/-- What a reference finds in one scope: nothing, or a path with what it stands for. The path may
stand for nothing when only its first part was found. -/
def inScope? (query : String → Option Symbol) (scope first name : String) :
    Option (String × Option Symbol) :=
  let first := qualify scope first
  let name := qualify scope name
  match query first with
  | none => none
  | some s =>
    if first = name then some (name, some s)
    else if s = .leaf then none
    else some (name, query name)

/-- Resolves a reference made inside `scopes`, the messages around it from the inside out. -/
def resolve? (files : List File) (f : File) (scopes : List String) (name : String) :
    Option (String × Symbol) :=
  let seen := seenSymbol? files
  match name.toList with
  | '.' :: cs => (seen (.ofList cs)).map (.ofList cs, ·)
  | cs =>
    let first := String.ofList (cs.takeWhile (· != '.'))
    let found := scopes.map (fun s => inScope? (f.symbols.lookup ·) s first name) ++
      f.packages.map (fun s => inScope? seen s first name) ++ [inScope? seen "" name name]
    let isType := fun (x : String × Option Symbol) =>
      first ≠ name || x.2 = some .message || x.2 = some .enum
    match (found.filterMap id).find? isType with
    | some (path, some s) => some (path, s)
    | _ => none

/-- The messages around a path, which starts with the package. -/
def scopesOf (f : File) (path : String) : List String :=
  (enclosing path).filter fun s => !f.packages.contains s

/-- Resolves the type of a field of the message at `path`. -/
def resolveType? (files : List File) (f : File) (path : String) : FieldType → Option FieldType
  | .scalar s => some (.scalar s)
  | .named name =>
    match resolve? files f (scopesOf f path) name with
    | some (p, .message) => some (.message p)
    | some (p, .enum) => some (.enum p)
    | _ => none
  | .group name => (resolve? files f (scopesOf f path) name).bind fun (p, s) =>
      if s = .message then some (.group p) else none
  | .message p => if seenSymbol? files p = some .message then some (.message p) else none
  | .enum p => if seenSymbol? files p = some .enum then some (.enum p) else none

def resolveField? (files : List File) (f : File) (path : String) (x : Field) : Option Field :=
  (resolveType? files f path x.type).map fun type => { x with type }

def resolveMessage? (files : List File) (f : File) (path name : String) : Option String :=
  (resolve? files f (scopesOf f path) name).bind fun (p, s) => if s = .message then some p else none

def resolveExtension? (files : List File) (f : File) (path : String) (x : Extension) :
    Option Extension := do
  let extendee ← resolveMessage? files f path x.extendee
  return { extendee, field := ← resolveField? files f path x.field }

def Message.resolve? (files : List File) (f : File) (scope : String) : Message → Option Message
  | { name, fields, nested, enums, oneofs, extensions, extensionRanges, reserved, reservedNames,
      isMapEntry } => do
    let path := qualify scope name
    return {
      name, enums, oneofs, extensionRanges, reserved, reservedNames, isMapEntry
      fields := ← fields.mapM (resolveField? files f path)
      nested := ← go path nested
      extensions := ← extensions.mapM (resolveExtension? files f path) }
where
  go (scope : String) : List Message → Option (List Message)
    | [] => some []
    | m :: ms => do return (← m.resolve? files f scope) :: (← go scope ms)

def Service.resolve? (files : List File) (f : File) (s : Service) : Option Service := do
  let methods ← s.methods.mapM fun m => do
    let input ← resolveMessage? files f f.package m.input
    let output ← resolveMessage? files f f.package m.output
    return { m with input, output }
  return { s with methods }

def File.resolve? (l : Library) (f : File) : Option File := do
  let files := l.seenFrom f
  return { f with
    messages := ← f.messages.mapM (·.resolve? files f f.package)
    services := ← f.services.mapM (·.resolve? files f)
    extensions := ← f.extensions.mapM (resolveExtension? files f f.package) }

/-! ### Rules -/

def distinct (xs : List String) : Bool := xs.eraseDups.length = xs.length

def distinctInts (xs : List Int) : Bool := xs.eraseDups.length = xs.length

def apart : List Range → Bool
  | [] => true
  | r :: rs => !rs.any r.meets && apart rs

/-- Numbers of fields, of which some are kept for the encoding itself. -/
def isTag (n : Int) : Bool := 1 ≤ n && n ≤ Parse.maxTag && !(19000 ≤ n && n ≤ 19999)

/-- The name of a value without the name of its enum in front, in words with large initials. -/
def Enum.valueName (e : Enum) (value : String) : String :=
  .ofList (camel true (strip value.toList (e.name.toList.filter (· != '_')) value.toList))
where
  strip (whole : List Char) : List Char → List Char → List Char
    | [], rest => if (rest.dropWhile (· == '_')).isEmpty then whole else rest.dropWhile (· == '_')
    | _ :: _, [] => whole
    | p :: ps, c :: cs =>
      if c == '_' then strip whole (p :: ps) cs
      else if c.toLower == p.toLower then strip whole ps cs
      else whole
  camel : Bool → List Char → List Char
    | _, [] => []
    | raise, c :: cs =>
      if c == '_' then camel true cs else (if raise then c.toUpper else c.toLower) :: camel false cs

/-- Values with one name have one number. -/
def Enum.namesAgree (e : Enum) : Bool :=
  e.values.all fun v => e.values.all fun w =>
    e.valueName v.name ≠ e.valueName w.name || v.number = w.number

def Enum.isValid (proto3 : Bool) (e : Enum) : Bool :=
  let numbers := e.values.map EnumValue.number
  !e.values.isEmpty && numbers.all (fun n => -2147483648 ≤ n && n ≤ 2147483647) &&
    (!proto3 || numbers.head? = some 0) && (distinctInts numbers != e.allowAlias) &&
    e.reserved.all (fun r => r.first ≤ r.last) && apart e.reserved && distinct e.reservedNames &&
    e.values.all (fun v => !e.reserved.any (·.has v.number) && !e.reservedNames.contains v.name) &&
    (!proto3 || e.namesAgree)

/-- Names in JSON are different; those that the schema does not give count in the newer version. -/
def jsonNamesDiffer (proto3 : Bool) (fields : List Field) : Bool :=
  (!proto3 || distinct (fields.map (jsonName ·.name))) &&
    fields.all fun f => f.json?.isNone ||
      (fields.filter fun g => g.json?.getD (jsonName g.name) = f.json?.getD "").length ≤ 1

def Message.isValid (proto3 : Bool) (m : Message) : Bool :=
  let ranges := m.reserved ++ m.extensionRanges
  m.fields.all (fun f =>
      isTag f.number && !ranges.any (·.has f.number) && !m.reservedNames.contains f.name) &&
    distinctInts (m.fields.map Field.number) &&
    ranges.all (fun r => 1 ≤ r.first && r.first ≤ r.last && r.last ≤ Parse.maxTag) && apart ranges &&
    distinct m.reservedNames && m.enums.all (Enum.isValid proto3) && jsonNamesDiffer proto3 m.fields

/-- Messages of the newer version have enums of that version only. -/
def enumsFit (files : List File) (f : File) (m : Message) : Bool :=
  !f.isProto3 || m.fields.all fun x =>
    match x.type with
    | .enum p => files.all fun g => g.isProto3 || g.symbols.lookup p ≠ some .enum
    | _ => true

/-- An added field has a number that its message leaves open for it. -/
def extensionFits (l : Library) (f : File) (x : Extension) : Bool :=
  !f.isProto3 && (l.message? x.extendee).any fun m => m.extensionRanges.any (·.has x.field.number)

def File.allExtensions (f : File) : List Extension :=
  f.extensions ++ f.allMessages.flatMap fun (_, m) => m.extensions

/-- The rules on a linked file by itself and the files it sees. -/
def File.isValid (l : Library) (f : File) : Bool :=
  let files := l.seenFrom f
  f.allMessages.all (fun (_, m) => m.isValid f.isProto3 && enumsFit files f m) &&
    f.enums.all (Enum.isValid f.isProto3) && f.allExtensions.all (extensionFits l f) &&
    distinct (f.symbols.map Prod.fst)

/-- No path stands for two things in the files of a library. -/
def Library.isConsistent (l : Library) : Bool :=
  let names := (l.files.flatMap File.symbols).map Prod.fst
  let packages := l.files.flatMap File.packages
  let extensions := l.files.flatMap File.allExtensions
  distinct names && !names.any packages.contains &&
    distinct (extensions.map fun x => x.extendee ++ " " ++ toString x.field.number)

/-! ### Loading -/

/-- Messages that every schema may import. -/
def wellKnown? : String → Option File
  | "google/protobuf/timestamp.proto" => some (counted "google/protobuf/timestamp.proto" "Timestamp")
  | "google/protobuf/duration.proto" => some (counted "google/protobuf/duration.proto" "Duration")
  | "google/protobuf/any.proto" =>
    some {
      name := "google/protobuf/any.proto", package := "google.protobuf", isProto3 := true
      messages := [{ name := "Any", fields := [
        { name := "type_url", number := 1, type := .scalar .string },
        { name := "value", number := 2, type := .scalar .bytes }] }] }
  | _ => none
where
  counted (file message : String) : File :=
    { name := file, package := "google.protobuf", isProto3 := true
      messages := [{ name := message, fields := [
        { name := "seconds", number := 1, type := .scalar .int64 },
        { name := "nanos", number := 2, type := .scalar .int32 }] }] }

mutual

/-- Loads a file and its imports, which come before it. `above` are the files that led here; none
of them may be met again. -/
def load {m : Type → Type} [Monad m] (find : String → m (Option File)) :
    Nat → List String → Library → String → OptionT m Library
  | 0, _, _, _ => failure
  | fuel + 1, above, l, name => do
    if above.contains name then failure
    else if (l.file? name).isSome then return l
    else
      let f ← OptionT.mk (find name)
      let l ← loadAll find fuel (name :: above) l (f.imports.map Import.path)
      return { l with files := l.files ++ [{ f with name }] }

def loadAll {m : Type → Type} [Monad m] (find : String → m (Option File)) :
    Nat → List String → Library → List String → OptionT m Library
  | 0, _, _, _ => failure
  | _ + 1, _, l, [] => return l
  | fuel + 1, above, l, name :: names => do
    let l ← load find fuel above l name
    loadAll find fuel above l names

end

/-- The longest chain of imports that is followed. -/
def maxImports : Nat := 1000000

/-- Links the files one after the other, each after its imports. -/
def Library.link? (l : Library) : Option Library := do
  let files ← l.files.mapM (·.resolve? l)
  let l := { l with files }
  if l.files.all (·.isValid l) then return l else none

/-- The linked library of the files called `names` and of what they import. `find` reads a file. -/
def Library.ofSources {m : Type → Type} [Monad m] (find : String → m (Option File))
    (names : List String) : OptionT m Library := do
  let l ← loadAll find maxImports [] {} names
  let l ← OptionT.mk (pure l.link?)
  if l.isConsistent then return l else failure

/-- The linked library of descriptions whose references are full paths. -/
def Library.ofFiles? (files : List File) : Option Library := do
  if !distinct (files.map File.name) then none
  let find := fun name => (pure (files.find? (·.name = name)) : Id (Option File))
  let l ← Id.run (loadAll find maxImports [] {} (files.map File.name)).run
  let folded := fun (f : Field) => f.name.toList.filter (· != '_') |>.map Char.toLower
  if l.files.any fun f => f.isProto3 && f.allMessages.any fun (_, m) =>
      !distinct (m.fields.map fun x => .ofList (folded x)) then none
  l.link?

end TypeEngine.Proto
