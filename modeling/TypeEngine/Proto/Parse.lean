import TypeEngine.Proto.Descriptor
import TypeEngine.Proto.Token

/-!
Schema files as text. A map field stands for a repeated field and a message for its entries, and a
group for a field and a message.
-/

namespace TypeEngine.Proto

abbrev Parse (α : Type) := StateT (List Token) Option α

namespace Parse

def fail {α : Type} : Parse α := fun _ => none

def peek : Parse (Option Token) := do return (← get).head?

def skip : Parse Unit := modify List.tail

def took (c : Char) : Parse Bool := do
  if (← peek) = some (.mark c) then
    skip
    return true
  else return false

def mark (c : Char) : Parse Unit := do
  if !(← took c) then fail

def tookWord (s : String) : Parse Bool := do
  if (← peek) = some (.word s) then
    skip
    return true
  else return false

def keyword (s : String) : Parse Unit := do
  if !(← tookWord s) then fail

def word : Parse String := do
  match ← peek with
  | some (.word s) => skip; return s
  | _ => fail

def integer : Parse Nat := do
  match ← peek with
  | some (.integer n) => skip; return n
  | _ => fail

def texts : Nat → Parse String
  | 0 => fail
  | fuel + 1 => do
    match ← peek with
    | some (.text s) =>
      skip
      match ← peek with
      | some (.text _) => return s ++ (← texts fuel)
      | _ => return s
    | _ => fail

def text : Parse String := do texts ((← get).length + 1)

def dotted : Nat → Parse String
  | 0 => fail
  | fuel + 1 => do
    let s ← word
    if ← took '.' then return s ++ "." ++ (← dotted fuel) else return s

def path : Parse String := do dotted ((← get).length + 1)

/-- A reference to a message or enum; one that starts with a point is a full path. -/
def reference : Parse String := do
  if ← took '.' then return "." ++ (← path) else path

/-! ### Options -/

/-- The part of a schema that an option belongs to. -/
inductive Owner where
  | file | message | field | oneof | enum | enumValue | service | method | extensionRange
  deriving DecidableEq

inductive OptionValue where
  | word (s : String)
  | text (s : String)
  | number
  | record
  deriving DecidableEq

inductive OptionType where
  | flag
  | text
  | choice (names : List String)

def optionType? : Owner → String → Option OptionType
  | .file, "java_package" | .file, "java_outer_classname" | .file, "go_package"
  | .file, "objc_class_prefix" | .file, "csharp_namespace" | .file, "swift_prefix"
  | .file, "php_class_prefix" | .file, "php_namespace" | .file, "php_metadata_namespace"
  | .file, "ruby_package" | .field, "json_name" => some .text
  | .file, "java_multiple_files" | .file, "java_generate_equals_and_hash"
  | .file, "java_string_check_utf8" | .file, "cc_generic_services"
  | .file, "java_generic_services" | .file, "py_generic_services" | .file, "deprecated"
  | .file, "cc_enable_arenas" | .message, "message_set_wire_format"
  | .message, "no_standard_descriptor_accessor" | .message, "deprecated"
  | .message, "deprecated_legacy_json_field_conflicts" | .field, "packed" | .field, "lazy"
  | .field, "unverified_lazy" | .field, "deprecated" | .field, "weak" | .field, "debug_redact"
  | .enum, "allow_alias" | .enum, "deprecated"
  | .enum, "deprecated_legacy_json_field_conflicts" | .enumValue, "deprecated"
  | .enumValue, "debug_redact" | .service, "deprecated" | .method, "deprecated" => some .flag
  | .file, "optimize_for" => some (.choice ["SPEED", "CODE_SIZE", "LITE_RUNTIME"])
  | .field, "ctype" => some (.choice ["STRING", "CORD", "STRING_PIECE"])
  | .field, "jstype" => some (.choice ["JS_NORMAL", "JS_STRING", "JS_NUMBER"])
  | .field, "retention" =>
    some (.choice ["RETENTION_UNKNOWN", "RETENTION_RUNTIME", "RETENTION_SOURCE"])
  | .method, "idempotency_level" =>
    some (.choice ["IDEMPOTENCY_UNKNOWN", "NO_SIDE_EFFECTS", "IDEMPOTENT"])
  | _, _ => none

def OptionType.takes : OptionType → OptionValue → Bool
  | .flag, .word s => s = "true" || s = "false"
  | .text, .text _ => true
  | .choice names, .word s => names.contains s
  | _, _ => false

/-- Drops tokens up to the bracket that closes an open one. -/
def balanced : Nat → Nat → Parse Unit
  | 0, _ => fail
  | fuel + 1, depth => do
    match ← peek with
    | none => fail
    | some (.mark '{') => skip; balanced fuel (depth + 1)
    | some (.mark '}') => skip; if depth = 1 then return else balanced fuel (depth - 1)
    | some _ => skip; balanced fuel depth

def optionValue : Parse OptionValue := do
  if ← took '{' then
    balanced ((← get).length + 1) 1
    return .record
  let signed ← (return (← took '-') || (← took '+') : Parse Bool)
  match ← peek with
  | some (.integer _) | some .real => skip; return .number
  | some (.word s) =>
    skip
    if signed then (if ["inf", "nan"].contains s then return .number else fail) else return .word s
  | some (.text _) => if signed then fail else return .text (← text)
  | _ => fail

/-- An option that the owner knows, with its value. -/
def setting (owner : Owner) : Parse (String × OptionValue) := do
  let name ← word
  mark '='
  let value ← optionValue
  match optionType? owner name with
  | some type => if type.takes value then return (name, value) else fail
  | none => if owner = .field && name = "default" then return (name, value) else fail

def settings (owner : Owner) : Nat → Parse (List (String × OptionValue))
  | 0 => fail
  | fuel + 1 => do
    let s ← setting owner
    if ← took ',' then return s :: (← settings owner fuel)
    mark ']'
    return [s]

/-- The options in square brackets after an element, if there are any. -/
def bracketed (owner : Owner) : Parse (List (String × OptionValue)) := do
  if ← took '[' then settings owner ((← get).length + 1) else return []

/-- An option on a line of its own, after its keyword. -/
def statement (owner : Owner) : Parse (String × OptionValue) := do
  let s ← setting owner
  mark ';'
  return s

def isSet (name : String) (options : List (String × OptionValue)) : Bool :=
  options.contains (name, .word "true")

def distinctNames (options : List (String × OptionValue)) : Bool :=
  let names := options.map Prod.fst
  names.eraseDups.length = names.length

/-! ### Numbers -/

def maxTag : Int := 536870911

def rangeEnd (first max : Int) (signed : Bool) : Parse Int := do
  if ← tookWord "to" then
    if ← tookWord "max" then return max
    number signed
  else return first
where
  number (signed : Bool) : Parse Int := do
    if signed then
      if ← took '-' then return -((← integer : Nat) : Int)
    return (← integer : Nat)

def signedNumber (signed : Bool) : Parse Int := rangeEnd.number signed

def ranges (max : Int) (signed : Bool) : Nat → Parse (List Range)
  | 0 => fail
  | fuel + 1 => do
    let first ← signedNumber signed
    let last ← rangeEnd first max signed
    if ← took ',' then return ⟨first, last⟩ :: (← ranges max signed fuel) else return [⟨first, last⟩]

def names : Nat → Parse (List String)
  | 0 => fail
  | fuel + 1 => do
    let s ← text
    if ← took ',' then return s :: (← names fuel) else return [s]

def reservedPart (max : Int) (signed : Bool) : Parse (List Range × List String) := do
  let fuel := (← get).length + 1
  let part ← match ← peek with
    | some (.text _) => pure ([], ← names fuel)
    | _ => pure (← ranges max signed fuel, [])
  mark ';'
  return part

/-! ### Fields -/

def typeOf (name : String) : FieldType :=
  match Scalar.ofName? name with
  | some s => .scalar s
  | none => .named name

/-- The options of a field: its name in JSON, and whether they may stand there. -/
def fieldOptions (proto3 : Bool) (type : FieldType) (label : Label) : Parse (Option String) := do
  let options ← bracketed .field
  if !distinctNames options then fail
  let json? := match options.lookup "json_name" with
    | some (.text s) => some s
    | _ => none
  if options.any (·.1 = "default") then
    if proto3 || label = .repeated then fail
    let some value := options.lookup "default" | fail
    if !defaultFits type value then fail
  if options.any (·.1 = "packed") then
    let packable := match type with
      | .scalar s => !(s = .string || s = .bytes)
      | .named _ => true
      | _ => false
    if label ≠ .repeated || !packable then fail
  return json?
where
  /-- Whether a default value is of the type of its field. -/
  defaultFits : FieldType → OptionValue → Bool
    | .scalar .bool, .word s => s = "true" || s = "false"
    | .scalar .string, .text _ | .scalar .bytes, .text _ => true
    | .scalar .double, .word s | .scalar .float, .word s => s = "inf" || s = "nan"
    | .scalar s, .number => !([Scalar.bool, .string, .bytes].contains s)
    | .named _, .word _ => true
    | _, _ => false

def fieldRest (proto3 : Bool) (label : Label) (type : FieldType) (inOneof : Bool) : Parse Field := do
  let name ← word
  mark '='
  let number ← integer
  let json? ← fieldOptions proto3 type label
  mark ';'
  return { name, number, label, type, json?, inOneof }

/-- A field of a map, after its keyword, and the message of its entries. -/
def mapField (proto3 : Bool) : Parse (Field × Message) := do
  mark '<'
  let some key := Scalar.ofName? (← word) | fail
  if !key.isKey then fail
  mark ','
  let value := typeOf (← reference)
  mark '>'
  let f ← fieldRest proto3 .repeated (.named "") false
  let entry := entryName f.name
  return ({ f with type := .named entry },
    { name := entry, isMapEntry := true,
      fields := [
        { name := "key", number := 1, type := .scalar key },
        { name := "value", number := 2, type := value }] })

def label? : Parse (Option Label) := do
  if ← tookWord "optional" then return some .optional
  if ← tookWord "required" then return some .required
  if ← tookWord "repeated" then return some .repeated
  return none

/-- The next tokens are a keyword and something that can follow it there. -/
def startsWith (keyword : String) (follows : Token → Bool) : Parse Bool := do
  match ← get with
  | .word s :: t :: _ => return s = keyword && follows t
  | _ => return false

def isWord : Token → Bool
  | .word _ => true
  | _ => false

def isMark (c : Char) : Token → Bool
  | .mark d => c = d
  | _ => false

/-! ### Enums -/

def enumBody : Nat → Enum → Parse Enum
  | 0, _ => fail
  | fuel + 1, e => do
    if ← took '}' then return e
    if ← took ';' then enumBody fuel e
    else if ← startsWith "option" isWord then
      skip
      let s ← statement .enum
      enumBody fuel { e with allowAlias := e.allowAlias || isSet "allow_alias" [s] }
    else if ← startsWith "reserved" (fun t => !isMark '=' t) then
      skip
      let (rs, ns) ← reservedPart 2147483647 true
      enumBody fuel { e with reserved := e.reserved ++ rs, reservedNames := e.reservedNames ++ ns }
    else
      let name ← word
      mark '='
      let number ← signedNumber true
      let options ← bracketed .enumValue
      if !distinctNames options then fail
      mark ';'
      enumBody fuel { e with values := e.values ++ [{ name, number }] }

def enumDecl : Parse Enum := do
  let name ← word
  mark '{'
  enumBody ((← get).length + 1) { name }

/-! ### Messages -/

mutual

/-- The parts of a message up to its closing brace. -/
def messageBody (proto3 : Bool) : Nat → Message → Parse Message
  | 0, _ => fail
  | fuel + 1, m => do
    if ← took '}' then return m
    if ← took ';' then messageBody proto3 fuel m
    else if ← startsWith "option" isWord then
      skip
      discard (statement .message)
      messageBody proto3 fuel m
    else if ← startsWith "message" isWord then
      skip
      let name ← word
      mark '{'
      let inner ← messageBody proto3 fuel { name }
      messageBody proto3 fuel { m with nested := m.nested ++ [inner] }
    else if ← startsWith "enum" isWord then
      skip
      let e ← enumDecl
      messageBody proto3 fuel { m with enums := m.enums ++ [e] }
    else if ← startsWith "oneof" isWord then
      skip
      let name ← word
      mark '{'
      let before := m.fields.length
      let m ← oneofBody proto3 fuel { m with oneofs := m.oneofs ++ [name] }
      if m.fields.length = before then fail
      messageBody proto3 fuel m
    else if ← startsWith "extend" (fun t => isWord t || isMark '.' t) then
      skip
      let extendee ← reference
      mark '{'
      let (extensions, groups) ← extendBody proto3 fuel extendee [] []
      if extensions.isEmpty then fail
      messageBody proto3 fuel
        { m with extensions := m.extensions ++ extensions, nested := m.nested ++ groups }
    else if ← startsWith "extensions" (fun t => !isWord t && !isMark '.' t) then
      skip
      if proto3 then fail
      let rs ← ranges maxTag false ((← get).length + 1)
      discard (bracketed .extensionRange)
      mark ';'
      messageBody proto3 fuel { m with extensionRanges := m.extensionRanges ++ rs }
    else if ← startsWith "reserved" (fun t => !isWord t && !isMark '.' t) then
      skip
      let (rs, ns) ← reservedPart maxTag false
      messageBody proto3 fuel
        { m with reserved := m.reserved ++ rs, reservedNames := m.reservedNames ++ ns }
    else if ← startsWith "map" (isMark '<') then
      skip
      let (f, entry) ← mapField proto3
      messageBody proto3 fuel { m with fields := m.fields ++ [f], nested := m.nested ++ [entry] }
    else
      let (f, group) ← labelled proto3 fuel
      messageBody proto3 fuel { m with fields := m.fields ++ [f], nested := m.nested ++ group }

/-- A field with its label, and the message that comes with a group. -/
def labelled (proto3 : Bool) : Nat → Parse (Field × List Message)
  | 0 => fail
  | fuel + 1 => do
    let label ← label?
    if proto3 && label = some .required then fail
    if !proto3 && label = none then fail
    let label' := label.getD .optional
    if label.isSome && (← startsWith "group" isWord) then
      skip
      groupRest proto3 label' false fuel
    else
      let type := typeOf (← reference)
      return (← fieldRest proto3 label' type false, [])

def groupRest (proto3 : Bool) (label : Label) (inOneof : Bool) : Nat → Parse (Field × List Message)
  | 0 => fail
  | fuel + 1 => do
    if proto3 then fail
    let name ← word
    if !(name.toList.head?.any Char.isUpper) then fail
    mark '='
    let number ← integer
    discard (fieldOptions proto3 (.group name) label)
    mark '{'
    let body ← messageBody proto3 fuel { name }
    let lower := String.ofList (name.toList.map Char.toLower)
    return ({ name := lower, number, label, type := .group name, inOneof }, [body])

/-- The fields of a oneof, which have no labels. -/
def oneofBody (proto3 : Bool) : Nat → Message → Parse Message
  | 0, _ => fail
  | fuel + 1, m => do
    if ← took '}' then return m
    if ← startsWith "option" isWord then
      skip
      discard (statement .oneof)
      oneofBody proto3 fuel m
    else if ← startsWith "group" isWord then
      skip
      let (f, group) ← groupRest proto3 .optional true fuel
      oneofBody proto3 fuel { m with fields := m.fields ++ [f], nested := m.nested ++ group }
    else
      let type := typeOf (← reference)
      let f ← fieldRest proto3 .optional type true
      oneofBody proto3 fuel { m with fields := m.fields ++ [f] }

def extendBody (proto3 : Bool) : Nat → String → List Extension → List Message →
    Parse (List Extension × List Message)
  | 0, _, _, _ => fail
  | fuel + 1, extendee, extensions, groups => do
    if ← took '}' then return (extensions, groups)
    if ← took ';' then extendBody proto3 fuel extendee extensions groups
    else
      let (field, group) ← labelled proto3 fuel
      if field.label = .required then fail
      extendBody proto3 fuel extendee (extensions ++ [{ extendee, field }]) (groups ++ group)

end

/-! ### Services -/

/-- The type of a request or a response, and whether there is a stream of them. -/
def streamed : Parse (String × Bool) := do
  mark '('
  let stream ← startsWith "stream" fun t => isWord t || isMark '.' t
  if stream then skip
  let type ← reference
  mark ')'
  return (type, stream)

def methodOptions : Nat → List (String × OptionValue) → Parse (List (String × OptionValue))
  | 0, _ => fail
  | fuel + 1, options => do
    if ← took '}' then return options
    if ← took ';' then methodOptions fuel options
    else
      keyword "option"
      let s ← statement .method
      methodOptions fuel (options ++ [s])

def methodDecl : Parse Method := do
  let name ← word
  let (input, clientStreaming) ← streamed
  keyword "returns"
  let (output, serverStreaming) ← streamed
  let options ←
    if ← took '{' then methodOptions ((← get).length + 1) []
    else
      mark ';'
      pure []
  if !distinctNames options then fail
  return { name, input, output, clientStreaming, serverStreaming, deprecated := isSet "deprecated" options }

def serviceBody : Nat → Service → Parse Service
  | 0, _ => fail
  | fuel + 1, s => do
    if ← took '}' then return s
    if ← took ';' then serviceBody fuel s
    else if ← tookWord "option" then
      discard (statement .service)
      serviceBody fuel s
    else
      keyword "rpc"
      let m ← methodDecl
      serviceBody fuel { s with methods := s.methods ++ [m] }

/-! ### Files -/

/-- The parts of a file. `hasPackage` tells whether its package has been given. -/
def fileBody : Nat → Bool → List String → File → Parse File
  | 0, _, _, _ => fail
  | fuel + 1, hasPackage, options, f => do
    match ← peek with
    | none => return f
    | some (.mark ';') => skip; fileBody fuel hasPackage options f
    | some (.word "package") =>
      skip
      let package ← path
      mark ';'
      if hasPackage then fail
      fileBody fuel true options { f with package }
    | some (.word "import") =>
      skip
      let isPublic ← tookWord "public"
      if !isPublic then discard (tookWord "weak")
      let path ← text
      mark ';'
      if f.imports.any (·.path = path) then fail
      fileBody fuel hasPackage options { f with imports := f.imports ++ [{ path, isPublic }] }
    | some (.word "option") =>
      skip
      let (name, _) ← statement .file
      if options.contains name then fail
      fileBody fuel hasPackage (name :: options) f
    | some (.word "message") =>
      skip
      let name ← word
      mark '{'
      let m ← messageBody f.isProto3 fuel { name }
      fileBody fuel hasPackage options { f with messages := f.messages ++ [m] }
    | some (.word "enum") =>
      skip
      let e ← enumDecl
      fileBody fuel hasPackage options { f with enums := f.enums ++ [e] }
    | some (.word "service") =>
      skip
      let name ← word
      mark '{'
      let s ← serviceBody fuel { name }
      fileBody fuel hasPackage options { f with services := f.services ++ [s] }
    | some (.word "extend") =>
      skip
      let extendee ← reference
      mark '{'
      let (extensions, groups) ← extendBody f.isProto3 fuel extendee [] []
      if extensions.isEmpty then fail
      fileBody fuel hasPackage options
        { f with extensions := f.extensions ++ extensions, messages := f.messages ++ groups }
    | _ => fail

/-- The version in the first statement; files without one are of the second version. -/
def version : Parse Bool := do
  if ← startsWith "syntax" (isMark '=') then
    skip
    skip
    let v ← text
    mark ';'
    if v = "proto3" then return true else if v = "proto2" then return false else fail
  else return false

def file (name : String) : Parse File := do
  let isProto3 ← version
  fileBody (2 * (← get).length + 1) false [] { name, isProto3 }

end Parse

/-- The schema file called `name` with the given text. -/
def File.parse (name text : String) : Option File := do
  let ts ← tokens text
  let (f, _) ← (Parse.file name).run ts
  return f

end TypeEngine.Proto
