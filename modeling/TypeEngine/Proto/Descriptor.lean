/-!
Schemas of protocol buffers: files with messages, enums and services. A reference to a message or
enum is a name as it is written until the file is linked, and a full path from then on.
-/

namespace TypeEngine.Proto

inductive Scalar where
  | double | float | int64 | uint64 | int32 | fixed64 | fixed32 | bool | string | bytes
  | uint32 | sfixed32 | sfixed64 | sint32 | sint64
  deriving DecidableEq, Repr

namespace Scalar

def all : List Scalar :=
  [double, float, int64, uint64, int32, fixed64, fixed32, bool, string, bytes, uint32, sfixed32,
    sfixed64, sint32, sint64]

def name : Scalar → String
  | double => "double"
  | float => "float"
  | int64 => "int64"
  | uint64 => "uint64"
  | int32 => "int32"
  | fixed64 => "fixed64"
  | fixed32 => "fixed32"
  | bool => "bool"
  | string => "string"
  | bytes => "bytes"
  | uint32 => "uint32"
  | sfixed32 => "sfixed32"
  | sfixed64 => "sfixed64"
  | sint32 => "sint32"
  | sint64 => "sint64"

def ofName? (s : String) : Option Scalar := all.find? (·.name = s)

/-- Keys of maps are integers, booleans and texts. -/
def isKey (s : Scalar) : Bool := !([double, float, bytes].contains s)

end Scalar

inductive FieldType where
  | scalar (s : Scalar)
  | message (path : String)
  | group (path : String)
  | enum (path : String)
  /-- A name that stands for a message or an enum. -/
  | named (name : String)
  deriving DecidableEq, Repr

inductive Label where
  | optional | required | repeated
  deriving DecidableEq, Repr

structure Field where
  name : String
  number : Int
  label : Label := .optional
  type : FieldType
  /-- The name in JSON, if the schema gives one. -/
  json? : Option String := none
  inOneof : Bool := false

structure Range where
  first : Int
  last : Int

def Range.has (r : Range) (n : Int) : Bool := r.first ≤ n && n ≤ r.last

def Range.meets (r s : Range) : Bool := r.first ≤ s.last && s.first ≤ r.last

structure EnumValue where
  name : String
  number : Int

structure Enum where
  name : String
  values : List EnumValue := []
  allowAlias : Bool := false
  reserved : List Range := []
  reservedNames : List String := []

/-- A field that a file adds to a message declared elsewhere. -/
structure Extension where
  extendee : String
  field : Field

structure Message where
  name : String
  fields : List Field := []
  nested : List Message := []
  enums : List Enum := []
  oneofs : List String := []
  extensions : List Extension := []
  extensionRanges : List Range := []
  reserved : List Range := []
  reservedNames : List String := []
  /-- The message stands for an entry of a map. -/
  isMapEntry : Bool := false

instance : Inhabited Message := ⟨{ name := "" }⟩

structure Method where
  name : String
  input : String
  output : String
  clientStreaming : Bool := false
  serverStreaming : Bool := false
  deprecated : Bool := false

structure Service where
  name : String
  methods : List Method := []

structure Import where
  path : String
  isPublic : Bool := false

structure File where
  name : String
  package : String := ""
  imports : List Import := []
  isProto3 : Bool := false
  messages : List Message := []
  enums : List Enum := []
  services : List Service := []
  extensions : List Extension := []

def qualify (scope name : String) : String := if scope = "" then name else scope ++ "." ++ name

/-- The name of a field in JSON, unless the schema gives another: letters after underscores are
large, and the underscores are left out. -/
def jsonName (name : String) : String := .ofList (go false name.toList)
where
  go : Bool → List Char → List Char
    | _, [] => []
    | raise, c :: cs =>
      if c = '_' then go true cs else (if raise then c.toUpper else c) :: go false cs

/-- The name of the message that stands for the entries of a map field. -/
def entryName (field : String) : String :=
  match (jsonName field).toList with
  | [] => "Entry"
  | c :: cs => .ofList (c.toUpper :: cs ++ "Entry".toList)

/-- The files that the sources of a catalog are made of. -/
structure Library where
  files : List File := []

def Library.file? (l : Library) (name : String) : Option File := l.files.find? (·.name = name)

/-- A message and the messages in it, with their paths. -/
def Message.withNested (scope : String) : Message → List (String × Message)
  | m@{ name, nested, .. } => (qualify scope name, m) :: go (qualify scope name) nested
where
  go (scope : String) : List Message → List (String × Message)
    | [] => []
    | m :: ms => m.withNested scope ++ go scope ms

def File.allMessages (f : File) : List (String × Message) :=
  f.messages.flatMap (·.withNested f.package)

def Library.message? (l : Library) (path : String) : Option Message :=
  (l.files.flatMap File.allMessages).lookup path

end TypeEngine.Proto
