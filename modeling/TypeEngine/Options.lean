import TypeEngine.Ty.Basic
import TypeEngine.Text.Quoted
import TypeEngine.Yaml.Scalar

/-!
Settings of an engine: its limits, and the sources of the catalogs that it loads.
-/

namespace TypeEngine

structure CatalogSource where
  kind : String := ""
  /-- The file, for catalogs that are read from one. -/
  path : String := ""
  packages : List String := []
  importPaths : List String := []
  /-- The address of a server that describes itself. -/
  target : String := ""

structure Options where
  maxDepth : Int := 0
  tupleListLimit : Int := 0
  cacheDir : String := ""
  catalogs : List CatalogSource := []

namespace Options

def defaultTupleListLimit : Int := 16

def defaultCacheDir : String := ".nstar/catalog-cache"

inductive SourceFault where
  | noPath (kind : String)
  | noPackages
  | noTarget
  | noKind
  | unknownKind (kind : String)

def SourceFault.message : SourceFault → String
  | noPath kind => "path is required for kind " ++ Text.quote kind
  | noPackages => "packages is required for kind go"
  | noTarget => "target is required for kind grpc"
  | noKind => "kind is required"
  | unknownKind kind => "unknown kind " ++ Text.quote kind

inductive OptionsFault where
  /-- The text is no document of the right shape. -/
  | unreadable
  | negativeDepth
  | negativeTupleLimit
  | source (index : Nat) (cause : SourceFault)

def OptionsFault.message (path : String) : OptionsFault → String
  | unreadable => "parsing " ++ path
  | negativeDepth => path ++ ": max_depth must not be negative"
  | negativeTupleLimit => path ++ ": tuple_list_limit must not be negative"
  | source index cause => path ++ ": catalogs[" ++ toString index ++ "]: " ++ cause.message

def SourceFault.find? (s : CatalogSource) : Option SourceFault :=
  match s.kind with
  | "yaml" | "proto" => if s.path = "" then some (.noPath s.kind) else none
  | "go" => if s.packages.isEmpty then some .noPackages else none
  | "grpc" => if s.target = "" then some .noTarget else none
  | "" => some .noKind
  | kind => some (.unknownKind kind)

def fault? (o : Options) : Option OptionsFault :=
  if o.maxDepth < 0 then some .negativeDepth
  else if o.tupleListLimit < 0 then some .negativeTupleLimit
  else o.catalogs.zipIdx.findSome? fun (s, i) => (SourceFault.find? s).map (.source i)

/-- Settings left out take their defaults. -/
def withDefaults (o : Options) : Options :=
  { o with
    maxDepth := if o.maxDepth = 0 then Ty.defaultLimit else o.maxDepth
    tupleListLimit := if o.tupleListLimit = 0 then defaultTupleListLimit else o.tupleListLimit
    cacheDir := if o.cacheDir = "" then defaultCacheDir else o.cacheDir }

open Yaml

def sourceOfNode? (n : Node) : Option CatalogSource := do
  let fs ← n.record?
  return {
    kind := ← Node.member fs "kind" "" Node.text?
    path := ← Node.member fs "path" "" Node.text?
    packages := ← Node.member fs "packages" [] (Node.list? Node.text?)
    importPaths := ← Node.member fs "import_paths" [] (Node.list? Node.text?)
    target := ← Node.member fs "target" "" Node.text? }

def ofNode? (n : Node) : Option Options := do
  let fs ← n.record?
  return {
    maxDepth := ← Node.member fs "max_depth" 0 Node.count?
    tupleListLimit := ← Node.member fs "tuple_list_limit" 0 Node.count?
    cacheDir := ← Node.member fs "cache_dir" "" Node.text?
    catalogs := ← Node.member fs "catalogs" [] (Node.list? sourceOfNode?) }

def ofDocument (root : Option Node) : Except OptionsFault Options :=
  match (root.map ofNode?).getD (some {}) with
  | none => .error .unreadable
  | some o =>
    match o.fault? with
    | some fault => .error fault
    | none => .ok o.withDefaults

def parse (text : String) : Except OptionsFault Options :=
  match Node.parse text with
  | some root => ofDocument root
  | none => .error .unreadable

end Options

end TypeEngine
