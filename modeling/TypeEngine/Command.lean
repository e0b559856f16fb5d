import TypeEngine.Engine.Compatibility
import TypeEngine.Engine.HostType
import TypeEngine.Engine.Promotion
import TypeEngine.Storage.Open
import TypeEngine.Ty.Text

/-!
The commands of the command line. A command reads files through a storage and answers what is to be
printed.
-/

namespace TypeEngine.Command

open Host (Catalog)
open Storage (LoadFault)

/-- What a command prints, and the status it ends with. -/
structure Outcome where
  stdout : String := ""
  stderr : String := ""
  exit : Nat := 0

def usage : String :=
  "Usage: nstar <command> [arguments]\n" ++
  "\n" ++
  "Commands:\n" ++
  "  catalog yaml <file>                 normalise a YAML catalog\n" ++
  "  catalog go <dir> <pattern>...       describe Go packages as a YAML catalog\n" ++
  "  catalog proto <file> [-I dir]...    describe .proto files as a YAML catalog\n" ++
  "  catalog grpc <target>               describe a server via gRPC reflection\n" ++
  "  compat <src> <dst>                  can a <src> value be used as <dst>?\n" ++
  "  promote <a> <b>                     result type of a binary arithmetic operation\n" ++
  "  show <type>                         canonical display form and host mapping\n" ++
  "  help                                this message\n" ++
  "\n" ++
  "Types use the display syntax, e.g. \"list(2) int\", \"(int^3)\", \"Geo.Box[long]\".\n" ++
  "compat, promote and show load the catalogs listed in the nearest nstar.yaml.\n"

/-- Why a command fails. -/
inductive CommandFault where
  | usage (form : String)
  | unknownKind (kind : String)
  | load (cause : LoadFault)
  | engine (cause : Fault)

def CommandFault.message : CommandFault → String
  | usage form => "usage: nstar " ++ form
  | unknownKind kind => "unknown catalog kind " ++ Text.quote kind
  | load cause => cause.message
  | engine (.broken v) => "internal error: " ++ (Fault.broken v).message
  | engine cause => cause.message

variable {m : Type → Type} [Monad m] [Storage m]

/-- The rest of the work in a command that has loaded something. -/
def loaded {α : Type} (x : ExceptT LoadFault m α) : ExceptT CommandFault m α := x.adapt .load

def engineStep {α : Type} (x : Except Fault α) : ExceptT CommandFault m α :=
  ExceptT.mk (pure (x.mapError .engine))

/-! ### Catalogs -/

/-- Splits arguments into directories for imports and files. -/
def importsAndFiles : List String → List String × List String
  | [] => ([], [])
  | [arg] =>
    if "-I".toList.isPrefixOf arg.toList then ([.ofList (arg.toList.drop 2)], []) else ([], [arg])
  | arg :: next :: rest =>
    if arg = "-I" then
      let (imports, files) := importsAndFiles rest
      (next :: imports, files)
    else
      let (imports, files) := importsAndFiles (next :: rest)
      if "-I".toList.isPrefixOf arg.toList then (.ofList (arg.toList.drop 2) :: imports, files)
      else (imports, arg :: files)

def catalogOf (kind : String) (args : List String) : ExceptT CommandFault m Catalog :=
  match kind, args with
  | "yaml", path :: _ => loaded (Storage.loadCatalog path)
  | "proto", args =>
    let (imports, files) := importsAndFiles args
    loaded (Storage.loadSchemas imports files)
  | "go", [_] => throw (.usage "catalog go <dir> <pattern>...")
  | "go", _ | "grpc", _ => throw (.load (.unavailable kind))
  | _, _ => throw (.unknownKind kind)

def catalog : List String → ExceptT CommandFault m Outcome
  | kind :: arg :: args => do return { stdout := (← catalogOf kind (arg :: args)).render }
  | _ => throw (.usage "catalog yaml|go|proto|grpc <source>...")

/-! ### Types -/

/-- The engine of the working directory: settings come from the nearest file, if there is one. -/
def openEngine : ExceptT CommandFault m Engine := do
  match ← ExceptT.lift (do Storage.findOptions (← Storage.workingDirectory)) with
  | none => return {}
  | some path =>
    let o ← loaded (Storage.loadOptions path)
    let catalog ← loaded ((Storage.openCatalogs o (Storage.parent path)).adapt (.sources path))
    return Engine.make catalog o.maxDepth o.tupleListLimit

/-- The type that a text denotes. One that the host knows takes the host's view. -/
def resolveType (e : Engine) (s : String) : Except Fault Ty := do
  let t ← Ty.parse s
  match ← (e.toNative t).mapError .broken with
  | none => return t
  | some r => return ((← (e.toModel r).mapError .broken)).getD t

def compat (src dst : String) : ExceptT CommandFault m Outcome := do
  let e ← openEngine
  let src ← engineStep (resolveType e src)
  let dst ← engineStep (resolveType e dst)
  let c ← engineStep ((e.compatible src dst).run {}).1
  let pair := " " ++ src.display ++ " -> " ++ dst.display ++ "\n"
  if c.ok then
    let verdict := if c.warning then "warning" else "ok"
    return { stdout := verdict ++ pair ++ "  conversion: " ++ c.adapter.display ++ "\n" }
  else
    let hint := if c.message = "" then "" else "  " ++ c.message ++ "\n"
    return { stdout := "incompatible" ++ pair ++ hint, exit := 1 }

def promote (a b : String) : ExceptT CommandFault m Outcome := do
  let e ← openEngine
  let a ← engineStep (resolveType e a)
  let b ← engineStep (resolveType e b)
  match Promotion.result? a b, Promotion.adapters? a b with
  | some t, some (left, right) =>
    return { stdout := t.display ++ "\n  left:  " ++ left.display ++ "\n  right: " ++ right.display ++ "\n" }
  | _, _ =>
    let stdout := "none no arithmetic result for " ++ a.display ++ " and " ++ b.display ++ "\n"
    return { stdout, exit := 1 }

def describe (e : Engine) (t : Ty) : Except Violation String := do
  t.validate
  let depth ← t.depth
  let (layers, leaf) ← t.peelList
  let list :=
    if 0 < layers then "  list:  " ++ toString layers ++ " x " ++ leaf.display ++ "\n" else ""
  let host := match ← e.toNative t with
    | some r => "  host:  " ++ r.display ++ "\n"
    | none => ""
  return t.display ++ "\n  depth: " ++ toString depth ++ "\n" ++ list ++ host

def showType (s : String) : ExceptT CommandFault m Outcome := do
  let e ← openEngine
  let t ← engineStep (resolveType e s)
  return { stdout := ← engineStep ((describe e t).mapError .broken) }

/-! ### The command line -/

/-- The outcome of a command that may fail. -/
def settle (x : ExceptT CommandFault m Outcome) : m Outcome := do
  match ← x.run with
  | .ok outcome => return outcome
  | .error fault => return { stderr := "nstar: " ++ fault.message ++ "\n", exit := 1 }

def run : List String → m Outcome
  | [] => return { stderr := usage, exit := 2 }
  | "help" :: _ | "-help" :: _ | "--help" :: _ => return { stdout := usage }
  | "catalog" :: args => settle (catalog args)
  | "compat" :: args =>
    match args with
    | [src, dst] => settle (compat src dst)
    | _ => settle (throw (.usage "compat <src> <dst>"))
  | "promote" :: args =>
    match args with
    | [a, b] => settle (promote a b)
    | _ => settle (throw (.usage "promote <a> <b>"))
  | "show" :: args =>
    match args with
    | [s] => settle (showType s)
    | _ => settle (throw (.usage "show <type>"))
  | name :: _ => return { stderr := "unknown command " ++ Text.quote name ++ "\n\n" ++ usage, exit := 2 }

end TypeEngine.Command
