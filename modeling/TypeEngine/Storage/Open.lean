import TypeEngine.Options
import TypeEngine.Proto.Catalog
import TypeEngine.Storage.Cache

/-!
Catalogs and settings in files. Settings name the sources of catalogs; opening them reads each
source and merges the catalogs, where earlier ones win.
-/

namespace TypeEngine.Storage

open Host (Catalog)

/-- How catalog files are spelt and how schema files are parsed. -/
structure Formats where
  codec : Host.Codec := .yaml
  schemas : Proto.Parser := .builtin

inductive LoadFault where
  | catalogFile (path : String) (cause : Denial)
  | catalogText (path : String) (cause : Host.FileFault)
  | optionsFile (path : String) (cause : Denial)
  | optionsText (path : String) (cause : Options.OptionsFault)
  | schemaFile (path : String) (cause : Denial)
  /-- The schemas do not parse, or do not fit together. -/
  | schema
  | outside (path : String)
  | refused (cause : Host.Refusal)
  /-- Catalogs of this kind cannot be read from files. -/
  | unavailable (kind : String)
  | unknownKind (kind : String)
  | source (index : Nat) (kind : String) (cause : LoadFault)
  | sources (options : String) (cause : LoadFault)

namespace LoadFault

def root : LoadFault → LoadFault
  | source _ _ cause => cause.root
  | sources _ cause => cause.root
  | f => f

def message : LoadFault → String
  | catalogFile path cause => "reading catalog " ++ path ++ ": " ++ cause.message
  | catalogText path cause => cause.message path
  | optionsFile path cause => "reading config " ++ path ++ ": " ++ cause.message
  | optionsText path cause => cause.message path
  | schemaFile path cause => "reading " ++ path ++ ": " ++ cause.message
  | schema => "failed to parse proto"
  | outside path => path ++ " is not under any import path"
  | refused cause => cause.message
  | unavailable kind => "catalogs of kind " ++ kind ++ " are not available"
  | unknownKind kind => "unknown catalog kind " ++ Text.quote kind
  | source index kind cause => "catalogs[" ++ toString index ++ "] (" ++ kind ++ "): " ++ cause.message
  | sources options cause => "loading catalogs from " ++ options ++ ": " ++ cause.message

end LoadFault

variable {m : Type → Type} [Monad m] [Storage m]

/-- A step that fails with its own fault, as a step that fails with a fault of loading. -/
def orFault {ε α : Type} (fault : ε → LoadFault) (x : m (Except ε α)) : ExceptT LoadFault m α :=
  ExceptT.mk do return (← x).mapError fault

/-! ### Single files -/

def loadCatalog (path : String) (f : Formats := {}) : ExceptT LoadFault m Catalog := do
  let text ← orFault (.catalogFile path) (Storage.read path)
  orFault (.catalogText path) (pure (f.codec.parse text))

def loadOptions (path : String) : ExceptT LoadFault m Options := do
  let text ← orFault (.optionsFile path) (Storage.read path)
  orFault (.optionsText path) (pure (Options.parse text))

/-- The text of a schema file in the first directory that has it. -/
def schemaText (name : String) : List String → m (Option String)
  | [] => return none
  | dir :: dirs => do
    match ← Storage.read (join dir name) with
    | .ok text => return some text
    | .error _ => schemaText name dirs

/-- The catalog of schema files, which are looked for in the directories `imports`. -/
def loadSchemas (imports names : List String) (f : Formats := {}) : ExceptT LoadFault m Catalog := do
  let dirs := if imports.isEmpty then ["."] else imports
  match ← ExceptT.lift (Proto.catalogOfSources (schemaText · dirs) names f.schemas).run with
  | some c => orFault .refused (pure c)
  | none => throw .schema

/-! ### Settings -/

def optionsNames : List String := ["nstar.yaml", "nstar.yml"]

def firstPresent : List String → m (Option String)
  | [] => return none
  | path :: paths => do
    match ← Storage.entry path with
    | .ok _ => return some path
    | .error _ => firstPresent paths

/-- The settings for a directory: the nearest file in it or above it. -/
def findOptions (dir : String) : m (Option String) := do
  let start := resolve (← Storage.workingDirectory) dir
  firstPresent ((upwards start).flatMap fun d => optionsNames.map (join d))

/-! ### Sources -/

/-- The location relative to the first of the directories that it lies in. -/
def relativeTo? (dirs : List String) (path : String) : Option String :=
  dirs.findSome? fun dir => (relative? dir path).filter fun rel => !"..".toList.isPrefixOf rel.toList

/-- A location as seen from `base`. One that starts at the root stays as it is. -/
def seenFrom (base p : String) : String := if isAbsolute p then p else join base p

/-- The directories where the imports of a schema source are looked for. -/
def importDirs (base : String) (s : CatalogSource) : List String :=
  if s.importPaths.isEmpty then [parent (seenFrom base s.path)] else s.importPaths.map (seenFrom base)

/-- The catalog of one schema file, which is named as it lies in the directories `imports`. -/
def loadSchema (imports : List String) (path : String) (f : Formats := {}) : ExceptT LoadFault m Catalog :=
  match relativeTo? imports path with
  | some rel => loadSchemas imports [rel] f
  | none => throw (.outside path)

def openSource (cache : Cache) (base : String) (s : CatalogSource) (f : Formats := {}) :
    ExceptT LoadFault m Catalog :=
  match s.kind with
  | "yaml" => loadCatalog (seenFrom base s.path) f
  | "proto" => do
    let path := seenFrom base s.path
    let text ← orFault (.schemaFile path) (Storage.read path)
    let imports := importDirs base s
    let key := Cache.key ["proto", Cache.fingerprint text, "\n".intercalate imports]
    let found ← cache.cached key (loadSchema imports path f) f.codec
    return found.catalog
  | "go" | "grpc" => throw (.unavailable s.kind)
  | kind => throw (.unknownKind kind)

/-- Merges the catalogs of the sources into `c`, of which `index` came before. -/
def openSources (cache : Cache) (base : String) (f : Formats) :
    Catalog → Nat → List CatalogSource → ExceptT LoadFault m Catalog
  | c, _, [] => return c
  | c, index, s :: sources => do
    let loaded ← (openSource cache base s f).adapt (.source index s.kind)
    let c ← orFault .refused (pure (c.merge loaded))
    openSources cache base f c (index + 1) sources

/-- Opens the catalogs of settings that lie in the directory `base`. -/
def openCatalogs (o : Options) (base : String) (f : Formats := {}) : ExceptT LoadFault m Catalog := do
  let cache : Cache := ⟨seenFrom base o.cacheDir⟩
  let c ← openSources cache base f .empty 0 o.catalogs
  return c.freeze

end TypeEngine.Storage
