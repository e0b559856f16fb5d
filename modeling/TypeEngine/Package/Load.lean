import TypeEngine.Package.Check
import TypeEngine.Storage.Location

/-!
Loading packages: patterns choose the packages to describe, imports bring in others, and a package
comes after those that it imports.
-/

namespace TypeEngine.Package

/-! ### Patterns -/

/-- The import path that a pattern names; one that starts with a point is a directory. -/
def patternPath (pattern : String) : String :=
  match pattern.toList with
  | '.' :: rest =>
    if rest.isEmpty || rest.head? == some '/' then Storage.clean (Source.modulePath ++ "/" ++ .ofList rest)
    else pattern
  | _ => pattern

/-- Directories with such names are only found by their own name. -/
def isHiddenPart (part : String) : Bool :=
  part.toList.head? == some '.' || part.toList.head? == some '_' || part = "testdata"

def isMatch (pattern : String) (s : Source) : Bool :=
  let parts := Storage.parts (patternPath pattern)
  let path := Storage.parts s.path
  if parts.getLast? == some "..." then
    let base := parts.dropLast
    base.isPrefixOf path && !(path.drop base.length).any isHiddenPart
  else path = parts

def precedes : List String → List String → Bool
  | [], _ => true
  | _ :: _, [] => false
  | a :: as, b :: bs => a < b || (a = b && precedes as bs)

/-- The packages that patterns match, each once; every pattern has to match one. -/
def matched? (sources : List Source) : List String → Option (List Source)
  | [] => some []
  | pattern :: patterns => do
    let sorted := sources.mergeSort fun a b => precedes (Storage.parts a.path) (Storage.parts b.path)
    let found := sorted.filter (isMatch pattern)
    let rest ← matched? sources patterns
    if found.isEmpty then none
    else return found ++ rest.filter fun s => !found.any (·.path = s.path)

/-! ### Imports -/

mutual

/-- Adds a package after those that it imports. `above` are the packages that led here. -/
def visit (sources : List Source) : Nat → List String → List Source → String → Option (List Source)
  | 0, _, _, _ => none
  | fuel + 1, above, done, path =>
    if above.contains path then none
    else if done.any (·.path = path) then some done
    else do
      let s ← sources.find? (·.path = path)
      let imports := s.imports.mergeSort fun a b => a ≤ b
      let done ← visitAll sources fuel (path :: above) done imports
      return done ++ [s]

def visitAll (sources : List Source) :
    Nat → List String → List Source → List String → Option (List Source)
  | 0, _, _, _ => none
  | _ + 1, _, done, [] => some done
  | fuel + 1, above, done, path :: paths => do
    let done ← visit sources fuel above done path
    visitAll sources fuel above done paths

end

/-- The packages reached from `roots`, each after those that it imports. -/
def ordered? (sources roots : List Source) : Option (List Source) :=
  let size := sources.length + (sources.flatMap Source.imports).length + 2
  visitAll sources (size * size) [] [] (roots.map Source.path)

/-! ### Constants -/

/-- The constants that are known, by package and name. -/
abbrev ConstTable := List (TypeName × Const)

def constScope (k : Known) (p : Program) (table : ConstTable) (s : Source) : ConstScope where
  constant? text :=
    match Text.segments text with
    | [name] =>
      if s.declared.contains name then table.lookup ⟨s.path, name⟩ else builtinConst? name
    | [package, name] => do
      let other ← (k.imported s).find? (·.name = package)
      if isExported name then table.lookup ⟨other.path, name⟩ else none
    | _ => none
  type? text := k.named? s [] text []
  basic? t :=
    match p.body? t with
    | some (.shape (.basic name)) => some name
    | _ => none

def constant? (k : Known) (sc : ConstScope) (s : Source) (d : ConstDecl) : Option Const := do
  let c ← sc.eval (← ConstExpr.parse? d.value)
  match d.type? with
  | none => some c
  | some t => sc.assign c (← k.resolve s [] t)

/-- Adds the constants whose values follow from the ones that are known. -/
def addConstants (k : Known) (p : Program) (table : ConstTable) : ConstTable :=
  k.sources.flatMap fun s => s.consts.filterMap fun d =>
    (constant? k (constScope k p table s) s d).map fun c => (⟨s.path, d.name⟩, c)

def constantRounds (k : Known) (p : Program) : Nat → ConstTable → ConstTable
  | 0, table => table
  | n + 1, table => constantRounds k p n (addConstants k p table)

/-- The constants with a type, in the order of their declarations. -/
def constDefs? (k : Known) (p : Program) : Option (List ConstDef) :=
  let count := (k.sources.flatMap Source.consts).length
  let table := constantRounds k p count []
  if table.length ≠ count then none
  else
    let basic? := (constScope k p [] { dir := "", name := "" }).basic?
    some (table.filterMap fun (id, c) =>
      match c.type with
      | .typed type =>
        let value := c.value.display ((basic? type).getD "")
        some { package := id.package, name := id.name, type, value }
      | .untyped _ => none)

/-! ### Programs -/

/-- The program of the packages that patterns match. -/
def Program.load? (sources : List Source) (patterns : List String) : Option Program := do
  let roots ← matched? sources (if patterns.isEmpty then ["."] else patterns)
  let all ← ordered? sources roots
  let k := Known.ofSources all
  if !(all.all fun s => s.isWritten && k.importsAreUsed s) then none
  else
    let p ← k.program? (all.filter fun s => roots.any (·.path = s.path))
    if p.isSoundProgram then return { p with consts := ← constDefs? k p } else none

end TypeEngine.Package
