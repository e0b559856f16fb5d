import TypeEngine.Storage.Basic

/-!
Stamps of source trees: a line for each source file with its location, size and time of change.
-/

namespace TypeEngine.Storage

def lastName (p : String) : String := .ofList (p.toList.reverse.takeWhile (· != '/')).reverse

def isSource (name : String) : Bool :=
  ".go".toList.isSuffixOf name.toList || name = "go.mod" || name = "go.sum"

variable {m : Type → Type} [Monad m] [Storage m]

/-- Hidden directories, test data and the directory `skip` are left out. -/
def isLeftOut (root skip path : String) : Bool :=
  let name := lastName path
  path ≠ root && (name.toList.head? == some '.' || name = "testdata" || path = skip)

/-- The deepest tree that is walked. -/
def maxLevels : Nat := 4096

def stampAt (root skip : String) : Nat → String → ExceptT Denial m (List String)
  | 0, _ => return []
  | fuel + 1, path => do
    match ← ExceptT.mk (Storage.entry path) with
    | .file size modified =>
      if isSource (lastName path) then
        let rel := (relative? root path).getD ""
        return [rel ++ " " ++ toString size ++ " " ++ toString modified ++ "\n"]
      else return []
    | .directory =>
      if isLeftOut root skip path then return []
      else
        let names ← ExceptT.lift (Storage.children path)
        return (← names.mapM fun name => stampAt root skip fuel (join path name)).flatten

structure StampFault where
  root : String
  cause : Denial

def StampFault.message (f : StampFault) : String := "scanning " ++ f.root ++ ": " ++ f.cause.message

def stamp (root skip : String) : ExceptT StampFault m String := do
  let lines ← (stampAt root skip maxLevels root).adapt (StampFault.mk root)
  return "".intercalate lines

end TypeEngine.Storage
