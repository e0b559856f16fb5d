import TypeEngine.Command

/-!
The command line on the files of the machine.
-/

namespace TypeEngine.Storage

/-- What stood in the way, by the error of the machine. -/
def Obstacle.ofError : IO.Error → Obstacle
  | .noFileOrDirectory .. | .noSuchThing .. => .missing
  | e@(.inappropriateType _ code _) =>
    if code = 20 || code = 0 - 20 then .notDirectory
    else if code = 21 || code = 0 - 21 then .isDirectory
    else .other (toString e)
  | e => .other (toString e)

/-- Runs an action; an error becomes a denial. -/
def attempt {α : Type} (action : Obstacle → Action) (path : String) (x : IO α) : IO (Except Denial α) := do
  try
    return .ok (← x)
  catch e =>
    let cause := Obstacle.ofError e
    return .error ⟨action cause, path, cause⟩

/-- A directory can be opened, but not read as a file. -/
def readAction : Obstacle → Action
  | .isDirectory => .reads
  | _ => .opens

instance : Storage IO where
  workingDirectory := do return (← IO.currentDir).toString
  entry path := attempt (fun _ => .looks) path do
    let data ← ((← IO.currentDir) / path).metadata
    match data.type with
    | .dir => return .directory
    | _ => return .file data.byteSize.toNat (data.modified.sec.toNat * 1000000000 + data.modified.nsec.toNat)
  read path := attempt readAction path (IO.FS.readFile path)
  children path := do
    let names := (← ((← IO.currentDir) / path).readDir).toList.map IO.FS.DirEntry.fileName
    return names.mergeSort fun a b => a ≤ b
  write path text := attempt (fun _ => .opens) path (IO.FS.writeFile path text)
  makeDirectories path := attempt (fun _ => .makesDirectory) path (IO.FS.createDirAll path)
  remove path := attempt (fun _ => .removes) path do
    let place := (← IO.currentDir) / path
    if ← place.isDir then IO.FS.removeDirAll path
    else if ← place.pathExists then IO.FS.removeFile path
  warn text := do (← IO.getStderr).putStr text

end TypeEngine.Storage

def main (args : List String) : IO UInt32 := do
  let outcome ← (TypeEngine.Command.run args : IO TypeEngine.Command.Outcome)
  (← IO.getStdout).putStr outcome.stdout
  (← IO.getStderr).putStr outcome.stderr
  return UInt32.ofNat outcome.exit
