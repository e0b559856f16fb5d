import TypeEngine.Storage.Basic

/-!
A file system as a value. A location is the list of the names that lead to it from the root; the
root is always a directory.
-/

namespace TypeEngine.Storage

inductive Content where
  | file (text : String) (modified : Nat)
  | directory

structure Disk where
  workingDirectory : String := "/"
  /-- The time given to files that are written, in nanoseconds. -/
  clock : Nat := 0
  contents : List (List String × Content) := []
  warnings : List String := []

namespace Disk

def content? (d : Disk) (at_ : List String) : Option Content :=
  if at_.isEmpty then some .directory else d.contents.lookup at_

/-- Follows the parts of a location; whatever is followed by another part is a directory. -/
def follow (d : Disk) : List String → List String → Except Obstacle (List String × Content)
  | here, [] =>
    match d.content? here with
    | some c => .ok (here, c)
    | none => .error .missing
  | here, part :: rest =>
    match d.content? here with
    | some .directory => follow d (step true here.reverse part).reverse rest
    | some (.file ..) => .error .notDirectory
    | none => .error .missing

def find (d : Disk) (p : String) : Except Obstacle (List String × Content) :=
  if p = "" then .error .missing
  else if isAbsolute p then d.follow [] (parts p)
  else d.follow (cleanParts d.workingDirectory) (parts p)

/-- The place of a location, whether or not anything is there. -/
def place (d : Disk) (p : String) : List String :=
  cleanParts (if isAbsolute p then p else join d.workingDirectory p)

def set (d : Disk) (at_ : List String) (c : Content) : Disk :=
  { d with contents := (at_, c) :: d.contents.filter (·.1 ≠ at_) }

def erase (d : Disk) (at_ : List String) : Disk :=
  { d with contents := d.contents.filter fun (p, _) => !at_.isPrefixOf p }

def entry (d : Disk) (p : String) : Except Denial Entry :=
  match d.find p with
  | .ok (_, .file text modified) => .ok (.file text.utf8ByteSize modified)
  | .ok (_, .directory) => .ok .directory
  | .error cause => .error ⟨.looks, p, cause⟩

def read (d : Disk) (p : String) : Except Denial String :=
  match d.find p with
  | .ok (_, .file text _) => .ok text
  | .ok (_, .directory) => .error ⟨.reads, p, .isDirectory⟩
  | .error cause => .error ⟨.opens, p, cause⟩

def children (d : Disk) (p : String) : List String :=
  let names := d.contents.filterMap fun (q, _) =>
    if q.dropLast = d.place p then q.getLast? else none
  names.mergeSort fun a b => a ≤ b

def write (d : Disk) (p text : String) : Except Denial Unit × Disk :=
  match d.find p with
  | .ok (at_, .file ..) => (.ok (), d.set at_ (.file text d.clock))
  | .ok (_, .directory) => (.error ⟨.opens, p, .isDirectory⟩, d)
  | .error cause =>
    let at_ := d.place p
    match cause, d.content? at_, d.content? at_.dropLast with
    | .missing, none, some .directory => (.ok (), d.set at_ (.file text d.clock))
    | _, _, _ => (.error ⟨.opens, p, cause⟩, d)

/-- Makes the directories at the first `n`, `n + 1`, … names of a place, where `todo` names are
left. -/
def makeFrom (p : String) (at_ : List String) (d : Disk) : Nat → Except Denial Unit × Disk
  | 0 => (.ok (), d)
  | todo + 1 =>
    let here := at_.take (at_.length - todo)
    match d.content? here with
    | some .directory => makeFrom p at_ d todo
    | some (.file ..) =>
      let shown := ofParts (isAbsolute p) ((cleanParts p).take ((cleanParts p).length - todo))
      (.error ⟨.makesDirectory, shown, .notDirectory⟩, d)
    | none => makeFrom p at_ (d.set here .directory) todo

def makeDirectories (d : Disk) (p : String) : Except Denial Unit × Disk :=
  let at_ := d.place p
  makeFrom p at_ d at_.length

def remove (d : Disk) (p : String) : Except Denial Unit × Disk :=
  match d.find p with
  | .ok (at_, _) => (.ok (), d.erase at_)
  | .error .missing => (.ok (), d)
  | .error cause => (.error ⟨.removes, p, cause⟩, d)

instance : Storage (StateM Disk) where
  workingDirectory := do return (← get).workingDirectory
  entry p := do return (← get).entry p
  read p := do return (← get).read p
  children p := do return (← get).children p
  write p text := modifyGet (·.write p text)
  makeDirectories p := modifyGet (·.makeDirectories p)
  remove p := modifyGet (·.remove p)
  warn text := modify fun d => { d with warnings := d.warnings ++ [text] }

end Disk

end TypeEngine.Storage
