import TypeEngine.Text.Blank

/-!
Locations of files as text with slashes, and their lexical rules: `.` is where one is, `..` one
level up.
-/

namespace TypeEngine.Storage

def isAbsolute (p : String) : Bool := p.toList.head? == some '/'

def parts (p : String) : List String := (Text.splitOn '/' p.toList).map String.ofList

/-- Adds a part to a location that is read from its end. -/
def step (rooted : Bool) (above : List String) (part : String) : List String :=
  if part = "" || part = "." then above
  else if part = ".." then
    match above with
    | [] => if rooted then [] else [".."]
    | ".." :: _ => ".." :: above
    | _ :: rest => rest
  else part :: above

def cleanParts (p : String) : List String := ((parts p).foldl (step (isAbsolute p)) []).reverse

def ofParts (rooted : Bool) (ps : List String) : String :=
  if rooted then "/" ++ "/".intercalate ps
  else if ps.isEmpty then "."
  else "/".intercalate ps

def clean (p : String) : String := ofParts (isAbsolute p) (cleanParts p)

/-- A location below another one. Empty texts are left out. -/
def join (base p : String) : String :=
  match [base, p].filter (· ≠ "") with
  | [] => ""
  | ps => clean ("/".intercalate ps)

def resolve (base p : String) : String := if isAbsolute p then clean p else join base p

def parent (p : String) : String :=
  let upto := (p.toList.reverse.dropWhile (· != '/')).reverse
  clean (.ofList upto)

/-- The location `target` relative to the directory `base`. There is none when only one of them
starts at the root, or when `base` lies above where the two part ways. -/
def relative? (base target : String) : Option String :=
  if isAbsolute base ≠ isAbsolute target then none
  else
    let (up, down) := go (cleanParts base) (cleanParts target)
    if up.contains ".." then none
    else some (ofParts false (up.map (fun _ => "..") ++ down))
where
  go : List String → List String → List String × List String
    | a :: as, b :: bs => if a = b then go as bs else (a :: as, b :: bs)
    | as, bs => (as, bs)

def upwards (p : String) : List String :=
  let ps := cleanParts p
  (List.range (ps.length + 1)).reverse.map fun n => ofParts (isAbsolute p) (ps.take n)

end TypeEngine.Storage
