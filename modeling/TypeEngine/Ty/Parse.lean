import TypeEngine.Ty.Fault

/-!
Reads the surface form of types. The text is one of bytes, with a character for each: names are made
of the bytes that are letters when a byte is taken for a code point of its own, so a text need not be
well-formed UTF-8, and a name can end inside what UTF-8 takes for one character.
-/

namespace TypeEngine.Ty

/-- A byte that is a letter when taken for a code point. -/
def isLetter (c : Char) : Bool :=
  let n := c.toNat
  (0x41 ≤ n && n ≤ 0x5a) || (0x61 ≤ n && n ≤ 0x7a) || n == 0xaa || n == 0xb5 || n == 0xba ||
    (0xc0 ≤ n && n ≤ 0xd6) || (0xd8 ≤ n && n ≤ 0xf6) || (0xf8 ≤ n && n ≤ 0xff)

def startsName (c : Char) : Bool := c == '_' || isLetter c

def continuesName (c : Char) : Bool := startsName c || Numeral.isDigit c

/-- The unread part of the text. -/
structure Cursor where
  pos : Nat
  rest : List Char

namespace Cursor

def peek? (c : Cursor) : Option Char := c.rest.head?

/-- Moves past the next `n` bytes. -/
def drop (c : Cursor) (n : Nat) : Cursor := { pos := c.pos + n, rest := c.rest.drop n }

def skip (c : Cursor) : Cursor := c.drop 1

def skipWhile (p : Char → Bool) (c : Cursor) : Cursor :=
  { pos := c.pos + (c.rest.takeWhile p).length, rest := c.rest.dropWhile p }

def skipSpace (c : Cursor) : Cursor := c.skipWhile fun x => x == ' ' || x == '\t'

end Cursor

/-- The name that `cs` starts with. -/
def nameChars : List Char → List Char
  | [] => []
  | x :: xs => if startsName x then x :: xs.takeWhile continuesName else []

def word (c : Cursor) : String × Cursor :=
  let c := c.skipSpace
  let name := nameChars c.rest
  (String.ofList name, c.drop name.length)

def digits (c : Cursor) : List Char × Cursor :=
  (c.rest.takeWhile Numeral.isDigit, c.skipWhile Numeral.isDigit)

/-- Reads a literal argument: digits, or anything between double quotes. -/
def literal? (c : Cursor) : Option (String × Cursor) :=
  match digits c with
  | (d :: ds, after) => some (String.ofList (d :: ds), after)
  | ([], _) =>
    if c.peek? = some '"' then
      let open_ := c.skip
      let text := open_.rest.takeWhile (· != '"')
      let close := open_.skipWhile (· != '"')
      if close.rest.isEmpty then none else some (String.ofList text, close.skip)
    else none

inductive Stop where
  | at (pos : Nat) (cause : Malformation)
  | tooComplex
  | broken (v : Violation)

abbrev Reader (α : Type) := Cursor → Except Stop (α × Cursor)

def fail {α : Type} (c : Cursor) (cause : Malformation) : Except Stop α := .error (.at c.pos cause)

/-- The path that the segments of a name denote: a generic parameter, a primitive, or namespaces
around a class. -/
def mainPath (generics : List String) : List String → Path
  | [name] =>
    if generics.contains name then .ofParameter name
    else if isPrimitiveName name then .ofPrimitive name
    else ⟨[{ kind := .classType, name }]⟩
  | segments =>
    ⟨segments.dropLast.map (fun name => { kind := .namespaceLevel, name }) ++
      (segments.getLast?.map fun name => { kind := .classType, name }).toList⟩

/-- Reads the further segments of a dotted name. `fuel` bounds their number. -/
def segments : Nat → List String → Reader (List String)
  | 0, names, c => .ok (names, c)
  | fuel + 1, names, c =>
    if c.peek? = some '.' then
      let (name, c) := word c.skip
      if name.isEmpty then fail c .segmentName else segments fuel (names ++ [name]) c
    else .ok (names, c)

def bracketList (slots : List Slot) (c : Cursor) : Except Stop (Ty × Cursor) :=
  match slots with
  | [.type _ elem] => ((listOf elem).mapError .broken).map (·, c)
  | [.value _ text, .type _ elem] =>
    match Numeral.count? text with
    | some n => ((listN elem n).mapError .broken).map (·, c)
    | none => fail c (.bracketCount text)
  | _ => fail c .listArguments

def argument (type : Reader Ty) : Reader Slot := fun c =>
  match literal? c with
  | some (text, c) => .ok (.value "" text, c)
  | none => do
    let (t, c) ← type c
    return (.type "" t, c)

/-- Reads arguments up to the closing bracket. `fuel` bounds their number. -/
def arguments (type : Reader Ty) : Nat → List Slot → Reader (List Slot)
  | 0, _, c => fail c .argumentEnd
  | fuel + 1, slots, c => do
    let (slot, c) ← argument type c.skipSpace
    let c := c.skipSpace
    match c.peek? with
    | some ',' => arguments type fuel (slots ++ [slot]) c.skip
    | some ']' => return (slots ++ [slot], c.skip)
    | _ => fail c .argumentEnd

def repetition : Reader Nat := fun c =>
  let c := c.skipSpace
  if c.peek? = some '^' then
    match digits c.skip.skipSpace with
    | ([], c) => fail c .runCount
    | (ds, c) => if Numeral.value ds < 1 then fail c .runPositive else .ok (Numeral.value ds, c)
  else .ok (1, c)

/-- Reads tuple components up to the closing parenthesis. `fuel` bounds the number of runs. -/
def runsOf (type : Reader Ty) : Nat → List Ty → Reader (List Ty)
  | 0, _, c => fail c .tupleEnd
  | fuel + 1, components, c => do
    let (t, c) ← type c
    let (run, c) ← repetition c
    if maxComponents < components.length + run then fail c .tupleSize
    else
      let components := components ++ List.replicate run t
      let c := c.skipSpace
      match c.peek? with
      | some ',' => runsOf type fuel components c.skip
      | some ')' => return (components, c.skip)
      | _ => fail c .tupleEnd

/-- Reads the number of layers of a list; one if none is written. -/
def layerCount : Reader Int := fun c =>
  match digits c with
  | ([], c) => .ok (1, c)
  | (ds, c) =>
    match Numeral.count? (String.ofList ds) with
    | some n => .ok (n, c)
    | none => fail c .listCount

/-- Reads the count in parentheses and the element of a list. -/
def countedList (type : Reader Ty) : Reader Ty := fun c => do
  let (n, c) ← layerCount c.skip.skipSpace
  let c := c.skipSpace
  if c.peek? = some ')' then
    let (elem, c) ← type c.skip
    return (← (listN elem n).mapError .broken, c)
  else fail c .listParenthesis

/-- Reads a type that starts with a name, given the reader for nested types. -/
def namedType (generics : List String) (type : Reader Ty) : Reader Ty := fun c => do
  let (name, c) := word c
  if name.isEmpty then fail c .typeName
  else if name = "list" && c.skipSpace.peek? = some '(' then countedList type c.skipSpace
  else
    -- only after the word `list` are blanks skipped before a dot
    let c := if name = "list" then c.skipSpace else c
    let (names, c) ← segments c.rest.length [name] c
    let main := mainPath generics names
    let c := c.skipSpace
    if c.peek? = some '[' then
      let (slots, c) ← arguments type (c.rest.length + 1) [] c.skip
      if (mk main []).isList then bracketList slots c
      else return (mk main (Slot.positional slots), c)
    else return (mk main [], c)

/-- Reads a type nested at most `budget` levels deep. -/
def readType (generics : List String) : Nat → Reader Ty
  | 0, _ => .error .tooComplex
  | budget + 1, c =>
    let c := c.skipSpace
    if c.peek? = some '(' then do
      let (components, c) ← runsOf (readType generics budget) (c.rest.length + 1) [] c.skip
      return (tuple components, c)
    else namedType generics (readType generics budget) c

def readAll (generics : List String) (s : String) : Except Stop Ty := do
  let (t, c) ← readType generics (defaultLimit + 1) { pos := 0, rest := s.toList }
  let c := c.skipSpace
  if c.rest.isEmpty then
    match t.validate with
    | .error v => .error (.at 0 (.shape v))
    | .ok () => t.canonical.mapError .broken
  else fail c (.trailing c.rest)

/-- Reads the surface form of a type from a text of bytes. A name of one segment that is listed in
`generics` is a generic parameter. -/
def parseBytes (s : String) (generics : List String := []) : Except Fault Ty :=
  (readAll generics s).mapError fun
    | .at pos cause => .malformed ⟨s, pos, cause⟩
    | .tooComplex => .tooComplex .parse defaultLimit
    | .broken v => .broken v

end TypeEngine.Ty
