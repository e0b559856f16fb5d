import TypeEngine.Yaml.Token

/-!
Documents as trees of scalars, sequences and mappings. A text denotes its first document; one
without content denotes none.
-/

namespace TypeEngine.Yaml

mutual

inductive Node where
  | scalar (text : String) (style : Style)
  | sequence (items : List Node)
  | mapping (members : List Pair)

inductive Pair where
  | mk (key value : Node)

end

namespace Pair

def key : Pair → Node
  | mk key _ => key

def value : Pair → Node
  | mk _ value => value

end Pair

namespace Node

def blank : Node := .scalar "" .plain

instance : Inhabited Node := ⟨blank⟩

/-- A document in the making: named nodes and the tokens ahead. -/
structure Reader where
  names : List (String × Node) := []
  tokens : List Token

abbrev Read (α : Type) := StateT Reader Option α

namespace Read

def fail {α : Type} : Read α := fun _ => none

def peek : Read Token := do return (← get).tokens.headD .failure

def skip : Read Unit := modify fun r => { r with tokens := r.tokens.tail }

/-- Reads a node unless the next token is one of those that leave it out. -/
def orBlank (stops : Token → Bool) (read : Read Node) : Read Node := do
  if stops (← peek) then return blank else read

def remember (name : Option String) (node : Node) : Read Node := do
  if let some name := name then modify fun r => { r with names := (name, node) :: r.names }
  return node

/-- Names a node and gives it a tag, in any order. Only whether the tag is that of text counts. -/
def properties : Nat → Option String → Option String → Read (Option String × Option String)
  | 0, name, tag => return (name, tag)
  | fuel + 1, name, tag => do
    match ← peek with
    | .anchor n => if name.isSome then return (name, tag) else skip; properties fuel (some n) tag
    | .tag t => if tag.isSome then return (name, tag) else skip; properties fuel name (some t)
    | _ => return (name, tag)

def stopsEntry : Token → Bool
  | .blockEntry | .blockEnd => true
  | _ => false

def stopsMember : Token → Bool
  | .key | .value | .blockEnd => true
  | _ => false

def stopsFlow (close : Token → Bool) : Token → Bool
  | .flowEntry => true
  | t => close t

def closesSequence : Token → Bool
  | .flowSequenceEnd => true
  | _ => false

def closesMapping : Token → Bool
  | .flowMappingEnd => true
  | _ => false

def isValue : Token → Bool
  | .value => true
  | _ => false

/-- A node of which only the name or the tag is written. -/
def empty (name tag : Option String) : Read Node :=
  if name.isSome || tag.isSome then return blank else fail

/-- Entries of a flow collection after the first follow a comma. -/
def comma (first : Bool) : Read Unit := do
  if !first then
    match ← peek with
    | .flowEntry => skip
    | _ => fail

mutual

/-- Reads a node. Block collections start only where `block` holds, and a sequence at the
indentation of its key only where `flush` does. -/
def node : Nat → Bool → Bool → Read Node
  | 0, _, _ => fail
  | fuel + 1, block, flush => do
    if let .reference name ← peek then
      skip
      let some found := (← get).names.lookup name | fail
      return found
    let (name, tag) ← properties 2 none none
    let node ← match ← peek with
      | .scalar text style =>
        skip
        let asText := style = .plain && (tag == some "!str" || tag == some "")
        pure (.scalar text (if asText then .doubleQuoted else style))
      | .flowSequenceStart => skip; pure (.sequence (← flowItems fuel true []))
      | .flowMappingStart => skip; pure (.mapping (← flowMembers fuel true []))
      | .blockEntry => if flush then pure (.sequence (← flushItems fuel [])) else empty name tag
      | .blockSequenceStart =>
        if block then skip; pure (.sequence (← blockItems fuel [])) else empty name tag
      | .blockMappingStart =>
        if block then skip; pure (.mapping (← blockMembers fuel [])) else empty name tag
      | _ => empty name tag
    remember name node

def blockItems : Nat → List Node → Read (List Node)
  | 0, _ => fail
  | fuel + 1, items => do
    match ← peek with
    | .blockEntry =>
      skip
      let item ← orBlank stopsEntry (node fuel true false)
      blockItems fuel (items ++ [item])
    | .blockEnd => skip; return items
    | _ => fail

/-- A sequence without an indentation of its own ends where no further entry follows. -/
def flushItems : Nat → List Node → Read (List Node)
  | 0, _ => fail
  | fuel + 1, items => do
    match ← peek with
    | .blockEntry =>
      skip
      let item ← orBlank (fun t => stopsEntry t || stopsMember t) (node fuel true false)
      flushItems fuel (items ++ [item])
    | _ => return items

def blockMembers : Nat → List Pair → Read (List Pair)
  | 0, _ => fail
  | fuel + 1, members => do
    match ← peek with
    | .blockEnd => skip; return members
    | .key =>
      skip
      let key ← orBlank stopsMember (node fuel true true)
      blockValue fuel members key
    | _ => fail

def blockValue : Nat → List Pair → Node → Read (List Pair)
  | 0, _, _ => fail
  | fuel + 1, members, key => do
    let value ←
      if isValue (← peek) then
        skip
        orBlank stopsMember (node fuel true true)
      else pure blank
    blockMembers fuel (members ++ [.mk key value])

def flowItems : Nat → Bool → List Node → Read (List Node)
  | 0, _, _ => fail
  | fuel + 1, first, items => do
    if closesSequence (← peek) then
      skip
      return items
    comma first
    match ← peek with
    | .flowSequenceEnd => skip; return items
    | .key =>
      skip
      let key ← orBlank (fun t => isValue t || stopsFlow closesSequence t) (node fuel false false)
      let value ←
        if isValue (← peek) then
          skip
          orBlank (stopsFlow closesSequence) (node fuel false false)
        else pure blank
      flowItems fuel false (items ++ [.mapping [.mk key value]])
    | _ =>
      let item ← node fuel false false
      flowItems fuel false (items ++ [item])

def flowMembers : Nat → Bool → List Pair → Read (List Pair)
  | 0, _, _ => fail
  | fuel + 1, first, members => do
    if closesMapping (← peek) then
      skip
      return members
    comma first
    match ← peek with
    | .flowMappingEnd => skip; return members
    | .key =>
      skip
      let key ← orBlank (fun t => isValue t || stopsFlow closesMapping t) (node fuel false false)
      let value ←
        if isValue (← peek) then
          skip
          orBlank (stopsFlow closesMapping) (node fuel false false)
        else pure blank
      flowMembers fuel false (members ++ [.mk key value])
    | _ =>
      let key ← node fuel false false
      flowMembers fuel false (members ++ [.mk key blank])

end

/-- Directives, which must be followed by the start of a document. -/
def directives : Nat → Read Unit
  | 0 => fail
  | fuel + 1 => do
    match ← peek with
    | .directive => skip; directives fuel
    | .documentStart => skip
    | _ => fail

def endsDocument : Token → Bool
  | .directive | .documentStart | .documentEnd | .streamEnd => true
  | _ => false

def document (fuel : Nat) : Read (Option Node) := do
  let root ← match ← peek with
    | .streamEnd => pure none
    | .directive | .documentStart =>
      directives fuel
      some <$> orBlank endsDocument (node fuel true false)
    | _ => some <$> node fuel true false
  -- the scanner is three tokens ahead of the end of the document
  if ((← get).tokens.take 3).any (· matches .failure) then fail else return root

end Read

/-- The first document of a text: none if the text is not well formed, and otherwise the root if
there is one. -/
def ofChars (cs : List Char) : Option (Option Node) :=
  let tokens := tokens cs
  ((Read.document (2 * tokens.length + 2)).run { tokens }).map Prod.fst

def parse (text : String) : Option (Option Node) := ofChars text.toList

end Node

end TypeEngine.Yaml
