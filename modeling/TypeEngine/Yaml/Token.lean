/-!
Tokens of YAML text. Indentation is turned into start and end tokens. A scalar or flow collection
that a colon follows on the same line is an implicit key; the token for the key is put in front of
it when the colon is found.
-/

namespace TypeEngine.Yaml

inductive Style where
  | plain | singleQuoted | doubleQuoted | literal | folded
  deriving DecidableEq, Repr

inductive Token where
  | documentStart
  | documentEnd
  | directive
  | blockSequenceStart
  | blockMappingStart
  | blockEnd
  | flowSequenceStart
  | flowSequenceEnd
  | flowMappingStart
  | flowMappingEnd
  | blockEntry
  | flowEntry
  | key
  | value
  | reference (name : String)
  | anchor (name : String)
  | tag (text : String)
  | scalar (text : String) (style : Style)
  | streamEnd
  /-- From here on the text has no tokens. -/
  | failure
  deriving Repr

/-! ### Characters -/

def isSpaceOrTab (c : Char) : Bool := c == ' ' || c == '\t'

def isBreak (c : Char) : Bool :=
  c == '\n' || c == '\r' || c.toNat == 0x85 || c.toNat == 0x2028 || c.toNat == 0x2029

/-- The text starts with white space, or it is at an end. -/
def endsWord : List Char → Bool
  | [] => true
  | c :: _ => isSpaceOrTab c || isBreak c

/-- Characters that text may hold. -/
def isAllowed (c : Char) : Bool :=
  let n := c.toNat
  n == 0x09 || n == 0x0a || n == 0x0d || (0x20 ≤ n && n ≤ 0x7e) || n == 0x85 ||
    (0xa0 ≤ n && n ≤ 0xd7ff) || (0xe000 ≤ n && n ≤ 0xfffd) || 0x10000 ≤ n

/-- A line of three dashes or dots separates documents. -/
def isDocumentMark (cs : List Char) : Bool :=
  match cs with
  | a :: b :: c :: rest => a == b && b == c && (a == '-' || a == '.') && endsWord rest
  | _ => false

/-! ### Scanner state -/

/-- A place where an implicit key may have started. -/
structure PendingKey where
  /-- A colon must follow, since nothing else can stand at this indentation. -/
  required : Bool
  token : Nat
  index : Nat
  line : Nat
  column : Nat

structure Scan where
  rest : List Char
  index : Nat := 0
  line : Nat := 0
  column : Nat := 0
  tokens : List Token := []
  keyAllowed : Bool := true
  /-- The pending key of the current level. -/
  pending : Option PendingKey := none
  /-- The pending keys of the levels around the current one, one for each open bracket. -/
  outer : List (Option PendingKey) := []
  indent : Int := -1
  indents : List Int := []

namespace Scan

def inFlow (s : Scan) : Bool := !s.outer.isEmpty

/-- Moves past one character that is not a line break. -/
def skip (s : Scan) : Scan :=
  { s with rest := s.rest.tail, index := s.index + 1, column := s.column + 1 }

def skipN (n : Nat) (s : Scan) : Scan :=
  { s with rest := s.rest.drop n, index := s.index + n, column := s.column + n }

/-- Moves past a line break, which is two characters for a carriage return and a line feed. -/
def skipLine (s : Scan) : Scan :=
  let n := match s.rest with
    | '\r' :: '\n' :: _ => 2
    | _ => 1
  { s with rest := s.rest.drop n, index := s.index + n, column := 0, line := s.line + 1 }

/-- The line break at the front, as it is kept in scalars. -/
def breakChar (s : Scan) : Char :=
  match s.rest with
  | c :: _ => if c.toNat == 0x2028 || c.toNat == 0x2029 then c else '\n'
  | [] => '\n'

def skipWhile (p : Char → Bool) (s : Scan) : Scan := s.skipN (s.rest.takeWhile p).length

def emit (t : Token) (s : Scan) : Scan := { s with tokens := s.tokens ++ [t] }

def insert (n : Nat) (t : Token) (s : Scan) : Scan :=
  { s with tokens := s.tokens.take n ++ t :: s.tokens.drop n }

/-- Opens a block at a column deeper than the current one; its token goes to the place `n`. -/
def openBlock (column : Nat) (n : Nat) (t : Token) (s : Scan) : Scan :=
  if !s.inFlow && s.indent < column then
    { s with indents := s.indent :: s.indents, indent := column }.insert n t
  else s

def closeBlocks (column : Int) (s : Scan) : Scan :=
  if s.inFlow then s
  else go s.indents s
where
  go : List Int → Scan → Scan
    | outer :: indents, s =>
      if column < s.indent then go indents ({ s with indent := outer, indents }.emit .blockEnd) else s
    | [], s => s

/-- Gives up the pending key, which must not be a required one. -/
def dropKey (s : Scan) : Option Scan :=
  if s.pending.any PendingKey.required then none else some { s with pending := none }

/-- Notes that a key may start here. -/
def saveKey (s : Scan) : Option Scan :=
  if s.keyAllowed then do
    let s ← s.dropKey
    return { s with
      pending := some
        { required := !s.inFlow && s.indent == s.column
          token := s.tokens.length
          index := s.index
          line := s.line
          column := s.column } }
  else some s

/-! ### Scalars -/

/-- White space inside a scalar: blanks on one line, or line breaks. -/
structure Gap where
  blanks : List Char := []
  breaks : List Char := []
  /-- The first line break was escaped and does not count. -/
  escaped : Bool := false

/-- What is left of white space inside a scalar: one line break becomes a space, of several the
first is dropped. -/
def Gap.fold (g : Gap) : List Char :=
  if g.escaped then g.breaks
  else
    match g.breaks with
    | [] => g.blanks
    | ['\n'] => [' ']
    | '\n' :: more => more
    | breaks => breaks

/-- Reads white space. Fails at a tab in front of the column `tabLimit` of a further line. -/
def gap (tabLimit : Int) : Nat → Gap → Scan → Option (Gap × Scan)
  | 0, g, s => some (g, s)
  | fuel + 1, g, s =>
    match s.rest with
    | c :: _ =>
      let later := g.escaped || !g.breaks.isEmpty
      if isSpaceOrTab c then
        if later && c == '\t' && s.column < tabLimit then none
        else if later then gap tabLimit fuel g s.skip
        else gap tabLimit fuel { g with blanks := g.blanks ++ [c] } s.skip
      else if isBreak c then
        gap tabLimit fuel { g with breaks := g.breaks ++ [s.breakChar] } s.skipLine
      else some (g, s)
    | [] => some (g, s)

/-- The rest starts with a character that ends a plain scalar. -/
def endsPlain (inFlow : Bool) : List Char → Bool
  | [] => true
  | c :: rest =>
    isSpaceOrTab c || isBreak c || (c == ':' && endsWord rest) ||
      (inFlow && [',', '?', '[', ']', '{', '}'].contains c)

/-- The characters of a plain scalar up to white space or its end. -/
def plainWord (inFlow : Bool) : List Char → List Char
  | [] => []
  | c :: rest => if endsPlain inFlow (c :: rest) then [] else c :: plainWord inFlow rest

/-- Reads a plain scalar; `text` is what was read of it, `g` the white space after that. -/
def plain : Nat → List Char → Gap → Scan → Option (List Char × Gap × Scan)
  | 0, text, g, s => some (text, g, s)
  | fuel + 1, text, g, s =>
    if (s.column == 0 && isDocumentMark s.rest) || s.rest.head? == some '#' then some (text, g, s)
    else
      let word := plainWord s.inFlow s.rest
      let text := if word.isEmpty then text else text ++ g.fold ++ word
      let g := if word.isEmpty then g else {}
      let s := s.skipN word.length
      if s.rest.head?.any fun c => isSpaceOrTab c || isBreak c then do
        let (g, s) ← gap (s.indent + 1) s.rest.length g s
        if !s.inFlow && s.column < s.indent + 1 then return (text, g, s)
        else plain fuel text g s
      else some (text, g, s)

def fetchPlain (s : Scan) : Option Scan := do
  let s ← s.saveKey
  let (text, g, s) ← plain (s.rest.length + 1) [] {} { s with keyAllowed := false }
  let s := if g.breaks.isEmpty then s else { s with keyAllowed := true }
  return s.emit (.scalar (.ofList text) .plain)

def hexValue? (c : Char) : Option Nat :=
  if '0' ≤ c && c ≤ '9' then some (c.toNat - 48)
  else if 'a' ≤ c && c ≤ 'f' then some (c.toNat - 87)
  else if 'A' ≤ c && c ≤ 'F' then some (c.toNat - 55)
  else none

def hexEscape? (n : Nat) (cs : List Char) : Option Char := do
  let digits ← (cs.take n).mapM hexValue?
  let code := digits.foldl (fun v d => v * 16 + d) 0
  if digits.length = n && (code < 0xd800 || (0xdfff < code && code ≤ 0x10ffff)) then
    return Char.ofNat code
  else none

/-- The character that an escape stands for, and the length of the escape after the backslash. -/
def escape? : List Char → Option (Char × Nat)
  | '0' :: _ => some (Char.ofNat 0, 1)
  | 'a' :: _ => some (Char.ofNat 7, 1)
  | 'b' :: _ => some (Char.ofNat 8, 1)
  | 't' :: _ | '\t' :: _ => some ('\t', 1)
  | 'n' :: _ => some ('\n', 1)
  | 'v' :: _ => some (Char.ofNat 11, 1)
  | 'f' :: _ => some (Char.ofNat 12, 1)
  | 'r' :: _ => some ('\r', 1)
  | 'e' :: _ => some (Char.ofNat 27, 1)
  | ' ' :: _ => some (' ', 1)
  | '"' :: _ => some ('"', 1)
  | '\'' :: _ => some ('\'', 1)
  | '/' :: _ => some ('/', 1)
  | '\\' :: _ => some ('\\', 1)
  | 'N' :: _ => some (Char.ofNat 0x85, 1)
  | '_' :: _ => some (Char.ofNat 0xa0, 1)
  | 'L' :: _ => some (Char.ofNat 0x2028, 1)
  | 'P' :: _ => some (Char.ofNat 0x2029, 1)
  | 'x' :: cs => (hexEscape? 2 cs).map (·, 3)
  | 'u' :: cs => (hexEscape? 4 cs).map (·, 5)
  | 'U' :: cs => (hexEscape? 8 cs).map (·, 9)
  | _ => none

def quoted (single : Bool) : Nat → List Char → Scan → Option (List Char × Scan)
  | 0, _, _ => none
  | fuel + 1, text, s =>
    let space := fun (g : Gap) (s : Scan) => do
      let (g, s) ← gap 0 s.rest.length g s
      if s.column == 0 && isDocumentMark s.rest then none
      else quoted single fuel (text ++ g.fold) s
    match s.rest with
    | [] => none
    | '\'' :: rest =>
      if single then
        match rest with
        | '\'' :: _ => quoted single fuel (text ++ ['\'']) (s.skipN 2)
        | _ => some (text, s.skip)
      else quoted single fuel (text ++ ['\'']) s.skip
    | '"' :: _ => if single then quoted single fuel (text ++ ['"']) s.skip else some (text, s.skip)
    | '\\' :: rest =>
      if single then quoted single fuel (text ++ ['\\']) s.skip
      else if rest.head?.any isBreak then space { escaped := true } s.skip.skipLine
      else do
        let (c, n) ← escape? rest
        quoted single fuel (text ++ [c]) (s.skipN (n + 1))
    | c :: _ =>
      if isSpaceOrTab c || isBreak c then space {} s else quoted single fuel (text ++ [c]) s.skip

def fetchQuoted (single : Bool) (s : Scan) : Option Scan := do
  let s ← s.saveKey
  let s := { s with keyAllowed := false }.skip
  if s.column == 0 && isDocumentMark s.rest then none
  let (text, s) ← quoted single (s.rest.length + 1) [] s
  return s.emit (.scalar (.ofList text) (if single then .singleQuoted else .doubleQuoted))

/-- Reads the empty lines of a block scalar. An unknown indentation is zero, and becomes that of
the deepest line seen. -/
def blockBreaks (indent : Nat) : Nat → Nat → List Char → Scan → Option (Nat × List Char × Scan)
  | 0, _, breaks, s => some (indent, breaks, s)
  | fuel + 1, deepest, breaks, s =>
    let spaces := (s.rest.takeWhile (· == ' ')).length
    let s := s.skipN (if indent = 0 then spaces else min spaces (indent - s.column))
    let deepest := max deepest s.column
    match s.rest with
    | '\t' :: _ => if indent = 0 || s.column < indent then none else some (indent, breaks, s)
    | c :: _ =>
      if isBreak c then blockBreaks indent fuel deepest (breaks ++ [s.breakChar]) s.skipLine
      else finish deepest breaks s
    | [] => finish deepest breaks s
where
  finish (deepest : Nat) (breaks : List Char) (s : Scan) : Option (Nat × List Char × Scan) :=
    some (if indent = 0 then max (max deepest (s.indent + 1).toNat) 1 else indent, breaks, s)

/-- Lines of a block scalar, joined: `lead` is the break before the current line, `trail` the empty
lines after it, `indented` whether the line before started with white space. -/
def blockLines (literal : Bool) (indent : Nat) :
    Nat → List Char → List Char → List Char → Bool → Scan →
      Option (List Char × List Char × List Char × Scan)
  | 0, text, lead, trail, _, s => some (text, lead, trail, s)
  | fuel + 1, text, lead, trail, indented, s =>
    if s.column == indent && !s.rest.isEmpty then do
      let blank := s.rest.head?.any isSpaceOrTab
      let joined :=
        if !literal && !indented && !blank && lead == ['\n'] then
          if trail.isEmpty then [' '] else []
        else lead
      let line := s.rest.takeWhile (!isBreak ·)
      let s := s.skipN line.length
      let text := text ++ joined ++ trail ++ line
      if s.rest.isEmpty then return (text, [], [], s)
      let lead := [s.breakChar]
      let (_, trail, s) ← blockBreaks indent s.rest.length 0 [] s.skipLine
      blockLines literal indent fuel text lead trail blank s
    else some (text, lead, trail, s)

/-- The chomping and the indentation in the header of a block scalar. -/
def blockHeader (s : Scan) : Option (Option Bool × Nat × Scan) :=
  let sign := fun (c : Char) => if c == '+' then some true else if c == '-' then some false else none
  let digit := fun (c : Char) => if '0' ≤ c && c ≤ '9' then some (c.toNat - 48) else none
  match s.rest with
  | a :: b :: _ =>
    match sign a, digit b with
    | some keep, some n => if n = 0 then none else some (some keep, n, s.skipN 2)
    | some keep, none => some (some keep, 0, s.skip)
    | none, _ =>
      match digit a, sign b with
      | some n, some keep => if n = 0 then none else some (some keep, n, s.skipN 2)
      | some n, none => if n = 0 then none else some (none, n, s.skip)
      | none, _ => some (none, 0, s)
  | [a] =>
    match sign a, digit a with
    | some keep, _ => some (some keep, 0, s.skip)
    | none, some n => if n = 0 then none else some (none, n, s.skip)
    | none, none => some (none, 0, s)
  | [] => some (none, 0, s)

def fetchBlockScalar (literal : Bool) (s : Scan) : Option Scan := do
  let s ← s.dropKey
  let (keep, increment, s) ← blockHeader { s with keyAllowed := true }.skip
  let s := s.skipWhile isSpaceOrTab
  let s := if s.rest.head? == some '#' then s.skipWhile (!isBreak ·) else s
  let s ← match s.rest with
    | [] => some s
    | c :: _ => if isBreak c then some s.skipLine else none
  let indent := if increment = 0 then 0 else (max s.indent 0).toNat + increment
  let (indent, trail, s) ← blockBreaks indent (s.rest.length + 1) 0 [] s
  let (text, lead, trail, s) ← blockLines literal indent (s.rest.length + 1) [] [] trail false s
  let text := text ++ (if keep == some false then [] else lead) ++
    (if keep == some true then trail else [])
  return s.emit (.scalar (.ofList text) (if literal then .literal else .folded))

/-! ### Other tokens -/

def fetchValue (s : Scan) : Option Scan := do
  let s ←
    match s.pending with
    | some k =>
      if k.line < s.line || k.index + 1024 < s.index then
        if k.required then none else fresh { s with pending := none }
      else
        let s := { s with pending := none }.insert k.token .key
        let s := s.openBlock k.column k.token .blockMappingStart
        some { s with keyAllowed := false }
    | none => fresh s
  return s.skip.emit .value
where
  /-- A colon that follows no implicit key. -/
  fresh (s : Scan) : Option Scan :=
    if s.inFlow then some { s with keyAllowed := false }
    else if s.keyAllowed then some (s.openBlock s.column s.tokens.length .blockMappingStart)
    else none

def fetchKey (s : Scan) : Option Scan :=
  if !s.inFlow && !s.keyAllowed then none
  else do
    let s ← (s.openBlock s.column s.tokens.length .blockMappingStart).dropKey
    return { s with keyAllowed := !s.inFlow }.skip.emit .key

def fetchBlockEntry (s : Scan) : Option Scan :=
  if !s.inFlow && !s.keyAllowed then none
  else do
    let s ← (s.openBlock s.column s.tokens.length .blockSequenceStart).dropKey
    return { s with keyAllowed := true }.skip.emit .blockEntry

def fetchOpen (t : Token) (s : Scan) : Option Scan := do
  let s ← s.saveKey
  return { s with outer := s.pending :: s.outer, pending := none, keyAllowed := true }.skip.emit t

def fetchClose (t : Token) (s : Scan) : Option Scan := do
  let s ← s.dropKey
  let s := match s.outer with
    | k :: outer => { s with pending := k, outer }
    | [] => s
  return { s with keyAllowed := false }.skip.emit t

def fetchFlowEntry (s : Scan) : Option Scan := do
  let s ← s.dropKey
  return { s with keyAllowed := true }.skip.emit .flowEntry

def isNameChar (c : Char) : Bool :=
  c.isAlphanum || c == '_' || c == '-'

def fetchName (token : String → Token) (s : Scan) : Option Scan := do
  let s ← s.saveKey
  let s := { s with keyAllowed := false }.skip
  let name := s.rest.takeWhile isNameChar
  let s := s.skipN name.length
  let ends := endsWord s.rest || s.rest.head?.any fun c => ['?', ':', ',', ']', '}', '%', '@'].contains c
  if name.isEmpty || !ends then none else return s.emit (token (.ofList name))

def fetchTag (s : Scan) : Option Scan := do
  let s ← s.saveKey
  let s := { s with keyAllowed := false }.skip
  let text := s.rest.takeWhile fun c => !(isSpaceOrTab c || isBreak c) && !(s.inFlow && c == ',')
  return (s.skipN text.length).emit (.tag (.ofList text))

def fetchDocumentMark (t : Token) (s : Scan) : Option Scan := do
  let s ← (s.closeBlocks (-1)).dropKey
  return { s with keyAllowed := false }.skipN 3 |>.emit t

def fetchDirective (s : Scan) : Option Scan := do
  let s ← (s.closeBlocks (-1)).dropKey
  return { s with keyAllowed := false }.skipWhile (!isBreak ·) |>.emit .directive

def toNext : Nat → Scan → Scan
  | 0, s => s
  | fuel + 1, s =>
    let s := if s.column == 0 && s.rest.head? == some (Char.ofNat 0xfeff) then s.skip else s
    let s := s.skipWhile fun c => c == ' ' || ((s.inFlow || !s.keyAllowed) && c == '\t')
    let s := if s.rest.head? == some '#' then s.skipWhile (!isBreak ·) else s
    match s.rest with
    | c :: _ =>
      if isBreak c then
        let s := s.skipLine
        toNext fuel (if s.inFlow then s else { s with keyAllowed := true })
      else s
    | [] => s

def startsPlain (inFlow : Bool) : List Char → Bool
  | [] => false
  | c :: rest =>
    !(isSpaceOrTab c || isBreak c || "-?:,[]\x7b\x7d#&*!|>'\"%@`".toList.contains c) ||
      (c == '-' && !rest.head?.any isSpaceOrTab) ||
      (!inFlow && (c == '?' || c == ':') && !endsWord rest)

def fetch (s : Scan) : Option Scan :=
  let s := s.toNext (s.rest.length + 1)
  let s := s.closeBlocks s.column
  match s.rest with
  | [] => do
    let s ← (s.closeBlocks (-1)).dropKey
    return { s with keyAllowed := false }.emit .streamEnd
  | c :: rest =>
    if s.column == 0 && c == '%' then s.fetchDirective
    else if s.column == 0 && isDocumentMark s.rest then
      s.fetchDocumentMark (if c == '-' then .documentStart else .documentEnd)
    else if c == '[' then s.fetchOpen .flowSequenceStart
    else if c == '{' then s.fetchOpen .flowMappingStart
    else if c == ']' then s.fetchClose .flowSequenceEnd
    else if c == '}' then s.fetchClose .flowMappingEnd
    else if c == ',' then s.fetchFlowEntry
    else if c == '-' && endsWord rest then s.fetchBlockEntry
    else if c == '?' && (s.inFlow || endsWord rest) then s.fetchKey
    else if c == ':' && (s.inFlow || endsWord rest) then s.fetchValue
    else if c == '*' then s.fetchName .reference
    else if c == '&' then s.fetchName .anchor
    else if c == '!' then s.fetchTag
    else if c == '|' && !s.inFlow then s.fetchBlockScalar true
    else if c == '>' && !s.inFlow then s.fetchBlockScalar false
    else if c == '\'' then s.fetchQuoted true
    else if c == '"' then s.fetchQuoted false
    else if startsPlain s.inFlow s.rest then s.fetchPlain
    else none

/-- Reads tokens to the end. `fuel` bounds their number. -/
def run : Nat → Scan → List Token
  | 0, s => s.tokens ++ [.failure]
  | fuel + 1, s =>
    match s.fetch with
    | none => s.tokens ++ [.failure]
    | some next => if next.tokens.getLast? matches some .streamEnd then next.tokens else run fuel next

end Scan

def tokens (cs : List Char) : List Token :=
  if cs.all isAllowed then ({ rest := cs } : Scan).run (cs.length + 1) else [.failure]

end TypeEngine.Yaml
