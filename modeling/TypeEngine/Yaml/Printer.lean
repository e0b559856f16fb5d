import TypeEngine.Text.Quoted
import TypeEngine.Yaml.Scalar

/-!
Documents as text, in block style with an indentation of four. Collections without items are
written in brackets. A scalar keeps its style as far as the characters in it allow.
-/

namespace TypeEngine.Yaml

/-! ### Styles -/

/-- Numbers in base sixty, which older readers know: digits, and groups below sixty after colons. -/
def isSexagesimal (cs : List Char) : Bool :=
  let unsigned := match cs with
    | '+' :: cs | '-' :: cs => cs
    | cs => cs
  let pieces := splitColon unsigned
  match pieces with
  | first :: mid@(_ :: _) =>
    let last := mid.getLastD []
    let isDigits := fun (ds : List Char) => ds.all fun c => Numeral.isDigit c || c == '_'
    let isGroup := fun (ds : List Char) =>
      match ds with
      | [a] => Numeral.isDigit a
      | [a, b] => '0' ≤ a && a ≤ '5' && Numeral.isDigit b
      | _ => false
    first.head?.any Numeral.isDigit && isDigits first && mid.dropLast.all isGroup &&
      isGroup (last.takeWhile (· != '.')) && isDigits ((last.dropWhile (· != '.')).drop 1)
  | _ => false
where
  splitColon : List Char → List (List Char)
    | [] => [[]]
    | ':' :: cs => [] :: splitColon cs
    | c :: cs =>
      match splitColon cs with
      | [] => [[c]]
      | p :: ps => (c :: p) :: ps

/-- The text reads as text when it is written plain, by older readers too. -/
def readsAsText (s : String) : Bool :=
  let isText := match Scalar.ofPlain s with
    | .text _ => true
    | _ => false
  isText && !isSexagesimal s.toList && !Node.yesNames.contains s && !Node.noNames.contains s

def Node.ofText (s : String) : Node :=
  .scalar s (if s.toList.contains '\n' then .literal else if readsAsText s then .plain else .doubleQuoted)

/-- The node of a word that readers take as it is written. -/
def Node.ofWord (s : String) : Node := .scalar s (if s.toList.contains '\n' then .literal else .plain)

def Node.ofFlag (b : Bool) : Node := .scalar (if b then "true" else "false") .plain

/-- Characters that need no escape between double quotes. -/
def isPlainChar (c : Char) : Bool :=
  let n := c.toNat
  n == 0x0a || (0x20 ≤ n && n ≤ 0x7e) || (0xa0 ≤ n && n ≤ 0xd7ff) ||
    (0xe000 ≤ n && n ≤ 0xfffd && n != 0xfeff)

/-- The styles that the characters of a text allow. -/
structure Allowed where
  plain : Bool
  single : Bool
  block : Bool
  multiline : Bool

/-- What the text holds one character after the other; `before` is the character before. -/
structure Traits where
  indicator : Bool := false
  special : Bool := false
  tab : Bool := false
  breaks : Bool := false
  spaceThenBreak : Bool := false
  breakThenSpace : Bool := false

def Traits.scan : Option Char → List Char → Traits → Traits
  | _, [], t => t
  | before, c :: rest, t =>
    let followed := match rest with
      | [] => true
      | d :: _ => isSpaceOrTab d
    let preceded := match before with
      | none => true
      | some d => isSpaceOrTab d || isBreak d
    let indicator :=
      if before.isNone then
        "#,[]\x7b\x7d&*!|>'\"%@`".toList.contains c || ((c == '?' || c == ':' || c == '-') && followed)
      else (c == ':' && followed) || (c == '#' && preceded)
    scan (some c) rest
      { indicator := t.indicator || indicator
        special := t.special || (c != '\t' && !isPlainChar c)
        tab := t.tab || c == '\t'
        breaks := t.breaks || isBreak c
        spaceThenBreak := t.spaceThenBreak || (isBreak c && before == some ' ')
        breakThenSpace := t.breakThenSpace || (c == ' ' && before.any isBreak) }

def Allowed.of (cs : List Char) : Allowed :=
  if cs.isEmpty then { plain := true, single := true, block := false, multiline := false }
  else
    let t := Traits.scan none cs {}
    let atEnds := fun (p : Char → Bool) => cs.head?.any p || cs.getLast?.any p
    let mark := cs.take 3 == ['-', '-', '-'] || cs.take 3 == ['.', '.', '.']
    let awkward := t.breakThenSpace || t.spaceThenBreak || t.tab || t.special
    { plain := !(atEnds fun c => c == ' ' || isBreak c) && !awkward && !t.breaks && !t.indicator && !mark
      single := !awkward
      block := !(cs.getLast? == some ' ') && !t.spaceThenBreak && !t.special
      multiline := t.breaks }

/-- The style in which a scalar is written; a key on one line with its value is `simple`. -/
def Style.settle (cs : List Char) (simple : Bool) (style : Style) : Style :=
  let allowed := Allowed.of cs
  let style := if simple && allowed.multiline then .doubleQuoted else style
  let style :=
    if style = .plain && (!allowed.plain || (cs.isEmpty && simple)) then .singleQuoted else style
  if style = .singleQuoted && !allowed.single then .doubleQuoted
  else if (style = .literal || style = .folded) && (!allowed.block || simple) then .doubleQuoted
  else style

/-! ### Scalars -/

def upperHex (width n : Nat) : List Char := (Text.hex width n).map Char.toUpper

def escape (c : Char) : List Char :=
  let n := c.toNat
  if c == '"' || c == '\\' then ['\\', c]
  else if isPlainChar c && !isBreak c then [c]
  else
    match [(0, '0'), (7, 'a'), (8, 'b'), (9, 't'), (10, 'n'), (11, 'v'), (12, 'f'), (13, 'r'),
      (27, 'e'), (0x85, 'N'), (0x2028, 'L'), (0x2029, 'P')].lookup n with
    | some letter => ['\\', letter]
    | none =>
      if n ≤ 0xff then '\\' :: 'x' :: upperHex 2 n
      else if n ≤ 0xffff then '\\' :: 'u' :: upperHex 4 n
      else '\\' :: 'U' :: upperHex 8 n

/-- The marks after the bar of a block scalar: its indentation when the text does not show it, and
what becomes of line breaks at its end. -/
def blockMarks (cs : List Char) : List Char :=
  let indentation := if cs.head?.any fun c => c == ' ' || isBreak c then ['4'] else []
  let chomping := match cs.reverse with
    | [] => ['-']
    | [c] => if isBreak c then ['+'] else ['-']
    | c :: d :: _ => if !isBreak c then ['-'] else if isBreak d then ['+'] else []
  indentation ++ chomping

/-- The lines of a block scalar, indented unless they are empty. -/
def blockText (indent : Nat) : Bool → List Char → List Char
  | _, [] => []
  | fresh, c :: cs =>
    if isBreak c then c :: blockText indent true cs
    else if fresh then List.replicate indent ' ' ++ c :: blockText indent false cs
    else c :: blockText indent false cs

/-- A scalar as text; block scalars are written at the column `indent`. -/
def scalarText (indent : Nat) (simple : Bool) (s : String) (style : Style) : List Char :=
  let cs := s.toList
  match style.settle cs simple with
  | .plain => cs
  | .singleQuoted => '\'' :: cs.flatMap (fun c => if c == '\'' then ['\'', '\''] else [c]) ++ ['\'']
  | .doubleQuoted => '"' :: cs.flatMap escape ++ ['"']
  | .literal | .folded => '|' :: blockMarks cs ++ '\n' :: blockText indent true cs

/-! ### Nodes -/

/-- Ends a line that is not ended. -/
def endLine (cs : List Char) : List Char := if cs.getLast? == some '\n' then cs else cs ++ ['\n']

/-- The next indentation that is a multiple of four. -/
def deeper (indent : Nat) : Nat := 4 * ((indent + 4) / 4)

def spaces (n : Nat) : List Char := List.replicate n ' '

/-- A key and its colon. A key that is long or has several lines stands on lines of its own. -/
def keyText (indent : Nat) : Node → List Char
  | .scalar s style =>
    if s.utf8ByteSize ≤ 128 && !(Allowed.of s.toList).multiline then
      scalarText (deeper indent) true s style ++ [':']
    else
      endLine ('?' :: ' ' :: scalarText (deeper indent) false s style) ++ spaces indent ++ [':']
  | _ => [':']

mutual

/-- The items of a sequence at a column, each without the indentation in front. -/
def itemEntries (indent : Nat) : List Node → List (List Char)
  | [] => []
  | item :: items => itemEntry indent item :: itemEntries indent items

/-- An item starts on the line of its dash. -/
def itemEntry (indent : Nat) : Node → List Char
  | .scalar s style =>
    let text := scalarText (indent + 2) false s style
    '-' :: endLine (if text.isEmpty then [] else ' ' :: text)
  | .sequence [] => "- []\n".toList
  | .mapping [] => "- \x7b\x7d\n".toList
  | .sequence items =>
    '-' :: ' ' :: (spaces (indent + 2)).intercalate (itemEntries (indent + 2) items)
  | .mapping members =>
    '-' :: ' ' :: (spaces (indent + 2)).intercalate (memberEntries (indent + 2) members)

/-- The members of a mapping at a column, each without the indentation in front. -/
def memberEntries (indent : Nat) : List Pair → List (List Char)
  | [] => []
  | .mk key value :: members =>
    (keyText indent key ++ afterColon indent value) :: memberEntries indent members

/-- The value of a member, with the end of its line. -/
def afterColon (indent : Nat) : Node → List Char
  | .scalar s style =>
    let text := scalarText (deeper indent) false s style
    endLine (if text.isEmpty then [] else ' ' :: text)
  | .sequence [] => " []\n".toList
  | .mapping [] => " \x7b\x7d\n".toList
  | .sequence items =>
    '\n' :: (itemEntries (deeper indent) items).flatMap (spaces (deeper indent) ++ ·)
  | .mapping members =>
    '\n' :: (memberEntries (deeper indent) members).flatMap (spaces (deeper indent) ++ ·)

end

def Node.chars : Node → List Char
  | .mapping [] => "\x7b\x7d\n".toList
  | .sequence [] => "[]\n".toList
  | .scalar s style => endLine (scalarText 4 false s style)
  | .sequence items => (itemEntries 0 items).flatten
  | .mapping members => (memberEntries 0 members).flatten

def Node.render (n : Node) : String := .ofList n.chars

end TypeEngine.Yaml
