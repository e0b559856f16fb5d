import TypeEngine.Numeral

/-!
Tokens of schema files. Comments and white space separate tokens.
-/

namespace TypeEngine.Proto

inductive Token where
  | word (s : String)
  | integer (n : Nat)
  /-- A number with a point or an exponent, or one too large for 64 bits. -/
  | real
  | text (s : String)
  | mark (c : Char)
  deriving DecidableEq, Repr

namespace Token

def startsWord (c : Char) : Bool := c.isAlpha || c == '_'

def isWordChar (c : Char) : Bool := c.isAlphanum || c == '_'

def isSpace (c : Char) : Bool :=
  c == ' ' || c == '\n' || c == '\r' || c == '\t' || c.toNat == 11 || c.toNat == 12

def marks : List Char := ";,.:=-+()\x7b\x7d[]<>/".toList

/-- Drops a comment up to its end mark; it must have one. -/
def dropComment : List Char → Option (List Char)
  | '*' :: '/' :: cs => some cs
  | _ :: cs => dropComment cs
  | [] => none

def digitIn? (base : Nat) (c : Char) : Option Nat :=
  let n :=
    if '0' ≤ c && c ≤ '9' then c.toNat - 48
    else if 'a' ≤ c && c ≤ 'f' then c.toNat - 87
    else if 'A' ≤ c && c ≤ 'F' then c.toNat - 55
    else 16
  if n < base then some n else none

def inBase? (base : Nat) (cs : List Char) : Option Nat :=
  if cs.isEmpty then none else cs.foldlM (fun v c => (digitIn? base c).map (v * base + ·)) 0

/-- The number that a run of letters, digits, points and signs spells. -/
def number? (cs : List Char) : Option Token :=
  let bounded := fun (n : Nat) => if n < Nat.pow 2 64 then Token.integer n else .real
  match cs with
  | '0' :: 'x' :: ds | '0' :: 'X' :: ds => (inBase? 16 ds).map bounded
  | _ =>
    if cs.all Numeral.isDigit then
      match cs with
      | '0' :: d :: ds => (inBase? 8 (d :: ds)).map bounded
      | _ => (inBase? 10 cs).map bounded
    else
      let mantissa := cs.takeWhile fun c => c != 'e' && c != 'E'
      let exponent := (cs.dropWhile fun c => c != 'e' && c != 'E').drop 1
      let marked := mantissa.length < cs.length
      let digits := mantissa.filter (· != '.')
      let unsigned := match exponent with
        | '+' :: ds | '-' :: ds => ds
        | ds => ds
      if digits.length + 1 < mantissa.length || digits.isEmpty || !digits.all Numeral.isDigit then none
      else if marked && (unsigned.isEmpty || !unsigned.all Numeral.isDigit) then none
      else some .real

/-- The characters of a number at the front; a sign belongs to it after an exponent mark. -/
def numberChars (hex : Bool) : Char → List Char → List Char
  | _, [] => []
  | before, c :: cs =>
    if isWordChar c || c == '.' ||
        (!hex && (before == 'e' || before == 'E') && (c == '+' || c == '-')) then
      c :: numberChars hex c cs
    else []

def quoted (quote : Char) : Nat → List Char → Option (List Char × List Char)
  | 0, _ => none
  | fuel + 1, cs =>
    match cs with
    | [] => none
    | '\\' :: c :: rest =>
      if "abfnrtv\\'\"?".toList.contains c then do
        let (chars, rest) ← quoted quote fuel rest
        return (c :: chars, rest)
      else if c == 'x' || c == 'X' then
        let ds := (rest.take 2).takeWhile fun d => (digitIn? 16 d).isSome
        if ds.isEmpty then none
        else do
          let (chars, rest) ← quoted quote fuel (rest.drop ds.length)
          return ('x' :: chars, rest)
      else if (digitIn? 8 c).isSome then
        let ds := (rest.take 2).takeWhile fun d => (digitIn? 8 d).isSome
        do
          let (chars, rest) ← quoted quote fuel (rest.drop ds.length)
          return ('0' :: chars, rest)
      else if c == 'u' || c == 'U' then
        let n := if c == 'u' then 4 else 8
        if (rest.take n).length = n && (rest.take n).all fun d => (digitIn? 16 d).isSome then do
          let (chars, rest) ← quoted quote fuel (rest.drop n)
          return ('u' :: chars, rest)
        else none
      else none
    | '\n' :: _ => none
    | c :: rest =>
      if c == quote then some ([], rest)
      else if c.toNat == 0 then none
      else do
        let (chars, rest) ← quoted quote fuel rest
        return (c :: chars, rest)

/-- Reads all tokens. `fuel` bounds their number. -/
def scan : Nat → List Char → Option (List Token)
  | 0, _ => none
  | fuel + 1, cs =>
    match cs with
    | [] => some []
    | '/' :: '/' :: rest => scan fuel (rest.dropWhile (· != '\n'))
    | '/' :: '*' :: rest => (dropComment rest).bind (scan fuel)
    | c :: rest =>
      if isSpace c then scan fuel rest
      else if startsWord c then
        (scan fuel (rest.dropWhile isWordChar)).map (.word (.ofList (c :: rest.takeWhile isWordChar)) :: ·)
      else if Numeral.isDigit c || (c == '.' && rest.head?.any Numeral.isDigit) then do
        let hex := c == '0' && rest.head?.any fun d => d == 'x' || d == 'X'
        let ds := numberChars hex ' ' cs
        let t ← number? ds
        let ts ← scan fuel (cs.drop ds.length)
        return t :: ts
      else if c == '"' || c == '\'' then do
        let (chars, rest) ← quoted c (rest.length + 1) rest
        let ts ← scan fuel rest
        return .text (.ofList chars) :: ts
      else if marks.contains c then (scan fuel rest).map (.mark c :: ·)
      else none

end Token

/-- The tokens of a schema file. A mark of the byte order in front is no part of the text. -/
def tokens (text : String) : Option (List Token) :=
  let cs := text.toList
  let cs := if cs.head? == some (Char.ofNat 0xfeff) then cs.tail else cs
  Token.scan (cs.length + 1) cs

end TypeEngine.Proto
