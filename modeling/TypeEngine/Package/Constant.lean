import TypeEngine.Numeral
import TypeEngine.Package.Rounding
import TypeEngine.Text.Bytes

/-!
Constant expressions: literals, names, conversions and operators. Numbers are exact until a value
takes a type.
-/

namespace TypeEngine.Package

/-! ### Tokens -/

/-- The kinds of values without a type, in the order in which one widens to another. -/
inductive ValueKind where
  | int | rune | float | complex | bool | text
  deriving DecidableEq, Repr

inductive Value where
  | bool (b : Bool)
  | text (bytes : List UInt8)
  | number (re im : Rat)

def Value.ofInt (n : Int) : Value := .number n 0

inductive ConstToken where
  | name (text : String)
  | literal (kind : ValueKind) (value : Value)
  | op (text : String)

namespace ConstToken

def isLetter (c : Char) : Bool := c.isAlpha || c == '_' || 0x80 ≤ c.toNat

/-- The characters of a number. A sign belongs to it after the mark of an exponent. -/
def numberChars (hex : Bool) : Char → List Char → List Char × List Char
  | _, [] => ([], [])
  | before, c :: cs =>
    let afterMark := if hex then before == 'p' || before == 'P' else before == 'e' || before == 'E'
    if c.isAlphanum || c == '_' || c == '.' || ((c == '+' || c == '-') && afterMark) then
      let (taken, rest) := numberChars hex c cs
      (c :: taken, rest)
    else ([], c :: cs)

def digitValue (c : Char) : Option Nat :=
  if c.isDigit then some (c.toNat - '0'.toNat)
  else if 'a' ≤ c && c ≤ 'f' then some (c.toNat - 'a'.toNat + 10)
  else if 'A' ≤ c && c ≤ 'F' then some (c.toNat - 'A'.toNat + 10)
  else none

def digits? (base : Nat) (cs : List Char) : Option Nat :=
  if cs.isEmpty then none
  else cs.foldlM (fun n c => do
    let d ← digitValue c
    if d < base then some (n * base + d) else none) 0

/-- The largest exponent that is computed with. -/
def maxExponent : Int := 5000

/-- A number with digits after a point and an exponent of `radix`. -/
def scaled? (base : Nat) (radix : Int → Rat) (shift : Nat) (mark : Char → Bool) (cs : List Char) :
    Option Rat := do
  let mantissa := cs.takeWhile fun c => !mark c
  let exponent := cs.dropWhile fun c => !mark c
  let whole := mantissa.takeWhile (· != '.')
  let fraction := (mantissa.dropWhile (· != '.')).drop 1
  let n ← digits? base (whole ++ fraction)
  let e ← if exponent.isEmpty then some 0 else Numeral.read? (.ofList (exponent.drop 1))
  if e < -maxExponent || maxExponent < e then none
  else return n * radix (e - shift * fraction.length)

def powerOfTen (e : Int) : Rat :=
  if 0 ≤ e then mkRat (Nat.pow 10 e.toNat) 1 else mkRat 1 (Nat.pow 10 (-e).toNat)

/-- The number that a literal without digit separators denotes. -/
def number? (cs : List Char) : Option (ValueKind × Rat) :=
  let int := fun (n : Option Nat) => n.map fun n => (ValueKind.int, (n : Rat))
  match cs with
  | '0' :: x :: rest =>
    if x == 'x' || x == 'X' then
      if rest.any fun c => c == '.' || c == 'p' || c == 'P' then
        (scaled? 16 powerOfTwo 4 (fun c => c == 'p' || c == 'P') rest).map (.float, ·)
      else int (digits? 16 rest)
    else if x == 'b' || x == 'B' then int (digits? 2 rest)
    else if x == 'o' || x == 'O' then int (digits? 8 rest)
    else if isFloat cs then decimal
    else int (digits? 8 (x :: rest))
  | _ => if isFloat cs then decimal else int (digits? 10 cs)
where
  isFloat (cs : List Char) : Bool := cs.any fun c => c == '.' || c == 'e' || c == 'E'
  decimal : Option (ValueKind × Rat) :=
    (scaled? 10 powerOfTen 1 (fun c => c == 'e' || c == 'E') cs).map (.float, ·)

/-- A numeric literal; a final `i` makes it imaginary. -/
def numeric? (cs : List Char) : Option ConstToken := do
  let cs := cs.filter (· != '_')
  match cs.getLast? with
  | some 'i' =>
    let (_, x) ← number? cs.dropLast
    return .literal .complex (.number 0 x)
  | _ =>
    let (kind, x) ← number? cs
    return .literal kind (.number x 0)

/-- A character of a literal: a code point, or a single byte. -/
inductive Piece where
  | char (n : Nat)
  | byte (n : Nat)

def escape? (quote : Char) : List Char → Option (Piece × List Char)
  | [] => none
  | c :: cs =>
    let fixed := fun (width : Nat) => do
      if cs.length < width then none else return (← digits? 16 (cs.take width), cs.drop width)
    if c == 'a' then some (.char 7, cs)
    else if c == 'b' then some (.char 8, cs)
    else if c == 'f' then some (.char 12, cs)
    else if c == 'n' then some (.char 10, cs)
    else if c == 'r' then some (.char 13, cs)
    else if c == 't' then some (.char 9, cs)
    else if c == 'v' then some (.char 11, cs)
    else if c == '\\' || c == quote then some (.char c.toNat, cs)
    else if c == 'x' then (fixed 2).map fun (n, rest) => (.byte n, rest)
    else if c == 'u' then (fixed 4).bind point
    else if c == 'U' then (fixed 8).bind point
    else do
      let n ← digits? 8 (c :: cs.take 2)
      if cs.length < 2 || 255 < n then none else return (.byte n, cs.drop 2)
where
  point : Nat × List Char → Option (Piece × List Char)
    | (n, rest) => if n.isValidChar then some (.char n, rest) else none

def Piece.bytes : Piece → List UInt8
  | char n => String.utf8EncodeChar (Char.ofNat n)
  | byte n => [UInt8.ofNat n]

def Piece.code : Piece → Nat
  | char n => n
  | byte n => n

def quoted? (quote : Char) : Nat → List Char → Option (List Piece × List Char)
  | 0, _ => none
  | _ + 1, [] => none
  | fuel + 1, c :: cs =>
    if c == quote then some ([], cs)
    else if c == '\n' then none
    else do
      let (piece, rest) ← if c == '\\' then escape? quote cs else some (.char c.toNat, cs)
      let (pieces, rest) ← quoted? quote fuel rest
      return (piece :: pieces, rest)

/-- Operators and marks, longer ones first. -/
def operators : List String :=
  ["&^", "<<", ">>", "&&", "||", "==", "!=", "<=", ">=", "+", "-", "*", "/", "%", "&", "|", "^",
    "!", "<", ">", "(", ")", "."]

def rawQuote : Char := Char.ofNat 96

def tokens? : Nat → List Char → Option (List ConstToken)
  | 0, _ => none
  | _ + 1, [] => some []
  | fuel + 1, c :: cs =>
    if c == ' ' || c == '\t' then tokens? fuel cs
    else if isLetter c then
      let isPart := fun (x : Char) => isLetter x || x.isDigit
      return .name (.ofList (c :: cs.takeWhile isPart)) :: (← tokens? fuel (cs.dropWhile isPart))
    else if c.isDigit || (c == '.' && (cs.head?.map Char.isDigit).getD false) then do
      let hex := c == '0' && (cs.head? == some 'x' || cs.head? == some 'X')
      let (taken, rest) := numberChars hex c cs
      return (← numeric? (c :: taken)) :: (← tokens? fuel rest)
    else if c == '"' then do
      let (pieces, rest) ← quoted? '"' fuel cs
      return .literal .text (.text (pieces.flatMap Piece.bytes)) :: (← tokens? fuel rest)
    else if c == rawQuote then
      let inside := cs.takeWhile (· != rawQuote)
      match cs.drop inside.length with
      | [] => none
      | _ :: rest => do
        let bytes := (inside.filter (· != '\r')).flatMap String.utf8EncodeChar
        return .literal .text (.text bytes) :: (← tokens? fuel rest)
    else if c == '\'' then do
      let (pieces, rest) ← quoted? '\'' fuel cs
      match pieces with
      | [p] => return .literal .rune (.ofInt p.code) :: (← tokens? fuel rest)
      | _ => none
    else do
      let op ← operators.find? fun op => op.toList.isPrefixOf (c :: cs)
      return .op op :: (← tokens? fuel ((c :: cs).drop op.length))

end ConstToken

/-! ### Expressions -/

inductive ConstExpr where
  | literal (kind : ValueKind) (value : Value)
  /-- A name, with a package before a point if there is one. -/
  | name (text : String)
  | unary (op : String) (e : ConstExpr)
  | binary (op : String) (a b : ConstExpr)
  | conversion (type : String) (e : ConstExpr)

namespace ConstExpr

def strength (op : String) : Nat :=
  if ["*", "/", "%", "<<", ">>", "&", "&^"].contains op then 5
  else if ["+", "-", "|", "^"].contains op then 4
  else if ["==", "!=", "<", "<=", ">", ">="].contains op then 3
  else if op = "&&" then 2
  else if op = "||" then 1
  else 0

mutual

/-- Reads operands that are joined by operators of at least the given strength. -/
def readBinary : Nat → Nat → List ConstToken → Option (ConstExpr × List ConstToken)
  | 0, _, _ => none
  | fuel + 1, least, ts => do
    let (e, rest) ← readUnary fuel ts
    readMore fuel least e rest

def readMore : Nat → Nat → ConstExpr → List ConstToken → Option (ConstExpr × List ConstToken)
  | 0, _, _, _ => none
  | fuel + 1, least, e, ts =>
    match ts with
    | .op op :: rest =>
      if strength op < max least 1 then some (e, ts)
      else do
        let (b, rest) ← readBinary fuel (strength op + 1) rest
        readMore fuel least (.binary op e b) rest
    | _ => some (e, ts)

def readUnary : Nat → List ConstToken → Option (ConstExpr × List ConstToken)
  | 0, _ => none
  | fuel + 1, ts =>
    match ts with
    | .op op :: rest =>
      if op = "(" then readClosed fuel rest
      else if ["+", "-", "!", "^"].contains op then do
        let (e, rest) ← readUnary fuel rest
        return (.unary op e, rest)
      else none
    | .literal kind value :: rest => some (.literal kind value, rest)
    | .name a :: .op "." :: .name b :: rest => readCall fuel (a ++ "." ++ b) rest
    | .name a :: rest => readCall fuel a rest
    | [] => none

def readClosed : Nat → List ConstToken → Option (ConstExpr × List ConstToken)
  | 0, _ => none
  | fuel + 1, ts =>
    match readBinary fuel 1 ts with
    | some (e, .op ")" :: rest) => some (e, rest)
    | _ => none

/-- A name, which is a type if parentheses follow. -/
def readCall : Nat → String → List ConstToken → Option (ConstExpr × List ConstToken)
  | 0, _, _ => none
  | fuel + 1, word, ts =>
    match ts with
    | .op "(" :: rest => do
      let (e, rest) ← readClosed fuel rest
      return (.conversion word e, rest)
    | _ => some (.name word, ts)

end

def parse? (text : String) : Option ConstExpr := do
  let ts ← ConstToken.tokens? (text.length + 1) text.toList
  match ← readBinary (4 * ts.length + 4) 1 ts with
  | (e, []) => some e
  | _ => none

/-- The names in an expression, those of types included. -/
def names : ConstExpr → List String
  | literal .. => []
  | name text => [text]
  | unary _ e => names e
  | binary _ a b => names a ++ names b
  | conversion type e => type :: names e

end ConstExpr

/-! ### Basic types -/

/-- The bits of an integer type, and whether it has a sign. -/
def integerForm? (basic : String) : Option (Nat × Bool) :=
  match basic with
  | "int" | "int64" => some (64, true)
  | "int8" => some (8, true)
  | "int16" => some (16, true)
  | "int32" | "rune" => some (32, true)
  | "uint" | "uint64" | "uintptr" => some (64, false)
  | "uint8" | "byte" => some (8, false)
  | "uint16" => some (16, false)
  | "uint32" => some (32, false)
  | _ => none

def floatFormat? : String → Option BinaryFormat
  | "float32" => some .single
  | "float64" => some .double
  | _ => none

def complexFormat? : String → Option BinaryFormat
  | "complex64" => some .single
  | "complex128" => some .double
  | _ => none

def Value.int? : Value → Option Int
  | .number re im => if im = 0 && re.den = 1 then some re.num else none
  | _ => none

/-- The value in a basic type, rounded if the type has fewer digits. -/
def Value.inBasic? (v : Value) (basic : String) : Option Value :=
  match v with
  | .bool _ => if basic = "bool" then some v else none
  | .text _ => if basic = "string" then some v else none
  | .number re im =>
    match integerForm? basic, floatFormat? basic, complexFormat? basic with
    | some (bits, signed), _, _ => do
      let n ← v.int?
      let low : Int := if signed then -(Nat.pow 2 (bits - 1) : Nat) else 0
      let high : Int := if signed then (Nat.pow 2 (bits - 1) : Nat) else (Nat.pow 2 bits : Nat)
      if low ≤ n && n < high then some v else none
    | _, some f, _ => do
      if im = 0 then return .number (← f.round? re) 0 else none
    | _, _, some f => do return .number (← f.round? re) (← f.round? im)
    | _, _, _ => none

def ratText (x : Rat) : String :=
  if x.den = 1 then toString x.num else toString x.num ++ "/" ++ toString x.den

def Value.display (basic : String) : Value → String
  | .bool b => if b then "true" else "false"
  | .text bytes => Text.quoteBytes (bytes.map Text.ofByte)
  | .number re im =>
    if (complexFormat? basic).isSome then "(" ++ ratText re ++ " + " ++ ratText im ++ "i)"
    else ratText re

end TypeEngine.Package
