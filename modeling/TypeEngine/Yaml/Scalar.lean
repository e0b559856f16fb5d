import TypeEngine.Numeral
import TypeEngine.Yaml.Node

/-!
What plain scalars stand for. A plain scalar that spells no null, boolean, number or time is text;
quoted and block scalars always are.
-/

namespace TypeEngine.Yaml

inductive Decimal where
  | notANumber
  | infinite (negative : Bool)
  | finite (negative : Bool) (numerator denominator : Nat)

inductive Scalar where
  | null
  | boolean (b : Bool)
  | integer (n : Int)
  | decimal (d : Decimal)
  | time
  | text (s : String)

namespace Scalar

def nullNames : List String := ["", "~", "null", "Null", "NULL"]
def trueNames : List String := ["true", "True", "TRUE"]
def falseNames : List String := ["false", "False", "FALSE"]
def nanNames : List String := [".nan", ".NaN", ".NAN"]
def infinityNames : List String := [".inf", ".Inf", ".INF", "+.inf", "+.Inf", "+.INF"]
def minusInfinityNames : List String := ["-.inf", "-.Inf", "-.INF"]

/-! ### Numbers -/

def digit? (c : Char) : Option Nat :=
  if '0' ≤ c && c ≤ '9' then some (c.toNat - 48)
  else if 'a' ≤ c && c ≤ 'z' then some (c.toNat - 87)
  else if 'A' ≤ c && c ≤ 'Z' then some (c.toNat - 55)
  else none

/-- Digits in a base, at least one. -/
def inBase? (base : Nat) (cs : List Char) : Option Nat :=
  if cs.isEmpty then none
  else cs.foldl (fun v c => do
    let d ← digit? c
    if d < base then return (← v) * base + d else none) (some 0)

/-- A number without a sign; what it starts with says its base. -/
def magnitude? : List Char → Option Nat
  | '0' :: c :: cs =>
    if c == 'x' || c == 'X' then inBase? 16 cs
    else if c == 'b' || c == 'B' then inBase? 2 cs
    else if c == 'o' || c == 'O' then inBase? 8 cs
    else inBase? 8 (c :: cs)
  | cs => inBase? 10 cs

/-- Puts a sign in front of a magnitude, within 64 bits. -/
def signed? (read : List Char → Option Nat) : List Char → Option Int
  | '-' :: cs => (read cs).bind fun n => Numeral.inRange? (-(n : Int))
  | '+' :: cs => (read cs).bind fun n => Numeral.inRange? n
  | cs => (read cs).bind fun n => Numeral.inRange? n

/-- Integers of 64 bits, with a sign or without. After a base a sign may stand too. -/
def integer? (cs : List Char) : Option Int :=
  (signed? magnitude? cs).or <| (unsigned? magnitude? cs).or <|
    match cs with
    | '0' :: 'b' :: cs => signed? (inBase? 2) cs
    | '0' :: 'o' :: cs => signed? (inBase? 8) cs
    | _ => none
where
  unsigned? (read : List Char → Option Nat) (cs : List Char) : Option Int :=
    (read cs).bind fun n => if n < Nat.pow 2 64 then some n else none

/-- Digits with at most one point among them: their number and how many follow the point. -/
def mantissa? (cs : List Char) : Option (Nat × Nat) :=
  let whole := cs.takeWhile Numeral.isDigit
  match cs.dropWhile Numeral.isDigit with
  | [] => (Numeral.natural? whole).map (·, 0)
  | '.' :: part => (Numeral.natural? (whole ++ part)).map (·, part.length)
  | _ => none

/-- A decimal below the largest that 64 bits can hold. -/
def decimal? (cs : List Char) : Option Decimal := do
  let (negative, cs) := match cs with
    | '-' :: cs => (true, cs)
    | '+' :: cs => (false, cs)
    | cs => (false, cs)
  let isMark := fun (c : Char) => c == 'e' || c == 'E'
  let (m, places) ← mantissa? (cs.takeWhile (!isMark ·))
  let exponent ← match cs.dropWhile (!isMark ·) with
    | [] => some 0
    | _ :: '-' :: ds => (Numeral.natural? ds).map fun n => -(n : Int)
    | _ :: '+' :: ds => (Numeral.natural? ds).map fun n => (n : Int)
    | _ :: ds => (Numeral.natural? ds).map fun n => (n : Int)
  let shift := exponent - places
  if m = 0 then return .finite negative 0 1
  else if 400 < shift then none
  else if shift < -(400 + cs.length : Int) then return .finite negative 0 1
  else if 0 ≤ shift then bounded negative (m * Nat.pow 10 shift.toNat) 1
  else bounded negative m (Nat.pow 10 (-shift).toNat)
where
  /-- Numbers from half a unit above the largest finite one are out of range. -/
  bounded (negative : Bool) (n d : Nat) : Option Decimal :=
    if (Nat.pow 2 1024 - Nat.pow 2 970) * d ≤ n then none else some (.finite negative n d)

/-! ### Times -/

def shortNumber? : List Char → Option (Nat × List Char)
  | a :: b :: cs =>
    if Numeral.isDigit a then
      if Numeral.isDigit b then some (Numeral.value [a, b], cs) else some (Numeral.value [a], b :: cs)
    else none
  | [a] => if Numeral.isDigit a then some (Numeral.value [a], []) else none
  | [] => none

def isLeapYear (y : Nat) : Bool := y % 4 == 0 && (y % 100 != 0 || y % 400 == 0)

def daysIn (year month : Nat) : Nat :=
  if month = 2 then if isLeapYear year then 29 else 28
  else if [4, 6, 9, 11].contains month then 30
  else 31

def date? (cs : List Char) : Option (List Char) := do
  let year := cs.takeWhile Numeral.isDigit
  if year.length ≠ 4 then none
  let '-' :: cs := cs.drop 4 | none
  let (month, cs) ← shortNumber? cs
  let '-' :: cs := cs | none
  let (day, cs) ← shortNumber? cs
  if 1 ≤ month && month ≤ 12 && 1 ≤ day && day ≤ daysIn (Numeral.value year) month then return cs
  else none

/-- A time of day with a fraction of a second or without, and what follows it. -/
def clock? (cs : List Char) : Option (List Char) := do
  let (hour, cs) ← shortNumber? cs
  let ':' :: cs := cs | none
  let (minute, cs) ← shortNumber? cs
  let ':' :: cs := cs | none
  let (second, cs) ← shortNumber? cs
  if 24 ≤ hour || 60 ≤ minute || 60 ≤ second then none
  match cs with
  | point :: c :: rest =>
    if (point == '.' || point == ',') && Numeral.isDigit c then return rest.dropWhile Numeral.isDigit
    else return cs
  | _ => return cs

def isZone : List Char → Bool
  | ['Z'] => true
  | [sign, a, b, ':', c, d] =>
    (sign == '+' || sign == '-') && [a, b, c, d].all Numeral.isDigit &&
      Numeral.value [a, b] ≤ 24 && Numeral.value [c, d] ≤ 60
  | _ => false

def isTime (cs : List Char) : Bool :=
  match date? cs with
  | none => false
  | some [] => true
  | some (c :: rest) =>
    match clock? (if c == ' ' then rest.dropWhile (· == ' ') else rest) with
    | none => false
    | some rest => ((c == 'T' || c == 't') && isZone rest) || (c == ' ' && rest.isEmpty)

/-! ### Resolution -/

def ofPlain (s : String) : Scalar :=
  if nullNames.contains s then .null
  else if trueNames.contains s then .boolean true
  else if falseNames.contains s then .boolean false
  else if nanNames.contains s then .decimal .notANumber
  else if infinityNames.contains s then .decimal (.infinite false)
  else if minusInfinityNames.contains s then .decimal (.infinite true)
  else
    let cs := s.toList
    match cs with
    | [] => .null
    | c :: _ =>
      if c == '.' then
        match decimal? cs with
        | some d => .decimal d
        | none => .text s
      else if Numeral.isDigit c || c == '+' || c == '-' then
        if isTime cs then .time
        else
          let cs := cs.filter (· != '_')
          match integer? cs with
          | some n => .integer n
          | none =>
            match decimal? cs with
            | some d => .decimal d
            | none => .text s
      else .text s

def of (s : String) (style : Style) : Scalar := if style = .plain then ofPlain s else .text s

end Scalar

/-! ### Reading values -/

namespace Node

/-- The node stands for nothing. -/
def isNull : Node → Bool
  | .scalar s style =>
    match Scalar.of s style with
    | .null => true
    | _ => false
  | _ => false

/-- A text: any scalar as it is written, and nothing as the empty text. -/
def text? : Node → Option String
  | .scalar s style => if (Node.scalar s style).isNull then some "" else some s
  | _ => none

/-- A text that may be missing. -/
def optionalText? (n : Node) : Option (Option String) :=
  if n.isNull then some none else n.text?.map some

def yesNames : List String := ["y", "Y", "yes", "Yes", "YES", "on", "On", "ON"]
def noNames : List String := ["n", "N", "no", "No", "NO", "off", "Off", "OFF"]

def flag? : Node → Option Bool
  | .scalar s style =>
    match Scalar.of s style with
    | .null => some false
    | .boolean b => some b
    | .text s => if yesNames.contains s then some true else if noNames.contains s then some false else none
    | _ => none
  | _ => none

/-- The nearest number of 53 significant bits to a quotient, without its fraction. A half goes to
the even neighbour. -/
def wholePart (n d : Nat) : Nat :=
  let q := n / d
  let bits := if q = 0 then 0 else Nat.log2 q + 1
  -- the last of the 53 bits stands for `2 ^ (bits - 53)`
  let (n, d) := if bits ≤ 53 then (n * Nat.pow 2 (53 - bits), d) else (n, d * Nat.pow 2 (bits - 53))
  let q := n / d
  let r := n % d
  let q := if d < 2 * r || (2 * r = d && q % 2 = 1) then q + 1 else q
  if bits ≤ 53 then q / Nat.pow 2 (53 - bits) else q * Nat.pow 2 (bits - 53)

/-- A decimal without its fraction. What is too small for 64 bits becomes the least number, and so
does the first number that is too large. -/
def wholeOf? : Decimal → Option Int
  | .notANumber => none
  | .infinite negative => if negative then some Numeral.least else none
  | .finite negative n d =>
    let w := wholePart n d
    if negative then some (max (-(w : Int)) Numeral.least)
    else if w < Nat.pow 2 63 then some w
    else if w = Nat.pow 2 63 then some Numeral.least
    else none

def count? : Node → Option Int
  | .scalar s style =>
    match Scalar.of s style with
    | .null => some 0
    | .integer n => Numeral.inRange? n
    | .decimal d => wholeOf? d
    | _ => none
  | _ => none

/-- A list, in which nothing leaves no item. -/
def list? {α : Type} (read : Node → Option α) : Node → Option (List α)
  | .sequence items => (items.filter (!·.isNull)).mapM read
  | n => if n.isNull then some [] else none

def sameKey : Node → Node → Bool
  | .scalar s _, .scalar t _ => s = t
  | .sequence _, .sequence _ => true
  | .mapping _, .mapping _ => true
  | _, _ => false

def distinctKeys : List Pair → Bool
  | [] => true
  | m :: ms => !ms.any (fun m' => m.key.sameKey m'.key) && distinctKeys ms

/-- The members of a record. Keys are texts, each of them once. -/
def record? : Node → Option (List (String × Node))
  | .mapping members =>
    if distinctKeys members then
      (members.filter (!·.key.isNull)).mapM fun m => (m.key.text?).map (·, m.value)
    else none
  | n => if n.isNull then some [] else none

/-- The member called `name`, or what a missing one stands for. -/
def member {α : Type} (fields : List (String × Node)) (name : String) (absent : α)
    (read : Node → Option α) : Option α :=
  match fields.lookup name with
  | some n => read n
  | none => some absent

end Node

end TypeEngine.Yaml
