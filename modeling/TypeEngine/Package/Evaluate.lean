import TypeEngine.Package.Constant
import TypeEngine.Package.Shape

/-!
Values of constant expressions. An operand without a type takes the type of the other one; a result
with a type has to fit into it.
-/

namespace TypeEngine.Package

inductive ConstType where
  | untyped (kind : ValueKind)
  | typed (type : Shape)

structure Const where
  value : Value
  type : ConstType

/-- What the names in a constant expression stand for. -/
structure ConstScope where
  constant? : String → Option Const
  type? : String → Option Shape
  /-- The name of the basic type under a type. -/
  basic? : Shape → Option String

namespace ConstScope

def fit (sc : ConstScope) (v : Value) (s : Shape) : Option Const := do
  return ⟨← v.inBasic? (← sc.basic? s), .typed s⟩

/-- The constant where a value of a type is wanted. -/
def assign (sc : ConstScope) (c : Const) (s : Shape) : Option Const :=
  match c.type with
  | .untyped _ => sc.fit c.value s
  | .typed t => if t == s then some c else none

/-- The constant in another type. A number becomes the text of its character. -/
def convert (sc : ConstScope) (c : Const) (s : Shape) : Option Const := do
  let basic ← sc.basic? s
  match basic, c.value.int? with
  | "string", some n =>
    let code := if 0 ≤ n && n.toNat.isValidChar then n.toNat else 0xfffd
    return ⟨.text (String.utf8EncodeChar (Char.ofNat code)), .typed s⟩
  | _, _ => sc.fit c.value s

/-- Integers without a type stay below this. -/
def untypedBound : Nat := Nat.pow 2 512

def isTooLarge (v : Value) : ValueKind → Bool
  | .int | .rune => v.int?.any fun n => untypedBound ≤ n.natAbs
  | _ => false

def result (sc : ConstScope) (v : Value) : ConstType → Option Const
  | .typed s => sc.fit v s
  | .untyped k => if isTooLarge v k then none else some ⟨v, .untyped k⟩

/-! ### Integers as bits -/

/-- More bits than any constant has. -/
def width : Nat := 2048

def bitwise (f : Nat → Nat → Nat) (a b : Int) : Int :=
  let word := fun (n : Int) => (n % (Nat.pow 2 width : Nat)).toNat
  Int.bmod (f (word a) (word b)) (Nat.pow 2 width)

def clearBits (a b : Int) : Int := bitwise (· &&& ·) a (-b - 1)

/-- The largest distance that a constant is shifted by. -/
def maxShift : Int := 1074

def shift? (op : String) (a n : Int) : Option Int :=
  if n < 0 || maxShift < n then none
  else if op = "<<" then some (a * (Nat.pow 2 n.toNat : Nat))
  else some (a.fdiv (Nat.pow 2 n.toNat : Nat))

/-! ### Operators -/

def ValueKind.rank : ValueKind → Nat
  | .int => 0
  | .rune => 1
  | .float => 2
  | .complex => 3
  | .bool => 4
  | .text => 5

def isNumeric (k : ValueKind) : Bool := ValueKind.rank k ≤ 3

def match? (sc : ConstScope) (a b : Const) : Option (Value × Value × ConstType) :=
  match a.type, b.type with
  | .untyped j, .untyped k =>
    if j = k then some (a.value, b.value, .untyped j)
    else if isNumeric j && isNumeric k then
      some (a.value, b.value, .untyped (if ValueKind.rank j < ValueKind.rank k then k else j))
    else none
  | .typed s, _ => do return (a.value, (← sc.assign b s).value, .typed s)
  | _, .typed s => do return ((← sc.assign a s).value, b.value, .typed s)

def isIntegral (sc : ConstScope) : ConstType → Bool
  | .untyped k => k = .int || k = .rune
  | .typed s => ((sc.basic? s).bind integerForm?).isSome

def arithmetic (op : String) (integral : Bool) : Value → Value → Option Value
  | .text a, .text b => if op = "+" then some (.text (a ++ b)) else none
  | .number a ai, .number b bi =>
    match op with
    | "+" => some (.number (a + b) (ai + bi))
    | "-" => some (.number (a - b) (ai - bi))
    | "*" => some (.number (a * b - ai * bi) (a * bi + ai * b))
    | "/" =>
      let norm := b * b + bi * bi
      if norm = 0 then none
      else if integral then some (.ofInt (a.num.tdiv b.num))
      else some (.number ((a * b + ai * bi) / norm) ((ai * b - a * bi) / norm))
    | _ =>
      if !integral then none
      else if op = "%" then if b = 0 then none else some (.ofInt (a.num.tmod b.num))
      else if op = "&" then some (.ofInt (bitwise (· &&& ·) a.num b.num))
      else if op = "|" then some (.ofInt (bitwise (· ||| ·) a.num b.num))
      else if op = "^" then some (.ofInt (bitwise (· ^^^ ·) a.num b.num))
      else if op = "&^" then some (.ofInt (clearBits a.num b.num))
      else none
  | _, _ => none

def bytesOrder (a b : List UInt8) : Ordering := compareList a b
where
  compareList : List UInt8 → List UInt8 → Ordering
    | [], [] => .eq
    | [], _ :: _ => .lt
    | _ :: _, [] => .gt
    | x :: xs, y :: ys => if x < y then .lt else if y < x then .gt else compareList xs ys

def compare? (op : String) (a b : Value) : Option Bool := do
  let (order, ordered) ← match a, b with
    | .bool a, .bool b => some (if a = b then Ordering.eq else .lt, false)
    | .text a, .text b => some (bytesOrder a b, true)
    | .number a ai, .number b bi =>
      some (if a = b && ai = bi then .eq else if a < b then .lt else .gt, ai = 0 && bi = 0)
    | _, _ => none
  match op with
  | "==" => some (order == .eq)
  | "!=" => some (order != .eq)
  | "<" => if ordered then some (order == .lt) else none
  | "<=" => if ordered then some (order != .gt) else none
  | ">" => if ordered then some (order == .gt) else none
  | _ => if ordered then some (order != .lt) else none

def binary (sc : ConstScope) (op : String) (a b : Const) : Option Const := do
  if op = "<<" || op = ">>" then
    let n ← shift? op (← a.value.int?) (← b.value.int?)
    match a.type with
    | .untyped .rune => sc.result (.ofInt n) (.untyped .rune)
    | .untyped k => if isNumeric k then sc.result (.ofInt n) (.untyped .int) else none
    | .typed s => if sc.isIntegral (.typed s) then sc.fit (.ofInt n) s else none
  else
    let (x, y, type) ← sc.match? a b
    if op = "&&" || op = "||" then
      match x, y with
      | .bool x, .bool y => some ⟨.bool (if op = "&&" then x && y else x || y), type⟩
      | _, _ => none
    else if ConstExpr.strength op = 3 then return ⟨.bool (← compare? op x y), .untyped .bool⟩
    else sc.result (← arithmetic op (sc.isIntegral type) x y) type

/-- The complement of the bits of an integer; a type without a sign has only so many of them. -/
def complement (sc : ConstScope) (n : Int) : ConstType → Int
  | .typed s =>
    match (sc.basic? s).bind integerForm? with
    | some (bits, false) => (Nat.pow 2 bits : Nat) - 1 - n
    | _ => -n - 1
  | .untyped _ => -n - 1

def unary (sc : ConstScope) (op : String) (c : Const) : Option Const :=
  match op, c.value with
  | "!", .bool b => some ⟨.bool !b, c.type⟩
  | "+", .number .. => some c
  | "-", .number re im => sc.result (.number (-re) (-im)) c.type
  | "^", .number .. => do
    if sc.isIntegral c.type then sc.result (.ofInt (sc.complement (← c.value.int?) c.type)) c.type
    else none
  | _, _ => none

/-- A call of something that is no type. Only the length of a text is constant. -/
def call (sc : ConstScope) (name : String) (c : Const) : Option Const :=
  match name, c.value with
  | "len", .text bytes => do return ⟨.ofInt bytes.length, .typed (← sc.type? "int")⟩
  | _, _ => none

def eval (sc : ConstScope) : ConstExpr → Option Const
  | .literal kind value => sc.result value (.untyped kind)
  | .name text => sc.constant? text
  | .unary op e => do sc.unary op (← sc.eval e)
  | .binary op a b => do sc.binary op (← sc.eval a) (← sc.eval b)
  | .conversion type e => do
    let c ← sc.eval e
    match sc.type? type with
    | some s => sc.convert c s
    | none => sc.call type c

end ConstScope

/-- Constants that every program knows. A constant that is declared alone is the first of its
group. -/
def builtinConst? : String → Option Const
  | "true" => some ⟨.bool true, .untyped .bool⟩
  | "false" => some ⟨.bool false, .untyped .bool⟩
  | "iota" => some ⟨.ofInt 0, .untyped .int⟩
  | _ => none

end TypeEngine.Package
