/-!
Decimal numerals and 64-bit arithmetic. A count or position that leaves the signed 64-bit range
comes back at its other end.
-/

namespace TypeEngine

/-- The signed 64-bit number that agrees with `n` modulo `2 ^ 64`. -/
def wrap (n : Int) : Int := n.bmod (Nat.pow 2 64)

namespace Numeral

def least : Int := -9223372036854775808

def greatest : Int := 9223372036854775807

def isDigit (c : Char) : Bool := '0' ≤ c && c ≤ '9'

/-- The number that a row of decimal digits spells. -/
def value (digits : List Char) : Nat :=
  digits.foldl (fun n c => n * 10 + (c.toNat - '0'.toNat)) 0

def natural? (cs : List Char) : Option Nat :=
  if !cs.isEmpty && cs.all isDigit then some (value cs) else none

def inRange? (n : Int) : Option Int := if least ≤ n ∧ n ≤ greatest then some n else none

/-- Reads an optional sign and digits, as far as the number fits in 64 bits. -/
def read? (s : String) : Option Int :=
  match s.toList with
  | '-' :: cs => (natural? cs).bind fun n => inRange? (-(n : Int))
  | '+' :: cs => (natural? cs).bind fun n => inRange? n
  | cs => (natural? cs).bind fun n => inRange? n

/-- Reads a repeat count: a number of at least one. -/
def count? (s : String) : Option Int := (read? s).filter (1 ≤ ·)

end Numeral

end TypeEngine
