/-!
Rounding of rational numbers to binary floating point: to the nearest number of the format, where a
tie goes to the even one.
-/

namespace TypeEngine.Package

/-- A binary format: the bits of a significand, the exponent of the smallest step, and the exponent
of the first power of two that is too large. -/
structure BinaryFormat where
  precision : Nat
  least : Int
  limit : Int

namespace BinaryFormat

def single : BinaryFormat := ⟨24, -149, 128⟩

def double : BinaryFormat := ⟨53, -1074, 1024⟩

end BinaryFormat

def powerOfTwo (e : Int) : Rat :=
  if 0 ≤ e then mkRat (Nat.pow 2 e.toNat) 1 else mkRat 1 (Nat.pow 2 (-e).toNat)

/-- The exponent of the largest power of two that is not above a positive number. -/
def binaryExponent (x : Rat) : Int :=
  let guess : Int := (x.num.natAbs.log2 : Int) - (x.den.log2 : Int)
  if x < powerOfTwo guess then guess - 1 else guess

/-- The nearest integer; a tie goes to the even one. -/
def roundToEven (x : Rat) : Int :=
  let below := x.floor
  let rest := x - below
  if rest < 1 / 2 then below
  else if 1 / 2 < rest then below + 1
  else if below % 2 = 0 then below
  else below + 1

/-- The nearest number of a format, if it is not too large. -/
def BinaryFormat.round? (f : BinaryFormat) (x : Rat) : Option Rat :=
  if x = 0 then some 0
  else
    let magnitude := if x < 0 then -x else x
    let step := powerOfTwo (max (binaryExponent magnitude - (f.precision - 1 : Nat)) f.least)
    let rounded := roundToEven (magnitude / step) * step
    if powerOfTwo f.limit ≤ rounded then none
    else some (if x < 0 then -rounded else rounded)

end TypeEngine.Package
