import TypeEngine.Text.Printable

/-!
Text in double quotes, as diagnostics show it. Quotes and backslashes are escaped, control
characters with a name are written by that name, and every other character that is not printable
is written by its code point.
-/

namespace TypeEngine.Text

def hexDigit (n : Nat) : Char := "0123456789abcdef".toList.getD n '0'

def hex : Nat → Nat → List Char
  | 0, _ => []
  | width + 1, n => hex width (n / 16) ++ [hexDigit (n % 16)]

/-- The written form of one character between double quotes. -/
def escape (c : Char) : List Char :=
  match c with
  | '"' => ['\\', '"']
  | '\\' => ['\\', '\\']
  | '\n' => ['\\', 'n']
  | '\r' => ['\\', 'r']
  | '\t' => ['\\', 't']
  | c =>
    if isPrintable c then [c]
    else if c.toNat = 7 then ['\\', 'a']
    else if c.toNat = 8 then ['\\', 'b']
    else if c.toNat = 11 then ['\\', 'v']
    else if c.toNat = 12 then ['\\', 'f']
    else if c.toNat < 0x80 then '\\' :: 'x' :: hex 2 c.toNat
    else if c.toNat < 0x10000 then '\\' :: 'u' :: hex 4 c.toNat
    else '\\' :: 'U' :: hex 8 c.toNat

/-- A byte that belongs to no character. -/
def escapeByte (b : Char) : List Char := '\\' :: 'x' :: hex 2 b.toNat

def quote (s : String) : String := String.ofList ('"' :: s.toList.flatMap escape ++ ['"'])

end TypeEngine.Text
