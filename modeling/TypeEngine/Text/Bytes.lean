import TypeEngine.Text.Quoted

/-!
Texts of bytes, with a character for each byte. What they stand for in UTF-8 is taken from the front
character by character, and a byte that starts none stands for itself.
-/

namespace TypeEngine.Text

def ofByte (b : UInt8) : Char := Char.ofNat b.toNat

def charBytes (c : Char) : List Char := (String.utf8EncodeChar c).map ofByte

/-- The bytes of a text. -/
def utf8 (s : String) : String := String.ofList (s.toList.flatMap charBytes)

/-- The low bits of the first byte, and six bits of each further one. -/
def joinBits : List Char → Char
  | [] => Char.ofNat 0
  | lead :: tail =>
    let top := lead.toNat % [128, 32, 16, 8].getD tail.length 1
    Char.ofNat (tail.foldl (fun n b => n * 64 + b.toNat % 64) top)

/-- The character that the bytes start with, and how many bytes it takes. -/
def char? (bytes : List Char) : Option (Char × Nat) :=
  [1, 2, 3, 4].findSome? fun n =>
    let c := joinBits (bytes.take n)
    if charBytes c = bytes.take n then some (c, n) else none

/-- The characters in a text of bytes, and apart from them the bytes that belong to none. The first
`taken` bytes are those of a character before. -/
def pieces : Nat → List Char → List (Char ⊕ Char)
  | _, [] => []
  | taken + 1, _ :: bytes => pieces taken bytes
  | 0, b :: bytes =>
    match char? (b :: bytes) with
    | some (c, n) => .inl c :: pieces (n - 1) bytes
    | none => .inr b :: pieces 0 bytes

def ofUtf8 (bytes : String) : String := String.ofList ((pieces 0 bytes.toList).map (Sum.elim id id))

/-- A text of bytes in double quotes. Bytes that belong to no character are escaped one by one. -/
def quoteBytes (bytes : List Char) : String :=
  String.ofList ('"' :: (pieces 0 bytes).flatMap (Sum.elim escape escapeByte) ++ ['"'])

end TypeEngine.Text
