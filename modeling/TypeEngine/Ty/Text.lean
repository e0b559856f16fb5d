import TypeEngine.Ty.Parse

/-!
Types written in text rather than in bytes: the text is read as its bytes, and what the bytes of
names and values stand for is put back into the type, or into the rule that is broken.
-/

namespace TypeEngine

mutual

/-- The type with all names and values changed. -/
def Ty.mapTexts (f : String → String) : Ty → Ty
  | .mk main extra =>
    .mk ⟨main.blocks.map fun b => { b with name := f b.name }⟩ (Slot.mapTexts f extra)

def Slot.mapTexts (f : String → String) : List Slot → List Slot
  | [] => []
  | .type name t :: slots => .type (f name) (t.mapTexts f) :: Slot.mapTexts f slots
  | .value name text :: slots => .value (f name) (f text) :: Slot.mapTexts f slots

end

/-- Changes the texts in a rule on the shape of types. -/
def Violation.mapTexts (f : String → String) : Violation → Violation
  | listValue text => listValue (f text)
  | listCount text => listCount (f text)
  | tupleValue slots => tupleValue (Slot.mapTexts f slots)
  | plainArguments name => plainArguments (f name)
  | v => v

def Fault.mapTexts (f : String → String) : Fault → Fault
  | malformed { input, pos, cause := .shape v } => malformed { input, pos, cause := .shape (v.mapTexts f) }
  | broken v => broken (v.mapTexts f)
  | fault => fault

/-- Reads the surface form of a type from text. -/
def Ty.parse (s : String) (generics : List String := []) : Except Fault Ty :=
  ((Ty.parseBytes (Text.utf8 s) (generics.map Text.utf8)).map (·.mapTexts Text.ofUtf8)).mapError
    (·.mapTexts Text.ofUtf8)

end TypeEngine
