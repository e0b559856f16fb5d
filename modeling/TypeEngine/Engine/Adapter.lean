import TypeEngine.Ty.Display

/-!
Adapters: the steps by which a value of one type becomes a value of another.
-/

namespace TypeEngine

inductive AdapterStep where
  /-- Wraps the value in `count` nested lists of one element. -/
  | wrap (count : Int) (target : Ty)
  /-- Renders the value, or each leaf of a list, as text. -/
  | stringify (target : Ty)
  /-- Reads text, with the default of the target for unreadable text. -/
  | parse (target : Ty)
  /-- A numeric cast that may lose information. -/
  | cast (target : Ty)
  /-- An implicit conversion that loses nothing. -/
  | convert (target : Ty)
  /-- Adapts a tuple component by component. -/
  | tuple (target : Ty) (components : List (List AdapterStep))
  /-- Widens to a base type or an interface. -/
  | upcast (target : Ty)
  /-- Adapts every leaf of a list. -/
  | each (leaf : List AdapterStep)

/-- The steps in order; none if the value can be used as it is. -/
abbrev Adapter := List AdapterStep

namespace AdapterStep

def names : List String :=
  ["wrap", "stringify", "parse", "cast", "convert", "tuple", "upcast", "each"]

/-- The name of the step with a given number. Numbers past the last step are shown as such, and
negative ones have no name. -/
def nameOfCode? (code : Int) : Option String :=
  if code < 0 then none
  else some (names.getD code.toNat ("ConversionKind(" ++ toString code ++ ")"))

def name : AdapterStep → String
  | wrap .. => "wrap"
  | stringify _ => "stringify"
  | parse _ => "parse"
  | cast _ => "cast"
  | convert _ => "convert"
  | tuple .. => "tuple"
  | upcast _ => "upcast"
  | each _ => "each"

/-- The type after the step. The leaves of a list have no common one. -/
def target : AdapterStep → Ty
  | wrap _ t | stringify t | parse t | cast t | convert t | tuple t _ | upcast t => t
  | each _ => .zero

def components? : AdapterStep → Option (List Adapter)
  | tuple _ components => some components
  | each leaf => some [leaf]
  | _ => none

/-- The written steps in a row, or `none` for the empty adapter. -/
def joinSteps : List String → String
  | [] => "none"
  | steps => " -> ".intercalate steps

mutual

def display : AdapterStep → String
  | wrap n _ => "wrap(" ++ toString n ++ ")"
  | stringify _ => "stringify"
  | parse t => "parse(" ++ t.display ++ ")"
  | cast t => "cast(" ++ t.display ++ ")"
  | convert t => "convert(" ++ t.display ++ ")"
  | tuple t components =>
    "tuple[" ++ ", ".intercalate (displayAll components) ++ "]" ++
      (if t.isZero then "" else "(" ++ t.display ++ ")")
  | upcast t => "upcast(" ++ t.display ++ ")"
  | each leaf => "each[" ++ joinSteps (displaySteps leaf) ++ "]"

def displaySteps : List AdapterStep → List String
  | [] => []
  | step :: steps => display step :: displaySteps steps

def displayAll : List (List AdapterStep) → List String
  | [] => []
  | adapter :: adapters => joinSteps (displaySteps adapter) :: displayAll adapters

end

end AdapterStep

def Adapter.display (a : Adapter) : String := AdapterStep.joinSteps (AdapterStep.displaySteps a)

end TypeEngine
