import TypeEngine.Scope.Path

/-!
The type model: a scope path with ordered argument slots. A slot holds a type or a literal value
and has a name; names serve lookups and take no part in equality.
-/

namespace TypeEngine

mutual

inductive Ty where
  | mk (main : Path) (extra : List Slot)

inductive Slot where
  | type (name : String) (t : Ty)
  | value (name : String) (text : String)

end

namespace Ty

def plainNames : List String :=
  ["null", "object", "bool", "byte", "short", "ushort", "char", "int", "uint", "long", "ulong",
    "bigint", "TimeSpan", "DateTime", "real", "complex", "string"]

def shapeNames : List String := ["list", "tuple", "func", "ReadOnlySpan"]

def collectionNames : List String :=
  ["Array", "Buffer", "Queue", "Stack", "Set", "LinkedList", "Slice"]

def isPrimitiveName (name : String) : Bool := plainNames.contains name || shapeNames.contains name

def defaultLimit : Nat := 64

def main : Ty → Path
  | mk main _ => main

def extra : Ty → List Slot
  | mk _ extra => extra

def zero : Ty := mk .empty []

instance : Inhabited Ty := ⟨zero⟩

def isZero (t : Ty) : Bool := t.main.isEmpty && t.extra.isEmpty

end Ty

namespace Slot

def name : Slot → String
  | type name _ | value name _ => name

def rename (name : String) : Slot → Slot
  | type _ t => type name t
  | value _ text => value name text

def isValue : Slot → Bool
  | type .. => false
  | value .. => true

def type? : Slot → Option Ty
  | type _ t => some t
  | value .. => none

/-- The type of the slot; a value has the type without a path. -/
def heldType : Slot → Ty
  | type _ t => t
  | value .. => .zero

/-- Renames slots by position; slots beyond the given names keep theirs. -/
def renameAll : List Slot → List String → List Slot
  | [], _ => []
  | slots, [] => slots
  | s :: slots, n :: names => s.rename n :: renameAll slots names

def numberFrom (start : Nat) : List Slot → List Slot
  | [] => []
  | s :: slots => s.rename (toString start) :: numberFrom (start + 1) slots

def positional (slots : List Slot) : List Slot := numberFrom 1 slots

def get? (slots : List Slot) (name : String) : Option Slot := slots.find? (·.name = name)

/-- Puts a slot under its name: in place of the first slot of that name, or at the end. -/
def put (s : Slot) : List Slot → List Slot
  | [] => [s]
  | x :: xs => if x.name = s.name then s :: xs else x :: put s xs

/-- The types of the slots, unless some slot is a value. -/
def types? : List Slot → Option (List Ty)
  | [] => some []
  | type _ t :: slots => (types? slots).map (t :: ·)
  | value .. :: _ => none

def ofTypes (ts : List Ty) : List Slot := positional (ts.map (type ""))

end Slot

namespace Ty

def prim (name : String) : Ty := mk (.ofPrimitive name) []

def param (name : String) : Ty := mk (.ofParameter name) []

def named (main : Path) (args : List Ty) : Ty := mk main (Slot.ofTypes args)

def null : Ty := prim "null"
def object : Ty := prim "object"
def bool : Ty := prim "bool"
def byte : Ty := prim "byte"
def short : Ty := prim "short"
def ushort : Ty := prim "ushort"
def char : Ty := prim "char"
def int : Ty := prim "int"
def uint : Ty := prim "uint"
def long : Ty := prim "long"
def ulong : Ty := prim "ulong"
def bigint : Ty := prim "bigint"
def real : Ty := prim "real"
def complex : Ty := prim "complex"
def string : Ty := prim "string"

mutual

/-- Types are equal when paths and arguments agree, position by position. -/
def same : Ty → Ty → Bool
  | mk p xs, mk q ys => p == q && sameSlots xs ys

def sameSlots : List Slot → List Slot → Bool
  | [], [] => true
  | .type _ t :: xs, .type _ u :: ys => same t u && sameSlots xs ys
  | .value _ v :: xs, .value _ w :: ys => v = w && sameSlots xs ys
  | _, _ => false

end

instance : BEq Ty := ⟨same⟩

def sameSlot (a b : Slot) : Bool := sameSlots [a] [b]

instance : BEq Slot := ⟨sameSlot⟩

def isParam (t : Ty) : Bool := t.extra.isEmpty && t.main.isParameter

mutual

/-- The generic parameters in `t` that are not yet in `seen`, added to it in order. -/
def collectParams (seen : List String) : Ty → List String
  | mk main extra =>
    if extra.isEmpty && main.isParameter then
      if seen.contains main.leaf then seen else seen ++ [main.leaf]
    else collectSlotParams seen extra

def collectSlotParams (seen : List String) : List Slot → List String
  | [] => seen
  | .type _ t :: slots => collectSlotParams (collectParams seen t) slots
  | .value .. :: slots => collectSlotParams seen slots

end

/-- The generic parameters of `t`, each once, in order of first appearance. -/
def params (t : Ty) : List String := collectParams [] t

end Ty

end TypeEngine
