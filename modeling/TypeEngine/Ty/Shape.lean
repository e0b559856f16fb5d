import TypeEngine.Numeral
import TypeEngine.Ty.Basic

/-!
The distinguished shapes: lists, tuples, functions and read-only spans. A list of lists is kept in
run-length form, one slot for a single layer and a count before the element for more. Operations
that meet a malformed shape fail with the rule that is broken.
-/

namespace TypeEngine

inductive Violation where
  | listValue (text : String)
  | listForm
  | listCount (text : String)
  | listArity (slots : Nat)
  | layers (n : Int)
  | tupleValue (slots : List Slot)
  | delegate
  | plainArguments (name : String)
  | branchName (name : String) (pos : Int)
  | branchMissingType (pos : Int)
  | branchPayload (pos : Int) (payload : String)
  | tupleBranch (component : Nat) (pos : Int)
  | listBranch (pos : Int)
  | countBranch (pos : Int)
  | listBranchArity (pos : Int) (children : Nat)
  | valueBranch (pos : Int) (payload : String)
  | argumentBranch (name : String) (pos : Int)
  | hostMember (path name declaring : String)

namespace Ty

def isList (t : Ty) : Bool := t.main == .ofPrimitive "list"

def isTuple (t : Ty) : Bool := t.main == .ofPrimitive "tuple"

def isFunc (t : Ty) : Bool := t.main == .ofPrimitive "func"

def isSpan (t : Ty) : Bool := t.main == .ofPrimitive "ReadOnlySpan" && t.extra.length == 1

def isCollection (t : Ty) : Bool :=
  match t.extra with
  | [.type ..] => !t.main.isPrimitive && collectionNames.contains t.main.leaf
  | _ => false

/-- The number of layers and the element that a list's slots describe. -/
def layersOf : List Slot → Except Violation (Int × Ty)
  | [.type _ elem] => .ok (1, elem)
  | [.value _ text] => .error (.listValue text)
  | [.value _ text, .type _ elem] =>
    match Numeral.count? text with
    | some n => .ok (n, elem)
    | none => .error (.listCount text)
  | [_, _] => .error .listForm
  | slots => .error (.listArity slots.length)

/-- The layers and element of a list, nothing for another type. -/
def listParts (t : Ty) : Except Violation (Option (Int × Ty)) :=
  if t.isList then (layersOf t.extra).map some else .ok none

/-- The list of `n` layers over `elem`, where `elem` is not a list. -/
def layered (n : Int) (elem : Ty) : Ty :=
  mk (.ofPrimitive "list")
    (if n = 1 then [.type "1" elem] else [.value "1" (toString n), .type "2" elem])

/-- Wraps `elem` in `n` layers. The layers of a list are added up. -/
def listN (elem : Ty) (n : Int) : Except Violation Ty :=
  if n < 1 then .error (.layers n)
  else do
    match ← elem.listParts with
    | some (inner, innermost) => return layered (wrap (n + inner)) innermost
    | none => return layered n elem

def listOf (elem : Ty) : Except Violation Ty := listN elem 1

mutual

/-- Brings every list in the type into run-length form. -/
def canonical : Ty → Except Violation Ty
  | mk main extra =>
    if main == .ofPrimitive "list" then
      match extra with
      | [.type _ elem] => do listN (← canonical elem) 1
      | [.value _ text, .type _ elem] =>
        match Numeral.count? text with
        | some n => do listN (← canonical elem) n
        | none => .error (.listCount text)
      | slots => (layersOf slots).map Prod.snd
    else do return mk main (← canonicalSlots extra extra)

/-- Puts the canonical form of each type among the first slots, by name, into the second. -/
def canonicalSlots : List Slot → List Slot → Except Violation (List Slot)
  | [], out => .ok out
  | .type name t :: slots, out => do canonicalSlots slots (Slot.put (.type name (← canonical t)) out)
  | .value .. :: slots, out => canonicalSlots slots out

end

/-- Removes one layer from a list, a host collection or a span. -/
def peelOne (t : Ty) : Except Violation (Option Ty) := do
  match ← t.listParts with
  | some (n, elem) => if n = 1 then return some elem else return some (← listN elem (n - 1))
  | none => if t.isCollection || t.isSpan then return t.extra.head?.map Slot.heldType else return none

mutual

/-- Removes all layers, counting them from `depth`. -/
def peelFrom (depth : Int) : Ty → Except Violation (Int × Ty)
  | mk main extra =>
    if main == .ofPrimitive "list" then
      match extra with
      | [.type _ elem] => peelFrom (wrap (depth + 1)) elem
      | [.value _ text, .type _ elem] =>
        match Numeral.count? text with
        | some n => peelFrom (wrap (depth + n)) elem
        | none => .error (.listCount text)
      | slots => layersOf slots
    else if (mk main extra).isCollection || (mk main extra).isSpan then
      match extra with
      | [slot] => peelSlot (wrap (depth + 1)) slot
      | _ => .ok (depth, mk main extra)
    else .ok (depth, mk main extra)

def peelSlot (depth : Int) : Slot → Except Violation (Int × Ty)
  | .type _ t => peelFrom depth t
  | .value .. => .ok (depth, zero)

end

/-- The number of layers around a leaf, and the leaf. -/
def peelList (t : Ty) : Except Violation (Int × Ty) := peelFrom 0 t

def tuple (components : List Ty) : Ty := named (.ofPrimitive "tuple") components

/-- The components of a tuple, none for another type. -/
def components (t : Ty) : Except Violation (List Ty) :=
  if t.isTuple then
    match Slot.types? t.extra with
    | some ts => .ok ts
    | none => .error (.tupleValue t.extra)
  else .ok []

/-- A tuple of one component stands for that component. -/
def unwrap : Ty → Ty
  | mk main [.type name t] =>
    if main == .ofPrimitive "tuple" then unwrap t else mk main [.type name t]
  | t => t

def func (ret : Ty) (params : List Ty) : Ty := named (.ofPrimitive "func") (ret :: params)

/-- The result and the parameters of a function shape, nothing for another type. -/
def funcParts (t : Ty) : Except Violation (Option (Ty × List Ty)) :=
  if t.isFunc then
    match Slot.types? t.extra with
    | some (ret :: params) => .ok (some (ret, params))
    | _ => .error .delegate
  else .ok none

def span (elem : Ty) : Ty := mk (.ofPrimitive "ReadOnlySpan") [.type "1" elem]

/-- The rules that the outermost level of a type must keep. -/
def validateTop (t : Ty) : Except Violation Unit := do
  if t.main.isPrimitive && plainNames.contains t.main.leaf && !t.extra.isEmpty then
    throw (.plainArguments t.main.leaf)
  if t.isList then discard t.listParts
  else if t.isTuple then discard t.components
  else if t.isFunc then discard t.funcParts

mutual

/-- Checks the rules on shapes at every level, outermost first. -/
def validate : Ty → Except Violation Unit
  | mk main extra => do
    validateTop (mk main extra)
    validateSlots extra

def validateSlots : List Slot → Except Violation Unit
  | [] => .ok ()
  | .type _ t :: slots => do
    validate t
    validateSlots slots
  | .value .. :: slots => validateSlots slots

end

mutual

/-- The nesting depth: one for a type without type arguments. Each list layer counts. -/
def depth : Ty → Except Violation Int
  | mk main extra =>
    if main == .ofPrimitive "list" then
      match extra with
      | [.value _ text, .type _ elem] => do
        let inner ← depth elem
        match Numeral.count? text with
        | some n => return wrap (if 1 < n then inner + n else max inner 0 + 1)
        | none => throw (.listCount text)
      | slots => do
        let inner ← depthSlots slots
        discard (layersOf slots)
        return wrap (inner + 1)
    else do return wrap ((← depthSlots extra) + 1)

def depthSlots : List Slot → Except Violation Int
  | [] => .ok 0
  | .type _ t :: slots => do return max (← depth t) (← depthSlots slots)
  | .value .. :: slots => depthSlots slots

end

end Ty

end TypeEngine
