import TypeEngine.Text.Quoted
import TypeEngine.Ty.Shape

/-!
The surface form of types: `list(3) char` for three list layers, `(int^3, string)` for a tuple
with a run of equal components, `Dict[int, real]` for other arguments. A malformed list is shown
with its arguments in brackets, so that diagnostics can show any type.
-/

namespace TypeEngine

namespace Ty

/-- Runs of equal neighbours: the first slot of the run, its written form and the length. -/
def runs : List (Slot × String) → List (Slot × String × Nat)
  | [] => []
  | (slot, text) :: rest =>
    match runs rest with
    | [] => [(slot, text, 1)]
    | (next, later, n) :: more =>
      if slot == next then (slot, text, n + 1) :: more
      else (slot, text, 1) :: (next, later, n) :: more

/-- A component and, for a run of several, its length. -/
def displayRun : Slot × String × Nat → String
  | (_, text, n) => if 1 < n then text ++ "^" ++ toString n else text

mutual

def display : Ty → String
  | mk main extra =>
    let generic := fun (args : List String) =>
      if args.isEmpty then main.display else main.display ++ "[" ++ ", ".intercalate args ++ "]"
    let shown := displaySlots extra
    if main == .ofPrimitive "list" then
      match extra, shown with
      | [.type ..], [elem] => "list() " ++ elem
      | [.value .., .type ..], [count, elem] =>
        match Numeral.count? count with
        | some n => "list(" ++ (if 1 < n then toString n else "") ++ ") " ++ elem
        | none => generic shown
      | _, _ => generic shown
    else if main == .ofPrimitive "tuple" && !extra.isEmpty then
      "(" ++ ", ".intercalate ((runs (extra.zip shown)).map displayRun) ++ ")"
    else generic shown

def displaySlots : List Slot → List String
  | [] => []
  | .type _ t :: slots => display t :: displaySlots slots
  | .value _ text :: slots => text :: displaySlots slots

end

end Ty

def Slot.display (slots : List Slot) : String :=
  "[" ++ ", ".intercalate (Ty.displaySlots slots) ++ "]"

/-- The text under which tables file an argument list. -/
def Slot.key (slots : List Slot) : String := if slots.isEmpty then "" else Slot.display slots

/-- The text under which tables file a type: the key of its path and, if there are arguments, the
surface form. -/
def Ty.key (t : Ty) : String :=
  if t.extra.isEmpty then t.main.key else t.main.key ++ "\x1e" ++ t.display

namespace Violation

def message : Violation → String
  | listValue text => "list element must be a type, got value " ++ Text.quote text
  | listForm => "list run-length form must be (count, type)"
  | listCount text => "list repeat count " ++ Text.quote text ++ " is not a positive decimal"
  | listArity slots => "list must carry one or two extra types, got " ++ toString slots
  | layers n => "list repeat count must be at least 1, got " ++ toString n
  | tupleValue slots => "tuple components must be types: " ++ Slot.display slots
  | delegate => "delegate must carry a return type followed by parameter types"
  | plainArguments name => "non-generic type " ++ name ++ " must not carry extra types"
  | branchName name pos =>
    "branch " ++ Text.quote name ++ " at " ++ toString pos ++ " is not a type branch"
  | branchMissingType pos => "type branch at " ++ toString pos ++ " has a nil type payload"
  | branchPayload pos payload => "type branch at " ++ toString pos ++ " has payload " ++ payload
  | tupleBranch i pos =>
    "tuple component " ++ toString i ++ " at " ++ toString pos ++ " is not a type"
  | listBranch pos => "list element at " ++ toString pos ++ " is not a type"
  | countBranch pos => "list count at " ++ toString pos ++ " must be a value"
  | listBranchArity pos children =>
    "list at " ++ toString pos ++ " must have one or two arguments, got " ++ toString children
  | valueBranch pos payload => "value branch at " ++ toString pos ++ " has payload " ++ payload
  | argumentBranch name pos =>
    "argument branch " ++ Text.quote name ++ " at " ++ toString pos ++
      " is neither a type nor a value"
  | hostMember path name declaring =>
    "native member " ++ path ++ "." ++ name ++ " declared by unknown type " ++ Text.quote declaring

end Violation

end TypeEngine
