import TypeEngine.Tree.Basic
import TypeEngine.Ty.Fault
import TypeEngine.Ty.Shape

/-!
Types from branches. A branch called `type` carries the path of its type, and its children are the
arguments. The type that is built takes the place of the path, so that it is built once.
-/

namespace TypeEngine

inductive BuildFault where
  | tree (fault : TreeFault)
  | type (fault : Fault)

/-- Building keeps what was stored before a failure. -/
abbrev Build (α : Type) := ExceptT BuildFault (StateM Tree) α

namespace Payload

def kindName : Payload → String
  | empty => "<nil>"
  | text _ => "string"
  | number _ => "int"
  | flag _ => "bool"
  | scope _ => "scope.BlockStack"
  | type _ => "typesystem.NStarType"
  | typeRef _ => "*typesystem.NStarType"

end Payload

namespace Build

def typeName : String := "type"

def valueName : String := "Value"

def broken {α : Type} (v : Violation) : Build α := throw (.type (.broken v))

def ofViolation {α : Type} : Except Violation α → Build α
  | .ok a => return a
  | .error v => broken v

def branch (id : BranchId) : Build Branch := do
  let t ← get
  match t.check id, t.get? id with
  | .ok _, some b => return b
  | .error fault, _ => throw (.tree fault)
  | .ok _, none => throw (.tree .outOfRange)

/-- A child that must be a type. -/
def typeChild (build : Nat → Build Ty) (id : Nat) (otherwise : Int → Violation) : Build Ty := do
  let b ← branch id
  if b.name ≠ typeName then broken (otherwise b.pos) else build id

def components (build : Nat → Build Ty) : Nat → List Nat → Build (List Ty)
  | _, [] => return []
  | i, c :: cs => do
    let t ← typeChild build c (.tupleBranch i)
    let ts ← components build (i + 1) cs
    return t :: ts

def listArgs (build : Nat → Build Ty) (pos : Int) : List Nat → Build (Ty × Int)
  | [elem] => do return (← typeChild build elem .listBranch, 1)
  | [count, elem] => do
    let b ← branch count
    match if b.name = valueName then b.payload else .empty with
    | .text s =>
      match Numeral.count? s with
      | some n => return (← typeChild build elem .listBranch, n)
      | none => broken (.listCount s)
    | _ => broken (.countBranch b.pos)
  | children => broken (.listBranchArity pos children.length)

/-- The argument that a child stands for; its name is given by its position. -/
def argument (build : Nat → Build Ty) (name : String) (id : Nat) : Build Slot := do
  let b ← branch id
  if b.name = valueName then
    match b.payload with
    | .text s => return .value name s
    | p => broken (.valueBranch b.pos p.kindName)
  else if b.name = typeName then return .type name (← build id)
  else broken (.argumentBranch b.name b.pos)

def arguments (build : Nat → Build Ty) : Nat → List Nat → Build (List Slot)
  | _, [] => return []
  | i, c :: cs => do
    let s ← argument build (toString i) c
    let ss ← arguments build (i + 1) cs
    return s :: ss

/-- The type of a path with the children as arguments. -/
def assemble (build : Nat → Build Ty) (main : Path) (pos : Int) (children : List Nat) : Build Ty := do
  let bare : Ty := .mk main []
  if bare.isList then
    let (elem, n) ← listArgs build pos children
    ofViolation (Ty.listN elem n)
  else if bare.isTuple then return .tuple (← components build 0 children)
  else
    let t : Ty := .mk main (← arguments build 1 children)
    ofViolation t.validate
    return t

/-- Builds the type of a branch. The first number is what is left of the limit. -/
def fromBranch (limit : Int) : Nat → BranchId → Build Ty
  | 0, _ => throw (.type (.tooComplex .build limit))
  | fuel + 1, id => do
    let b ← branch id
    if b.name ≠ typeName then broken (.branchName b.name b.pos)
    match b.payload with
    | .type t => return t
    | .typeRef (some t) => return t
    | .typeRef none => broken (.branchMissingType b.pos)
    | .scope main =>
      let t ← assemble (fun c => fromBranch limit fuel c) main b.pos b.children
      modify fun tree => tree.modify id.toNat ({ · with payload := .type t })
      return t
    | p => broken (.branchPayload b.pos p.kindName)

end Build

/-- Builds the type of a branch and stores it there. A limit that is not positive stands for the
default one. -/
def Tree.build (id : BranchId) (limit : Int) : Build Ty :=
  let limit := if limit ≤ 0 then (Ty.defaultLimit : Int) else limit
  Build.fromBranch limit (limit.toNat + 1) id

def Tree.ofType (t : Tree) (type : Ty) (pos : Int) (scope : Path) : Nat × Tree :=
  t.newBranch Build.typeName pos scope (.type type)

end TypeEngine
