import TypeEngine.Numeral
import TypeEngine.Scope.Path
import TypeEngine.Ty.Basic

/-!
Trees of branches, kept in one store and addressed by number. A branch belongs to at most one
parent. The span of a parent runs from the start of its first child to the end of its last one,
and is set anew whenever its children change.
-/

namespace TypeEngine

inductive Payload where
  | empty
  | text (s : String)
  | number (n : Int)
  | flag (b : Bool)
  | scope (p : Path)
  | type (t : Ty)
  /-- A type that is kept elsewhere, if there is one. -/
  | typeRef (t : Option Ty)

structure Branch where
  name : String
  pos : Int
  endPos : Int
  children : List Nat := []
  scope : Path := .empty
  payload : Payload := .empty
  parent : Option Nat := none

structure Tree where
  branches : List Branch := []

/-- Numbers by which callers name branches. -/
abbrev BranchId := Int

/-- Why an operation on a tree fails. -/
inductive TreeFault where
  | invalidId (id : BranchId)
  | ownsItself (id : Nat)
  | owned (child owner : Nat)
  | ancestor (child parent : Nat)
  | insertIndex (index : Int) (size : Nat)
  | removeRange (first last : Int) (size : Nat)
  | attached (replacement owner : Nat)
  /-- A number or position that no check has turned away. -/
  | outOfRange
  /-- The parents of a branch lead back to it. -/
  | endless

def TreeFault.message : TreeFault → String
  | invalidId id => "ast: invalid branch id " ++ toString id
  | ownsItself id => "ast: node " ++ toString id ++ " cannot own itself"
  | owned child owner => "ast: node " ++ toString child ++ " already belongs to " ++ toString owner
  | ancestor child parent => "ast: node " ++ toString child ++ " is an ancestor of " ++ toString parent
  | insertIndex index size =>
    "ast: insert index " ++ toString index ++ " out of range [0," ++ toString size ++ "]"
  | removeRange first last size =>
    "ast: remove range [" ++ toString first ++ "," ++ toString last ++ ") out of range [0," ++
      toString size ++ "]"
  | attached replacement owner =>
    "ast: replacement node " ++ toString replacement ++ " is still attached to " ++ toString owner
  | outOfRange => "index out of range"
  | endless => "endless chain of parents"

namespace Tree

def noBranch : BranchId := -1

/-- The number of a branch that is not to be added. -/
def skipped : BranchId := -2

def empty : Tree := {}

def size (t : Tree) : Nat := t.branches.length

def branch? (t : Tree) (i : Nat) : Option Branch := t.branches[i]?

def get? (t : Tree) (id : BranchId) : Option Branch :=
  if id < 0 then none else t.branch? id.toNat

/-- The number of a branch as a position in the store. -/
def check (t : Tree) (id : BranchId) : Except TreeFault Nat :=
  if id < 0 || t.size ≤ id.toNat then .error (.invalidId id) else .ok id.toNat

def modify (t : Tree) (i : Nat) (f : Branch → Branch) : Tree := ⟨t.branches.modify i f⟩

def children (t : Tree) (i : Nat) : List Nat := ((t.branch? i).map Branch.children).getD []

def parentOf (t : Tree) (i : Nat) : Option Nat := (t.branch? i).bind Branch.parent

def setParent (t : Tree) (parent : Option Nat) (i : Nat) : Tree := t.modify i ({ · with parent })

def setChildren (t : Tree) (i : Nat) (children : List Nat) : Tree := t.modify i ({ · with children })

/-! ### Allocation -/

def new (t : Tree) (b : Branch) : Nat × Tree := (t.size, ⟨t.branches ++ [b]⟩)

/-- A branch without children spanning the positions from `pos` up to `endPos`. -/
def newLeaf (t : Tree) (name : String) (pos endPos : Int) (scope : Path) : Nat × Tree :=
  t.new { name, pos, endPos, scope }

/-- A branch without children that spans one position. -/
def newBranch (t : Tree) (name : String) (pos : Int) (scope : Path) (payload : Payload := .empty) :
    Nat × Tree :=
  t.new { name, pos, endPos := wrap (pos + 1), scope, payload }

/-! ### Spans -/

def respan (t : Tree) (i : Nat) : Tree :=
  let cs := t.children i
  match cs.head?.bind t.branch?, cs.getLast?.bind t.branch? with
  | some first, some last => t.modify i ({ · with pos := first.pos, endPos := last.endPos })
  | _, _ => t.modify i fun b => { b with endPos := wrap (b.pos + 1) }

/-! ### Ownership -/

/-- The parents from `i` upwards, and whether they end. `fuel` bounds their number. -/
def lineage (t : Tree) : Nat → Option Nat → List Nat × Bool
  | _, none => ([], true)
  | 0, some _ => ([], false)
  | fuel + 1, some i =>
    let (above, ends) := t.lineage fuel (t.parentOf i)
    (i :: above, ends)

/-- The branches above `i`, nearest first, and whether they end. -/
def ancestors (t : Tree) (i : Nat) : List Nat × Bool := t.lineage (t.size + 1) (t.parentOf i)

/-- The numbers of a parent and of a child that it may take. -/
def adoptable (t : Tree) (parent child : BranchId) : Except TreeFault (Nat × Nat) := do
  let p ← t.check parent
  let c ← t.check child
  if c = p then throw (.ownsItself c)
  if let some owner := t.parentOf c then throw (.owned c owner)
  let (above, ends) := t.ancestors p
  if above.contains c then throw (.ancestor c p)
  if !ends then throw .endless
  return (p, c)

/-- Puts a child at the end of its parent's children, without a new span. -/
def adopt (t : Tree) (parent child : BranchId) : Except TreeFault Tree := do
  let (p, c) ← t.adoptable parent child
  return (t.setParent (some p) c).setChildren p (t.children p ++ [c])

/-- Adds a child at the end. A skipped one changes nothing. -/
def add (t : Tree) (parent child : BranchId) : Except TreeFault Tree :=
  if child = skipped then .ok t
  else do
    let t ← t.adopt parent child
    return t.respan parent.toNat

/-- Adds children in order as far as they can be added. -/
def adoptAll (t : Tree) (parent : BranchId) : List BranchId → Except TreeFault Unit × Tree
  | [] => (.ok (), t)
  | child :: rest =>
    if child = skipped then t.adoptAll parent rest
    else
      match t.adopt parent child with
      | .ok t => t.adoptAll parent rest
      | .error fault => (.error fault, t)

/-- Adds children in order. When one cannot be added, those before it stay, and the span of the
parent is left as it was. -/
def addRange (t : Tree) (parent : BranchId) (children : List BranchId) :
    Except TreeFault Unit × Tree :=
  match t.adoptAll parent children with
  | (.ok (), t) =>
    if (t.get? parent).isSome then (.ok (), t.respan parent.toNat) else (.error .outOfRange, t)
  | failed => failed

def insert (t : Tree) (parent : BranchId) (index : Int) (child : BranchId) : Except TreeFault Tree :=
  if child = skipped then .ok t
  else do
    let some b := t.get? parent | throw .outOfRange
    if index < 0 || b.children.length < index then throw (.insertIndex index b.children.length)
    let (p, c) ← t.adoptable parent child
    let children := b.children.take index.toNat ++ c :: b.children.drop index.toNat
    return ((t.setParent (some p) c).setChildren p children).respan p

def remove (t : Tree) (parent : BranchId) (index count : Int) : Except TreeFault Tree := do
  let p ← t.check parent
  let children := t.children p
  let last := wrap (index + count)
  if index < 0 || count < 0 || children.length < last then
    throw (.removeRange index last children.length)
  if last < 0 then throw .outOfRange
  let gone := (children.drop index.toNat).take count.toNat
  let kept := children.take index.toNat ++ children.drop last.toNat
  let t := gone.foldl (setParent · none) t
  return (t.setChildren p kept).respan p

/-- Moves the content of a branch without a parent into `id`, which keeps its place. The children
of `id` are detached, those of `source` belong to `id` from then on. -/
def replace (t : Tree) (id source : BranchId) : Except TreeFault Tree := do
  let i ← t.check id
  let s ← t.check source
  if i = s then return t
  if let some owner := t.parentOf s then throw (.attached s owner)
  let t := (t.children i).foldl (setParent · none) t
  let some content := t.branch? s | throw .outOfRange
  let t := t.modify i ({ content with parent := ·.parent })
  let t := content.children.foldl (setParent · (some i)) t
  let t := t.modify s fun _ =>
    { name := content.name, pos := content.pos, endPos := wrap (content.pos + 1) }
  return t.respan i

/-! ### Reading -/

def child (t : Tree) (id : BranchId) (index : Int) : Except TreeFault Nat := do
  let i ← t.check id
  if index < 0 then throw .outOfRange
  match (t.children i)[index.toNat]? with
  | some c => return c
  | none => throw .outOfRange

def parent (t : Tree) (id : BranchId) : Except TreeFault (Option Nat) := do
  return t.parentOf (← t.check id)

def setPayload (t : Tree) (id : BranchId) (payload : Payload) : Except TreeFault Tree := do
  let i ← t.check id
  return t.modify i ({ · with payload })

end Tree

end TypeEngine
