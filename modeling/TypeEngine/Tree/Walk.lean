import TypeEngine.Tree.Basic

/-!
Walks over the descendants of a branch, and the texts that show a branch in its tree.
-/

namespace TypeEngine.Tree

/-- The branches visited, and whether the walk went to its end. -/
structure Walk where
  visited : List BranchId
  outcome : Except TreeFault Bool

/-- Visits branches one after the other until a visit stops or fails. -/
def visitAll (visit : BranchId → Walk) : List Nat → Walk
  | [] => ⟨[], .ok true⟩
  | c :: cs =>
    let first := visit c
    match first.outcome with
    | .ok true =>
      let rest := visitAll visit cs
      ⟨first.visited ++ rest.visited, rest.outcome⟩
    | _ => first

/-- A branch is visited before its descendants, and these child by child. -/
def walkFrom (t : Tree) (goOn : BranchId → Bool) : Nat → BranchId → Walk
  | 0, _ => ⟨[], .error .endless⟩
  | fuel + 1, id =>
    if goOn id then
      match t.get? id with
      | none => ⟨[id], .error .outOfRange⟩
      | some b =>
        let below := visitAll (t.walkFrom goOn fuel) b.children
        ⟨id :: below.visited, below.outcome⟩
    else ⟨[id], .ok false⟩

/-- Walks until `goOn` answers no. -/
def walk (t : Tree) (id : BranchId) (goOn : BranchId → Bool) : Walk :=
  t.walkFrom goOn (t.size + 1) id

def label (b : Branch) : String := b.name ++ "@" ++ toString b.pos

/-- The names and positions from the root down to a branch. -/
def path (t : Tree) (id : BranchId) : Except TreeFault String :=
  if id = noBranch then .ok ""
  else
    match t.get? id with
    | none => .error .outOfRange
    | some b =>
      let (above, ends) := t.ancestors id.toNat
      if ends then
        .ok (" > ".intercalate ((b :: above.filterMap t.branch?).reverse.map label))
      else .error .endless

def displayAll (display : Nat → Except TreeFault String) : List Nat → Except TreeFault (List String)
  | [] => .ok []
  | c :: cs => do
    let first ← display c
    let rest ← displayAll display cs
    return first :: rest

def displayFrom (t : Tree) : Nat → Nat → Except TreeFault String
  | 0, _ => .error .endless
  | fuel + 1, i =>
    match t.branch? i with
    | none => .error .outOfRange
    | some b =>
      if b.children.isEmpty then .ok b.name
      else do
        let below ← displayAll (t.displayFrom fuel) b.children
        return b.name ++ "(" ++ ", ".intercalate below ++ ")"

def display (t : Tree) (id : BranchId) : Except TreeFault String :=
  if id < 0 then .error .outOfRange else t.displayFrom (t.size + 1) id.toNat

end TypeEngine.Tree
