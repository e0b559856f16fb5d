import TypeEngine.Engine.Adapter
import TypeEngine.Engine.Reach
import TypeEngine.Engine.Supertypes

/-!
Whether a value of one type may be used where another is expected, and how it is adapted. The
rules are tried in a fixed order: equal types, destinations that take anything, tuples, lists and
collections, functions, spans, supertypes, implicit conversions.
-/

namespace TypeEngine

structure Compatibility where
  ok : Bool := false
  warning : Bool := false
  adapter : Adapter := []
  /-- The limit on tuples that caused a rejection. -/
  tooLong? : Option Nat := none

namespace Compatibility

def accepted : Compatibility := { ok := true }

def rejected : Compatibility := {}

def adapted (adapter : Adapter) : Compatibility := { ok := true, adapter }

def message (c : Compatibility) : String :=
  match c.tooLong? with
  | some n => "tuples of more than " ++ toString n ++ " elements cannot be converted to a list"
  | none => ""

end Compatibility

namespace Engine

open Compatibility

abbrev Nested := Ty → Ty → Query Compatibility

/-- Destinations that take anything. -/
def sink (src dst : Ty) : Except Violation (Option Compatibility) :=
  if dst == .object || dst == .null then .ok (some accepted)
  else if dst == .layered 1 .object then do
    match ← src.peelOne with
    | some _ => return some accepted
    | none => return some (adapted [.wrap 1 dst])
  else .ok none

def strict (nested : Nested) (src dst : Ty) : Query (Option Adapter) := do
  let c ← nested src dst
  return if c.ok && !c.warning then some c.adapter else none

/-- Adapters for all pairs, or nothing as soon as one pair does not match. -/
def strictAll (nested : Nested) : List (Ty × Ty) → Query (Option (List Adapter))
  | [] => return some []
  | (src, dst) :: pairs => do
    match ← strict nested src dst with
    | none => return none
    | some a => return (← strictAll nested pairs).map (a :: ·)

def tupleToTuple (nested : Nested) (src dst : Ty) : Query Compatibility := do
  if !src.isTuple then return rejected
  let sources ← Query.ofViolation src.components
  let targets ← Query.ofViolation dst.components
  if sources.length ≠ targets.length then return rejected
  match ← strictAll nested (sources.zip targets) with
  | none => return rejected
  | some adapters =>
    return if adapters.all List.isEmpty then accepted else adapted [.tuple dst adapters]

def tupleToList (e : Engine) (nested : Nested) (src dst : Ty) : Query Compatibility := do
  let sources ← Query.ofViolation src.components
  if e.tupleListLimit < sources.length then return { tooLong? := some e.tupleListLimit }
  let elem := (← Query.ofViolation dst.peelOne).getD .zero
  match ← strictAll nested (sources.map (·, elem)) with
  | none => return rejected
  | some adapters => return adapted [.tuple dst adapters]

/-- Adapts the leaves of a list `depth` layers deep. -/
def eachLeaf (depth : Int) (leaf : Adapter) : Adapter :=
  if leaf.isEmpty || depth = 0 then leaf else [.each leaf]

/-- Compares lists, collections and spans by the number of layers and the leaf. -/
def byLayers (nested : Nested) (src dst : Ty) : Query Compatibility := do
  let (sd, sl) ← Query.ofViolation src.peelList
  let (dd, dl) ← Query.ofViolation dst.peelList
  let charsToText := sl == .char && dl == .string && sd = wrap (dd + 1)
  let textToChars := sl == .string && dl == .char && wrap (sd + 1) = dd
  if charsToText || textToChars then return adapted [.convert dst]
  else if dl == .string && dd ≤ sd && 0 < sd then return adapted [.stringify dst]
  else if sd ≤ dd then
    match ← strict nested sl dl with
    | none => return rejected
    | some leaf =>
      let wraps : Adapter := if sd < dd then [.wrap (wrap (dd - sd)) dst] else []
      return adapted (eachLeaf sd leaf ++ wraps)
  else return rejected

/-- Compares pairs in order, collecting warnings, up to the first that does not match. -/
def allCompatible (nested : Nested) (warning : Bool) : List (Ty × Ty) → Query Compatibility
  | [] => return { ok := true, warning }
  | (src, dst) :: pairs => do
    let c ← nested src dst
    if c.ok then allCompatible nested (warning || c.warning) pairs else return rejected

/-- Compares functions: results go from source to destination, parameters the other way. -/
def delegates (nested : Nested) (src dst : Ty) : Query Compatibility := do
  let s ← Query.ofViolation src.funcParts
  let d ← Query.ofViolation dst.funcParts
  match s, d with
  | some (sr, sp), some (dr, dp) =>
    if sp.length ≠ dp.length then return rejected
    else allCompatible nested false ((sr, dr) :: dp.zip sp)
  | _, _ => return rejected

/-- The rules on the shapes of the two types; no answer if they leave the question open. -/
def byShape (e : Engine) (nested : Nested) (src dst : Ty) : Query (Option Compatibility) := do
  if src == dst || src == .null then return some accepted
  if let some c ← Query.ofViolation (sink src dst) then return some c
  if dst.isTuple then return some (← tupleToTuple nested src dst)
  if dst.isList || dst.isCollection then
    if src.isTuple then return some (← e.tupleToList nested src dst)
    let c ← byLayers nested src dst
    if c.ok then return some c
  if src.isFunc && dst.isFunc then return some (← delegates nested src dst)
  if dst.isSpan then
    let c ← byLayers nested src dst
    if c.ok then return some c
  return none

/-- The steps of a conversion path: a lossy step from text reads it, other lossy ones cast. -/
def conversionSteps (ts : Tables) : Ty → List Ty → Adapter
  | _, [] => []
  | src, t :: path =>
    (if !ts.edgeWarning src t then .convert t else if src == .string then .parse t else .cast t) ::
      conversionSteps ts t path

def viaConversions (src dst : Ty) : Query Compatibility := do
  let r ← reach src dst
  let ts ← Query.tables
  return if r.found then
      { ok := true, warning := r.warning, adapter := conversionSteps ts src r.path }
    else rejected

/-- The search upward: the keys of the types met, and those of the next level. -/
structure Climb where
  seen : List String
  next : List Ty

/-- Compares supertypes that are not yet seen, in order. Ends with the first that matches. -/
def climbTo (compare : Nested) (dst : Ty) :
    List Supertype → Climb → Query (Except Compatibility Climb)
  | [], climb => return .ok climb
  | s :: supers, climb => do
    if climb.seen.contains s.type.key then climbTo compare dst supers climb
    else
      let c ← compare s.type dst
      if c.ok then return .error { c with adapter := .upcast s.type :: c.adapter }
      else
        climbTo compare dst supers
          { seen := s.type.key :: climb.seen, next := climb.next ++ [s.type] }

/-- Compares the supertypes of every type of a level. -/
def climbFrom (e : Engine) (compare : Nested) (dst : Ty) :
    List Ty → Climb → Query (Except Compatibility Climb)
  | [], climb => return .ok climb
  | t :: level, climb => do
    match ← climbTo compare dst (← e.directSupertypes t) climb with
    | .error c => return .error c
    | .ok climb => climbFrom e compare dst level climb

mutual

/-- Compares types nested at most `budget` levels deep. -/
def compatibleAt (e : Engine) : Nat → Nested
  | 0, _, _ => throw (.tooComplex .compatibility e.maxDepth)
  | budget + 1, src, dst => do
    let src := src.unwrap
    let dst := dst.unwrap
    if let some c ← e.byShape (compatibleAt e budget) src dst then return c
    let c ← climbAt e budget dst [src] [src.key]
    if c.ok then return c
    viaConversions src dst

/-- Tries the supertypes above a level, level by level. Each level takes one from the budget, and
supertypes are compared without going up from them again. -/
def climbAt (e : Engine) : Nat → Ty → List Ty → List String → Query Compatibility
  | 0, _, _, _ => throw (.tooComplex .supertypes e.maxDepth)
  | budget + 1, dst, level, seen => do
    let compare : Nested := fun src dst => do
      let src := src.unwrap
      let dst := dst.unwrap
      if let some c ← e.byShape (compatibleAt e budget) src dst then return c
      viaConversions src dst
    match ← e.climbFrom compare dst level { seen, next := [] } with
    | .error c => return c
    | .ok climb =>
      if climb.next.isEmpty then return rejected
      else climbAt e budget dst climb.next climb.seen

end

/-- Whether a value of type `src` may be used where `dst` is expected. -/
def compatible (e : Engine) (src dst : Ty) : Query Compatibility :=
  e.compatibleAt (e.maxDepth + 1) src dst

end Engine

end TypeEngine
