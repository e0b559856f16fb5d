import TypeEngine.Engine.Session

/-!
Reachability in the graph of implicit conversions, breadth first. Paths without warnings are
preferred. Answers are memoised in the tables by the keys of source and destination.
-/

namespace TypeEngine

/-- A type met by the search: whether the way to it warns, and the types on that way. -/
structure Visit where
  type : Ty
  warning : Bool
  path : List Ty

/-- How far a search has come: the keys of the types met, and the types still to be left. -/
structure Frontier where
  visited : List String
  queue : List Visit

namespace Frontier

/-- Follows the edges out of a visited type. Ends with an answer when one leads to `dst`. -/
def follow (dst : Ty) (lossy : Bool) (from_ : Visit) :
    List ConversionEdge → Frontier → Except Reachability Frontier
  | [], f => .ok f
  | edge :: edges, f =>
    if (edge.warning && !lossy) || f.visited.contains edge.dest.key then
      follow dst lossy from_ edges f
    else
      let visit : Visit :=
        { type := edge.dest
          warning := from_.warning || edge.warning
          path := from_.path ++ [edge.dest] }
      if edge.dest == dst then
        .error { found := true, warning := visit.warning, path := visit.path }
      else
        follow dst lossy from_ edges
          { visited := edge.dest.key :: f.visited, queue := f.queue ++ [visit] }

/-- Leaves the types of the queue one by one. `fuel` bounds their number. -/
def search (edgesOf : Ty → List ConversionEdge) (dst : Ty) (lossy : Bool) :
    Nat → Frontier → Reachability
  | 0, _ => {}
  | fuel + 1, f =>
    match f.queue with
    | [] => {}
    | visit :: queue =>
      match follow dst lossy visit (edgesOf visit.type) { f with queue } with
      | .error answer => answer
      | .ok f => search edgesOf dst lossy fuel f

end Frontier

namespace Tables

/-- The shortest way from `src` to `dst`, over edges that warn only if `lossy`. Every edge leads to
one type, so the search leaves at most one type more than there are edges. -/
def searchConversion (ts : Tables) (src dst : Ty) (lossy : Bool) : Reachability :=
  Frontier.search ts.conversionEdges dst lossy
    (Builtin.conversions.size + ts.conversions.size + 1)
    { visited := [src.key], queue := [⟨src, false, []⟩] }

/-- A way without warnings if there is one, any way otherwise. -/
def closure? (ts : Tables) (src dst : Ty) : Reachability :=
  let exact := ts.searchConversion src dst false
  if exact.found then exact else ts.searchConversion src dst true

/-- The only edges between the two types are ones that warn. -/
def edgeWarning (ts : Tables) (src dst : Ty) : Bool :=
  ((ts.conversionEdges src).filter (·.dest == dst)).all ConversionEdge.warning

end Tables

namespace Engine

/-- The memoised way from `src` to `dst`. -/
def reach (src dst : Ty) : Query Reachability := do
  let ts ← Query.tables
  match ts.cachedClosure? src dst with
  | some r => return r
  | none =>
    let r := ts.closure? src dst
    modify fun s => { s with tables := s.tables.storeClosure src dst r }
    return r

end Engine

end TypeEngine
