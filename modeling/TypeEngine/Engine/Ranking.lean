import TypeEngine.Engine.Compatibility
import TypeEngine.Engine.Inference

/-!
Ranking of overloads against the arguments of a call. A candidate scores the number of leading
arguments that it takes without warnings; all candidates with the highest score are kept.
-/

namespace TypeEngine

structure Candidate where
  overload : Overload
  origin : Origin
  scope : Path
  native? : Option Host.Callable := none

/-- A candidate that was kept, with its generic parameters substituted. -/
structure Resolved where
  overload : Overload
  score : Nat
  complete : Bool
  origin : Origin
  scope : Path
  native? : Option Host.Callable := none
  patterns? : Option Subst := none

namespace Engine

/-- A parameter takes an argument when it is generic or the argument fits without warnings. -/
def accepts (e : Engine) (param arg : Ty) : Query Bool := do
  if param.isParam then return true
  let c ← e.compatible arg param
  return c.ok && !c.warning

/-- How many leading arguments their parameters accept. -/
def leading (e : Engine) : List (Ty × Ty) → Query Nat
  | [] => return 0
  | (param, arg) :: pairs => do
    if ← e.accepts param arg then return (← leading e pairs) + 1 else return 0

/-- A call may leave the parameter out. -/
def canOmit (p : Parameter) : Bool := p.flags.optional || p.flags.variadic || p.default?.isSome

/-- The score of a parameter list: none if a required parameter is left without an argument, zero
if arguments are left over. -/
def score (e : Engine) (params : List Parameter) (args : List Ty) : Query (Option Nat) := do
  let overload : Overload := { ret := .zero, params }
  if params.length < args.length && !overload.isVariadic then return some 0
  else if !(params.drop args.length).all canOmit then return none
  else return some (← e.leading ((overload.expand args.length).zip args))

/-- Infers the generic parameters of a candidate and scores it. -/
def resolve (e : Engine) (args : List Ty) (c : Candidate) : Query (Option Resolved) := do
  let patterns ← Query.ofFault (Inference.patterns (c.overload.expand args.length) args e.maxDepth)
  let overload ← Query.ofFault (c.overload.apply patterns e.maxDepth)
  return (← e.score overload.params args).map fun score =>
    { overload
      score
      complete := score = args.length
      origin := c.origin
      scope := c.scope
      native? := c.native?
      patterns? := some patterns }

/-- Keeps a new result beside the best ones so far. -/
def keepBest (best : List Resolved) (r : Resolved) : List Resolved :=
  match best with
  | [] => [r]
  | b :: _ => if b.score < r.score then [r] else if r.score = b.score then best ++ [r] else best

/-- The candidates with the highest score, in order. -/
def rankFrom (e : Engine) (args : List Ty) : List Candidate → List Resolved → Query (List Resolved)
  | [], best => return best
  | c :: cands, best => do
    match ← e.resolve args c with
    | none => rankFrom e args cands best
    | some r => rankFrom e args cands (keepBest best r)

def rank (e : Engine) (cands : List Candidate) (args : List Ty) : Query (List Resolved) :=
  e.rankFrom args cands []

end Engine

end TypeEngine
