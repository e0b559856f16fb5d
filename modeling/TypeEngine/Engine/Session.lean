import TypeEngine.Host.Catalog
import TypeEngine.Symbols.Table

/-!
The engine answers queries about the symbols of a compilation, the built-in tables and a host
catalog. A session holds the symbols together with the answers memoised so far; a query that fails
leaves its session as it was at that point.
-/

namespace TypeEngine

/-- What stays the same during a session. -/
structure Engine where
  catalog : Host.Catalog := .empty
  maxDepth : Nat := Ty.defaultLimit
  tupleListLimit : Nat := 16

namespace Engine

/-- An engine with the given limits; a limit that is not positive stands for the default one. -/
def make (catalog : Host.Catalog) (maxDepth tupleListLimit : Int) : Engine :=
  { catalog
    maxDepth := if maxDepth ≤ 0 then Ty.defaultLimit else maxDepth.toNat
    tupleListLimit := if tupleListLimit ≤ 0 then 16 else tupleListLimit.toNat }

end Engine

structure Supertype where
  type : Ty
  isInterface : Bool

structure Session where
  tables : Tables := {}
  /-- Memoised direct supertypes by the key of the type. -/
  supers : List (String × List Supertype) := []
  /-- The revision of the tables for which `supers` holds. -/
  supersRevision : Option Nat := none

namespace Session

instance : Inhabited Session := ⟨{}⟩

end Session

/-- A query reads and extends a session. -/
abbrev Query (α : Type) := ExceptT Fault (StateM Session) α

namespace Query

def tables : Query Tables := do return (← get).tables

def ofFault {α : Type} (x : Except Fault α) : Query α := ExceptT.mk (pure x)

def ofViolation {α : Type} (x : Except Violation α) : Query α := ofFault (x.mapError .broken)

def run {α : Type} (q : Query α) (s : Session) : Except Fault α × Session := q s

end Query

inductive Origin where
  | user | base | builtin | native
  deriving DecidableEq, Repr

namespace Origin

def all : List Origin := [user, base, builtin, native]

def name : Origin → String
  | user => "user"
  | base => "base"
  | builtin => "builtin"
  | native => "native"

def nameOfCode (code : Int) : String :=
  if code < 0 then "unknown" else (all[code.toNat]?.map name).getD "unknown"

end Origin

/-- Binds parameter names to the type arguments in the same positions. -/
def Subst.ofArguments : List String → List Slot → Subst → Subst
  | name :: names, .type _ t :: slots, s => ofArguments names slots (s.set name t)
  | _ :: names, .value .. :: slots, s => ofArguments names slots s
  | _, _, s => s

def Ty.bindParams (t : Ty) (names : List String) : Subst := .ofArguments names t.extra .empty

end TypeEngine
