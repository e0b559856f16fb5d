import TypeEngine.Ty.Subst

/-!
Signatures of functions, constructors, indexers and operators, and the modifiers that
declarations carry.
-/

namespace TypeEngine

/-- Modifiers of a declaration, in the order in which they are displayed. -/
inductive Attribute where
  | static | abstract | virtual | override | sealed | privateOnly | protectedOnly | internal | const
  | multiconst | deprecated
  deriving DecidableEq, Repr

namespace Attribute

def all : List Attribute :=
  [static, abstract, virtual, override, sealed, privateOnly, protectedOnly, internal, const, multiconst,
    deprecated]

def name : Attribute → String
  | static => "static"
  | abstract => "abstract"
  | virtual => "virtual"
  | override => "override"
  | sealed => "sealed"
  | privateOnly => "private"
  | protectedOnly => "protected"
  | internal => "internal"
  | const => "const"
  | multiconst => "multiconst"
  | deprecated => "deprecated"

def ofName? (s : String) : Option Attribute := all.find? (·.name = s)

end Attribute

structure Attributes where
  members : List Attribute := []
  deriving Repr, Inhabited

namespace Attributes

def has (as : Attributes) (a : Attribute) : Bool := as.members.contains a

/-- The set as a number: modifier `i` of the display order counts `2 ^ i`. -/
def code (as : Attributes) : Nat :=
  Attribute.all.zipIdx.foldr (fun (a, i) n => (if as.has a then Nat.pow 2 i else 0) + n) 0

def display (as : Attributes) : String :=
  " ".intercalate ((Attribute.all.filter as.has).map Attribute.name)

end Attributes

/-- Modifiers of a parameter. A variadic parameter takes all further arguments. -/
structure ParamFlags where
  optional : Bool := false
  ref : Bool := false
  out : Bool := false
  variadic : Bool := false
  deriving Repr, Inhabited

def ParamFlags.code (f : ParamFlags) : Nat :=
  f.optional.toNat + 2 * f.ref.toNat + 4 * f.out.toNat + 8 * f.variadic.toNat

structure Parameter where
  type : Ty
  name : String := ""
  flags : ParamFlags := {}
  default? : Option String := none

/-- Constrains one generic parameter of a declaration. Package restrictions stand for value
parameters such as lengths. -/
structure Restriction where
  name : String
  package : Bool := false
  constraint : Ty := .zero

structure Overload where
  restrictions : List Restriction := []
  ret : Ty
  attributes : Attributes := {}
  params : List Parameter := []

namespace Overload

/-- The last parameter takes all further arguments. -/
def isVariadic (o : Overload) : Bool := o.params.getLast?.any (·.flags.variadic)

def genericNames (o : Overload) : List String := o.restrictions.map Restriction.name

/-- The first variadic parameter that is not the last one. -/
def misplaced? (o : Overload) : Option Parameter := o.params.dropLast.find? (·.flags.variadic)

def displayParam (p : Parameter) : String :=
  (if p.flags.variadic then "params " else if p.flags.ref then "ref "
    else if p.flags.out then "out " else "") ++
  p.type.display ++
  (if p.name = "" then "" else " " ++ p.name) ++
  (match p.default? with
    | some text => " = " ++ text
    | none => if p.flags.optional then "?" else "")

def display (o : Overload) : String :=
  let attributes := o.attributes.display
  (if attributes = "" then "" else attributes ++ " ") ++
  (if o.restrictions.isEmpty then "" else "[" ++ ", ".intercalate o.genericNames ++ "] ") ++
  "(" ++ ", ".intercalate (o.params.map displayParam) ++ ") -> " ++ o.ret.display

/-- Substitutes in the result and in every parameter. Modifiers and restrictions stay. -/
def apply (o : Overload) (s : Subst) (limit : Int) : Except Fault Overload :=
  if s.isEmpty then .ok o
  else do
    let ret ← o.ret.apply s limit
    let params ← o.params.mapM fun p => do return { p with type := ← p.type.apply s limit }
    return { o with ret, params }

/-- The declared type that each of `n` arguments meets; a variadic parameter repeats. -/
def expand (o : Overload) (n : Nat) : List Ty :=
  let declared := (o.params.map Parameter.type).take n
  match o.params.getLast? with
  | some last =>
    if last.flags.variadic then declared ++ List.replicate (n - o.params.length) last.type
    else declared
  | none => declared

end Overload

end TypeEngine
