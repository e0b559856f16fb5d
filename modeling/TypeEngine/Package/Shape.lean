import TypeEngine.Package.Source
import TypeEngine.Text.Uppercase

/-!
Types whose names are resolved, and what a program declares with them.
-/

namespace TypeEngine.Package

/-- Other packages can see a name that starts with an upper case letter. -/
def isExported (name : String) : Bool :=
  match name.toList with
  | c :: _ => Text.isUppercase c
  | [] => false

/-- A type in which every name says what it stands for. -/
inductive Shape where
  | basic (name : String)
  /-- A declared type with its arguments. Types that every program knows have an empty package. -/
  | named (package name : String) (args : List Shape)
  /-- A type parameter of the declaration `owner`. -/
  | param (owner name : String)
  | pointer (elem : Shape)
  | slice (elem : Shape)
  | array (length : Int) (elem : Shape)
  | map (key value : Shape)
  | chan (elem : Shape)
  | struct (package : String) (labels : List Label) (types : List Shape)
  | func (params results : List Shape) (variadic : Bool)
  /-- A type that was written as another name for `target`. -/
  | synonym (target : Shape)
  /-- In a constraint: one of several types, or a type declared from one of them. -/
  | union (types : List Shape)

namespace Shape

instance : Inhabited Shape := ⟨basic "int"⟩

/-- The type without other names for it at the top. -/
def resolved : Shape → Shape
  | synonym t => resolved t
  | t => t

/-- The type that a pointer points to; a type that is no pointer stays as it is. -/
def pointee : Shape → Shape
  | pointer e => e
  | t => t

/-- The name by which two basic types are the same. -/
def basicIdentity : String → String
  | "byte" => "uint8"
  | "rune" => "int32"
  | name => name

mutual

/-- The type without other names for it or for its parts. -/
def plain : Shape → Shape
  | basic n => basic (basicIdentity n)
  | named p n args => named p n (plainAll args)
  | param o n => param o n
  | pointer e => pointer (plain e)
  | slice e => slice (plain e)
  | array n e => array n (plain e)
  | map k v => map (plain k) (plain v)
  | chan e => chan (plain e)
  | struct p ls ts => struct p ls (plainAll ts)
  | func ps rs v => func (plainAll ps) (plainAll rs) v
  | synonym t => plain t
  | union ts => union (plainAll ts)

def plainAll : List Shape → List Shape
  | [] => []
  | t :: ts => plain t :: plainAll ts

end

mutual

/-- The two are built alike. Hidden fields are alike only within one package. -/
def alike : Shape → Shape → Bool
  | basic a, basic b => a = b
  | named p n as, named q k bs => p = q && n = k && allAlike as bs
  | param o a, param o' b => o = o' && a = b
  | pointer a, pointer b => alike a b
  | slice a, slice b => alike a b
  | array n a, array k b => n = k && alike a b
  | map k v, map k' v' => alike k k' && alike v v'
  | chan a, chan b => alike a b
  | struct p ls ts, struct q ls' ts' =>
    (p = q || ls.all (isExported ·.name)) && ls = ls' && allAlike ts ts'
  | func ps rs v, func ps' rs' v' => v = v' && allAlike ps ps' && allAlike rs rs'
  | synonym a, synonym b => alike a b
  | union as, union bs => allAlike as bs
  | _, _ => false

def allAlike : List Shape → List Shape → Bool
  | [], [] => true
  | a :: as, b :: bs => alike a b && allAlike as bs
  | _, _ => false

end

/-- Two types are the same whatever names they were written with. -/
instance : BEq Shape := ⟨fun a b => alike a.plain b.plain⟩

/-- What type parameters stand for, by owner and name. -/
abbrev Binding := List ((String × String) × Shape)

mutual

def subst (s : Binding) : Shape → Shape
  | basic n => basic n
  | named p n args => named p n (substAll s args)
  | param o n => (s.lookup (o, n)).getD (param o n)
  | pointer e => pointer (subst s e)
  | slice e => slice (subst s e)
  | array n e => array n (subst s e)
  | map k v => map (subst s k) (subst s v)
  | chan e => chan (subst s e)
  | struct p ls ts => struct p ls (substAll s ts)
  | func ps rs v => func (substAll s ps) (substAll s rs) v
  | synonym t => synonym (subst s t)
  | union ts => union (substAll s ts)

def substAll (s : Binding) : List Shape → List Shape
  | [] => []
  | t :: ts => subst s t :: substAll s ts

end

mutual

def parts : Shape → List Shape
  | basic n => [basic n]
  | named p n args => named p n args :: partsAll args
  | param o n => [param o n]
  | pointer e => pointer e :: parts e
  | slice e => slice e :: parts e
  | array n e => array n e :: parts e
  | map k v => map k v :: parts k ++ parts v
  | chan e => chan e :: parts e
  | struct p ls ts => struct p ls ts :: partsAll ts
  | func ps rs v => func ps rs v :: partsAll ps ++ partsAll rs
  | synonym t => synonym t :: parts t
  | union ts => union ts :: partsAll ts

def partsAll : List Shape → List Shape
  | [] => []
  | t :: ts => parts t ++ partsAll ts

end

end Shape

/-! ### Names -/

/-- A name of a field or method. One that other packages cannot see belongs to its package. -/
structure MemberId where
  package : String
  name : String
  deriving DecidableEq, Repr

def MemberId.of (package name : String) : MemberId :=
  if isExported name then ⟨"", name⟩ else ⟨package, name⟩

/-! ### Programs -/

structure Signature where
  typeParams : List String := []
  names : List String := []
  params : List Shape := []
  results : List Shape := []
  variadic : Bool := false

namespace Signature

def type (s : Signature) : Shape := .func s.params s.results s.variadic

def subst (b : Shape.Binding) (s : Signature) : Signature :=
  { s with params := Shape.substAll b s.params, results := Shape.substAll b s.results }

end Signature

structure TypeName where
  package : String
  name : String
  deriving DecidableEq, Repr

def TypeName.key (t : TypeName) : String := t.package ++ "." ++ t.name

inductive Body where
  | shape (s : Shape)
  /-- An interface that `owner` declares in its package. -/
  | interface (owner : TypeName) (methods : List (String × Signature)) (embeds : List Shape)

namespace Body

def subst (b : Shape.Binding) : Body → Body
  | shape s => shape (s.subst b)
  | interface owner methods embeds =>
    interface owner (methods.map fun (n, s) => (n, s.subst b)) (Shape.substAll b embeds)

end Body

structure TypeParam where
  name : String
  constraint : Shape

structure TypeDef where
  id : TypeName
  params : List TypeParam := []
  body : Body

/-- What the parameters of the type stand for in a type with these arguments. -/
def TypeDef.binding (d : TypeDef) (args : List Shape) : Shape.Binding :=
  (d.params.map fun p => (d.id.key, p.name)).zip args

structure MethodDef where
  receiver : TypeName
  /-- The receiver was written as another name for its type. -/
  viaSynonym : Bool := false
  viaPointer : Bool := false
  params : List String := []
  name : String
  signature : Signature

/-- The declaration that owns the names of the receiver's parameters. -/
def MethodDef.owner (m : MethodDef) : String := m.receiver.key ++ "." ++ m.name

def MethodDef.binding (m : MethodDef) (args : List Shape) : Shape.Binding :=
  (m.params.map fun p => (m.owner, p)).zip args

structure FuncDef where
  package : String
  name : String
  signature : Signature
  /-- The constraints of its type parameters. -/
  constraints : List Shape := []

def FuncDef.owner (f : FuncDef) : String := f.package ++ "." ++ f.name

/-- A constant with a type. Its value is given as text. -/
structure ConstDef where
  package : String
  name : String
  type : Shape
  value : String

/-- A package that is described: its path and its name. -/
structure Loaded where
  path : String
  name : String

structure Program where
  loaded : List Loaded := []
  types : List TypeDef := []
  methods : List MethodDef := []
  funcs : List FuncDef := []
  /-- The types of variables. -/
  vars : List Shape := []
  consts : List ConstDef := []
  /-- Keys of what the documentation calls deprecated. -/
  deprecated : List String := []

namespace Program

def type? (p : Program) (id : TypeName) : Option TypeDef := p.types.find? (·.id = id)

def methodsOf (p : Program) (id : TypeName) : List MethodDef := p.methods.filter (·.receiver = id)

def packageName? (p : Program) (path : String) : Option String :=
  (p.loaded.find? (·.path = path)).map Loaded.name

def errorBody : Body :=
  .interface ⟨"", "error"⟩ [("Error", { results := [.basic "string"] })] []

/-- Follows names of types to what they stand for. A type parameter, and a name that leads back to
itself, stands for nothing. -/
def bodyAt (p : Program) : Nat → Shape → Option Body
  | _, .named "" "error" _ => some errorBody
  | _, .named "" name _ => some (.interface ⟨"", name⟩ [] [])
  | 0, .named .. => none
  | fuel + 1, .named package name args =>
    match p.type? ⟨package, name⟩ with
    | none => none
    | some d =>
      match d.body.subst (d.binding args) with
      | .shape s => bodyAt p fuel s.resolved
      | b => some b
  | _, .param .. => none
  | _, s => some (.shape s)

def body? (p : Program) (s : Shape) : Option Body := p.bodyAt (p.types.length + 1) s.resolved

def isInterface (p : Program) (s : Shape) : Bool :=
  match p.body? s with
  | some (.interface ..) => true
  | _ => false

end Program

end TypeEngine.Package
