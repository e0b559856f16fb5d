import TypeEngine.Text.Blank

/-!
Packages as they are written: types, functions, methods and constants with their documentation.
-/

namespace TypeEngine.Package

/-- The name of a field of a structure. An embedded field has the name of its type. -/
structure Label where
  name : String
  embedded : Bool := false
  deriving DecidableEq, Repr

inductive TypeExpr where
  /-- A name, with a package before a point if it is declared in another one. -/
  | name (text : String)
  /-- A generic type with its arguments. -/
  | inst (name : String) (args : List TypeExpr)
  | pointer (elem : TypeExpr)
  | slice (elem : TypeExpr)
  | array (length : Int) (elem : TypeExpr)
  | map (key value : TypeExpr)
  | chan (elem : TypeExpr)
  | struct (labels : List Label) (types : List TypeExpr)
  /-- A function; the last parameter takes any number of arguments if it is variadic. -/
  | func (names : List String) (params results : List TypeExpr) (variadic : Bool)

instance : Inhabited TypeExpr := ⟨.name ""⟩

def unqualified (text : String) : String := (Text.segments text).getLastD ""

def TypeExpr.typeName? : TypeExpr → Option String
  | .name text => some (unqualified text)
  | .inst text _ => some (unqualified text)
  | _ => none

/-- The name of a field in which the type is embedded, as itself or as a pointer to it. -/
def TypeExpr.embeddedName? : TypeExpr → Option String
  | .pointer e => e.typeName?
  | t => t.typeName?

structure SignatureExpr where
  names : List String := []
  params : List TypeExpr := []
  results : List TypeExpr := []
  variadic : Bool := false

instance : Inhabited SignatureExpr := ⟨{}⟩

structure ParamExpr where
  name : String
  constraint : TypeExpr

inductive TypeBody where
  | defined (type : TypeExpr)
  /-- Another name for a type. -/
  | synonym (type : TypeExpr)
  | interface (embeds : List TypeExpr) (methods : List (String × SignatureExpr))

structure TypeDecl where
  name : String
  params : List ParamExpr := []
  body : TypeBody
  /-- Its own documentation and that of the group it stands in. -/
  docs : List String := []

structure FuncDecl where
  name : String
  params : List ParamExpr := []
  signature : SignatureExpr
  doc : String := ""

structure MethodDecl where
  /-- The name of the type that has the method. -/
  receiver : String
  viaPointer : Bool := false
  /-- Names for the parameters of the type. -/
  params : List String := []
  name : String
  signature : SignatureExpr
  doc : String := ""

structure ConstDecl where
  name : String
  type? : Option TypeExpr := none
  value : String

structure VarDecl where
  name : String
  type : TypeExpr

inductive Decl where
  | type (d : TypeDecl)
  | func (d : FuncDecl)
  | method (d : MethodDecl)
  | const (d : ConstDecl)
  | var (d : VarDecl)

structure Source where
  dir : String
  name : String
  imports : List String := []
  decls : List Decl := []

namespace Source

def modulePath : String := "m"

/-- The path by which other packages import this one. -/
def path (s : Source) : String :=
  if s.dir = "" || s.dir = "." then modulePath else modulePath ++ "/" ++ s.dir

def types (s : Source) : List TypeDecl :=
  s.decls.filterMap fun | .type d => some d | _ => none

def funcs (s : Source) : List FuncDecl :=
  s.decls.filterMap fun | .func d => some d | _ => none

def methods (s : Source) : List MethodDecl :=
  s.decls.filterMap fun | .method d => some d | _ => none

def consts (s : Source) : List ConstDecl :=
  s.decls.filterMap fun | .const d => some d | _ => none

def vars (s : Source) : List VarDecl :=
  s.decls.filterMap fun | .var d => some d | _ => none

/-- A synonym has no definition of its own. -/
def isSynonym (d : TypeDecl) : Bool :=
  match d.body with
  | .synonym _ => true
  | _ => false

/-- The names that the package declares, apart from methods. -/
def declared (s : Source) : List String :=
  s.decls.filterMap fun
    | .type d => some d.name
    | .func d => if d.name = "init" then none else some d.name
    | .method _ => none
    | .const d => some d.name
    | .var d => some d.name

end Source

/-! ### Documentation -/

def paragraphs : List (List Char) → List (List (List Char))
  | [] => [[]]
  | line :: lines =>
    match paragraphs lines with
    | [] => [[line]]
    | p :: ps => if line.isEmpty then [] :: p :: ps else (line :: p) :: ps

/-- A paragraph of the documentation says that the thing is deprecated. -/
def isDeprecated (doc : String) : Bool :=
  let isSpace := fun (c : Char) => c == ' ' || c == '\t' || c == '\n' || c == '\r'
  let lines := (Text.splitOn '\n' doc.toList).map (Text.dropEnd isSpace)
  (paragraphs lines).any fun p =>
    "Deprecated:".toList.isPrefixOf (Text.trim (['\n'].intercalate p))

end TypeEngine.Package
