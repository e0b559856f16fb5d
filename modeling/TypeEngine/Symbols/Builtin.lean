import TypeEngine.Symbols.Conversion
import TypeEngine.Symbols.Overload

/-!
The tables that every compilation shares: primitives and their ranks, the parameters of the
generic shapes, built-in interfaces, methods, properties and implicit conversions.
-/

namespace TypeEngine

/-- A primitive. The rank orders arithmetic promotion; primitives without one take no part. -/
structure Primitive where
  name : String
  rank : Option Nat
  numeric : Bool := false
  integer : Bool := false
  signed : Bool := false

/-- The parameters of a generic shape. A variadic shape repeats its last one. -/
structure ShapeInfo where
  name : String
  params : List String
  variadic : Bool := false

/-- A property or field. The index is its position among those of its container. -/
structure Property where
  name : String
  type : Ty
  attributes : Attributes := {}
  index : Int := 0

namespace Builtin

def primitives : List Primitive :=
  let integer := fun name rank signed =>
    { name, rank := some rank, numeric := true, integer := true, signed : Primitive }
  [{ name := "null", rank := none },
    { name := "object", rank := none },
    { name := "bool", rank := some 0 },
    integer "byte" 1 false,
    integer "short" 2 true,
    integer "char" 3 false,
    integer "ushort" 3 false,
    integer "int" 4 true,
    integer "uint" 5 false,
    integer "long" 6 true,
    integer "ulong" 7 false,
    integer "bigint" 8 true,
    { name := "TimeSpan", rank := some 9, signed := true },
    { name := "DateTime", rank := some 10 },
    { name := "real", rank := some 11, numeric := true, signed := true },
    { name := "complex", rank := some 12, numeric := true, signed := true },
    { name := "string", rank := some 13 }]

def primitive? (name : String) : Option Primitive := primitives.find? (·.name = name)

/-- The table entry of a primitive type without arguments. -/
def primitiveOf? (t : Ty) : Option Primitive :=
  if t.main.isPrimitive && t.extra.isEmpty then primitive? t.main.leaf else none

def shapes : List ShapeInfo :=
  [{ name := "list", params := ["T"] },
    { name := "tuple", params := ["T"], variadic := true },
    { name := "func", params := ["TResult", "T"], variadic := true },
    { name := "ReadOnlySpan", params := ["T"] }] ++
  Ty.collectionNames.map fun name => { name, params := ["T"] }

def shape? (name : String) : Option ShapeInfo := shapes.find? (·.name = name)

def interface (name : String) (args : List Ty) : Ty :=
  .named ⟨[{ kind := .namespaceLevel, name := "System" }, { kind := .interfaceType, name }]⟩ args

/-- The interfaces of a shape or primitive, in terms of the shape's parameters. -/
def declaredInterfaces (name : String) : List Ty :=
  if name = "list" then
    [interface "IEnumerable" [.param "T"], interface "IList" [.param "T"]]
  else if Ty.collectionNames.contains name then [interface "IEnumerable" [.param "T"]]
  else if name = "string" then [interface "IEnumerable" [.char], interface "IComparable" []]
  else if ((primitive? name).bind Primitive.rank).isSome then [interface "IComparable" []]
  else []

/-- Pairs a shape's parameters with arguments. Further arguments need a variadic shape. -/
def bindShape (variadic : Bool) : List String → List Ty → Subst → Option Subst
  | _, [], s => some s
  | [], _ :: _, s => if variadic then some s else none
  | name :: names, t :: ts, s => bindShape variadic names ts (s.set name t)

/-- Binds the parameters of a built-in generic receiver. A list binds `T` to the type one layer
down. -/
def shapeArgs (t : Ty) : Except Violation (Option Subst) :=
  if t.isList then do
    let elem ← t.peelOne
    return some ⟨[("T", elem.getD .zero)]⟩
  else
    let receiver := t.main.isPrimitive || Ty.collectionNames.contains t.main.leaf
    match shape? t.main.leaf, Slot.types? t.extra with
    | some shape, some (arg :: args) =>
      .ok (if receiver then bindShape shape.variadic shape.params (arg :: args) .empty else none)
    | _, _ => .ok none

/-- The built-in interfaces of `t`, instantiated. Those too deep to instantiate are left out. -/
def interfaces (t : Ty) : Except Violation (List Ty) :=
  if !t.main.isPrimitive && !t.isCollection then .ok []
  else
    match declaredInterfaces t.main.leaf with
    | [] => .ok []
    | declared => do
      let s := (← shapeArgs t).getD .empty
      let instances ← declared.mapM fun i =>
        match i.apply s Ty.defaultLimit with
        | .ok t => .ok (some t)
        | .error (.broken v) => .error v
        | .error _ => .ok none
      return instances.filterMap id

/-- A method of the receivers with a given path key. -/
structure Method where
  receiver : String
  name : String
  overload : Overload

/-- A method whose parameters are called `a`, `b` and so on. -/
def method (receiver : Ty) (name : String) (ret : Ty) (params : List Ty) : Method :=
  { receiver := receiver.main.key
    name
    overload :=
      { ret
        params := (params.zip ["a", "b", "c"]).map fun (type, name) => { type, name } } }

def methods : List Method :=
  let text := Ty.string
  let elem := Ty.param "T"
  let list := Ty.layered 1 elem
  let out := Ty.param "TOut"
  [method .object "ToString" text [],
    method .object "Equals" .bool [.object],
    method .object "GetHashCode" .int [],
    method text "Contains" .bool [text],
    method text "Contains" .bool [.char],
    method text "IndexOf" .int [.char],
    method text "IndexOf" .int [text],
    method text "Substring" text [.int],
    method text "Substring" text [.int, .int],
    method text "Split" (.layered 1 text) [.char],
    method text "Replace" text [text, text],
    method text "StartsWith" .bool [text],
    method text "EndsWith" .bool [text],
    method text "ToUpper" text [],
    method text "ToLower" text [],
    method text "Trim" text [],
    { receiver := text.main.key
      name := "Join"
      overload :=
        { ret := text
          attributes := ⟨[.static]⟩
          params :=
            [{ type := text, name := "separator" },
              { type := .object, name := "values", flags := { variadic := true } }] } },
    method list "Add" .null [elem],
    method list "AddRange" .null [list],
    method list "Contains" .bool [elem],
    method list "IndexOf" .int [elem],
    method list "Insert" .null [.int, elem],
    method list "Remove" .bool [elem],
    method list "RemoveAt" .null [.int],
    method list "Reverse" .null [],
    method list "Sort" .null [],
    { receiver := list.main.key
      name := "GetRange"
      overload :=
        { ret := list
          params :=
            [{ type := .int, name := "index" },
              { type := .int
                name := "count"
                flags := { optional := true }
                default? := some "-1" }] } },
    { receiver := list.main.key
      name := "ConvertAll"
      overload :=
        { restrictions := [{ name := "TOut" }]
          ret := .layered 1 out
          params := [{ type := .func out [elem], name := "converter" }] } }] ++
  (primitives.filter Primitive.numeric).map fun p =>
    method (.prim p.name) "CompareTo" .int [.prim p.name]

/-- The built-in methods `name` of receivers with the path of `t`. -/
def methodsOf (t : Ty) (name : String) : List Overload :=
  (methods.filter fun m => m.receiver = t.main.key && m.name = name).map Method.overload

def objectMethods (name : String) : List Overload := methodsOf .object name

def property? (t : Ty) (name : String) : Option Property :=
  let receivers := [Path.ofPrimitive "string", Path.ofPrimitive "list"]
  if name = "Length" && receivers.any (·.key = t.main.key) then some { name, type := .int }
  else none

/-- The implicit conversions between primitives. Those from text to numbers may lose
information. -/
def conversions : ConversionGraph :=
  let exact : List (Ty × Ty) :=
    [(.bool, .byte), (.byte, .short), (.byte, .ushort), (.char, .ushort), (.short, .int),
      (.ushort, .int), (.ushort, .uint), (.int, .long), (.uint, .long), (.uint, .ulong),
      (.long, .bigint), (.ulong, .bigint), (.long, .real), (.bigint, .real), (.real, .complex),
      (.char, .string)]
  let lossy : List Ty := [.byte, .short, .int, .long, .bigint, .real]
  let g := exact.foldl (fun g (src, dst) => g.add src dst false) .empty
  lossy.foldl (fun g dst => g.add .string dst true) g

end Builtin

end TypeEngine
