import TypeEngine.Host.File
import TypeEngine.Yaml.Printer

/-!
Catalog files as documents, which are spelt as text in turn (`Codec.yaml`). A document leaves out what
reading puts in its place.
-/

namespace TypeEngine.Host

open Yaml

def ParamEntry.ofNode? (n : Node) : Option ParamEntry := do
  let fs ← n.record?
  return {
    name := ← Node.member fs "name" "" Node.text?
    type := ← Node.member fs "type" "" Node.text?
    optional := ← Node.member fs "optional" false Node.flag?
    variadic := ← Node.member fs "variadic" false Node.flag?
    ref := ← Node.member fs "ref" false Node.flag?
    out := ← Node.member fs "out" false Node.flag?
    default? := ← Node.member fs "default" none Node.optionalText? }

def CallableEntry.ofNode? (n : Node) : Option CallableEntry := do
  let fs ← n.record?
  return {
    name := ← Node.member fs "name" "" Node.text?
    typeParams := ← Node.member fs "type_params" [] (Node.list? Node.text?)
    params := ← Node.member fs "params" [] (Node.list? ParamEntry.ofNode?)
    ret := ← Node.member fs "return" "" Node.text?
    static := ← Node.member fs "static" false Node.flag?
    abstract := ← Node.member fs "abstract" false Node.flag?
    deprecated := ← Node.member fs "deprecated" "" Node.text? }

def PropertyEntry.ofNode? (n : Node) : Option PropertyEntry := do
  let fs ← n.record?
  return {
    name := ← Node.member fs "name" "" Node.text?
    type := ← Node.member fs "type" "" Node.text?
    static := ← Node.member fs "static" false Node.flag?
    readOnly := ← Node.member fs "read_only" false Node.flag? }

def ConstantEntry.ofNode? (n : Node) : Option ConstantEntry := do
  let fs ← n.record?
  return {
    name := ← Node.member fs "name" "" Node.text?
    type := ← Node.member fs "type" "" Node.text?
    value := ← Node.member fs "value" "" Node.text? }

def TypeEntry.ofNode? (n : Node) : Option TypeEntry := do
  let fs ← n.record?
  return {
    namespaceName := ← Node.member fs "namespace" "" Node.text?
    name := ← Node.member fs "name" "" Node.text?
    kind := ← Node.member fs "kind" "" Node.text?
    typeParams := ← Node.member fs "type_params" [] (Node.list? Node.text?)
    base := ← Node.member fs "base" "" Node.text?
    interfaces := ← Node.member fs "interfaces" [] (Node.list? Node.text?)
    methods := ← Node.member fs "methods" [] (Node.list? CallableEntry.ofNode?)
    constructors := ← Node.member fs "constructors" [] (Node.list? CallableEntry.ofNode?)
    properties := ← Node.member fs "properties" [] (Node.list? PropertyEntry.ofNode?)
    constants := ← Node.member fs "constants" [] (Node.list? ConstantEntry.ofNode?) }

def PrimitivesEntry.ofNode : Node → PrimitivesEntry
  | .mapping members => .pairs (members.map fun m => (written m.key, written m.value))
  | _ => .noMapping
where
  /-- A scalar as it is written. -/
  written : Node → String
    | .scalar s _ => s
    | _ => ""

def File.ofNode? (n : Node) : Option File := do
  let fs ← n.record?
  return {
    primitives := ((fs.lookup "primitives").map PrimitivesEntry.ofNode).getD .absent
    types := ← Node.member fs "types" [] (Node.list? TypeEntry.ofNode?) }

def pair (name : String) (n : Node) : Pair := .mk (.ofText name) n

/-- A text that is written only when there is one. -/
def textMember (name value : String) : List Pair :=
  if value = "" then [] else [pair name (.ofText value)]

def flagMember (name : String) (value : Bool) : List Pair :=
  if value then [pair name (.ofFlag true)] else []

def listMember {α : Type} (name : String) (node : α → Node) (items : List α) : List Pair :=
  if items.isEmpty then [] else [pair name (.sequence (items.map node))]

def ParamEntry.node (p : ParamEntry) : Node :=
  .mapping <| [pair "name" (.ofText p.name), pair "type" (.ofText p.type)] ++
    flagMember "optional" p.optional ++ flagMember "variadic" p.variadic ++
    flagMember "ref" p.ref ++ flagMember "out" p.out ++
    (p.default?.map fun d => pair "default" (.ofText d)).toList

def CallableEntry.node (c : CallableEntry) : Node :=
  .mapping <| textMember "name" c.name ++ listMember "type_params" .ofText c.typeParams ++
    listMember "params" ParamEntry.node c.params ++ textMember "return" c.ret ++
    flagMember "static" c.static ++ flagMember "abstract" c.abstract ++
    textMember "deprecated" c.deprecated

def PropertyEntry.node (p : PropertyEntry) : Node :=
  .mapping <| [pair "name" (.ofText p.name), pair "type" (.ofText p.type)] ++
    flagMember "static" p.static ++ flagMember "read_only" p.readOnly

def ConstantEntry.node (c : ConstantEntry) : Node :=
  .mapping <| pair "name" (.ofText c.name) :: textMember "type" c.type ++ textMember "value" c.value

def TypeEntry.node (t : TypeEntry) : Node :=
  .mapping <| textMember "namespace" t.namespaceName ++ [pair "name" (.ofText t.name)] ++
    textMember "kind" t.kind ++ listMember "type_params" .ofText t.typeParams ++
    textMember "base" t.base ++ listMember "interfaces" .ofText t.interfaces ++
    listMember "methods" CallableEntry.node t.methods ++
    listMember "constructors" CallableEntry.node t.constructors ++
    listMember "properties" PropertyEntry.node t.properties ++
    listMember "constants" ConstantEntry.node t.constants

def PrimitivesEntry.members : PrimitivesEntry → List Pair
  | .pairs aliases =>
    [pair "primitives" (.mapping (aliases.map fun (path, model) => .mk (.ofWord path) (.ofWord model)))]
  | _ => []

def File.node (f : File) : Node :=
  .mapping (f.primitives.members ++ [pair "types" (.sequence (f.types.map TypeEntry.node))])

/-- The file that a document describes; without a document it is empty. -/
def File.ofDocument? (root : Option Node) : Option File := (root.map File.ofNode?).getD (some {})

/-- The catalog that a document describes. -/
def Catalog.ofDocument (root : Option Node) : Except FileFault Catalog :=
  match File.ofDocument? root with
  | some f => Catalog.ofFile f
  | none => .error .unreadable

/-- The spelling of catalog files that commands use. -/
def Codec.yaml : Codec where
  encode f := f.node.render
  decode text := (Node.parse text).bind File.ofDocument?

def Catalog.parse (text : String) : Except FileFault Catalog := Codec.yaml.parse text

def Catalog.render (c : Catalog) : String := Codec.yaml.render c

end TypeEngine.Host
