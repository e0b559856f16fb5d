import TypeEngine.Numeral
import TypeEngine.Text.Blank
import TypeEngine.Text.Quoted

/-!
References to host types in the host's own terms: a dotted path with arguments, a generic
parameter of the enclosing type or callable, or a literal argument.
-/

namespace TypeEngine.Host

/-- A reference. Of the texts, a parameter outweighs a value and a value outweighs a path. -/
inductive Ref where
  | mk (path param value : String) (args : List Ref)

namespace Ref

def path : Ref → String
  | mk path _ _ _ => path

def param : Ref → String
  | mk _ param _ _ => param

def value : Ref → String
  | mk _ _ value _ => value

def args : Ref → List Ref
  | mk _ _ _ args => args

/-- The absent type, as of a callable without a result. -/
def absent : Ref := mk "" "" "" []

instance : Inhabited Ref := ⟨absent⟩

def isAbsent (r : Ref) : Bool := r.path = "" && r.param = "" && r.value = "" && r.args.isEmpty

def ofPath (path : String) (args : List Ref := []) : Ref := mk path "" "" args

def ofParam (name : String) : Ref := mk "" name "" []

def ofValue (text : String) : Ref := mk "" "" text []

mutual

/-- References are equal when all their parts are. -/
def same : Ref → Ref → Bool
  | mk path param value args, mk path' param' value' args' =>
    path = path' && param = param' && value = value' && sameAll args args'

def sameAll : List Ref → List Ref → Bool
  | [], [] => true
  | r :: rs, s :: ss => same r s && sameAll rs ss
  | _, _ => false

end

instance : BEq Ref := ⟨same⟩

mutual

def display : Ref → String
  | mk path param value args =>
    if param ≠ "" then param
    else if value ≠ "" then value
    else if path = "" then ""
    else if args.isEmpty then path
    else path ++ "[" ++ ", ".intercalate (displayAll args) ++ "]"

def displayAll : List Ref → List String
  | [] => []
  | r :: rs => display r :: displayAll rs

end

inductive Malformed where
  | missingName (text : List Char)
  | unclosed (text : List Char)
  | trailing (text rest : List Char)

def Malformed.message (m : Malformed) : String :=
  let at_ := fun (text : List Char) => "type reference " ++ Text.quote (.ofList text) ++ ": "
  match m with
  | missingName text => at_ text ++ "missing name"
  | unclosed text => at_ text ++ "expected ',' or ']'"
  | trailing text rest => at_ text ++ "unexpected " ++ Text.quote (.ofList rest)

def isDelimiter (c : Char) : Bool := c == '[' || c == ']' || c == ','

def skipSpaces (cs : List Char) : List Char := cs.dropWhile (· == ' ')

mutual

/-- Reads a reference and returns what follows it. `fuel` bounds the nesting and the number of
arguments. -/
def read (params : List String) : Nat → List Char → Except Malformed (Ref × List Char)
  | 0, text => .error (.missingName text)
  | fuel + 1, text =>
    let text := skipSpaces text
    let name := Text.trim (text.takeWhile (!isDelimiter ·))
    let rest := text.dropWhile (!isDelimiter ·)
    let label := String.ofList name
    if name.isEmpty then .error (.missingName text)
    else if name.all Numeral.isDigit then .ok (ofValue label, rest)
    else
      match rest with
      | '[' :: inner => do
        let (args, rest) ← readArgs params fuel text [] inner
        return (ofPath label args, rest)
      | _ => .ok (if params.contains label then ofParam label else ofPath label, rest)

/-- Reads arguments up to the closing bracket; `text` is the reference they belong to. -/
def readArgs (params : List String) : Nat → List Char → List Ref → List Char →
    Except Malformed (List Ref × List Char)
  | 0, text, _, _ => .error (.unclosed text)
  | fuel + 1, text, args, rest => do
    let (arg, rest) ← read params fuel rest
    match skipSpaces rest with
    | ',' :: rest => readArgs params fuel text (args ++ [arg]) rest
    | ']' :: rest => return (args ++ [arg], rest)
    | _ => .error (.unclosed text)

end

/-- Reads the displayed form of a reference. Names listed in `params` are generic parameters, and
names of digits only are literals. -/
def parse (s : String) (params : List String := []) : Except Malformed Ref :=
  let text := Text.trim s.toList
  if text.isEmpty then .ok absent
  else do
    let (r, rest) ← read params (2 * text.length + 2) text
    if (Text.trim rest).isEmpty then return r else throw (.trailing text rest)

end Ref

end TypeEngine.Host
