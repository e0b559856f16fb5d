import TypeEngine.Text.Bytes
import TypeEngine.Ty.Display

/-!
Why an operation on types fails: the text does not denote a type, the work goes deeper than
allowed, or a type breaks a rule on shapes.
-/

namespace TypeEngine

/-- Recursive work that has a depth limit. -/
inductive Work where
  | parse | substitute | build | unify | compatibility | supertypes | baseChain
  deriving DecidableEq, Repr

def Work.name : Work → String
  | parse => "parse"
  | substitute => "substitute"
  | build => "build"
  | unify => "generic unification"
  | compatibility => "compatibility"
  | supertypes => "supertypes"
  | baseChain => "base chain"

/-- The largest number of components that a written tuple may have. -/
def Ty.maxComponents : Nat := 4096

namespace Ty

/-- Why bytes do not denote a type. -/
inductive Malformation where
  | typeName
  | segmentName
  | argumentEnd
  | listCount
  | listParenthesis
  | bracketCount (text : String)
  | listArguments
  | runCount
  | runPositive
  | tupleSize
  | tupleEnd
  | trailing (rest : List Char)
  | shape (v : Violation)

def Malformation.message : Malformation → String
  | typeName => "expected a type name"
  | segmentName => "expected a name after '.'"
  | argumentEnd => "expected ',' or ']'"
  | listCount => "list repeat count must be a positive integer"
  | listParenthesis => "expected ')' after list count"
  | bracketCount text => "list repeat count " ++ Text.quoteBytes text.toList ++ " must be a positive integer"
  | listArguments => "list takes an element type or a count and an element type"
  | runCount => "expected a repeat count after '^'"
  | runPositive => "tuple repeat count must be positive"
  | tupleSize => "tuple has more than " ++ toString maxComponents ++ " components"
  | tupleEnd => "expected ',' or ')' in tuple"
  | trailing rest => "unexpected " ++ Text.quoteBytes rest
  | shape v => v.message

/-- Bytes that do not denote a type, and the offset at which that shows. -/
structure ParseError where
  input : String
  pos : Nat
  cause : Malformation

def ParseError.message (e : ParseError) : String :=
  "cannot parse type " ++ Text.quoteBytes e.input.toList ++ " at " ++ toString e.pos ++ ": " ++ e.cause.message

end Ty

inductive Fault where
  | malformed (e : Ty.ParseError)
  | tooComplex (work : Work) (limit : Int)
  | broken (v : Violation)

def Fault.message : Fault → String
  | malformed e => e.message
  | tooComplex work limit =>
    "type too complex to resolve: " ++ work.name ++ " exceeded depth " ++ toString limit
  | broken v => "internal error: " ++ v.message

end TypeEngine
