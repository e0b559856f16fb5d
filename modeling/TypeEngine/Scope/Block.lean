/-!
One level of a scope path: a kind and a name. Anonymous levels are told apart by an index that
takes no part in equality or order.
-/

namespace TypeEngine

/-- What a level of a scope path stands for. Codes beyond the named kinds are carried along. -/
structure Kind where
  code : Int
  deriving DecidableEq, Repr, Inhabited

namespace Kind

def unnamed : Kind := ⟨0⟩
def primitive : Kind := ⟨1⟩
def parameter : Kind := ⟨2⟩
def namespaceLevel : Kind := ⟨3⟩
def classType : Kind := ⟨4⟩
def structType : Kind := ⟨5⟩
def interfaceType : Kind := ⟨6⟩
def delegateType : Kind := ⟨7⟩
def enumType : Kind := ⟨8⟩
def function : Kind := ⟨9⟩
def constructor : Kind := ⟨10⟩
def destructor : Kind := ⟨11⟩
def operator : Kind := ⟨12⟩
def extent : Kind := ⟨13⟩
def other : Kind := ⟨14⟩

def names : List String :=
  ["unnamed", "primitive", "extra", "namespace", "class", "struct", "interface", "delegate",
    "enum", "function", "constructor", "destructor", "operator", "extent", "other"]

def name (k : Kind) : String :=
  if 0 ≤ k.code then names.getD k.code.toNat "unknown" else "unknown"

/-- The lower-case form of a character, as far as it is an ASCII letter. -/
def lower (c : Char) : Char :=
  if c.toNat = 0x130 then 'i' else if c.toNat = 0x212a then 'k' else c.toLower

/-- Reads a kind's name in any letter case. -/
def ofName? (s : String) : Option Kind :=
  (names.findIdx? (· == s.map lower)).map fun i => ⟨i⟩

/-- Levels of these kinds declare a type. -/
def declaresType (k : Kind) : Bool :=
  [primitive, parameter, classType, structType, interfaceType, delegateType, enumType].contains k

end Kind

structure Block where
  kind : Kind
  name : String
  /-- Tells anonymous levels apart in displays. -/
  index : Int := 0
  deriving Repr, Inhabited

namespace Block

/-- Blocks are equal when kind and name agree. -/
def same (a b : Block) : Bool := a.kind = b.kind && a.name = b.name

instance : BEq Block := ⟨same⟩

/-- Blocks are ordered by kind, then by name. -/
def order (a b : Block) : Ordering := (compare a.kind.code b.kind.code).then (compare a.name b.name)

def anonymous (index : Int) : Block := { kind := .unnamed, name := "", index }

def display (b : Block) : String :=
  if b.kind = .unnamed && b.name = "" then "#" ++ toString b.index else b.name

end Block

end TypeEngine
