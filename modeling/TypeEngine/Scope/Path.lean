import TypeEngine.Scope.Block

/-!
A scope path: the blocks from the outermost level inward. The empty path is the global scope.
Paths are ordered block by block, and a path sorts after its own extensions, so that the more
specific of two nested scopes comes first.
-/

namespace TypeEngine

structure Path where
  blocks : List Block
  deriving Repr, Inhabited

namespace Path

def empty : Path := ⟨[]⟩

def ofPrimitive (name : String) : Path := ⟨[{ kind := .primitive, name }]⟩

def ofParameter (name : String) : Path := ⟨[{ kind := .parameter, name }]⟩

def length (p : Path) : Nat := p.blocks.length

def isEmpty (p : Path) : Bool := p.blocks.isEmpty

def last? (p : Path) : Option Block := p.blocks.getLast?

/-- The innermost name, or nothing but the empty text. -/
def leaf (p : Path) : String := (p.last?.map Block.name).getD ""

def push (p : Path) (b : Block) : Path := ⟨p.blocks ++ [b]⟩

def append (p inner : Path) : Path := ⟨p.blocks ++ inner.blocks⟩

def pop (p : Path) : Path := ⟨p.blocks.dropLast⟩

/-- The outermost `n` blocks; none for a negative `n`. -/
def take (p : Path) (n : Int) : Path := ⟨p.blocks.take n.toNat⟩

def split (p : Path) : Path × String := (p.pop, p.leaf)

def isPrimitive (p : Path) : Bool :=
  match p.blocks with
  | [b] => b.kind = .primitive
  | _ => false

def isPrimitiveNamed (p : Path) (name : String) : Bool := p.isPrimitive && p.leaf = name

def isParameter (p : Path) : Bool := p.last?.any (·.kind = .parameter)

def sameBlocks : List Block → List Block → Bool
  | [], [] => true
  | a :: as, b :: bs => a == b && sameBlocks as bs
  | _, _ => false

/-- Paths are equal when their blocks are, one by one. -/
def same (p q : Path) : Bool := sameBlocks p.blocks q.blocks

instance : BEq Path := ⟨same⟩

def hasPrefixBlocks : List Block → List Block → Bool
  | _, [] => true
  | a :: as, b :: bs => a == b && hasPrefixBlocks as bs
  | [], _ :: _ => false

/-- `q` is an enclosing scope of `p`, or `p` itself. -/
def hasPrefix (p q : Path) : Bool := hasPrefixBlocks p.blocks q.blocks

def orderBlocks : List Block → List Block → Ordering
  | [], [] => .eq
  | [], _ :: _ => .gt
  | _ :: _, [] => .lt
  | a :: as, b :: bs => (a.order b).then (orderBlocks as bs)

def order (p q : Path) : Ordering := orderBlocks p.blocks q.blocks

/-- The text under which tables file a path: code and name of every block. -/
def key (p : Path) : String :=
  "\x1f".intercalate (p.blocks.map fun b => toString b.kind.code ++ ":" ++ b.name)

def display (p : Path) : String := ".".intercalate (p.blocks.map Block.display)

/-- The path itself and every enclosing scope, ending with the global one. -/
def outward (p : Path) : List Path :=
  (List.range (p.length + 1)).reverse.map fun n => ⟨p.blocks.take n⟩

end Path

end TypeEngine
