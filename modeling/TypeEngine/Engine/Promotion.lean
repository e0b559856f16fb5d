import TypeEngine.Engine.Adapter
import TypeEngine.Symbols.Builtin

/-!
The type of arithmetic over two primitives. The higher rank wins, except that an unsigned type
beside a lower signed one widens to the next signed type.
-/

namespace TypeEngine.Promotion

/-- The type to which unsigned arithmetic widens beside a lower signed operand. -/
def widened? (name : String) : Option Ty :=
  if name = "ulong" then some .bigint
  else if name = "uint" then some .long
  else if name = "ushort" || name = "char" then some .int
  else none

/-- The result type of arithmetic over `a` and `b`, if both are primitives with a rank. -/
def result? (a b : Ty) : Option Ty := do
  let pa ← Builtin.primitiveOf? a
  let ra ← pa.rank
  let pb ← Builtin.primitiveOf? b
  let rb ← pb.rank
  let (hi, lo) := if ra < rb || (ra = rb && pb.name = "ushort") then (pb, pa) else (pa, pb)
  if lo.integer && lo.signed then
    if let some t := widened? hi.name then return t
  return .prim hi.name

/-- The adapter that brings an operand to the result type. -/
def adapter (result t : Ty) : Adapter :=
  if t == result then []
  else if result == .string then [.stringify result]
  else if t == .bool then [.cast result]
  else [.convert result]

def adapters? (a b : Ty) : Option (Adapter × Adapter) :=
  (result? a b).map fun r => (adapter r a, adapter r b)

end TypeEngine.Promotion
