import TypeEngine.Symbols.Table

/-!
# Registrations

The calls that change the symbol tables, as data. `register_cases` is what the memoised answers
rest on: a registration leaves types, interfaces and conversions alone, or it drops the answers and
moves to a later revision.
-/

namespace TypeEngine

/-- A call that changes the tables. -/
inductive Registration where
  | reset
  | declareType (decl : TypeDecl)
  | addProperty (container : Path) (p : Property)
  | addConstant (container : Path) (k : Constant)
  | addEnumConstant (enum : Path) (k : EnumConstant)
  | declareVariable (scope : Path) (v : Variable)
  | addFunction (container : Path) (name : String) (o : Overload)
  | addConstructor (container : Path) (o : Overload)
  | addIndexer (container : Path) (o : Overload)
  | addUnary (operand : Ty) (op : String) (o : Overload)
  | addBinary (operand : Ty) (op : String) (o : Overload)
  | addInterface (path : Path) (iface : Ty)
  | addConversion (src dst : Ty) (warning : Bool)

namespace Registration

def apply (ts : Tables) : Registration → Except Refusal Tables
  | reset => .ok ts.reset
  | declareType decl => ts.declareType decl
  | addProperty container p => ts.addProperty container p
  | addConstant container k => ts.addConstant container k
  | addEnumConstant enum k => ts.addEnumConstant enum k
  | declareVariable scope v => ts.declareVariable scope v
  | addFunction container name o => ts.addFunction container name o
  | addConstructor container o => ts.addConstructor container o
  | addIndexer container o => ts.addIndexer container o
  | addUnary operand op o => ts.addUnary operand op o
  | addBinary operand op o => ts.addBinary operand op o
  | addInterface path iface => .ok (ts.addInterface path iface)
  | addConversion src dst warning => .ok (ts.addConversion src dst warning)

end Registration

namespace Tables

/-- The tables after a call with the given outcome. A refused call leaves them as they are. -/
def settle (ts : Tables) : Except Refusal Tables → Tables
  | .ok next => next
  | .error _ => ts

def register (ts : Tables) (r : Registration) : Tables := ts.settle (r.apply ts)

/-- The tables have the same types, interfaces and conversions: all that the memoised answers
depend on. -/
structure Agrees (ts other : Tables) : Prop where
  types : ts.types = other.types
  interfaces : ts.interfaces = other.interfaces
  conversions : ts.conversions = other.conversions

/-- The tables agree, and so do the answers memoised in them. -/
structure Keeps (ts other : Tables) : Prop extends Agrees ts other where
  closure : other.closure = ts.closure
  revision : other.revision = ts.revision

/-- The memoised answers are dropped, for good. -/
structure Drops (ts other : Tables) : Prop where
  closure : other.closure = []
  revision : ts.revision < other.revision

theorem Agrees.refl (ts : Tables) : ts.Agrees ts := ⟨rfl, rfl, rfl⟩

theorem Agrees.trans {a b c : Tables} (left : a.Agrees b) (right : b.Agrees c) : a.Agrees c :=
  ⟨left.types.trans right.types, left.interfaces.trans right.interfaces,
    left.conversions.trans right.conversions⟩

theorem Keeps.refl (ts : Tables) : ts.Keeps ts := ⟨.refl ts, rfl, rfl⟩

theorem invalidate_drops (ts other : Tables) (later : ts.revision ≤ other.revision) :
    ts.Drops other.invalidate :=
  ⟨rfl, Nat.lt_succ_of_le later⟩

theorem once_keeps {ts next : Tables} {taken : Bool} {refusal : Refusal} (frame : ts.Keeps next) :
    ts.Keeps (ts.settle (if taken then .error refusal else .ok next)) := by
  cases taken with
  | true => exact .refl ts
  | false => exact frame

theorem checked_keeps {ts : Tables} {o : Overload} {write : Overload → Tables}
    (frame : ts.Keeps (write o)) : ts.Keeps (ts.settle (do return write (← checked o))) := by
  unfold checked
  cases o.misplaced? with
  | some p => exact .refl ts
  | none => exact frame

theorem register_cases (ts : Tables) (r : Registration) :
    ts.Keeps (ts.register r) ∨ ts.Drops (ts.register r) := by
  cases r with
  | reset => exact .inr (invalidate_drops ts _ (Nat.le_refl _))
  | declareType decl =>
    simp only [register, Registration.apply, declareType]
    split
    · exact .inl (.refl ts)
    · exact .inr (invalidate_drops ts _ (Nat.le_refl _))
  | addProperty container p => exact .inl (once_keeps ⟨⟨rfl, rfl, rfl⟩, rfl, rfl⟩)
  | addConstant container k => exact .inl (once_keeps ⟨⟨rfl, rfl, rfl⟩, rfl, rfl⟩)
  | addEnumConstant enum k => exact .inl (once_keeps ⟨⟨rfl, rfl, rfl⟩, rfl, rfl⟩)
  | declareVariable scope v => exact .inl (once_keeps ⟨⟨rfl, rfl, rfl⟩, rfl, rfl⟩)
  | addFunction container name o => exact .inl (checked_keeps ⟨⟨rfl, rfl, rfl⟩, rfl, rfl⟩)
  | addConstructor container o => exact .inl (checked_keeps ⟨⟨rfl, rfl, rfl⟩, rfl, rfl⟩)
  | addIndexer container o => exact .inl (checked_keeps ⟨⟨rfl, rfl, rfl⟩, rfl, rfl⟩)
  | addUnary operand op o => exact .inl (checked_keeps ⟨⟨rfl, rfl, rfl⟩, rfl, rfl⟩)
  | addBinary operand op o => exact .inl (checked_keeps ⟨⟨rfl, rfl, rfl⟩, rfl, rfl⟩)
  | addInterface path iface =>
    simp only [register, Registration.apply, addInterface]
    split
    · exact .inl (.refl ts)
    · exact .inr (invalidate_drops ts _ (Nat.le_refl _))
  | addConversion src dst warning => exact .inr (invalidate_drops ts _ (Nat.le_refl _))

end Tables

end TypeEngine
