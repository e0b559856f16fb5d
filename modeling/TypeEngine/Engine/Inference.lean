import TypeEngine.Symbols.Overload

/-!
Inference of generic parameters: declared types are matched with actual ones position by position.
The first binding of a parameter wins, and positions that do not match are passed over.
-/

namespace TypeEngine.Inference

/-- Matches arguments pair by pair; values bind nothing. -/
def unifySlots (unify : Ty → Ty → Subst → Except Fault Subst) :
    List (Slot × Slot) → Subst → Except Fault Subst
  | [], s => .ok s
  | (.type _ d, .type _ a) :: pairs, s => do unifySlots unify pairs (← unify d a s)
  | _ :: pairs, s => unifySlots unify pairs s

/-- Matches a declared with an actual type at most `budget` levels deep. -/
def unify (limit : Int) : Nat → Ty → Ty → Subst → Except Fault Subst
  | 0, _, _, _ => .error (.tooComplex .unify limit)
  | budget + 1, d, a, s =>
    let d := d.unwrap
    let a := a.unwrap
    if d.isParam then .ok (s.bind d.main.leaf a).2
    else if d.params.isEmpty then .ok s
    else if d.isList then do
      let inner ← d.peelOne.mapError .broken
      match ← a.peelOne.mapError .broken with
      | none => return s
      | some elem => unify limit budget (inner.getD .zero) elem s
    else if !(d.main == a.main) || d.extra.length ≠ a.extra.length then .ok s
    else unifySlots (unify limit budget) (d.extra.zip a.extra) s

def unifyAll (limit : Int) : List (Ty × Ty) → Subst → Except Fault Subst
  | [], s => .ok s
  | (d, a) :: pairs, s => do unifyAll limit pairs (← unify limit (limit + 1).toNat d a s)

/-- The bindings that make the declared types match the actual ones. -/
def patterns (declared actual : List Ty) (limit : Int) : Except Fault Subst :=
  unifyAll limit (declared.zip actual) .empty

end TypeEngine.Inference
