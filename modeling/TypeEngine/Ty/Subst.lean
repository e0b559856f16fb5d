import TypeEngine.Ty.Fault

/-!
Substitutions of types for generic parameters. Substituting a list for the element of a list adds
up the layers, so results stay in run-length form.
-/

namespace TypeEngine

/-- Bindings of parameter names. The first one of a name counts. -/
structure Subst where
  bindings : List (String × Ty)

namespace Subst

def empty : Subst := ⟨[]⟩

instance : Inhabited Subst := ⟨empty⟩

def isEmpty (s : Subst) : Bool := s.bindings.isEmpty

def get? (s : Subst) (name : String) : Option Ty := s.bindings.lookup name

/-- Binds `name` unless it is bound already; tells whether it is now bound to a type equal to `t`. -/
def bind (s : Subst) (name : String) (t : Ty) : Bool × Subst :=
  match s.get? name with
  | some old => (old == t, s)
  | none => (true, ⟨s.bindings ++ [(name, t)]⟩)

/-- Binds `name`, in place of an earlier binding. -/
def set (s : Subst) (name : String) (t : Ty) : Subst :=
  ⟨s.bindings.filter (·.1 != name) ++ [(name, t)]⟩

def display (s : Subst) : String :=
  let sorted := s.bindings.mergeSort fun a b => (compare a.1 b.1).isLE
  "\x7b" ++ ", ".intercalate (sorted.map fun (name, t) => name ++ " -> " ++ t.display) ++ "\x7d"

end Subst

namespace Ty

mutual

/-- Substitutes in a type that stands `depth` levels deep. -/
def applyAt (s : Subst) (limit depth : Nat) : Ty → Except Fault Ty
  | mk main extra =>
    if limit < depth then .error (.tooComplex .substitute limit)
    else if extra.isEmpty && main.isParameter then
      .ok ((s.get? main.leaf).getD (mk main extra))
    else if main == .ofPrimitive "list" then
      match extra with
      | [.type _ elem] => do
        let elem ← applyAt s limit (depth + 1) elem
        (listN elem 1).mapError .broken
      | [.value _ text, .type _ elem] =>
        match Numeral.count? text with
        | some n => do
          let elem ← applyAt s limit (depth + 1) elem
          (listN elem n).mapError .broken
        | none => .error (.broken (.listCount text))
      | slots => ((layersOf slots).map Prod.snd).mapError .broken
    else do return mk main (← applySlots s limit depth extra extra)

/-- Substitutes in each type among the first slots and puts the results, by name, into the
second. -/
def applySlots (s : Subst) (limit depth : Nat) : List Slot → List Slot → Except Fault (List Slot)
  | [], out => .ok out
  | .type name t :: slots, out => do
    let t ← applyAt s limit (depth + 1) t
    applySlots s limit depth slots (Slot.put (.type name t) out)
  | .value .. :: slots, out => applySlots s limit depth slots out

end

/-- Replaces every generic parameter that `s` binds, at most `limit` levels deep. A limit that is
not positive stands for the default one. -/
def apply (t : Ty) (s : Subst) (limit : Int) : Except Fault Ty :=
  if s.isEmpty then .ok t
  else applyAt s (if limit ≤ 0 then defaultLimit else limit.toNat) 0 t

end Ty

end TypeEngine
