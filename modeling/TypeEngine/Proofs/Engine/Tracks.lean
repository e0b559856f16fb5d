import TypeEngine.Proofs.Engine.Query
import TypeEngine.Proofs.Ty.Renaming

/-!
# Two runs of a query

`Tracks ρ both P R q q'` compares a run of `q` with a run of `q'`, from any two sessions with the
property `P`: where `q` answers, so does `q'`, and the answers are related by `R`. Where `q` fails,
`q'` fails alike, with generic parameters renamed by `ρ`; if `both` is false, nothing is said about
`q'` in that case. The session that `q` leaves has the property `P` again.
-/

namespace TypeEngine

/-- The broken rule as equality of types sees it. -/
def Violation.bare : Violation → Violation
  | .tupleValue slots => .tupleValue (Ty.bareSlots slots)
  | v => v

def Fault.bare : Fault → Fault
  | .broken v => .broken v.bare
  | f => f

variable {α β γ δ : Type} {ρ : String → String}

/-- The same fault, or the components of two tuples that are the same once they are renamed. -/
inductive Fault.Matches (ρ : String → String) : Fault → Fault → Prop where
  | refl (f : Fault) : Matches ρ f f
  | components {xs ys : List Slot} : Ty.bareSlots (Ty.renameSlots ρ xs) = Ty.bareSlots ys →
      Matches ρ (.broken (.tupleValue xs)) (.broken (.tupleValue ys))

theorem Fault.Matches.bare {f g : Fault} (same : Matches id f g) : f.bare = g.bare := by
  cases same with
  | refl => rfl
  | components slots =>
    rw [Ty.renameSlots_id] at slots
    exact congrArg (fun slots => Fault.broken (.tupleValue slots)) slots

/-- Both results are there and related, or both are missing for the same reason. -/
inductive Alike (ρ : String → String) (R : α → β → Prop) :
    Except Violation α → Except Violation β → Prop where
  | ok {a : α} {b : β} : R a b → Alike ρ R (.ok a) (.ok b)
  | error {v w : Violation} : Fault.Matches ρ (.broken v) (.broken w) → Alike ρ R (.error v) (.error w)

/-- How the outcome of one run compares with that of another. -/
inductive Follows (ρ : String → String) (both : Prop) (P : Session → Prop) (R : α → β → Prop) :
    Except Fault α × Session → Except Fault β × Session → Prop where
  | answer {a : α} {b : β} {s s' : Session} :
      R a b → P s → P s' → Follows ρ both P R (.ok a, s) (.ok b, s')
  | fault {f g : Fault} {s s' : Session} :
      f.Matches ρ g → P s → Follows ρ both P R (.error f, s) (.error g, s')
  | spared {f : Fault} {s : Session} {outcome : Except Fault β × Session} :
      ¬both → P s → Follows ρ both P R (.error f, s) outcome

theorem Follows.imp {both both' : Prop} {P : Session → Prop} {R S : α → β → Prop}
    {left : Except Fault α × Session} {right : Except Fault β × Session}
    (fewer : both' → both) (weaker : ∀ a b, R a b → S a b) (follows : Follows ρ both P R left right) :
    Follows ρ both' P S left right := by
  cases follows with
  | answer related kept kept' => exact .answer (weaker _ _ related) kept kept'
  | fault same kept => exact .fault same kept
  | spared one kept => exact .spared (mt fewer one) kept

namespace Query

def Tracks (ρ : String → String) (both : Prop) (P : Session → Prop) (R : α → β → Prop) (q : Query α)
    (q' : Query β) : Prop :=
  ∀ s s', P s → P s' → Follows ρ both P R (q.run s) (q'.run s')

namespace Tracks

variable {both : Prop} {P : Session → Prop} {R : α → β → Prop} {q : Query α} {q' : Query β}

theorem pure {a : α} {b : β} (related : R a b) :
    Tracks ρ both P R (Pure.pure a) (Pure.pure b) :=
  fun _ _ keeps keeps' => .answer related keeps keeps'

theorem throw (f : Fault) : Tracks ρ both P R (MonadExcept.throw f) (MonadExcept.throw f) :=
  fun _ _ keeps _ => .fault (.refl f) keeps

theorem spared (one : ¬both) (f : Fault) : Tracks ρ both P R (MonadExcept.throw f) q' :=
  fun _ _ keeps _ => .spared one keeps

theorem bind {S : γ → δ → Prop} {f : α → Query γ} {g : β → Query δ} (first : Tracks ρ both P R q q')
    (next : ∀ a b, R a b → Tracks ρ both P S (f a) (g b)) :
    Tracks ρ both P S (q >>= f) (q' >>= g) := by
  intro s s' keeps keeps'
  have first := first s s' keeps keeps'
  rw [run_bind, run_bind]
  generalize q.run s = outcome at first
  generalize q'.run s' = outcome' at first
  cases first with
  | answer related kept kept' => exact next _ _ related _ _ kept kept'
  | fault same kept => exact .fault same kept
  | spared one kept => exact .spared one kept

theorem keeps (tracks : Tracks ρ both P R q q') {s s' : Session} (holds : P s) (holds' : P s') :
    P (q.run s).2 := by
  have outcome := tracks s s' holds holds'
  generalize q.run s = left at outcome ⊢
  generalize q'.run s' = right at outcome
  cases outcome with
  | answer _ kept _ => exact kept
  | fault _ kept => exact kept
  | spared _ kept => exact kept

theorem meets {R : α → β → Prop} (tracks : Tracks ρ both P R q q') :
    q.Meets P fun a => ∀ s', P s' → ∃ b after, q'.run s' = (.ok b, after) ∧ R a b := by
  intro s holds
  refine ⟨tracks.keeps holds holds, ?_⟩
  intro a answer s' holds'
  have outcome := tracks s s' holds holds'
  generalize q.run s = left at answer outcome
  generalize q'.run s' = right at outcome ⊢
  cases outcome with
  | answer related _ _ =>
    obtain rfl := Except.ok.inj answer
    exact ⟨_, _, rfl, related⟩
  | fault => cases answer
  | spared => cases answer

theorem mono {S : α → β → Prop} (tracks : Tracks ρ both P R q q') (weaker : ∀ a b, R a b → S a b) :
    Tracks ρ both P S q q' :=
  fun s s' keeps keeps' => (tracks s s' keeps keeps').imp id weaker

theorem spare {both' : Prop} (tracks : Tracks ρ both P R q q') (fewer : both' → both) :
    Tracks ρ both' P R q q' :=
  fun s s' keeps keeps' => (tracks s s' keeps keeps').imp fewer fun _ _ related => related

theorem ofViolation {x : Except Violation α} {y : Except Violation β} (alike : Alike ρ R x y) :
    Tracks ρ both P R (Query.ofViolation x) (Query.ofViolation y) := by
  intro s s' keeps keeps'
  cases alike with
  | ok related => exact .answer related keeps keeps'
  | error same => exact .fault same keeps

theorem ofFault_map (x : Except Fault α) (h : α → β) :
    Tracks ρ both P (fun a b => x = .ok a ∧ b = h a) (Query.ofFault x) (Query.ofFault (x.map h)) := by
  intro s s' keeps keeps'
  cases x with
  | ok a => exact .answer ⟨rfl, rfl⟩ keeps keeps'
  | error f => exact .fault (.refl f) keeps

theorem ite {c c' : Prop} [Decidable c] [Decidable c'] {r : Query α} {r' : Query β} (same : c ↔ c')
    (yes : c → Tracks ρ both P R q q') (no : ¬c → Tracks ρ both P R r r') :
    Tracks ρ both P R (if c then q else r) (if c' then q' else r') := by
  by_cases holds : c
  · rw [if_pos holds, if_pos (same.mp holds)]
    exact yes holds
  · rw [if_neg holds, if_neg (mt same.mpr holds)]
    exact no holds

end Tracks

end Query

end TypeEngine
