import TypeEngine.Engine.Session

/-!
# What queries keep and answer

`q.Meets P Q` says that the query `q` keeps the property `P` of sessions, also when it fails, and
that its answers have the property `Q`.
-/

namespace TypeEngine.Query

variable {α β : Type} {P : Session → Prop} {Q : α → Prop} {s s' : Session}

def Meets (q : Query α) (P : Session → Prop) (Q : α → Prop) : Prop :=
  ∀ s, P s → P (q.run s).2 ∧ ∀ a, (q.run s).1 = .ok a → Q a

theorem run_bind (q : Query α) (f : α → Query β) (s : Session) :
    (q >>= f).run s =
      match q.run s with
      | (.ok a, s) => (f a).run s
      | (.error fault, s) => (.error fault, s) := by
  change ExceptT.bindCont f (q.run s).1 (q.run s).2 = _
  rcases q.run s with ⟨result, next⟩
  cases result <;> rfl

theorem run_ofFault_pure (x : Except Fault α) (f : α → β) (s : Session) :
    (ofFault x >>= fun a => pure (f a)).run s = (x.map f, s) := by
  cases x <;> rfl

theorem run_bind_ok {q : Query α} {f : α → Query β} {b : β} :
    (q >>= f).run s = (.ok b, s') ↔ ∃ a t, q.run s = (.ok a, t) ∧ (f a).run t = (.ok b, s') := by
  rw [run_bind]
  rcases q.run s with ⟨result, t⟩
  cases result with
  | ok a =>
    constructor
    · exact fun done => ⟨a, t, rfl, done⟩
    · rintro ⟨a, t, ⟨⟩, done⟩
      exact done
  | error fault =>
    constructor
    · rintro ⟨⟩
    · rintro ⟨a, t, ⟨⟩, _⟩

theorem run_pure_ok {a b : α} :
    Query.run (pure a) s = (.ok b, s') ↔ a = b ∧ s = s' := by
  constructor
  · rintro ⟨⟩
    exact ⟨rfl, rfl⟩
  · rintro ⟨rfl, rfl⟩
    rfl

theorem run_ofFault_ok {x : Except Fault α} {a : α} :
    (ofFault x).run s = (.ok a, s') ↔ x = .ok a ∧ s = s' := by
  constructor
  · rintro ⟨⟩
    exact ⟨rfl, rfl⟩
  · rintro ⟨rfl, rfl⟩
    rfl

namespace Meets

variable {q : Query α}

theorem pure {a : α} (holds : Q a) : Meets (Pure.pure a) P Q := by
  intro s keeps
  refine ⟨keeps, ?_⟩
  intro b answer
  obtain rfl := Except.ok.inj answer
  exact holds

theorem throw (fault : Fault) : Meets (MonadExcept.throw fault) P Q := by
  intro s keeps
  refine ⟨keeps, ?_⟩
  intro b answer
  cases answer

theorem bind {R : β → Prop} {f : α → Query β} (first : q.Meets P Q)
    (next : ∀ a, Q a → (f a).Meets P R) : (q >>= f).Meets P R := by
  intro s keeps
  obtain ⟨kept, answers⟩ := first s keeps
  rw [run_bind]
  generalize q.run s = outcome at kept answers ⊢
  obtain ⟨result, s'⟩ := outcome
  cases result with
  | ok a => exact next a (answers a rfl) s' kept
  | error fault => exact ⟨kept, fun b answer => by cases answer⟩

theorem mono {R : α → Prop} (meets : q.Meets P Q) (weaker : ∀ a, Q a → R a) :
    q.Meets P R :=
  fun s keeps => ⟨(meets s keeps).1, fun a answer => weaker a ((meets s keeps).2 a answer)⟩

theorem and {P' : Session → Prop} {Q' : α → Prop} (meets : q.Meets P Q)
    (more : q.Meets P' Q') (weaker : ∀ s, P s → P' s) : q.Meets P fun a => Q a ∧ Q' a := by
  intro s keeps
  obtain ⟨kept, answers⟩ := meets s keeps
  exact ⟨kept, fun a answer => ⟨answers a answer, (more s (weaker s keeps)).2 a answer⟩⟩

theorem ofFault {x : Except Fault α} (holds : ∀ a, x = .ok a → Q a) : (Query.ofFault x).Meets P Q :=
  fun _ keeps => ⟨keeps, holds⟩

theorem ofViolation {x : Except Violation α} (holds : ∀ a, x = .ok a → Q a) :
    (Query.ofViolation x).Meets P Q := by
  refine ofFault ?_
  intro a answer
  cases x with
  | ok b => exact holds a (by rw [Except.ok.inj answer])
  | error v => cases answer

theorem ite {c : Prop} [Decidable c] {q' : Query α} (yes : c → q.Meets P Q)
    (no : ¬c → q'.Meets P Q) : (if c then q else q').Meets P Q := by
  split
  · exact yes ‹_›
  · exact no ‹_›

end Meets

end TypeEngine.Query
