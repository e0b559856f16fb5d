import TypeEngine.Proofs.Engine.Lockstep

/-!
# Answers and the questions before them

Questions leave memoised answers behind. `compatible_independent` says that among types that their
keys tell apart, an answer is the same, up to equality of the types in it, whatever was asked before.
`compatible_misled` is an answer that changes because two different types have the same key.
-/

namespace TypeEngine

/-- A question of compatibility, or for a way of conversion. -/
inductive Question where
  | compatible (src dst : Ty)
  | reach (src dst : Ty)

namespace Question

/-- The types that the question is about. -/
def types : Question → List Ty
  | compatible src dst => [src, dst]
  | reach src dst => [src, dst]

/-- The session after a question, be it answered or not. -/
def ask (e : Engine) (s : Session) : Question → Session
  | compatible src dst => ((e.compatible src dst).run s).2
  | reach src dst => ((Engine.reach src dst).run s).2

end Question

/-- The outcome as equality of types sees it. -/
def bareOutcome (outcome : Except Fault Compatibility) : Except Fault Compatibility :=
  (outcome.map Compatibility.bare).mapError Fault.bare

variable {e : Engine} {ts : Tables} {T : Ty → Prop} {src dst : Ty} {s s' : Session}

namespace Engine

/-- In sessions with right memoised answers for the same tables, the outcomes are the same. -/
theorem compatible_outcome (distinct : Distinguished T) (involved : Involved e ts T) (source : T src)
    (target : T dst) (at_ : MemoisedAt e T ts s) (at_' : MemoisedAt e T ts s') :
    bareOutcome ((e.compatible src dst).run s).1 = bareOutcome ((e.compatible src dst).run s').1 := by
  have follows := compatible_tracks distinct (.same_names e ts T) involved (.refl source) (.refl target)
    s s' at_ at_'
  generalize (e.compatible src dst).run s = left at follows ⊢
  generalize (e.compatible src dst).run s' = right at follows ⊢
  cases follows with
  | answer same _ _ => exact congrArg Except.ok same.bare
  | fault same _ => exact congrArg Except.error same.bare
  | spared one _ => exact absurd trivial one

end Engine

theorem Question.ask_memoisedAt (distinct : Distinguished T) (involved : Involved e ts T)
    (q : Question) (inside : ∀ t ∈ q.types, T t) (at_ : MemoisedAt e T ts s) :
    MemoisedAt e T ts (q.ask e s) := by
  cases q with
  | compatible src dst =>
    have tracks := Engine.compatible_tracks distinct (.same_names e ts T) involved
      (.refl (inside src (by simp [types]))) (.refl (inside dst (by simp [types])))
    exact tracks.keeps at_ at_
  | reach src dst =>
    obtain ⟨memo, agrees, _⟩ := at_.memo.reach (inside src (by simp [types]))
      (inside dst (by simp [types]))
    exact ⟨memo, at_.agrees.trans agrees⟩

theorem Question.asked_memoisedAt (distinct : Distinguished T) (involved : Involved e ts T)
    {qs : List Question} (inside : ∀ q ∈ qs, ∀ t ∈ q.types, T t) (at_ : MemoisedAt e T ts s) :
    MemoisedAt e T ts (qs.foldl (Question.ask e) s) := by
  induction qs generalizing s with
  | nil => exact at_
  | cons q qs ih =>
    rw [List.forall_mem_cons] at inside
    exact ih inside.2 (q.ask_memoisedAt distinct involved inside.1 at_)

/-- Whatever was asked before, the outcome is the one of a session in which nothing was asked. -/
theorem Engine.compatible_independent {qs : List Question} (distinct : Distinguished T)
    (involved : Involved e ts T) (blank : ts.closure = [])
    (inside : ∀ q ∈ qs, ∀ t ∈ q.types, T t) (source : T src) (target : T dst) :
    bareOutcome ((e.compatible src dst).run (qs.foldl (Question.ask e) { tables := ts })).1 =
      bareOutcome ((e.compatible src dst).run { tables := ts }).1 := by
  have start := MemoisedAt.start e T blank
  exact compatible_outcome distinct involved source target
    (Question.asked_memoisedAt distinct involved inside start) start

/-- After the way from `B` to `C` is memoised, `A` reaches `C` over its base as before. -/
theorem compatible_independent_upcast :
    bareOutcome ((Engine.compatible {} (.classNamed "A") (.classNamed "C")).run
      ([Question.reach (.classNamed "B") (.classNamed "C"),
        .compatible (.classNamed "A") (.classNamed "B")].foldl (Question.ask {})
          { tables := lossyBase })).1 =
    .ok { ok := true, warning := true,
          adapter := [.upcast (.classNamed "B"), .cast (.classNamed "C")] } := by
  rw [Engine.compatible_independent classes_distinct lossyBase_involved rfl (by simp [Question.types])
    (by simp) (by simp)]
  rfl

/-- `Box[A]`, for the class `A` or for the structure `A`: the keys are the same. -/
def Ty.boxOf (kind : Kind) : Ty :=
  .mk ⟨[{ kind := .classType, name := "Box" }]⟩ [.type "1" (.mk ⟨[{ kind, name := "A" }]⟩ [])]

/-- A conversion from `C` to the box of the class `A`. -/
def boxing : Tables := Tables.addConversion {} (.classNamed "C") (.boxOf .classType) false

/-- The box of the structure takes a `C` once the box of the class was asked for. -/
theorem compatible_misled :
    (Ty.boxOf .classType == Ty.boxOf .structType) = false ∧
    ((Engine.compatible {} (.classNamed "C") (.boxOf .structType)).run { tables := boxing }).1 =
      .ok .rejected ∧
    ((Engine.compatible {} (.classNamed "C") (.boxOf .structType)).run
      ([Question.compatible (.classNamed "C") (.boxOf .classType)].foldl (Question.ask {})
        { tables := boxing })).1 =
      .ok (.adapted [.convert (.boxOf .classType)]) := by
  refine ⟨by decide, rfl, rfl⟩

end TypeEngine
