import TypeEngine.Engine.Call
import TypeEngine.Proofs.Engine.Hygiene
import TypeEngine.Proofs.Engine.Ranking

/-!
# Operators declared by the operands

The overloads that the left operand declares for an operator are ranked first, and those of the right
operand only if the left one gives no result at all. Among the overloads of one operand a complete
match wins. `binaryOperator_complete_iff` says what that means for the two operands together: a
partial match of the left one hides a complete match of the right one.
-/

namespace TypeEngine

/-- A declared overload as a candidate, before anything is put in for its generic parameters. -/
def Candidate.declared (scope : Path) (o : Overload) : Candidate := { overload := o, origin := .user, scope }

theorem toList_injective {α : Type} : Function.Injective (Option.toList : Option α → List α) :=
  Function.LeftInverse.injective (g := List.head?) fun _ => Option.head?_toList

namespace Engine

open Query Resolved

variable {e : Engine} {T : Ty → Prop} {ts : Tables} {s s' t t' : Session} {scope : Path}
  {args : List Ty} {o : Overload} {os : List Overload} {out : List Resolved}

theorem rankDeclared_empty (os : List Overload) (scope : Path) (args : List Ty) :
    e.rankDeclared os .empty .user scope args = e.rank (os.map (.declared scope)) args := by
  have taken : e.candidates os .empty .user scope = .ok (os.map (.declared scope)) :=
    List.mapM_pure (m := Except Fault) (f := Candidate.declared scope)
  rw [rankDeclared, taken]
  rfl

/-- What comes of the overload if it is the only one to be ranked. -/
def Alone (e : Engine) (s : Session) (scope : Path) (args : List Ty) (o : Overload)
    (found : Option Resolved) : Prop :=
  ∃ s', (e.rankDeclared [o] .empty .user scope args).run s = (.ok found.toList, s')

namespace Alone

variable {found other : Option Resolved} {r : Resolved}

theorem unique (alone : e.Alone s scope args o found) (again : e.Alone s scope args o other) :
    found = other := by
  obtain ⟨_, run⟩ := alone
  obtain ⟨_, run'⟩ := again
  rw [run] at run'
  exact toList_injective (Except.ok.inj (Prod.mk.inj run').1)

theorem iff_tries : e.Alone s scope args o found ↔
    ∃ trial : Trial, trial.candidate = .declared scope o ∧ trial.before = s ∧
      (∃ after, e.Tries args trial after) ∧ found = trial.resolved? args := by
  have kept : ∀ r? : Option Resolved, r?.toList.foldl keepBest [] = r?.toList := by
    intro r?
    cases r? <;> rfl
  simp only [Alone, rankDeclared_empty, List.map_singleton, rank, rankFrom_cons, run_bind_ok, resolve_run,
    kept, rankFrom, run_pure_ok]
  constructor
  · rintro ⟨_, r?, _, ⟨trial, candidate, before, tries, rfl⟩, same, rfl⟩
    exact ⟨trial, candidate, before, ⟨_, tries⟩, (toList_injective same).symm⟩
  · rintro ⟨trial, candidate, before, ⟨after, tries⟩, rfl⟩
    exact ⟨after, _, after, ⟨trial, candidate, before, tries, rfl⟩, rfl, rfl⟩

theorem complete_iff (alone : e.Alone s scope args o (some r)) :
    r.score ≤ args.length ∧ (r.complete = true ↔ r.score = args.length) := by
  obtain ⟨trial, _, _, ⟨after, tries⟩, found⟩ := iff_tries.mp alone
  obtain ⟨n, score, rfl⟩ := Option.map_eq_some_iff.mp found.symm
  exact ⟨((score_run tries.scored).2 n score).1, decide_eq_true_iff⟩

end Alone

/-- The types that an operator compares are in `T`: the operands, and the parameters of every overload
that one of them declares. -/
structure Operates (e : Engine) (T : Ty → Prop) (ts : Tables) (op : String) (left right : Ty) : Prop where
  operands : ∀ t ∈ [left, right], T t
  params : ∀ owner ∈ [left, right], ∀ o ∈ ts.binaryOperators? owner op,
    (Candidate.declared owner.main o).InferredIn e T [left, right]

section Independence

variable (distinct : Distinguished T) (involved : Involved e ts T) (inside : ∀ a ∈ args, T a)

include distinct involved inside

/-- A trial has the same outcome in every session with the same declarations. -/
theorem Tries.again {trial : Trial} (tries : e.Tries args trial t')
    (params : trial.candidate.InferredIn e T args) (at_ : MemoisedAt e T ts trial.before)
    (here : MemoisedAt e T ts s) :
    MemoisedAt e T ts t' ∧ ∃ after, e.Tries args { trial with before := s } after := by
  have tracks := score_tracks distinct (.same_names e ts T) involved
    (fun t member => (Ty.rename_id t).symm ▸ member)
    (params _ _ tries.inferred tries.applied) inside
  have names : args.map (Ty.rename id) = args := List.map_id'' Ty.rename_id args
  rw [Overload.rename_id, names] at tracks
  obtain ⟨kept, answers⟩ := tracks.meets _ at_
  rw [tries.scored] at kept answers
  obtain ⟨_, after, scored, rfl⟩ := answers _ rfl s here
  exact ⟨kept, after, tries.inferred, tries.applied, scored⟩

/-- In a ranking every overload has the result that it has alone. The induction is on the overloads,
whose trials lead from one session to the next. -/
theorem Tried.alone {trials : List Trial} (tried : Tried e args (os.map (.declared scope)) t trials t')
    (params : ∀ o ∈ os, (Candidate.declared scope o).InferredIn e T args)
    (at_ : MemoisedAt e T ts t) (here : MemoisedAt e T ts s) :
    MemoisedAt e T ts t' ∧
      (∀ trial ∈ trials, ∃ o ∈ os, e.Alone s scope args o (trial.resolved? args)) ∧
      ∀ o ∈ os, ∃ trial ∈ trials, e.Alone s scope args o (trial.resolved? args) := by
  induction os generalizing t trials with
  | nil =>
    cases tried
    exact ⟨at_, by simp, by simp⟩
  | cons o os ih =>
    obtain ⟨first, rest⟩ := List.forall_mem_cons.mp params
    rw [List.map_cons] at tried
    generalize candidate : Candidate.declared scope o = c at tried
    cases tried with
    | @cons trial after _ _ trials tries tried =>
      obtain ⟨kept, last, again⟩ := tries.again distinct involved inside (candidate ▸ first) at_ here
      have alone : e.Alone s scope args o (trial.resolved? args) :=
        Alone.iff_tries.mpr ⟨{ trial with before := s }, candidate.symm, rfl, ⟨last, again⟩, rfl⟩
      obtain ⟨kept, ofOverload, ofTrial⟩ := ih tried rest kept
      refine ⟨kept, List.forall_mem_cons.mpr ⟨⟨o, .head _, alone⟩, ?_⟩,
        List.forall_mem_cons.mpr ⟨⟨trial, .head _, alone⟩, ?_⟩⟩
      · intro trial' listed
        obtain ⟨o', member, alone'⟩ := ofOverload trial' listed
        exact ⟨o', .tail _ member, alone'⟩
      · intro o' member
        obtain ⟨trial', listed, alone'⟩ := ofTrial o' member
        exact ⟨trial', .tail _ listed, alone'⟩

end Independence

/-- The ranking of declared overloads, in terms of what comes of each of them alone. -/
structure Ranked (e : Engine) (s : Session) (scope : Path) (args : List Ty) (os : List Overload)
    (out : List Resolved) : Prop where
  given : ∀ r ∈ out, ∃ o ∈ os, e.Alone s scope args o (some r)
  highest : ∀ o ∈ os, ∀ r, e.Alone s scope args o (some r) → ∀ q ∈ out, r.score ≤ q.score
  none : out = [] → ∀ o ∈ os, e.Alone s scope args o none

theorem Ranked.of_run (distinct : Distinguished T) (involved : Involved e ts T)
    (inside : ∀ a ∈ args, T a) (params : ∀ o ∈ os, (Candidate.declared scope o).InferredIn e T args)
    (here : MemoisedAt e T ts s) (at_ : MemoisedAt e T ts t)
    (done : (e.rankDeclared os .empty .user scope args).run t = (.ok out, t')) :
    MemoisedAt e T ts t' ∧ Ranked e s scope args os out := by
  rw [rankDeclared_empty] at done
  obtain ⟨trials, tried, rfl⟩ := rankFrom_run.mp done
  rw [foldl_keepBest]
  obtain ⟨kept, ofOverload, ofTrial⟩ := tried.alone distinct involved inside params at_ here
  refine ⟨kept, ?_, ?_, ?_⟩
  · intro r leads
    obtain ⟨trial, listed, found⟩ := List.mem_filterMap.mp (mem_leaders.mp leads).1
    obtain ⟨o, member, alone⟩ := ofOverload trial listed
    exact ⟨o, member, found ▸ alone⟩
  · intro o member r alone q leads
    obtain ⟨trial, listed, again⟩ := ofTrial o member
    exact (mem_leaders.mp leads).2 r (List.mem_filterMap.mpr ⟨trial, listed, again.unique alone⟩)
  · intro empty o member
    obtain ⟨trial, listed, alone⟩ := ofTrial o member
    have missing := List.filterMap_eq_nil_iff.mp (leaders_eq_nil.mp empty) trial listed
    exact missing ▸ alone

theorem Ranked.complete (ranked : Ranked e s scope args os out) (member : o ∈ os) {r : Resolved}
    (alone : e.Alone s scope args o (some r)) (complete : r.complete = true) :
    out ≠ [] ∧ ∀ q ∈ out, q.complete = true := by
  constructor
  · intro empty
    cases alone.unique (ranked.none empty o member)
  · intro q leads
    obtain ⟨o', _, alone'⟩ := ranked.given q leads
    have most := alone'.complete_iff
    have least := ranked.highest o member r alone q leads
    rw [alone.complete_iff.2.mp complete] at least
    exact most.2.mpr (le_antisymm most.1 least)

/-- The overloads of the right operand are looked at only if those of the left one give nothing, and
the primitive operators only if neither gives anything. -/
theorem binaryOperator_run {op : String} {left right : Ty}
    (done : (e.binaryOperator op left right).run s = (.ok out, s')) :
    ∃ ofLeft t, (e.rankDeclared (s.tables.binaryOperators? left op) .empty .user left.main
        [left, right]).run s = (.ok ofLeft, t) ∧
      (ofLeft ≠ [] ∧ out = ofLeft ∨ ofLeft = [] ∧
        ∃ ofRight t', (e.rankDeclared (s.tables.binaryOperators? right op) .empty .user right.main
            [left, right]).run t = (.ok ofRight, t') ∧ (ofRight ≠ [] → out = ofRight)) := by
  unfold binaryOperator at done
  obtain ⟨_, _, here, done⟩ := run_bind_ok.mp done
  cases here
  obtain ⟨ofLeft, t, first, done⟩ := run_bind_ok.mp done
  refine ⟨ofLeft, t, first, ?_⟩
  cases ofLeft with
  | cons r more => exact .inl ⟨List.cons_ne_nil r more, (run_pure_ok.mp done).1.symm⟩
  | nil =>
    obtain ⟨ofRight, t', second, done⟩ := run_bind_ok.mp done
    refine .inr ⟨rfl, ofRight, t', second, fun some => ?_⟩
    cases ofRight with
    | cons r more => exact (run_pure_ok.mp done).1.symm
    | nil => exact absurd rfl some

/-- Some overload that the operand `owner` declares for the operator takes both operands. -/
def Matched (e : Engine) (s : Session) (op : String) (left right owner : Ty) : Prop :=
  ∃ o ∈ s.tables.binaryOperators? owner op, ∃ r, e.Alone s owner.main [left, right] o (some r) ∧
    r.complete = true

/-- If an overload of either operand takes both operands when it is ranked alone, the operator exists,
and every result is one that a declared overload has alone. The results are complete exactly when the
left operand has such an overload, or when none of its overloads can be meant at all. -/
theorem binaryOperator_complete_iff {op : String} {left right : Ty} (reached : Reached e T s)
    (distinct : Distinguished T) (involved : Involved e s.tables T)
    (operates : e.Operates T s.tables op left right)
    (done : (e.binaryOperator op left right).run s = (.ok out, s'))
    (matched : e.Matched s op left right left ∨ e.Matched s op left right right) :
    out ≠ [] ∧
    (∀ r ∈ out, ∃ owner ∈ [left, right], ∃ o ∈ s.tables.binaryOperators? owner op,
      e.Alone s owner.main [left, right] o (some r)) ∧
    ((∀ r ∈ out, r.complete = true) ↔ e.Matched s op left right left ∨
      ∀ o ∈ s.tables.binaryOperators? left op, e.Alone s left.main [left, right] o none) := by
  have here : MemoisedAt e T s.tables s := ⟨reached.memoised, .refl _⟩
  obtain ⟨ofLeft, t, first, rest⟩ := binaryOperator_run done
  obtain ⟨kept, ranked⟩ := Ranked.of_run distinct involved operates.operands
    (operates.params left (.head _)) here here first
  rcases rest with ⟨some, rfl⟩ | ⟨rfl, ofRight, t', second, answer⟩
  · refine ⟨some, fun r member => ⟨left, .head _, ranked.given r member⟩, ?_, ?_⟩
    · intro complete
      obtain ⟨r, member⟩ := List.exists_mem_of_ne_nil _ some
      obtain ⟨o, listed, alone⟩ := ranked.given r member
      exact .inl ⟨o, listed, r, alone, complete r member⟩
    · rintro (⟨o, listed, r, alone, complete⟩ | fails)
      · exact (ranked.complete listed alone complete).2
      · obtain ⟨r, member⟩ := List.exists_mem_of_ne_nil _ some
        obtain ⟨o, listed, alone⟩ := ranked.given r member
        cases alone.unique (fails o listed)
  · have fails := ranked.none rfl
    rcases matched with ⟨o, listed, r, alone, complete⟩ | ⟨o, listed, r, alone, complete⟩
    · exact absurd rfl (ranked.complete listed alone complete).1
    · obtain ⟨_, ranked'⟩ := Ranked.of_run distinct involved operates.operands
        (operates.params right (.tail _ (.head _))) here kept second
      obtain ⟨some, all⟩ := ranked'.complete listed alone complete
      obtain rfl := answer some
      exact ⟨some, fun r member => ⟨right, .tail _ (.head _), ranked'.given r member⟩,
        fun _ => .inr fails, fun _ => all⟩

end Engine

/-! ### Two classes that declare sums -/

namespace Plus

def left : Ty := .classNamed "L"

def right : Ty := .classNamed "R"

def operands : List Ty := [left, right]

def overload (ret : Ty) (params : List Ty) : Overload := { ret, params := params.map fun type => { type } }

/-- A session in which the operands declare the given sums. -/
def session (ofLeft ofRight : List Overload) : Session :=
  { tables := (ofLeft.map (Registration.addBinary left "+") ++
      ofRight.map (Registration.addBinary right "+")).foldl .register {} }

/-- The sum of three values of the left class cannot be meant, and of the two sums of the right class
one takes both operands. -/
def declared : Session :=
  session [overload left [left, left, left]] [overload right [right, right], overload right [left, right]]

theorem involved : Involved {} declared.tables (· ∈ operands) := by
  refine .ofClasses ?_ ?_ ?_
  · simp [operands, left, right]
  · intro t member found answer
    rcases List.mem_pair.mp member with rfl | rfl
    · cases answer
      simp
    · cases answer
      simp
  · intro t member
    rcases List.mem_pair.mp member with rfl | rfl
    · rintro edge ⟨⟩
    · rintro edge ⟨⟩

theorem type_mem {ret : Ty} {params : List Ty} {p : Parameter} (member : p ∈ (overload ret params).params) :
    p.type ∈ params := by
  obtain ⟨type, listed, rfl⟩ := List.mem_map.mp member
  exact listed

-- The parameters are classes, so nothing is inferred and they are compared as they are declared.
theorem operates : Engine.Operates {} (· ∈ operands) declared.tables "+" left right where
  operands t member := member
  params owner member o listed s o' inferred applied p inside := by
    rcases List.mem_pair.mp member with rfl | rfl
    · obtain rfl := List.mem_singleton.mp listed
      cases inferred
      cases applied
      exact (show [left, left, left] ⊆ operands by simp [operands]) (type_mem inside)
    · rcases List.mem_pair.mp listed with rfl | rfl
      · cases inferred
        cases applied
        exact (show [right, right] ⊆ operands by simp [operands]) (type_mem inside)
      · cases inferred
        cases applied
        exact type_mem inside

theorem binaryOperator_complete_iff_plus :
    ∃ out s', (Engine.binaryOperator {} "+" left right).run declared = (.ok out, s') ∧
      out ≠ [] ∧ ∀ r ∈ out, r.complete = true := by
  obtain ⟨out, s', done⟩ : ∃ out s',
      (Engine.binaryOperator {} "+" left right).run declared = (.ok out, s') := ⟨_, _, rfl⟩
  have matched : Engine.Matched {} declared "+" left right right :=
    ⟨_, .tail _ (.head _), _, ⟨_, rfl⟩, rfl⟩
  have fails : ∀ o ∈ declared.tables.binaryOperators? left "+",
      Engine.Alone {} declared left.main [left, right] o none := by
    intro o listed
    obtain rfl := List.mem_singleton.mp listed
    exact ⟨_, rfl⟩
  obtain ⟨some, _, complete⟩ := Engine.binaryOperator_complete_iff (.registered {} _ _) (.ofList (by decide))
    involved operates done (.inr matched)
  exact ⟨out, s', done, some, complete.mpr (.inr fails)⟩

/-- The left class declares a sum of two of its own values, the right class one of both operands. -/
def rivals : Session := session [overload left [left, left]] [overload right [left, right]]

/-- The sum of the left class takes only the first operand, and still it is the answer. -/
theorem binaryOperator_hides :
    Engine.Matched {} rivals "+" left right right ∧
    ∃ r s', (Engine.binaryOperator {} "+" left right).run rivals = (.ok [r], s') ∧
      r.overload.params.map Parameter.type = [left, left] ∧ r.score = 1 ∧ r.complete = false :=
  ⟨⟨_, .head _, _, ⟨_, rfl⟩, rfl⟩, _, _, rfl, rfl, rfl, rfl⟩

end Plus

end TypeEngine
