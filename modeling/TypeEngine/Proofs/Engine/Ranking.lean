import Mathlib.Data.List.MinMax
import TypeEngine.Engine.Ranking
import TypeEngine.Proofs.Engine.Query

/-!
# The overloads that a ranking keeps

A ranking tries the candidates one after the other, each in the session that the ones before it
left. `Trial` records what came of one candidate, `Tried` strings the trials together. The ranking
answers with the trials of the highest score, in the order of the candidates.
-/

namespace TypeEngine

/-- The parameter that the argument at position `i` meets. A variadic parameter at the end meets all
further arguments. -/
def Overload.taker? (params : List Parameter) (i : Nat) : Option Parameter :=
  params[i]?.or (params.getLast?.filter (·.flags.variadic))

theorem Overload.getElem?_expand (o : Overload) {n i : Nat} (inside : i < n) :
    (o.expand n)[i]? = (taker? o.params i).map Parameter.type := by
  have declared : ((o.params.map Parameter.type).take n)[i]? = o.params[i]?.map Parameter.type := by
    rw [List.getElem?_take_of_lt inside, List.getElem?_map]
  unfold expand taker?
  cases last : o.params.getLast? with
  | none => simpa using declared
  | some p =>
    dsimp only
    split
    · rename_i variadic
      rw [Option.filter_some, if_pos variadic, List.getElem?_append, declared]
      simp only [List.length_take, List.length_map, List.getElem?_replicate]
      by_cases known : i < o.params.length
      · rw [if_pos (by omega), List.getElem?_eq_getElem known, Option.some_or]
      · rw [if_neg (by omega), if_pos (by omega), List.getElem?_eq_none (by omega), Option.none_or]
        rfl
    · rename_i fixed
      rw [Option.filter_some, if_neg fixed, Option.or_none, declared]

theorem Overload.taker?_of_length_le {params : List Parameter} {i : Nat} (beyond : params.length ≤ i)
    (fixed : Overload.isVariadic { ret := .zero, params } = false) : taker? params i = none := by
  rw [taker?, List.getElem?_eq_none beyond, Option.none_or, Option.filter_eq_none_iff]
  intro p last variadic
  simp [isVariadic, last, variadic] at fixed

/-- The results with the highest score, in order. -/
def Resolved.leaders (results : List Resolved) : List Resolved :=
  results.filter fun r => results.all (·.score ≤ r.score)

namespace Resolved

theorem mem_leaders {results : List Resolved} {r : Resolved} :
    r ∈ leaders results ↔ r ∈ results ∧ ∀ q ∈ results, q.score ≤ r.score := by
  simp [leaders]

theorem leaders_eq_nil {results : List Resolved} : leaders results = [] ↔ results = [] := by
  constructor
  · intro empty
    cases best : results.argmax Resolved.score with
    | none => exact List.argmax_eq_none.mp best
    | some b =>
      have leads : b ∈ leaders results :=
        mem_leaders.mpr ⟨List.argmax_mem best, fun q member => List.le_of_mem_argmax member best⟩
      rw [empty] at leads
      exact absurd leads List.not_mem_nil
  · rintro rfl
    rfl

end Resolved

namespace Engine

open Resolved

variable {params : List Parameter} {i : Nat} {args : List Ty}

theorem keepBest_leaders (results : List Resolved) (r : Resolved) :
    keepBest (leaders results) r = leaders (results ++ [r]) := by
  have parts : leaders (results ++ [r]) =
      (results.filter fun q => results.all (·.score ≤ q.score) && decide (r.score ≤ q.score)) ++
        if ∀ q ∈ results, q.score ≤ r.score then [r] else [] := by
    simp [leaders, List.filter_append, List.filter_cons, List.all_append]
  cases ahead : leaders results with
  | nil =>
    rw [parts, leaders_eq_nil.mp ahead]
    rfl
  | cons b others =>
    obtain ⟨listed, highest⟩ := mem_leaders.mp (ahead ▸ List.mem_cons_self : b ∈ leaders results)
    rw [parts, keepBest]
    by_cases overtakes : b.score < r.score
    · have behind : ∀ q ∈ results, q.score < r.score := fun q member =>
        (highest q member).trans_lt overtakes
      rw [if_pos overtakes, if_pos fun q member => (behind q member).le, List.filter_eq_nil_iff.mpr]
      · rfl
      · intro q member
        simp [behind q member]
    · have unchanged : (results.filter fun q =>
          results.all (·.score ≤ q.score) && decide (r.score ≤ q.score)) = b :: others := by
        rw [← ahead, leaders]
        refine List.filter_congr fun q member => ?_
        have level : (∀ p ∈ results, p.score ≤ q.score) → r.score ≤ q.score := fun top =>
          (Nat.le_of_not_lt overtakes).trans (top b listed)
        simpa using level
      rw [if_neg overtakes, unchanged]
      by_cases joins : r.score = b.score
      · rw [if_pos joins, if_pos fun q member => joins ▸ highest q member]
      · rw [if_neg joins, if_neg, List.append_nil]
        intro ahead
        have := ahead b listed
        omega

theorem foldl_keepBest (results : List Resolved) : results.foldl keepBest [] = leaders results := by
  induction results using List.reverseRecOn with
  | nil => rfl
  | append_singleton results r ih => rw [List.foldl_append, ih, List.foldl_cons, keepBest_leaders]; rfl

variable {e : Engine} {s s' : Session}

/-- The parameter takes the argument, and the check leads from one session to the other. -/
inductive Accepts (e : Engine) (param arg : Ty) : Session → Session → Prop
  | generic {s : Session} (generic : param.isParam = true) : Accepts e param arg s s
  | fits {s s' : Session} {c : Compatibility} (plain : param.isParam = false)
      (compared : (e.compatible arg param).run s = (.ok c, s')) (ok : c.ok = true)
      (lossless : c.warning = false) : Accepts e param arg s s'

theorem accepts_iff {param arg : Ty} :
    (e.accepts param arg).run s = (.ok true, s') ↔ Accepts e param arg s s' := by
  unfold accepts
  split
  · rename_i generic
    rw [Query.run_pure_ok]
    constructor
    · rintro ⟨-, rfl⟩
      exact .generic generic
    · intro accepted
      cases accepted with
      | generic => exact ⟨rfl, rfl⟩
      | fits plain => exact absurd generic (by simp [plain])
  · rename_i plain
    rw [Query.run_bind_ok]
    constructor
    · rintro ⟨c, t, compared, answer⟩
      rw [Query.run_pure_ok, Bool.and_eq_true, Bool.not_eq_true'] at answer
      obtain ⟨answer, rfl⟩ := answer
      exact .fits (Bool.eq_false_iff.mpr plain) compared answer.1 answer.2
    · intro accepted
      cases accepted with
      | generic generic => exact absurd generic plain
      | fits _ compared ok lossless =>
        exact ⟨_, _, compared, Query.run_pure_ok.mpr ⟨by rw [ok, lossless]; rfl, rfl⟩⟩

/-- The arguments, of which the first one stands at position `i`, are taken one after the other by
the parameters that they meet. -/
inductive Takes (e : Engine) (params : List Parameter) : Nat → List Ty → Session → Session → Prop
  | nil {i : Nat} {s : Session} : Takes e params i [] s s
  | cons {i : Nat} {p : Parameter} {arg : Ty} {args : List Ty} {s t s' : Session}
      (met : Overload.taker? params i = some p) (accepted : Accepts e p.type arg s t)
      (rest : Takes e params (i + 1) args t s') : Takes e params i (arg :: args) s s'

theorem takes_cons {p : Parameter} {arg : Ty} (met : Overload.taker? params i = some p) :
    Takes e params i (arg :: args) s s' ↔
      ∃ t, Accepts e p.type arg s t ∧ Takes e params (i + 1) args t s' := by
  constructor
  · intro takes
    cases takes with
    | cons met' accepted rest =>
      obtain rfl := Option.some.inj (met.symm.trans met')
      exact ⟨_, accepted, rest⟩
  · rintro ⟨t, accepted, rest⟩
    exact .cons met accepted rest

theorem Takes.taker?_ne_none
    (takes : Takes e params i args s s') {j : Nat} (inside : j < args.length) :
    Overload.taker? params (i + j) ≠ none := by
  induction takes generalizing j with
  | nil => exact absurd inside (Nat.not_lt_zero j)
  | @cons i p arg args s t s' met _ _ ih =>
    cases j with
    | zero =>
      rw [Nat.add_zero, met]
      exact Option.some_ne_none p
    | succ j =>
      rw [Nat.add_comm j 1, ← Nat.add_assoc]
      exact ih (Nat.lt_of_succ_lt_succ inside)

/-- The count of the leading arguments reaches all of them exactly when the parameters take them.
The induction is on the arguments that are left, with the position of the first one. -/
theorem leading_run (o : Overload) {n : Nat}
    (done : (e.leading (((o.expand (i + args.length)).drop i).zip args)).run s = (.ok n, s')) :
    n ≤ args.length ∧ (n = args.length ↔ ∃ t, Takes e o.params i args s t) := by
  induction args generalizing i s n s' with
  | nil =>
    rw [List.zip_nil_right, leading] at done
    obtain ⟨rfl, -⟩ := Query.run_pure_ok.mp done
    exact ⟨le_rfl, fun _ => ⟨s, .nil⟩, fun _ => rfl⟩
  | cons arg args ih =>
    have declared := o.getElem?_expand (show i < i + (arg :: args).length by simp)
    cases met : Overload.taker? o.params i with
    | none =>
      -- A surplus argument ends the count, and no parameter takes it.
      rw [met, Option.map_none, List.getElem?_eq_none_iff] at declared
      rw [List.drop_eq_nil_of_le declared, List.zip_nil_left, leading] at done
      obtain ⟨rfl, -⟩ := Query.run_pure_ok.mp done
      refine ⟨Nat.zero_le _, fun none => absurd none (Nat.succ_ne_zero _).symm, ?_⟩
      rintro ⟨t, takes⟩
      exact absurd met (takes.taker?_ne_none (j := 0) (Nat.succ_pos _))
    | some p =>
      rw [met, Option.map_some, List.getElem?_eq_some_iff] at declared
      obtain ⟨inside, type⟩ := declared
      rw [List.drop_eq_getElem_cons inside, type, List.zip_cons_cons, leading, Query.run_bind_ok] at done
      obtain ⟨accepted, t, answer, done⟩ := done
      have agree : ∀ t', Accepts e p.type arg s t' → accepted = true ∧ t' = t := by
        intro t' accepts
        rw [accepts_iff.mpr accepts] at answer
        cases answer
        exact ⟨rfl, rfl⟩
      cases accepted with
      | false =>
        obtain ⟨rfl, -⟩ := Query.run_pure_ok.mp done
        refine ⟨Nat.zero_le _, fun none => absurd none (Nat.succ_ne_zero _).symm, ?_⟩
        rintro ⟨last, takes⟩
        obtain ⟨t', accepts, -⟩ := (takes_cons met).mp takes
        exact absurd (agree t' accepts).1 Bool.false_ne_true
      | true =>
        rw [if_pos rfl, Query.run_bind_ok] at done
        obtain ⟨m, t', rest, done⟩ := done
        obtain ⟨rfl, -⟩ := Query.run_pure_ok.mp done
        rw [List.length_cons, Nat.add_comm args.length, ← Nat.add_assoc] at rest
        obtain ⟨bound, all⟩ := ih rest
        refine ⟨Nat.succ_le_succ bound, ?_⟩
        rw [List.length_cons, Nat.add_right_cancel_iff, all]
        constructor
        · rintro ⟨last, takes⟩
          exact ⟨last, .cons met (accepts_iff.mp answer) takes⟩
        · rintro ⟨last, takes⟩
          obtain ⟨t', accepts, takes⟩ := (takes_cons met).mp takes
          obtain ⟨-, rfl⟩ := agree t' accepts
          exact ⟨last, takes⟩

theorem score_run {score? : Option Nat} (done : (e.score params args).run s = (.ok score?, s')) :
    (score? = none ↔ ∃ p ∈ params.drop args.length, canOmit p = false) ∧
      ∀ n, score? = some n → n ≤ args.length ∧
        (n = args.length ↔ ∃ t, Takes e params 0 args s t) := by
  unfold score at done
  dsimp only at done
  split at done
  · rename_i surplus
    rw [Bool.and_eq_true, decide_eq_true_iff, Bool.not_eq_true'] at surplus
    obtain ⟨rfl, -⟩ := Query.run_pure_ok.mp done
    refine ⟨by simp [List.drop_eq_nil_of_le surplus.1.le], ?_⟩
    rintro n ⟨⟩
    refine ⟨Nat.zero_le _, fun none => absurd surplus.1 (by omega), ?_⟩
    rintro ⟨t, takes⟩
    have met := takes.taker?_ne_none surplus.1
    rw [Nat.zero_add, Overload.taker?_of_length_le le_rfl surplus.2] at met
    exact absurd rfl met
  · split at done
    · rename_i missing
      obtain ⟨rfl, -⟩ := Query.run_pure_ok.mp done
      refine ⟨⟨fun _ => by simpa using missing, fun _ => rfl⟩, ?_⟩
      rintro n ⟨⟩
    · rename_i filled
      rw [Query.run_bind_ok] at done
      obtain ⟨n, t, counted, done⟩ := done
      obtain ⟨rfl, -⟩ := Query.run_pure_ok.mp done
      rw [← Nat.zero_add args.length, ← List.drop_zero (l := Overload.expand _ _)] at counted
      refine ⟨by simpa using filled, ?_⟩
      rintro _ ⟨⟩
      exact leading_run _ counted

end Engine

/-- What came of one candidate: the types found for its generic parameters, its overload under them
and the score of that, in the session that the candidates before it left. -/
structure Trial where
  candidate : Candidate
  patterns : Subst
  overload : Overload
  score? : Option Nat
  before : Session

/-- The result of a trial; none if a required parameter is left without an argument. -/
def Trial.resolved? (args : List Ty) (t : Trial) : Option Resolved :=
  t.score?.map fun score =>
    { overload := t.overload
      score
      complete := score = args.length
      origin := t.candidate.origin
      scope := t.candidate.scope
      native? := t.candidate.native?
      patterns? := some t.patterns }

namespace Engine

open Resolved

variable {e : Engine} {s s' : Session} {args : List Ty} {cands : List Candidate} {trials : List Trial}

/-- The trial is what inference, substitution and scoring answer for its candidate. -/
structure Tries (e : Engine) (args : List Ty) (t : Trial) (after : Session) : Prop where
  inferred : Inference.patterns (t.candidate.overload.expand args.length) args e.maxDepth = .ok t.patterns
  applied : t.candidate.overload.apply t.patterns e.maxDepth = .ok t.overload
  scored : (e.score t.overload.params args).run t.before = (.ok t.score?, after)

/-- The trials of the candidates in order, each in the session that the one before it left. -/
inductive Tried (e : Engine) (args : List Ty) :
    List Candidate → Session → List Trial → Session → Prop
  | nil {s : Session} : Tried e args [] s [] s
  | cons {t : Trial} {after last : Session} {cands : List Candidate} {trials : List Trial}
      (tries : e.Tries args t after) (rest : Tried e args cands after trials last) :
      Tried e args (t.candidate :: cands) t.before (t :: trials) last

theorem resolve_run {c : Candidate} {r? : Option Resolved} :
    (e.resolve args c).run s = (.ok r?, s') ↔
      ∃ t : Trial, t.candidate = c ∧ t.before = s ∧ e.Tries args t s' ∧ r? = t.resolved? args := by
  simp only [resolve, Query.run_bind_ok, Query.run_ofFault_ok, Query.run_pure_ok]
  constructor
  · rintro ⟨patterns, _, ⟨inferred, rfl⟩, overload, _, ⟨applied, rfl⟩, score?, _, scored, rfl, rfl⟩
    exact ⟨⟨c, patterns, overload, score?, s⟩, rfl, rfl, ⟨inferred, applied, scored⟩, rfl⟩
  · rintro ⟨t, rfl, rfl, tries, rfl⟩
    exact ⟨_, _, ⟨tries.inferred, rfl⟩, _, _, ⟨tries.applied, rfl⟩, _, _, tries.scored, rfl, rfl⟩

theorem rankFrom_cons (c : Candidate) (best : List Resolved) :
    e.rankFrom args (c :: cands) best =
      e.resolve args c >>= fun r? => e.rankFrom args cands (r?.toList.foldl keepBest best) := by
  rw [rankFrom]
  refine bind_congr fun r? => ?_
  cases r? <;> rfl

theorem filterMap_resolved (t : Trial) (trials : List Trial) :
    (t :: trials).filterMap (Trial.resolved? args) =
      (t.resolved? args).toList ++ trials.filterMap (Trial.resolved? args) := by
  cases found : t.resolved? args <;> simp [found]

/-- The ranking goes through exactly when every trial does, and it folds their results. -/
theorem rankFrom_run {best out : List Resolved} :
    (e.rankFrom args cands best).run s = (.ok out, s') ↔
      ∃ trials, Tried e args cands s trials s' ∧
        out = (trials.filterMap (Trial.resolved? args)).foldl keepBest best := by
  induction cands generalizing s best with
  | nil =>
    rw [rankFrom, Query.run_pure_ok]
    constructor
    · rintro ⟨rfl, rfl⟩
      exact ⟨[], .nil, rfl⟩
    · rintro ⟨trials, tried, rfl⟩
      cases tried
      exact ⟨rfl, rfl⟩
  | cons c cands ih =>
    simp only [rankFrom_cons, Query.run_bind_ok, ih]
    constructor
    · rintro ⟨r?, after, resolved, trials, tried, rfl⟩
      obtain ⟨t, rfl, rfl, tries, rfl⟩ := resolve_run.mp resolved
      exact ⟨t :: trials, .cons tries tried, by rw [filterMap_resolved, List.foldl_append]⟩
    · rintro ⟨trials, tried, rfl⟩
      cases tried with
      | @cons t after _ _ trials tries rest =>
        refine ⟨t.resolved? args, after, resolve_run.mpr ⟨t, rfl, rfl, tries, rfl⟩, trials, rest, ?_⟩
        rw [filterMap_resolved, List.foldl_append]

theorem Tried.scored (tried : Tried e args cands s trials s') {t : Trial} (member : t ∈ trials) :
    ∃ after, (e.score t.overload.params args).run t.before = (.ok t.score?, after) := by
  induction tried with
  | nil => exact absurd member List.not_mem_nil
  | cons tries _ ih =>
    rcases List.mem_cons.mp member with rfl | member
    · exact ⟨_, tries.scored⟩
    · exact ih member

/-- Candidates for a call with a number and a text. The first one has too few parameters, the second
one requires too many, the third one takes the text with its variadic parameter, the fourth one takes
only the number, and the last one is generic with a parameter that may be left out. -/
def rivals : List Candidate :=
  [[{ type := .int }], [{ type := .int }, { type := .string }, { type := .bool }],
    [{ type := .int }, { type := .string, flags := { variadic := true } }],
    [{ type := .int }, { type := .bool }],
    [{ type := .param "T" }, { type := .string }, { type := .bool, flags := { optional := true } }]].map
    fun params => { overload := { ret := .int, params }, origin := .builtin, scope := .ofPrimitive "int" }

end Engine

end TypeEngine
