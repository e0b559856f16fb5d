import TypeEngine.Proofs.Engine.Conversion
import TypeEngine.Proofs.Engine.Fit

/-!
# Warnings and lossy steps

The warning of an answer comes from the search for a way, the steps of its adapter from the edges
on that way. `compatible_warning` says that the two agree: an answer without a warning has no lossy
step at any depth, and one with a warning has a lossy step, unless it compares functions.
-/

namespace TypeEngine

/-- Reading text and casting may lose information. -/
def AdapterStep.isLossy : AdapterStep → Bool
  | .parse _ | .cast _ => true
  | _ => false

namespace Adapter

/-- The step is one of the adapter, or of an adapter inside one of its steps. -/
inductive Occurs (step : AdapterStep) : Adapter → Prop where
  | here {adapter : Adapter} : step ∈ adapter → Occurs step adapter
  | inside {adapter component : Adapter} {outer : AdapterStep} {components : List Adapter} :
      outer ∈ adapter → outer.components? = some components → component ∈ components →
      Occurs step component → Occurs step adapter

/-- No step is lossy, at any depth. -/
def Exact (adapter : Adapter) : Prop := ∀ step, Occurs step adapter → step.isLossy = false

theorem exact_iff {adapter : Adapter} :
    Exact adapter ↔ ∀ step ∈ adapter, step.isLossy = false ∧
      ∀ components, step.components? = some components → ∀ a ∈ components, Exact a := by
  constructor
  · intro exact step member
    refine ⟨exact step (.here member), ?_⟩
    intro components parts a part inner occurs
    exact exact inner (.inside member parts part occurs)
  · intro steps step occurs
    cases occurs with
    | here member => exact (steps step member).1
    | inside member parts part occurs => exact (steps _ member).2 _ parts _ part step occurs

@[simp]
theorem exact_nil : Exact [] := exact_iff.mpr (by simp)

@[simp]
theorem exact_append {a b : Adapter} : Exact (a ++ b) ↔ Exact a ∧ Exact b := by
  rw [exact_iff, List.forall_mem_append, ← exact_iff, ← exact_iff]

theorem exact_cons {step : AdapterStep} {adapter : Adapter} (first : Exact [step])
    (rest : Exact adapter) : Exact (step :: adapter) :=
  exact_append.mpr ⟨first, rest⟩

theorem exact_plain {step : AdapterStep} (kept : step.isLossy = false)
    (plain : step.components? = none) : Exact [step] := by
  rw [exact_iff]
  simp [kept, plain]

theorem exact_tuple {target : Ty} {components : List Adapter} (exact : ∀ a ∈ components, Exact a) :
    Exact [.tuple target components] := by
  rw [exact_iff]
  simpa [AdapterStep.isLossy, AdapterStep.components?] using exact

theorem exact_eachLeaf {depth : Int} {leaf : Adapter} (exact : Exact leaf) :
    Exact (Engine.eachLeaf depth leaf) := by
  unfold Engine.eachLeaf
  split
  · exact exact
  · rw [exact_iff]
    simpa [AdapterStep.isLossy, AdapterStep.components?] using exact

end Adapter

/-! ### The steps of a way -/

variable {e : Engine} {ts : Tables} {T : Ty → Prop} {src dst : Ty}

theorem Tables.edgeWarning_eq_false {t : Ty} : ts.edgeWarning src t = false ↔
    ∃ edge ∈ ts.conversionEdges src, (edge.dest == t) = true ∧ edge.warning = false := by
  simp [edgeWarning, List.all_eq_false]

namespace Engine

theorem conversionSteps_exact {path : List Ty} {t : Ty} (route : Route ts false src path t) :
    Adapter.Exact (conversionSteps ts src path) := by
  induction route with
  | nil t => exact Adapter.exact_nil
  | @cons src dst path edge member allowed rest ih =>
    have kept : edge.warning = false := by
      cases warns : edge.warning with
      | false => rfl
      | true => exact absurd (allowed warns) Bool.false_ne_true
    have converts : ts.edgeWarning src edge.dest = false :=
      Tables.edgeWarning_eq_false.mpr ⟨edge, member, Ty.beq_rfl _, kept⟩
    rw [conversionSteps, converts]
    exact Adapter.exact_cons (Adapter.exact_plain rfl rfl) ih

/-- A way whose steps all convert can be gone over edges that do not warn. -/
theorem exact_route (distinct : Distinguished T)
    (onward : ∀ t, T t → ∀ edge ∈ ts.conversionEdges t, T edge.dest) {path : List Ty} {t : Ty}
    (route : Route ts true src path t) (source : T src)
    (converts : ∀ step ∈ conversionSteps ts src path, step.isLossy = false) {src' : Ty}
    (source' : T src') (same : (src == src') = true) :
    ∃ path' t', Route ts false src' path' t' ∧ (t' == t) = true := by
  induction route generalizing src' with
  | nil t => exact ⟨[], src', .nil _, Ty.beq_symm same⟩
  | @cons src dst path edge member _ rest ih =>
    rw [conversionSteps, List.forall_mem_cons] at converts
    have kept : ts.edgeWarning src edge.dest = false := by
      by_contra warns
      have first := converts.1
      rw [Bool.not_eq_false] at warns
      rw [warns] at first
      split at first <;> [skip; split at first] <;> simp_all [AdapterStep.isLossy]
    obtain ⟨free, member', arrives, quiet⟩ := Tables.edgeWarning_eq_false.mp kept
    have between := onward src source edge member
    have between' := onward src source free member'
    obtain ⟨path', t', route', ends⟩ := ih between converts.2 between' (Ty.beq_symm arrives)
    rw [distinct.edges_eq ts source source' same] at member'
    exact ⟨_, t', .cons member' (fun warns => by rw [quiet] at warns; cases warns) route', ends⟩

/-- A way found warns exactly if one of its steps is lossy. -/
theorem conversionSteps_warning (distinct : Distinguished T)
    (onward : ∀ t, T t → ∀ edge ∈ ts.conversionEdges t, T edge.dest) (source : T src)
    {r : Reachability} (shortest : Shortest ts src dst r) (found : r.found = true) :
    (r.warning = false → Adapter.Exact (conversionSteps ts src r.path)) ∧
      (r.warning = true → ∃ step ∈ conversionSteps ts src r.path, step.isLossy = true) := by
  constructor
  · intro quiet
    obtain ⟨path, leads⟩ := (shortest.warning_iff found).mp quiet
    obtain ⟨t, route, _⟩ := (shortest.exact_least path leads).1
    exact conversionSteps_exact route
  · intro warns
    by_contra none
    have converts : ∀ step ∈ conversionSteps ts src r.path, step.isLossy = false := by
      simpa using none
    obtain ⟨t, route, arrives⟩ := shortest.leads found
    obtain ⟨path, t', route', ends⟩ :=
      exact_route distinct onward route source converts source (Ty.beq_rfl src)
    have quiet := (shortest.warning_iff found).mpr ⟨path, t', route', Ty.beq_trans ends arrives⟩
    rw [quiet] at warns
    cases warns

end Engine

theorem exists_mem_zip {α β : Type} {l : List α} {m : List β} (count : m.length = l.length) {b : β}
    (member : b ∈ m) : ∃ x ∈ l.zip m, x.2 = b := by
  rw [← List.map_snd_zip (Nat.le_of_eq count)] at member
  exact List.mem_map.mp member

/-- The warning says whether the adapter is lossy, whatever the reason for the answer. -/
theorem Fits.warning_iff (distinct : Distinguished T)
    (onward : ∀ t, T t → ∀ edge ∈ ts.conversionEdges t, T edge.dest) {climbs warning : Bool}
    {adapter : Adapter} (fits : Fits e ts T climbs src dst warning adapter) :
    (warning = false → adapter.Exact) ∧
      (warning = true → dst.isFunc = false → ∃ step ∈ adapter, step.isLossy = true) := by
  induction fits with
  | equal | null | anything | anyList => exact ⟨fun _ => Adapter.exact_nil, fun warns => by cases warns⟩
  | anyElement | text | stringify =>
    exact ⟨fun _ => Adapter.exact_plain rfl rfl, fun warns => by cases warns⟩
  | @tuple _ src dst sources targets adapters _ _ _ _ same count _ ih =>
    refine ⟨fun _ => ?_, fun warns => by cases warns⟩
    split
    · exact Adapter.exact_nil
    · refine Adapter.exact_tuple fun a member => ?_
      have count : adapters.length = (sources.zip targets).length := by simp [same, count]
      obtain ⟨x, inside, rfl⟩ := exists_mem_zip count member
      exact (ih x inside).1 rfl
  | elements _ _ _ _ _ count _ ih =>
    refine ⟨fun _ => Adapter.exact_tuple fun a member => ?_, fun warns => by cases warns⟩
    obtain ⟨x, inside, rfl⟩ := exists_mem_zip count member
    exact (ih x inside).1 rfl
  | layers _ _ _ _ _ ih =>
    refine ⟨fun _ => ?_, fun warns => by cases warns⟩
    rw [Adapter.exact_append]
    refine ⟨Adapter.exact_eachLeaf (ih.1 rfl), ?_⟩
    split
    · exact Adapter.exact_plain rfl rfl
    · exact Adapter.exact_nil
  | function _ target _ _ _ _ _ _ =>
    refine ⟨fun _ => Adapter.exact_nil, fun _ other => ?_⟩
    rw [target] at other
    cases other
  | upcast _ _ ih =>
    refine ⟨fun quiet => Adapter.exact_cons (Adapter.exact_plain rfl rfl) (ih.1 quiet), ?_⟩
    intro warns other
    obtain ⟨step, member, lossy⟩ := ih.2 warns other
    exact ⟨step, List.mem_cons_of_mem _ member, lossy⟩
  | conversion source target different way found =>
    have steps := Engine.conversionSteps_warning distinct onward source
      (way.shortest distinct onward source target different) found
    exact ⟨steps.1, fun warns _ => steps.2 warns⟩

/-- In every reached session an answer that a value fits warns exactly if its adapter is lossy:
without a warning no step is lossy at any depth, with one a step of the adapter is. Only answers
about functions can warn without an adapter. -/
theorem Engine.compatible_warning {s s' : Session} {c : Compatibility} (reached : Reached e T s)
    (involved : Involved e s.tables T) (distinct : Distinguished T) (source : T src)
    (target : T dst) (answer : (e.compatible src dst).run s = (.ok c, s')) (ok : c.ok = true) :
    (c.warning = false → ∀ step, Adapter.Occurs step c.adapter → step.isLossy = false) ∧
      (c.warning = true → dst.unwrap.isFunc = false → ∃ step ∈ c.adapter, step.isLossy = true) := by
  have meets := compatible_fits involved source target s ⟨reached, .refl _⟩
  rw [answer] at meets
  exact (meets.2 c rfl ok).warning_iff distinct involved.edges

theorem compatible_warning_upcast :
    ∃ c s', (({} : Engine).compatible (.classNamed "A") (.classNamed "C")).run
        { tables := lossyBase } = (.ok c, s') ∧ c.ok = true ∧ c.warning = true ∧
      ∃ step ∈ c.adapter, step.isLossy = true := by
  have source : Ty.classNamed "A" ∈ [Ty.classNamed "A", .classNamed "B", .classNamed "C"] := by simp
  have target : Ty.classNamed "C" ∈ [Ty.classNamed "A", .classNamed "B", .classNamed "C"] := by simp
  have reached : Reached {} (· ∈ [Ty.classNamed "A", .classNamed "B", .classNamed "C"])
    { tables := lossyBase } := .registered _ _ _
  have answer : ((({} : Engine).compatible (.classNamed "A") (.classNamed "C")).run
      { tables := lossyBase }).1 = .ok
        { ok := true
          warning := true
          adapter := [.upcast (.classNamed "B"), .cast (.classNamed "C")] } := rfl
  refine ⟨_, _, Prod.ext answer rfl, rfl, rfl, ?_⟩
  exact (Engine.compatible_warning reached lossyBase_involved classes_distinct source target
    (Prod.ext answer rfl) rfl).2 rfl rfl

end TypeEngine
