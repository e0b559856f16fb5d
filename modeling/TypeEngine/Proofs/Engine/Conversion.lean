import TypeEngine.Proofs.Engine.History
import TypeEngine.Proofs.Engine.Route

/-!
# Ways of conversion

Equal types have the same ways, so a memoised answer is right for every type it is given for.
`reach_shortest` says what a query for a way returns.
-/

namespace TypeEngine

variable {ts : Tables} {T : Ty → Prop} {src src' dst dst' : Ty} {r : Reachability}

theorem Leads.congr {lossy : Bool} {path : List Ty} (distinct : Distinguished T) (source : T src)
    (source' : T src') (sources : (src == src') = true) (targets : (dst == dst') = true)
    (leads : Leads ts lossy src dst path) : Leads ts lossy src' dst' path := by
  obtain ⟨t, route, arrives⟩ := leads
  obtain ⟨t', route', same⟩ := route.transport distinct source source' sources
  exact ⟨t', route', Ty.beq_trans same (Ty.beq_trans arrives targets)⟩

theorem Leads.congr_iff {lossy : Bool} {path : List Ty} (distinct : Distinguished T)
    (source : T src) (source' : T src') (sources : (src == src') = true)
    (targets : (dst == dst') = true) :
    Leads ts lossy src dst path ↔ Leads ts lossy src' dst' path :=
  ⟨Leads.congr distinct source source' sources targets,
    Leads.congr distinct source' source (Ty.beq_symm sources) (Ty.beq_symm targets)⟩

theorem Shortest.congr (distinct : Distinguished T) (source : T src) (source' : T src')
    (sources : (src == src') = true) (targets : (dst == dst') = true)
    (shortest : Shortest ts src dst r) : Shortest ts src' dst' r := by
  have same : ∀ lossy path, Leads ts lossy src dst path ↔ Leads ts lossy src' dst' path :=
    fun lossy path => Leads.congr_iff distinct source source' sources targets
  obtain ⟨found_iff, leads, warning_iff, exact_least, least⟩ := shortest
  simp only [same] at found_iff leads warning_iff exact_least least
  exact ⟨found_iff, leads, warning_iff, exact_least, least⟩

theorem WayFor.shortest (distinct : Distinguished T)
    (onward : ∀ t, T t → ∀ edge ∈ ts.conversionEdges t, T edge.dest) (source : T src)
    (target : T dst) (different : (src == dst) = false) (way : WayFor ts T src dst r) :
    Shortest ts src dst r := by
  obtain ⟨src', dst', source', target', sources, targets, rfl⟩ := way
  have sources := (distinct.key_iff source' source).mp sources
  have targets := (distinct.key_iff target' target).mp targets
  have different' : (src' == dst') = false := by
    rw [Ty.beq_congr sources, Ty.beq_congr_right targets, different]
  exact .congr distinct source' source sources targets
    (ts.closure?_shortest distinct onward source' target' different')

/-- A query for a way between different types returns one exactly if the conversions have one; it
prefers ways without warnings, and among those it may choose from it takes a shortest. -/
theorem Engine.reach_shortest {s : Session} (distinct : Distinguished T)
    (onward : ∀ t, T t → ∀ edge ∈ s.tables.conversionEdges t, T edge.dest) (source : T src)
    (target : T dst) (different : (src == dst) = false)
    (known : s.tables.cachedClosure? src dst = none ∨ ∃ e, Reached e T s) :
    ∃ r s', (Engine.reach src dst).run s = (.ok r, s') ∧ Shortest s.tables src dst r := by
  rcases known with unknown | ⟨e, reached⟩
  · rw [Engine.reach_run, unknown]
    exact ⟨_, _, rfl, s.tables.closure?_shortest distinct onward source target different⟩
  · obtain ⟨_, _, r, answer, way⟩ := reached.memoised.reach source target
    exact ⟨r, _, Prod.ext answer rfl, way.shortest distinct onward source target different⟩

theorem classes_distinct :
    Distinguished (· ∈ [Ty.classNamed "A", .classNamed "B", .classNamed "C"]) :=
  .ofList (by decide)

/-- A lossy conversion from `A` to `C`, and a detour over `B` that loses nothing. -/
def detour : List Registration :=
  [.addConversion (.classNamed "A") (.classNamed "C") true,
    .addConversion (.classNamed "A") (.classNamed "B") false,
    .addConversion (.classNamed "B") (.classNamed "C") false]

/-- The session in which the way over the detour has been asked for already. -/
def detoured : Session :=
  ((Engine.reach (.classNamed "A") (.classNamed "C")).run { tables := detour.foldl .register {} }).2

theorem reach_shortest_detour :
    (Engine.reach (.classNamed "A") (.classNamed "C")).run detoured =
      (.ok { found := true, warning := false, path := [.classNamed "B", .classNamed "C"] },
        detoured) ∧
    Shortest detoured.tables (.classNamed "A") (.classNamed "C")
      { found := true, warning := false, path := [.classNamed "B", .classNamed "C"] } := by
  have answer : (Engine.reach (.classNamed "A") (.classNamed "C")).run detoured =
      (.ok { found := true, warning := false, path := [.classNamed "B", .classNamed "C"] },
        detoured) := rfl
  have edges : ∀ t ∈ [Ty.classNamed "A", .classNamed "B", .classNamed "C"],
      ∀ edge ∈ detoured.tables.conversionEdges t,
        edge.dest ∈ [Ty.classNamed "A", .classNamed "B", .classNamed "C"] := by
    have ofA : detoured.tables.conversionEdges (.classNamed "A") =
      [⟨.classNamed "C", true⟩, ⟨.classNamed "B", false⟩] := rfl
    have ofB : detoured.tables.conversionEdges (.classNamed "B") = [⟨.classNamed "C", false⟩] := rfl
    have ofC : detoured.tables.conversionEdges (.classNamed "C") = [] := rfl
    simp [ofA, ofB, ofC]
  have source : Ty.classNamed "A" ∈ [Ty.classNamed "A", .classNamed "B", .classNamed "C"] := by simp
  have target : Ty.classNamed "C" ∈ [Ty.classNamed "A", .classNamed "B", .classNamed "C"] := by simp
  obtain ⟨r, s', run, shortest⟩ := Engine.reach_shortest classes_distinct edges source target
    (by decide) (.inr ⟨{}, .reach (.registered _ _ _) source target⟩)
  rw [answer] at run
  obtain ⟨same, rfl⟩ := Prod.mk.inj run
  exact ⟨answer, Except.ok.inj same ▸ shortest⟩

/-- A class `A` with the base `B`, and a lossy conversion from `B` to `C`. -/
def lossyBase : Tables :=
  [Registration.declareType { path := (Ty.classNamed "A").main, base? := some (.classNamed "B") },
    .addConversion (.classNamed "B") (.classNamed "C") true].foldl .register {}

theorem lossyBase_involved :
    Involved {} lossyBase (· ∈ [Ty.classNamed "A", .classNamed "B", .classNamed "C"]) := by
  refine .ofClasses (by simp) ?_ ?_
  · have ofA : Engine.lookupSupertypes {} lossyBase (.classNamed "A") =
      .ok [⟨.classNamed "B", false⟩] := rfl
    have ofB : Engine.lookupSupertypes {} lossyBase (.classNamed "B") = .ok [] := rfl
    have ofC : Engine.lookupSupertypes {} lossyBase (.classNamed "C") = .ok [] := rfl
    simp [ofA, ofB, ofC]
  · have ofA : lossyBase.conversionEdges (.classNamed "A") = [] := rfl
    have ofB : lossyBase.conversionEdges (.classNamed "B") = [⟨.classNamed "C", true⟩] := rfl
    have ofC : lossyBase.conversionEdges (.classNamed "C") = [] := rfl
    simp [ofA, ofB, ofC]

end TypeEngine
