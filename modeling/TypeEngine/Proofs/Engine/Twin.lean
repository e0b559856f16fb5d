import Mathlib.Data.List.Forall2
import TypeEngine.Proofs.Engine.Conversion
import TypeEngine.Proofs.Engine.Fit
import TypeEngine.Proofs.Engine.Supertype
import TypeEngine.Proofs.Engine.Tracks

/-!
# Queries about equal types

A memoised answer may have been found for an equal type. Two queries about equal types, from sessions
whose memoised answers are right for the same tables, give the same answer up to equality of the
types in it: `reach_tracks` for ways of conversion, `directSupertypes_tracks` for direct supertypes.
The second query may also be about the types with other names for their generic parameters, if the
tables are `Indifferent` to these names.
-/

namespace TypeEngine

open Engine Query

/-! ### Answers as equality sees them -/

namespace AdapterStep

mutual

/-- The step as equality of types sees it. -/
def bare : AdapterStep → AdapterStep
  | wrap n t => wrap n t.bare
  | stringify t => stringify t.bare
  | parse t => parse t.bare
  | cast t => cast t.bare
  | convert t => convert t.bare
  | tuple t components => tuple t.bare (bareAll components)
  | upcast t => upcast t.bare
  | each leaf => each (bareSteps leaf)

def bareSteps : List AdapterStep → List AdapterStep
  | [] => []
  | step :: steps => bare step :: bareSteps steps

def bareAll : List (List AdapterStep) → List (List AdapterStep)
  | [] => []
  | adapter :: adapters => bareSteps adapter :: bareAll adapters

end

mutual

/-- The step with other types in it. -/
def mapTypes (f : Ty → Ty) : AdapterStep → AdapterStep
  | wrap n t => wrap n (f t)
  | stringify t => stringify (f t)
  | parse t => parse (f t)
  | cast t => cast (f t)
  | convert t => convert (f t)
  | tuple t components => tuple (f t) (mapAll f components)
  | upcast t => upcast (f t)
  | each leaf => each (mapSteps f leaf)

def mapSteps (f : Ty → Ty) : List AdapterStep → List AdapterStep
  | [] => []
  | step :: steps => mapTypes f step :: mapSteps f steps

def mapAll (f : Ty → Ty) : List (List AdapterStep) → List (List AdapterStep)
  | [] => []
  | adapter :: adapters => mapSteps f adapter :: mapAll f adapters

end

mutual

theorem mapTypes_bare : ∀ step, mapTypes Ty.bare step = bare step
  | wrap .. | stringify _ | parse _ | cast _ | convert _ | upcast _ => rfl
  | tuple t components => by rw [mapTypes, bare, mapAll_bare components]
  | each leaf => by rw [mapTypes, bare, mapSteps_bare leaf]

theorem mapSteps_bare : ∀ steps, mapSteps Ty.bare steps = bareSteps steps
  | [] => rfl
  | step :: steps => by rw [mapSteps, bareSteps, mapTypes_bare step, mapSteps_bare steps]

theorem mapAll_bare : ∀ adapters, mapAll Ty.bare adapters = bareAll adapters
  | [] => rfl
  | adapter :: adapters => by rw [mapAll, bareAll, mapSteps_bare adapter, mapAll_bare adapters]

end

theorem mapSteps_append (f : Ty → Ty) (xs ys : List AdapterStep) :
    mapSteps f (xs ++ ys) = mapSteps f xs ++ mapSteps f ys := by
  induction xs with
  | nil => rfl
  | cons step steps ih => rw [List.cons_append, mapSteps, mapSteps, ih, List.cons_append]

end AdapterStep

def Adapter.bare (a : Adapter) : Adapter := AdapterStep.bareSteps a

variable {ρ : String → String} {a b a' b' : Adapter} {t t' : Ty}

/-- The adapters are equal once the generic parameters of the first are renamed. -/
def Adapter.Matches (ρ : String → String) (a b : Adapter) : Prop :=
  AdapterStep.mapSteps (fun t => (t.rename ρ).bare) a = AdapterStep.mapSteps Ty.bare b

namespace Adapter.Matches

theorem append (first : a.Matches ρ b) (second : a'.Matches ρ b') : Matches ρ (a ++ a') (b ++ b') := by
  rw [Matches, AdapterStep.mapSteps_append, AdapterStep.mapSteps_append, first, second]

theorem isEmpty (same : a.Matches ρ b) : a.isEmpty = b.isEmpty := by
  cases a with
  | nil =>
    cases b with
    | nil => rfl
    | cons => cases same
  | cons =>
    cases b with
    | nil => cases same
    | cons => rfl

theorem all_isEmpty {as bs : List Adapter} (same : List.Forall₂ (Matches ρ) as bs) :
    as.all List.isEmpty = bs.all List.isEmpty := by
  induction same with
  | nil => rfl
  | cons first _ ih => rw [List.all_cons, List.all_cons, first.isEmpty, ih]

theorem each (same : a.Matches ρ b) : Matches ρ [.each a] [.each b] :=
  congrArg (fun steps => [AdapterStep.each steps]) same

theorem tuple {as bs : List Adapter} (target : (t.rename ρ).bare = t'.bare)
    (same : List.Forall₂ (Matches ρ) as bs) : Matches ρ [.tuple t as] [.tuple t' bs] := by
  have all : AdapterStep.mapAll (fun t => (t.rename ρ).bare) as = AdapterStep.mapAll Ty.bare bs := by
    induction same with
    | nil => rfl
    | cons first _ ih => rw [AdapterStep.mapAll, AdapterStep.mapAll, first, ih]
  exact congrArg₂ (fun t adapters => [AdapterStep.tuple t adapters]) target all

theorem bare (same : a.Matches id b) : a.bare = b.bare := by
  simp only [Matches, Ty.rename_id] at same
  rwa [AdapterStep.mapSteps_bare, AdapterStep.mapSteps_bare] at same

end Adapter.Matches

theorem Adapter.isEmpty_bare (a : Adapter) : a.bare.isEmpty = a.isEmpty := by
  cases a <;> rfl

theorem Adapter.isEmpty_congr {a b : Adapter} (same : a.bare = b.bare) : a.isEmpty = b.isEmpty := by
  rw [← a.isEmpty_bare, ← b.isEmpty_bare, same]

def Compatibility.bare (c : Compatibility) : Compatibility := { c with adapter := c.adapter.bare }

theorem Compatibility.bare_eq_iff {c c' : Compatibility} :
    c.bare = c'.bare ↔ c.ok = c'.ok ∧ c.warning = c'.warning ∧ c.adapter.bare = c'.adapter.bare ∧
      c.tooLong? = c'.tooLong? := by
  simp [Compatibility.bare]

/-- Two answers that are the same once the generic parameters of the first are renamed. -/
structure Compatibility.Matches (ρ : String → String) (c c' : Compatibility) : Prop where
  ok : c.ok = c'.ok
  warning : c.warning = c'.warning
  adapter : c.adapter.Matches ρ c'.adapter
  tooLong : c.tooLong? = c'.tooLong?

namespace Compatibility.Matches

theorem accepted : Matches ρ accepted accepted := ⟨rfl, rfl, rfl, rfl⟩

theorem rejected : Matches ρ rejected rejected := ⟨rfl, rfl, rfl, rfl⟩

theorem adapted (same : a.Matches ρ b) : Matches ρ (adapted a) (adapted b) := ⟨rfl, rfl, same, rfl⟩

theorem bare {c c' : Compatibility} (same : Matches id c c') : c.bare = c'.bare :=
  bare_eq_iff.mpr ⟨same.ok, same.warning, same.adapter.bare, same.tooLong⟩

end Compatibility.Matches

/-! ### Equal types of a collection -/

/-- The second type is equal to the first one under its new names. -/
structure Twin (ρ : String → String) (T : Ty → Prop) (a b : Ty) : Prop where
  left : T a
  right : T b
  same : (a.rename ρ).bare = b.bare

variable {e : Engine} {ts : Tables} {T : Ty → Prop} {src src' dst dst' u u' : Ty}

namespace Twin

theorem refl (inside : T t) : Twin id T t t := ⟨inside, inside, by rw [Ty.rename_id]⟩

theorem unwrap (ascending : Ascending e ts T) (twin : Twin ρ T t t') : Twin ρ T t.unwrap t'.unwrap :=
  ⟨ascending.unwrap t twin.left, ascending.unwrap t' twin.right, by
    rw [← Ty.unwrap_rename, ← Ty.unwrap_bare, ← Ty.unwrap_bare, twin.same]⟩

/-- Whatever does not depend on the names of generic parameters is the same for twins. -/
theorem shape {α : Type} {f : Ty → α} (bare : ∀ t, f t.bare = f t)
    (renamed : ∀ t, f (t.rename ρ) = f t) (twin : Twin ρ T t t') : f t = f t' := by
  rw [← bare t', ← twin.same, bare, renamed]

theorem beq_eq (injective : Function.Injective ρ) (sources : Twin ρ T src src')
    (targets : Twin ρ T dst dst') : (src == dst) = (src' == dst') := by
  rw [Bool.eq_iff_iff, Ty.beq_iff_bare, Ty.beq_iff_bare, ← sources.same, ← targets.same,
    Ty.bare_rename_inj injective]

theorem beq_kept (injective : Function.Injective ρ) (twin : Twin ρ T t t') (kept : u.KeptBy ρ) :
    (t == u) = (t' == u) := by
  rw [Bool.eq_iff_iff, Ty.beq_iff_bare, Ty.beq_iff_bare, ← Ty.bare_rename_inj injective, twin.same, kept]

theorem kept_beq (injective : Function.Injective ρ) (twin : Twin ρ T t t') (kept : u.KeptBy ρ) :
    (u == t) = (u == t') := by
  rw [Bool.eq_iff_iff, Ty.beq_iff_bare, Ty.beq_iff_bare, ← Ty.bare_rename_inj injective, twin.same, kept]

theorem key_iff (distinct : Distinguished T) (injective : Function.Injective ρ)
    (first : Twin ρ T t t') (second : Twin ρ T u u') : t.key = u.key ↔ t'.key = u'.key := by
  rw [distinct.key_iff first.left second.left, distinct.key_iff first.right second.right,
    beq_eq injective first second]

end Twin

theorem twins_of_map {xs ys : List Ty} (left : ∀ t ∈ xs, T t) (right : ∀ t ∈ ys, T t)
    (same : xs.map (fun t => (t.rename ρ).bare) = ys.map Ty.bare) : List.Forall₂ (Twin ρ T) xs ys := by
  induction xs generalizing ys with
  | nil =>
    obtain rfl := List.map_eq_nil_iff.mp same.symm
    exact .nil
  | cons x xs ih =>
    cases ys with
    | nil => cases same
    | cons y ys =>
      obtain ⟨head, tail⟩ := List.cons.inj same
      rw [List.forall_mem_cons] at left right
      exact .cons ⟨left.1, right.1, head⟩ (ih left.2 right.2 tail)

/-- The supertype with new names for its generic parameters. -/
def Supertype.rename (ρ : String → String) (s : Supertype) : Supertype :=
  { s with type := s.type.rename ρ }

/-- What the tables say about a type goes with the renaming. A type with conversions keeps its names,
and so do the types it is converted to. -/
structure Indifferent (ρ : String → String) (e : Engine) (ts : Tables) (T : Ty → Prop) : Prop where
  injective : Function.Injective ρ
  supertypes : ∀ t, T t → e.lookupSupertypes ts (t.rename ρ) =
    (e.lookupSupertypes ts t).map (List.map (Supertype.rename ρ))
  conversions : ∀ t, T t → ∀ edge ∈ ts.conversionEdges t, t.KeptBy ρ ∧ edge.dest.KeptBy ρ

namespace Indifferent

theorem same_names (e : Engine) (ts : Tables) (T : Ty → Prop) : Indifferent id e ts T where
  injective := Function.injective_id
  supertypes t _ := by
    have kept : Supertype.rename id = id := by
      funext s
      rw [Supertype.rename, Ty.rename_id]
      rfl
    rw [Ty.rename_id, kept, List.map_id_fun]
    cases e.lookupSupertypes ts t <;> rfl
  conversions t _ edge _ := ⟨by rw [Ty.KeptBy, Ty.rename_id], by rw [Ty.KeptBy, Ty.rename_id]⟩

theorem beq_of_conversions (indifferent : Indifferent ρ e ts T) (twin : Twin ρ T t t')
    (some : ts.conversionEdges t ≠ []) : (t == t') = true := by
  obtain ⟨edge, member⟩ := List.exists_mem_of_ne_nil _ some
  have kept := (indifferent.conversions t twin.left edge member).1
  rw [Ty.beq_iff_bare, ← twin.same, kept]

theorem conversionEdges_eq (indifferent : Indifferent ρ e ts T) (distinct : Distinguished T)
    (twin : Twin ρ T t t') : ts.conversionEdges t = ts.conversionEdges t' := by
  by_cases none : ts.conversionEdges t = []
  · by_contra different
    obtain ⟨edge, member⟩ := List.exists_mem_of_ne_nil _ (none ▸ Ne.symm different)
    -- the twin keeps its names, so the type is equal to it
    have kept : (t'.rename ρ).bare = t'.bare := (indifferent.conversions t' twin.right edge member).1
    rw [← twin.same, Ty.bare_rename_inj indifferent.injective] at kept
    exact different (distinct.edges_eq ts twin.left twin.right (Ty.beq_iff_bare.mpr kept.symm))
  · exact distinct.edges_eq ts twin.left twin.right (indifferent.beq_of_conversions twin none)

end Indifferent

/-! ### The two kinds of queries -/

/-- The memoised answers are right for the types, interfaces and conversions of `ts`. -/
structure MemoisedAt (e : Engine) (T : Ty → Prop) (ts : Tables) (s : Session) : Prop where
  memo : Memoised e T s
  agrees : ts.Agrees s.tables

theorem MemoisedAt.start (e : Engine) (T : Ty → Prop) (blank : ts.closure = []) :
    MemoisedAt e T ts { tables := ts } :=
  ⟨⟨by simp [blank], by simp, by simp⟩, .refl ts⟩

theorem ReachedAt.memoisedAt {s : Session} (at_ : ReachedAt e T ts s) : MemoisedAt e T ts s :=
  ⟨at_.reached.memoised, at_.agrees⟩

namespace Frontier

variable {lossy : Bool}

/-- A search depends on its destination up to equality, and on the type it leaves by the edges. -/
theorem follow_congr {warning : Bool} {path : List Ty} {edges : List ConversionEdge}
    (arrives : ∀ edge ∈ edges, (edge.dest == dst) = (edge.dest == dst')) (f : Frontier) :
    follow dst lossy ⟨t, warning, path⟩ edges f = follow dst' lossy ⟨t', warning, path⟩ edges f := by
  induction edges generalizing f with
  | nil => rfl
  | cons edge edges ih =>
    rw [List.forall_mem_cons] at arrives
    simp only [follow, arrives.1, ih arrives.2]

/-- The ways of a search go over types that keep their names. -/
def Kept (ρ : String → String) (T : Ty → Prop) (f : Frontier) : Prop :=
  ∀ v ∈ f.queue, T v.type ∧ ∀ t ∈ v.path, t.KeptBy ρ

theorem search_congr (indifferent : Indifferent ρ e ts T) (ascending : Ascending e ts T)
    (targets : Twin ρ T dst dst') (fuel : Nat) {f : Frontier} (kept : f.Kept ρ T) :
    search ts.conversionEdges dst lossy fuel f = search ts.conversionEdges dst' lossy fuel f ∧
      ∀ t ∈ (search ts.conversionEdges dst lossy fuel f).path, t.KeptBy ρ := by
  induction fuel generalizing f with
  | zero => exact ⟨rfl, by simp [search]⟩
  | succ fuel ih =>
    obtain ⟨visited, queue⟩ := f
    cases queue with
    | nil => exact ⟨rfl, by simp [search]⟩
    | cons v queue =>
      obtain ⟨here, rest⟩ := List.forall_mem_cons.mp kept
      have edges := indifferent.conversions v.type here.1
      have onward : ∀ edge ∈ ts.conversionEdges v.type,
          T (v.over edge).type ∧ ∀ t ∈ (v.over edge).path, t.KeptBy ρ := by
        intro edge member
        refine ⟨ascending.edges v.type here.1 edge member, ?_⟩
        intro t onPath
        rcases List.mem_append.mp onPath with before | last
        · exact here.2 t before
        · rw [List.mem_singleton.mp last]
          exact (edges edge member).2
      have arrives : ∀ edge ∈ ts.conversionEdges v.type, (edge.dest == dst) = (edge.dest == dst') :=
        fun edge member => targets.kept_beq indifferent.injective (edges edge member).2
      have same : follow dst lossy v (ts.conversionEdges v.type) ⟨visited, queue⟩ =
          follow dst' lossy v (ts.conversionEdges v.type) ⟨visited, queue⟩ := follow_congr arrives _
      simp only [search, ← same]
      cases went : follow dst lossy v (ts.conversionEdges v.type) ⟨visited, queue⟩ with
      | error r =>
        obtain ⟨edge, member, _, _, rfl⟩ := follow_error went
        exact ⟨rfl, (onward edge member).2⟩
      | ok f =>
        obtain ⟨new, grown, _, _, reached, _⟩ := follow_ok went
        refine ih fun w member => ?_
        rw [grown] at member
        rcases List.mem_append.mp member with old | fresh
        · exact rest w old
        · obtain ⟨edge, out, _, rfl, _⟩ := reached w fresh
          exact onward edge out

theorem search_of_none {edgesOf : Ty → List ConversionEdge} (none : edgesOf t = [])
    (visited : List String) (fuel : Nat) :
    search edgesOf dst lossy fuel ⟨visited, [⟨t, false, []⟩]⟩ = {} := by
  cases fuel with
  | zero => rfl
  | succ fuel =>
    simp only [search, none, follow]
    cases fuel <;> rfl

end Frontier

/-- Twins have the same ways to twins, over types that keep their names. -/
theorem Tables.closure?_congr (distinct : Distinguished T) (indifferent : Indifferent ρ e ts T)
    (ascending : Ascending e ts T) (sources : Twin ρ T src src') (targets : Twin ρ T dst dst') :
    ts.closure? src dst = ts.closure? src' dst' ∧ ∀ t ∈ (ts.closure? src dst).path, t.KeptBy ρ := by
  have search : ∀ lossy, ts.searchConversion src dst lossy = ts.searchConversion src' dst' lossy ∧
      ∀ t ∈ (ts.searchConversion src dst lossy).path, t.KeptBy ρ := by
    intro lossy
    have kept : Frontier.Kept ρ T ⟨[src.key], [⟨src, false, []⟩]⟩ := by
      simp [Frontier.Kept, sources.left]
    obtain ⟨same, path⟩ := Frontier.search_congr indifferent ascending targets
      (Builtin.conversions.size + ts.conversions.size + 1) kept
    refine ⟨same.trans ?_, path⟩
    have edges := indifferent.conversionEdges_eq distinct sources
    by_cases none : ts.conversionEdges src = []
    · rw [searchConversion, Frontier.search_of_none none, Frontier.search_of_none (edges ▸ none)]
    · have key := (distinct.key_iff sources.left sources.right).mpr
        (indifferent.beq_of_conversions sources none)
      have leaves : ∀ edges f, Frontier.follow dst' lossy ⟨src, false, []⟩ edges f =
          Frontier.follow dst' lossy ⟨src', false, []⟩ edges f :=
        fun edges => Frontier.follow_congr fun _ _ => rfl
      simp only [searchConversion, Frontier.search, edges, key, leaves]
  simp only [closure?, ← (search _).1]
  refine ⟨trivial, ?_⟩
  split
  · exact (search false).2
  · exact (search true).2

theorem WayFor.eq_closure? {r : Reachability} {now : Tables} (distinct : Distinguished T)
    (ascending : Ascending e ts T) (agrees : ts.Agrees now) (source : T src) (target : T dst)
    (way : WayFor now T src dst r) : r = ts.closure? src dst := by
  obtain ⟨src', dst', source', target', srcKey, dstKey, rfl⟩ := way
  rw [← agrees.closure?]
  have sources : Twin id T src' src := ⟨source', source, by
    rw [Ty.rename_id, Ty.beq_iff_bare.mp ((distinct.key_iff source' source).mp srcKey)]⟩
  have targets : Twin id T dst' dst := ⟨target', target, by
    rw [Ty.rename_id, Ty.beq_iff_bare.mp ((distinct.key_iff target' target).mp dstKey)]⟩
  exact (ts.closure?_congr distinct (.same_names e ts T) ascending sources targets).1

namespace Engine

variable {both : Prop}

theorem tables_tracks :
    Tracks ρ both (MemoisedAt e T ts) (fun now now' => ts.Agrees now ∧ ts.Agrees now') Query.tables
      Query.tables :=
  fun _ _ at_ at_' => .answer ⟨at_.agrees, at_'.agrees⟩ at_ at_'

theorem reach_tracks (distinct : Distinguished T) (indifferent : Indifferent ρ e ts T)
    (ascending : Ascending e ts T) (sources : Twin ρ T src src') (targets : Twin ρ T dst dst') :
    Tracks ρ both (MemoisedAt e T ts) (fun r r' => r = r' ∧ ∀ t ∈ r.path, t.KeptBy ρ) (reach src dst)
      (reach src' dst') := by
  intro s s' at_ at_'
  obtain ⟨memo, agrees, r, answer, way⟩ := at_.memo.reach sources.left targets.left
  obtain ⟨memo', agrees', r', answer', way'⟩ := at_'.memo.reach sources.right targets.right
  have same : r = r' ∧ ∀ t ∈ r.path, t.KeptBy ρ := by
    rw [way.eq_closure? distinct ascending at_.agrees sources.left targets.left,
      way'.eq_closure? distinct ascending at_'.agrees sources.right targets.right]
    exact ts.closure?_congr distinct indifferent ascending sources targets
  generalize (reach src dst).run s = outcome at memo agrees answer ⊢
  generalize (reach src' dst').run s' = outcome' at memo' agrees' answer' ⊢
  obtain ⟨result, after⟩ := outcome
  obtain ⟨result', after'⟩ := outcome'
  obtain rfl : result = .ok r := answer
  obtain rfl : result' = .ok r' := answer'
  exact .answer same ⟨memo, at_.agrees.trans agrees⟩ ⟨memo', at_'.agrees.trans agrees'⟩

theorem lookupSupertypes_congr (e : Engine) (ts : Tables) (same : t.bare = t'.bare) :
    (e.lookupSupertypes ts t).map (List.map Supertype.bare) =
      (e.lookupSupertypes ts t').map (List.map Supertype.bare) := by
  rw [← e.lookupSupertypes_bare ts t, same, e.lookupSupertypes_bare]

/-- Types equal to twins have the same supertypes, once they are renamed. -/
theorem lookupSupertypes_twin (indifferent : Indifferent ρ e ts T) (twin : Twin ρ T t t') (inside : T u)
    (near : t.bare = u.bare) (near' : t'.bare = u'.bare) :
    (e.lookupSupertypes ts u).map (List.map fun s => (s.rename ρ).bare) =
      (e.lookupSupertypes ts u').map (List.map Supertype.bare) := by
  have same : (u.rename ρ).bare = u'.bare := by
    rw [Ty.bare_rename, ← near, ← Ty.bare_rename, twin.same, near']
  rw [← lookupSupertypes_congr e ts same, indifferent.supertypes u inside]
  cases e.lookupSupertypes ts u with
  | error fault => rfl
  | ok found => simp only [Except.map, List.map_map, Function.comp_def]

/-- A query for direct supertypes answers for an equal type, or fails as the tables say. -/
theorem directSupertypes_memoisedAt {s : Session} (distinct : Distinguished T)
    (at_ : MemoisedAt e T ts s) (asked : T t) :
    (∃ found s', (e.directSupertypes t).run s = (.ok found, s') ∧ MemoisedAt e T ts s' ∧
      ∃ t', T t' ∧ t.bare = t'.bare ∧ e.lookupSupertypes ts t' = .ok found) ∨
    ∃ fault s', (e.directSupertypes t).run s = (.error fault, s') ∧ MemoisedAt e T ts s' ∧
      e.lookupSupertypes ts t = .error fault := by
  obtain ⟨memo, agrees, answers⟩ := at_.memo.directSupertypes asked
  cases outcome : (e.directSupertypes t).run s with
  | mk result s' =>
    rw [outcome] at memo agrees answers
    cases result with
    | ok found =>
      obtain ⟨t', known, key, answer⟩ := answers found rfl
      have same := Ty.beq_iff_bare.mp ((distinct.key_iff asked known).mp key.symm)
      refine .inl ⟨found, s', rfl, ⟨memo, at_.agrees.trans agrees⟩, t', known, same, ?_⟩
      rw [at_.agrees.lookupSupertypes, answer]
    | error fault =>
      refine .inr ⟨fault, s', rfl, ⟨memo, at_.agrees.trans agrees⟩, ?_⟩
      rw [at_.agrees.lookupSupertypes, ← s.current_tables]
      rw [directSupertypes_run] at outcome
      cases cached : s.current.supers.lookup t.key with
      | some found =>
        rw [cached] at outcome
        cases outcome
      | none =>
        rw [cached] at outcome
        cases answer : e.lookupSupertypes s.current.tables t with
        | ok found =>
          rw [answer] at outcome
          cases outcome
        | error other =>
          rw [answer] at outcome
          rw [Except.error.inj (Prod.mk.inj outcome).1]

theorem directSupertypes_tracks (distinct : Distinguished T) (indifferent : Indifferent ρ e ts T)
    (ascending : Ascending e ts T) (twin : Twin ρ T t t') :
    Tracks ρ both (MemoisedAt e T ts) (List.Forall₂ fun s s' => Twin ρ T s.type s'.type)
      (e.directSupertypes t) (e.directSupertypes t') := by
  intro s s' at_ at_'
  rcases directSupertypes_memoisedAt distinct at_ twin.left with
    ⟨found, after, run, kept, u, known, near, answer⟩ | ⟨fault, after, run, kept, answer⟩ <;>
  rcases directSupertypes_memoisedAt distinct at_' twin.right with
    ⟨found', after', run', kept', u', known', near', answer'⟩ | ⟨fault', after', run', _, answer'⟩ <;>
  rw [run, run']
  · have alike := lookupSupertypes_twin indifferent twin known near near'
    rw [answer, answer'] at alike
    have types : (found.map Supertype.type).map (fun t => (t.rename ρ).bare) =
        (found'.map Supertype.type).map Ty.bare := by
      have types := congrArg (List.map Supertype.type) (Except.ok.inj alike)
      simpa [Supertype.bare, Supertype.rename, Function.comp_def] using types
    have inside := ascending.supertypes u found known answer
    have inside' := ascending.supertypes u' found' known' answer'
    refine .answer ?_ kept kept'
    have twins : List.Forall₂ (Twin ρ T) (found.map Supertype.type) (found'.map Supertype.type) :=
      twins_of_map (by simpa using inside) (by simpa using inside') types
    exact List.forall₂_map_left_iff.mp (List.forall₂_map_right_iff.mp twins)
  · have alike := lookupSupertypes_twin indifferent twin known near rfl
    rw [answer, answer'] at alike
    cases alike
  · have alike := lookupSupertypes_twin indifferent twin twin.left rfl near'
    rw [answer, answer'] at alike
    cases alike
  · have alike := lookupSupertypes_twin indifferent twin twin.left rfl rfl
    rw [answer, answer'] at alike
    obtain rfl := Except.error.inj alike
    exact .fault (.refl _) kept

end Engine

end TypeEngine
