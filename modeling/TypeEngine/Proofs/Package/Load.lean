import TypeEngine.Proofs.Package.Outline
import TypeEngine.Proofs.Ty.Outcome

/-!
# Programs that were loaded

What the catalog of a program rests on is collected in `Regular`. Loading checks the rules of a program
before anything is described, and `Regular` holds of every program that is loaded (`regular_of_load?`).
-/

namespace TypeEngine.Package

open Shape (param)

/-! ### Names -/

theorem point_not_mem_of_isIdentifier {name : String} (written : isIdentifier name = true) : '.' ∉ name.toList := by
  unfold isIdentifier at written
  split at written
  · cases written
  · rename_i c cs chars
    rw [Bool.and_eq_true, Bool.and_eq_true] at written
    rw [chars, List.mem_cons, not_or]
    constructor
    · rintro rfl
      exact absurd written.1.1 (by decide)
    · intro member
      exact absurd (List.all_eq_true.mp written.1.2 _ member) (by decide)

theorem ne_empty_of_isIdentifier {name : String} (written : isIdentifier name = true) : name ≠ "" := by
  rintro rfl
  cases written

/-- A package has no well known type if none of their keys starts with its path and a point. -/
theorem wellKnown_lookup_eq_none {path : String}
    (other : ∀ key ∈ wellKnown.map Prod.fst, ¬(path ++ ".").toList <+: key.toList) (name : String) :
    wellKnown.lookup (path ++ "." ++ name) = none := by
  rw [List.lookup_eq_none_iff]
  intro entry member
  rw [bne_iff_ne]
  intro same
  refine other entry.1 (List.mem_map_of_mem member) ?_
  rw [← same, String.toList_append (s := path ++ ".")]
  exact List.prefix_append ..

theorem wellKnown_lookup (s : Source) (name : String) : wellKnown.lookup (s.path ++ "." ++ name) = none := by
  refine wellKnown_lookup_eq_none (fun key member => ?_) name
  -- The path goes on with a point or a slash after its first letter.
  obtain ⟨c, rest, chars, mark⟩ : ∃ c rest, (s.path ++ ".").toList = 'm' :: c :: rest ∧ (c = '.' ∨ c = '/') := by
    unfold Source.path
    split
    · exact ⟨'.', [], by simp [Source.modulePath], .inl rfl⟩
    · exact ⟨'/', s.dir.toList ++ ['.'], by simp [Source.modulePath], .inr rfl⟩
  have start : ∀ key ∈ wellKnown.map Prod.fst,
      ¬['m', '.'] <+: key.toList ∧ ¬['m', '/'] <+: key.toList := by
    decide
  rw [chars]
  intro front
  have two := (List.prefix_append ['m', c] rest).trans front
  rcases mark with rfl | rfl
  · exact (start key member).1 two
  · exact (start key member).2 two

/-! ### Declarations -/

theorem declarable?_eq_some {s t : Shape} (done : Known.declarable? s = some t) :
    s = t ∧ ∀ owner name, t.resolved ≠ param owner name := by
  unfold Known.declarable? at done
  split at done
  · cases done
  · rename_i other
    cases done
    exact ⟨rfl, fun owner name => other owner name⟩

variable {k : Known} {s : Source}

theorem constraint?_ne_param {params : ParamScope} {e : TypeExpr} {t : Shape}
    (done : k.constraint? s params e = some t) (owner name : String) : t.resolved ≠ param owner name := by
  unfold Known.constraint? at done
  split at done
  · split at done
    · obtain ⟨ts, _, done⟩ := Option.bind_eq_some_iff.mp done
      cases done
      nofun
    · obtain ⟨_, _, done⟩ := Option.bind_eq_some_iff.mp done
      exact (declarable?_eq_some done).2 owner name
  · obtain ⟨_, _, done⟩ := Option.bind_eq_some_iff.mp done
    exact (declarable?_eq_some done).2 owner name

/-- The type is declared from no type parameter. -/
def Body.Declarable : Body → Prop
  | .shape s => ∀ owner name, s.resolved ≠ param owner name
  | .interface _ _ embeds => ∀ e ∈ embeds, ∀ owner name, e.resolved ≠ param owner name

theorem typeDef?_eq_some {e : TypeDecl} {d : TypeDef} (done : k.typeDef? s e = some d) :
    d.id = ⟨s.path, e.name⟩ ∧ d.body.Declarable := by
  unfold Known.typeDef? at done
  obtain ⟨params, _, done⟩ := Option.bind_eq_some_iff.mp done
  dsimp only at done
  split at done
  · obtain ⟨t, _, done⟩ := Option.bind_eq_some_iff.mp done
    obtain ⟨u, declarable, done⟩ := Option.bind_eq_some_iff.mp done
    cases done
    exact ⟨rfl, (declarable?_eq_some declarable).2⟩
  · cases done
  · obtain ⟨methods, _, done⟩ := Option.bind_eq_some_iff.mp done
    obtain ⟨embeds, resolved, done⟩ := Option.bind_eq_some_iff.mp done
    cases done
    refine ⟨rfl, fun e member => ?_⟩
    obtain ⟨_, _, constraint⟩ := (mem_mapM resolved).1 e member
    exact constraint?_ne_param constraint

/-! ### Programs -/

namespace Program

/-- What the description of a program rests on. Its types may come from any packages, described ones or
others. -/
structure Regular (p : Program) : Prop where
  settled : p.Settled
  names : ∀ d ∈ p.types, '.' ∉ d.id.name.toList
  packages : ∀ l ∈ p.loaded, l.name ≠ ""
  /-- A well known type of a described package is known by the name of the package. -/
  wellKnown : ∀ l ∈ p.loaded, ∀ name path, wellKnown.lookup (l.path ++ "." ++ name) = some path →
    path = l.name ++ "." ++ name

variable {p : Program}

theorem bare_substAll {b : Shape.Binding} {ts : List Shape} (each : ∀ t ∈ ts, (t.subst b).bare = t.bare) :
    (Shape.substAll b ts).map Shape.bare = ts.map Shape.bare := by
  induction ts with
  | nil => rfl
  | cons t ts ih =>
    rw [List.forall_mem_cons] at each
    rw [Shape.substAll, List.map_cons, List.map_cons, each.1, ih each.2]

theorem bare_subst_of_sound {d : TypeDef} (sound : p.typeIsSound d = true) (declarable : d.body.Declarable)
    (b : Shape.Binding) : (d.body.subst b).bare = d.body.bare := by
  have rules := (Bool.and_eq_true_iff.mp sound).2
  cases body : d.body with
  | shape s =>
    rw [body] at rules declarable
    exact congrArg Body.shape (Shape.bare_subst_source b rules declarable)
  | interface owner methods embeds =>
    rw [body] at rules declarable
    have sources : ∀ e ∈ embeds, p.isSoundSource e = true :=
      List.all_eq_true.mp (Bool.and_eq_true_iff.mp (Bool.and_eq_true_iff.mp rules).1).2
    have types := bare_substAll fun e member =>
      Shape.bare_subst_source b (sources e member) (declarable e member)
    rw [Body.subst, Body.bare, Body.bare, types, List.map_map]
    refine congrArg (Body.interface owner · _) (List.map_congr_left fun m _ => ?_)
    exact congrArg (m.1, ·) (m.2.outline_subst b)

end Program

theorem rounds_sources (n : Nat) (k : Known) : (Known.rounds n k).sources = k.sources := by
  induction n generalizing k with
  | zero => rfl
  | succ n ih => exact ih k.addSynonyms

theorem program?_eq_some {k : Known} {roots : List Source} {p : Program} (done : k.program? roots = some p) :
    p.loaded = roots.map (fun s => ⟨s.path, s.name⟩) ∧
      ∀ d ∈ p.types, ∃ s ∈ k.sources, ∃ e ∈ s.types, k.typeDef? s e = some d := by
  unfold Known.program? at done
  dsimp only at done
  split at done
  · cases done
  obtain ⟨types, resolved, done⟩ := Option.bind_eq_some_iff.mp done
  obtain ⟨methods, _, done⟩ := Option.bind_eq_some_iff.mp done
  obtain ⟨funcs, _, done⟩ := Option.bind_eq_some_iff.mp done
  obtain ⟨vars, _, done⟩ := Option.bind_eq_some_iff.mp done
  cases done
  refine ⟨rfl, fun d member => ?_⟩
  obtain ⟨ds, inTypes, member⟩ := List.mem_flatten.mp member
  obtain ⟨s, source, defs⟩ := (mem_mapM resolved).1 ds inTypes
  obtain ⟨e, declared, found⟩ := (mem_mapM defs).1 d member
  exact ⟨s, source, e, (List.mem_filter.mp declared).1, found⟩

theorem Source.isIdentifier_of_mem_types {s : Source} (written : s.isWritten = true) {e : TypeDecl}
    (member : e ∈ s.types) : isIdentifier e.name = true := by
  unfold isWritten at written
  simp only [Bool.and_eq_true] at written
  obtain ⟨⟨⟨⟨⟨⟨⟨_, names⟩, _⟩, _⟩, _⟩, _⟩, _⟩, _⟩ := written
  refine List.all_eq_true.mp names e.name ?_
  obtain ⟨decl, declared, found⟩ := List.mem_filterMap.mp member
  refine List.mem_filterMap.mpr ⟨decl, declared, ?_⟩
  cases decl <;> cases found
  rfl

theorem Source.isIdentifier_name {s : Source} (written : s.isWritten = true) : isIdentifier s.name = true := by
  unfold isWritten at written
  simp only [Bool.and_eq_true] at written
  exact written.1.1.1.1.1.1.1.1.1

theorem Program.regular_of_load? {sources : List Source} {patterns : List String} {p : Program}
    (loaded : Program.load? sources patterns = some p) : p.Regular := by
  unfold load? at loaded
  obtain ⟨roots, _, loaded⟩ := Option.bind_eq_some_iff.mp loaded
  obtain ⟨all, _, loaded⟩ := Option.bind_eq_some_iff.mp loaded
  dsimp only at loaded
  split at loaded
  · cases loaded
  rename_i rules
  obtain ⟨q, declared, loaded⟩ := Option.bind_eq_some_iff.mp loaded
  split at loaded
  · rename_i sound
    obtain ⟨consts, _, loaded⟩ := Option.bind_eq_some_iff.mp loaded
    cases loaded
    obtain ⟨described, types⟩ := program?_eq_some declared
    have written : ∀ s ∈ all, s.isWritten = true := by
      intro s member
      rw [Bool.not_eq_true', Bool.not_eq_false] at rules
      exact (Bool.and_eq_true_iff.mp (List.all_eq_true.mp rules s member)).1
    have origin : ∀ d ∈ q.types, ∃ s ∈ all, ∃ e ∈ s.types, (Known.ofSources all).typeDef? s e = some d := by
      intro d member
      obtain ⟨s, source, found⟩ := types d member
      rw [Known.ofSources, rounds_sources] at source
      exact ⟨s, source, found⟩
    have typeRules : ∀ d ∈ q.types, q.typeIsSound d = true := by
      simp only [isSoundProgram, Bool.and_eq_true] at sound
      exact List.all_eq_true.mp sound.1.1.1.1
    have sources : ∀ l ∈ q.loaded, ∃ s ∈ all, l = ⟨s.path, s.name⟩ := by
      intro l member
      rw [described] at member
      obtain ⟨s, root, rfl⟩ := List.mem_map.mp member
      exact ⟨s, (List.mem_filter.mp root).1, rfl⟩
    refine ⟨fun d member b => ?_, fun d member => ?_, fun l member => ?_, fun l member name path known => ?_⟩
    · obtain ⟨s, _, e, _, found⟩ := origin d member
      exact bare_subst_of_sound (typeRules d member) (typeDef?_eq_some found).2 b
    · obtain ⟨s, source, e, inTypes, found⟩ := origin d member
      rw [(typeDef?_eq_some found).1]
      exact point_not_mem_of_isIdentifier (Source.isIdentifier_of_mem_types (written s source) inTypes)
    · obtain ⟨s, source, rfl⟩ := sources l member
      exact ne_empty_of_isIdentifier (Source.isIdentifier_name (written s source))
    · obtain ⟨s, source, rfl⟩ := sources l member
      rw [wellKnown_lookup] at known
      cases known
  · cases loaded

end TypeEngine.Package
