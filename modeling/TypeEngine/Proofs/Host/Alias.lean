import TypeEngine.Host.Catalog
import TypeEngine.Proofs.Firsts

/-!
# Aliases of primitives

A catalog knows each primitive by the first host path that was aliased to it. Where no path is aliased
twice, that path stands for the primitive ever after (`AliasedOnce.tallies`).
-/

namespace TypeEngine.Host.Catalog

variable {aliases : List (String × String)} {other next : Catalog}

/-- A catalog in whose making no host path was aliased twice, and the empty path never. -/
inductive AliasedOnce : Catalog → Prop
  | empty : AliasedOnce .empty
  | addType {c next : Catalog} {t : TypeInfo} :
      AliasedOnce c → c.addType t = .ok next → AliasedOnce next
  | addAlias {c next : Catalog} {path model : String} :
      AliasedOnce c → path ≠ "" → path ∉ c.aliasPaths → c.addAlias path model = .ok next → AliasedOnce next
  | merge {c other next : Catalog} :
      AliasedOnce c → AliasedOnce other → c.merge other = .ok next → AliasedOnce next
  | freeze {c : Catalog} : AliasedOnce c → AliasedOnce c.freeze

theorem AliasedOnce.withAlias {c : Catalog} (once : c.AliasedOnce) (path model : String)
    (unfrozen : c.frozen = false) (present : path ≠ "") (new : path ∉ c.aliasPaths) :
    (c.withAlias path model).AliasedOnce :=
  .addAlias once present new (by rw [Catalog.addAlias, unfrozen]; rfl)

/-- The host path of a primitive stands for the primitive. -/
def InvertsAt (c : Catalog) (model : String) : Prop :=
  ∀ path, c.nativePath? model = some path → c.primitive? path = some model

/-- The host paths of primitives and the primitives of host paths agree. -/
structure Tallies (c : Catalog) : Prop where
  present : ∀ path ∈ c.aliasPaths, path ≠ ""
  native : ∀ model path, c.nativePath? model = some path → c.primitive? path = some model
  known : ∀ path model, c.primitive? path = some model → (c.nativePath? model).isSome = true

variable {c : Catalog} {path model : String}

theorem primitive?_eq_none_iff : c.primitive? path = none ↔ path ∉ c.aliasPaths := by
  rw [primitive?, List.lookup_eq_none_iff, aliasPaths, List.mem_map]
  constructor
  · rintro other ⟨a, member, rfl⟩
    simpa using other a member
  · intro new a member
    rw [bne_iff_ne]
    rintro rfl
    exact new ⟨a, member, rfl⟩

theorem Tallies.path_ne_empty (tallies : c.Tallies) (found : c.primitive? path = some model) : path ≠ "" := by
  refine tallies.present path (Decidable.by_contra fun unknown => ?_)
  rw [primitive?_eq_none_iff.mpr unknown] at found
  cases found

theorem putAlias_new (new : path ∉ aliases.map Prod.fst) :
    putAlias path model aliases = aliases ++ [(path, model)] := by
  induction aliases with
  | nil => rfl
  | cons a as ih =>
    obtain ⟨p, m⟩ := a
    rw [List.map_cons, List.mem_cons, not_or] at new
    rw [putAlias, if_neg (Ne.symm new.1), ih new.2]
    rfl

theorem map_fst_putAlias (known : path ∈ aliases.map Prod.fst) :
    (putAlias path model aliases).map Prod.fst = aliases.map Prod.fst := by
  induction aliases with
  | nil => exact absurd known List.not_mem_nil
  | cons a as ih =>
    obtain ⟨p, m⟩ := a
    rw [putAlias]
    split
    · rfl
    · rename_i other
      rw [List.map_cons, List.map_cons, ih ((List.mem_cons.mp known).resolve_left (Ne.symm other))]

theorem lookup_putAlias (aliases : List (String × String)) (p : String) :
    (putAlias path model aliases).lookup p = if p = path then some model else aliases.lookup p := by
  induction aliases with
  | nil => exact lookup_cons_ite p path model []
  | cons a as ih =>
    obtain ⟨q, m⟩ := a
    rw [putAlias]
    by_cases same : q = path
    · subst same
      rw [if_pos rfl, lookup_cons_ite, lookup_cons_ite]
      split <;> rfl
    · rw [if_neg same, lookup_cons_ite, lookup_cons_ite, ih]
      by_cases first : p = q
      · rw [if_pos first, if_pos first, if_neg (first ▸ same)]
      · rw [if_neg first, if_neg first]

/-! ### One step -/

theorem primitive?_withAlias (p : String) :
    (c.withAlias path model).primitive? p = if p = path then some model else c.primitive? p :=
  lookup_putAlias c.aliases p

theorem nativePath?_withAlias (m : String) : (c.withAlias path model).nativePath? m =
    (c.nativePath? m).or (if m = model then some path else none) := by
  rw [nativePath?, withAlias]
  dsimp only
  split
  · rename_i known
    by_cases same : m = model
    · subst same
      obtain ⟨p, found⟩ := Option.isSome_iff_exists.mp known
      rw [found, Option.some_or]
      exact found
    · rw [if_neg same, Option.or_none]
      rfl
  · rw [List.lookup_append, List.lookup_cons, List.lookup_nil]
    by_cases same : m = model
    · simp [same, nativePath?]
    · rw [if_neg same, beq_eq_false_iff_ne.mpr same]
      rfl

section Step

variable (new : path ∉ c.aliasPaths)
include new

theorem aliasPaths_withAlias : (c.withAlias path model).aliasPaths = c.aliasPaths ++ [path] := by
  rw [aliasPaths, withAlias, putAlias_new new, List.map_append]
  rfl

theorem InvertsAt.withAlias {m : String} (inverts : c.InvertsAt m) : (c.withAlias path model).InvertsAt m := by
  intro p found
  rw [primitive?_withAlias]
  rw [nativePath?_withAlias, Option.or_eq_some_iff] at found
  rcases found with before | ⟨_, first⟩
  · have known := inverts p before
    have other : p ≠ path := by
      rintro rfl
      rw [primitive?_eq_none_iff.mpr new] at known
      cases known
    rw [if_neg other, known]
  · split at first
    · rename_i same
      rw [if_pos (Option.some.inj first).symm, same]
    · cases first

theorem Tallies.withAlias (tallies : c.Tallies) (present : path ≠ "") : (c.withAlias path model).Tallies where
  present p member := by
    rw [aliasPaths_withAlias new, List.mem_append, List.mem_singleton] at member
    rcases member with known | rfl
    · exact tallies.present p known
    · exact present
  native m := InvertsAt.withAlias new (tallies.native m)
  known p m found := by
    rw [nativePath?_withAlias, Option.isSome_or, Bool.or_eq_true]
    rw [primitive?_withAlias] at found
    split at found
    · obtain rfl := Option.some.inj found
      exact .inr (by simp)
    · exact .inl (tallies.known p m found)

end Step

/-! ### Whole catalogs -/

theorem Tallies.of_same {c' : Catalog} (tallies : c.Tallies) (aliases : c'.aliases = c.aliases)
    (natives : c'.natives = c.natives) : c'.Tallies := by
  obtain ⟨types, _, _, frozen⟩ := c'
  subst aliases natives
  exact ⟨tallies.present, tallies.native, tallies.known⟩

/-- Adds the aliases whose paths are new. -/
def takeAliases (c : Catalog) (aliases : List (String × String)) : Catalog :=
  aliases.foldl (fun c a => if (c.primitive? a.1).isSome then c else c.withAlias a.1 a.2) c

/-- Adds the types whose paths are new. -/
def takeTypes (c : Catalog) (types : List TypeInfo) : Catalog :=
  types.foldl (fun c t => if (c.lookup? t.path).isSome then c else { c with types := c.types ++ [t] }) c

theorem merge_eq (unfrozen : c.frozen = false) (other : Catalog) :
    c.merge other = .ok ((c.takeAliases other.aliases).takeTypes other.types) := by
  rw [merge, unfrozen]
  rfl

theorem merge_ok (merged : c.merge other = .ok next) :
    c.frozen = false ∧ next = (c.takeAliases other.aliases).takeTypes other.types := by
  cases unfrozen : c.frozen with
  | true =>
    rw [merge, unfrozen] at merged
    cases merged
  | false =>
    rw [merge_eq unfrozen] at merged
    exact ⟨rfl, (Except.ok.inj merged).symm⟩

theorem takeTypes_eq (c : Catalog) (types : List TypeInfo) :
    c.takeTypes types = { c with types := (c.takeTypes types).types } := by
  unfold takeTypes
  induction types generalizing c with
  | nil => rfl
  | cons t ts ih =>
    rw [List.foldl_cons]
    split
    · exact ih c
    · exact ih { c with types := c.types ++ [t] }

theorem takeAliases_keeps {P : Catalog → Prop}
    (step : ∀ c, ∀ a ∈ aliases, a.1 ∉ c.aliasPaths → P c → P (c.withAlias a.1 a.2)) (holds : P c) :
    P (c.takeAliases aliases) := by
  unfold takeAliases
  induction aliases generalizing c with
  | nil => exact holds
  | cons a as ih =>
    rw [List.foldl_cons]
    refine ih (fun c b member => step c b (List.mem_cons_of_mem _ member)) ?_
    split
    · exact holds
    · rename_i unknown
      rw [Option.not_isSome_iff_eq_none, primitive?_eq_none_iff] at unknown
      exact step c a List.mem_cons_self unknown holds

theorem Tallies.merge (tallies : c.Tallies) (theirs : other.Tallies)
    (merged : c.merge other = .ok next) : next.Tallies := by
  obtain ⟨-, rfl⟩ := merge_ok merged
  rw [takeTypes_eq]
  refine Tallies.of_same (takeAliases_keeps (fun c a member new tallies => ?_) tallies) rfl rfl
  exact tallies.withAlias new (theirs.present a.1 (List.mem_map_of_mem member))

/-- Whatever is merged in, a primitive keeps a path that stands for it. -/
theorem InvertsAt.merge (inverts : c.InvertsAt model)
    (merged : c.merge other = .ok next) : next.InvertsAt model := by
  obtain ⟨-, rfl⟩ := merge_ok merged
  rw [takeTypes_eq]
  exact takeAliases_keeps (P := (InvertsAt · model)) (fun c a _ new inverts => inverts.withAlias new) inverts

theorem AliasedOnce.tallies (once : c.AliasedOnce) : c.Tallies := by
  induction once with
  | empty =>
    refine ⟨by simp [aliasPaths, Catalog.empty], ?_, ?_⟩
    all_goals
      intro _ _ found
      cases found
  | addType _ added ih =>
    unfold Catalog.addType at added
    split at added
    · cases added
    split at added
    · cases added
    · cases added
      exact ih.of_same rfl rfl
  | addAlias _ present new added ih =>
    unfold Catalog.addAlias at added
    split at added
    · cases added
    · cases added
      exact ih.withAlias new present
  | merge _ _ merged ours theirs => exact ours.merge theirs merged
  | freeze _ ih => exact ih.of_same rfl rfl

end TypeEngine.Host.Catalog
