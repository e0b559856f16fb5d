import TypeEngine.Proofs.Firsts
import TypeEngine.Proofs.Host.RoundTrip

/-!
# Catalogs and the registrations that led to them

What a catalog says about primitives follows from the list of aliases that were registered in it. A
primitive is known by the path that was registered first for it, and a path stands for the primitive
for which it was registered last (`Records.holds`). So the two agree exactly if no primitive loses its
path to another one (`native_inverts_iff`).
-/

namespace TypeEngine.Host

/-- The aliases of a file in the order in which they are registered. -/
def File.aliases (f : File) : List (String × String) :=
  match f.primitives with
  | .pairs aliases => aliases
  | _ => []

/-- Aliases of the same host path, or natives of the same primitive. -/
def sameFirst (a b : String × String) : Bool := a.1 = b.1

theorem sameFirst_iff (a b : String × String) : sameFirst a b = true ↔ a.1 = b.1 := decide_eq_true_iff

theorem any_sameFirst (entries : List (String × String)) (a : String × String) :
    entries.any (sameFirst · a) = (entries.lookup a.1).isSome := by
  rw [Bool.eq_iff_iff, List.any_eq_true, List.lookup_isSome_iff]
  simp only [sameFirst_iff, beq_iff_eq, eq_comm (a := a.1)]

theorem find?_cons_ite (k : String) (a : String × String) (entries : List (String × String)) :
    (a :: entries).find? (·.1 = k) = if k = a.1 then some a else entries.find? (·.1 = k) := by
  rw [List.find?_cons]
  by_cases same : k = a.1
  · rw [if_pos same, decide_eq_true same.symm]
  · rw [if_neg same, decide_eq_false (Ne.symm same)]

theorem lookup_eq_find? (entries : List (String × String)) (k : String) :
    entries.lookup k = (entries.find? (·.1 = k)).map Prod.snd := by
  induction entries with
  | nil => rfl
  | cons a as ih =>
    rw [find?_cons_ite, lookup_cons_ite, ih]
    split <;> rfl

namespace Catalog

variable {c : Catalog} {log : List (String × String)}

/-- Catalogs with the aliases that were registered in them, in order. A merge registers the aliases
of the other catalog whose paths are new. -/
inductive Records : Catalog → List (String × String) → Prop
  | empty : Records .empty []
  | addType {c next : Catalog} {log : List (String × String)} {t : TypeInfo} :
      Records c log → c.addType t = .ok next → Records next log
  | addAlias {c next : Catalog} {log : List (String × String)} {path model : String} :
      Records c log → c.addAlias path model = .ok next → Records next (log ++ [(path, model)])
  | merge {c other next : Catalog} {log theirs : List (String × String)} :
      Records c log → Records other theirs → c.merge other = .ok next →
      Records next (log ++ other.aliases.filter fun a => (c.primitive? a.1).isNone)
  | freeze {c : Catalog} {log : List (String × String)} : Records c log → Records c.freeze log

/-- The host path that was registered first for a primitive. -/
def firstPath? (log : List (String × String)) (model : String) : Option String :=
  (log.find? (·.2 = model)).map Prod.fst

/-- The primitive for which a host path was registered last. -/
def lastModel? (log : List (String × String)) (path : String) : Option String :=
  (log.reverse.find? (·.1 = path)).map Prod.snd

theorem lastModel?_concat (log : List (String × String)) (path model p : String) :
    lastModel? (log ++ [(path, model)]) p = if p = path then some model else lastModel? log p := by
  rw [lastModel?, List.reverse_concat, find?_cons_ite]
  split <;> rfl

theorem lookup_firsts_swap (entries : List (String × String)) (model : String) :
    (firsts sameFirst (entries.map Prod.swap)).lookup model = firstPath? entries model := by
  have search : (firsts sameFirst (entries.map Prod.swap)).find? (·.1 = model) =
      (entries.map Prod.swap).find? (·.1 = model) :=
    find?_firsts sameFirst_iff (fun a b same => by rw [same]) _
  rw [lookup_eq_find?, search, List.find?_map, Option.map_map]
  rfl

theorem natives_withAlias {entries : List (String × String)}
    (natives : c.natives = firsts sameFirst entries) (path model : String) :
    (c.withAlias path model).natives = firsts sameFirst (entries ++ [(model, path)]) := by
  have known : (c.nativePath? model).isSome = entries.any (sameFirst · (model, path)) := by
    rw [← any_firsts sameFirst_iff, ← natives, any_sameFirst]
    rfl
  rw [withAlias, known, natives, firsts_concat]

/-- What a catalog says about primitives is what its registrations say. -/
structure Holds (c : Catalog) (log : List (String × String)) : Prop where
  natives : c.natives = firsts sameFirst (log.map Prod.swap)
  last : ∀ path, c.primitive? path = lastModel? log path
  distinct : c.aliasPaths.Nodup
  listed : (log.map Prod.fst).Nodup → c.aliases = log

namespace Holds

variable {c : Catalog} {log : List (String × String)}

theorem empty : Holds .empty [] := ⟨rfl, fun _ => rfl, List.nodup_nil, fun _ => rfl⟩

theorem of_same {c' : Catalog} (holds : c.Holds log) (aliases : c'.aliases = c.aliases)
    (natives : c'.natives = c.natives) : c'.Holds log := by
  obtain ⟨types, _, _, frozen⟩ := c'
  subst aliases natives
  exact ⟨holds.natives, holds.last, holds.distinct, holds.listed⟩

theorem withAlias (holds : c.Holds log) (path model : String) :
    (c.withAlias path model).Holds (log ++ [(path, model)]) where
  natives := by rw [natives_withAlias holds.natives, List.map_append]; rfl
  last p := by rw [primitive?_withAlias, holds.last, lastModel?_concat]
  distinct := by
    by_cases known : path ∈ c.aliasPaths
    · rw [show (c.withAlias path model).aliasPaths = c.aliasPaths from map_fst_putAlias known]
      exact holds.distinct
    · rw [aliasPaths_withAlias known, List.nodup_append]
      refine ⟨holds.distinct, List.nodup_singleton _, fun p member q single => ?_⟩
      obtain rfl := List.mem_singleton.mp single
      rintro rfl
      exact known member
  listed once := by
    rw [List.map_append, List.nodup_append] at once
    have same := holds.listed once.1
    have new : path ∉ c.aliases.map Prod.fst := by
      rw [same]
      exact fun known => once.2.2 path known path (List.mem_singleton.mpr rfl) rfl
    change putAlias path model c.aliases = _
    rw [putAlias_new new, same]

theorem takeAliases {aliases : List (String × String)} (holds : c.Holds log)
    (distinct : (aliases.map Prod.fst).Nodup) :
    (c.takeAliases aliases).Holds (log ++ aliases.filter fun a => (c.primitive? a.1).isNone) := by
  unfold Catalog.takeAliases
  induction aliases generalizing c log with
  | nil =>
    rw [List.filter_nil, List.append_nil]
    exact holds
  | cons a as ih =>
    obtain ⟨path, model⟩ := a
    rw [List.map_cons, List.nodup_cons] at distinct
    rw [List.foldl_cons]
    dsimp only
    split
    · rename_i known
      rw [List.filter_cons_of_neg (by simpa [Option.isSome_iff_ne_none] using known)]
      exact ih holds distinct.2
    · rename_i unknown
      have rest := ih (holds.withAlias path model) distinct.2
      -- the alias is new, and the others have other paths
      have others : (as.filter fun a => ((c.withAlias path model).primitive? a.1).isNone) =
          as.filter fun a => (c.primitive? a.1).isNone := by
        refine List.filter_congr fun b member => ?_
        have other : b.1 ≠ path := fun same => distinct.1 (List.mem_map.mpr ⟨b, member, same⟩)
        rw [primitive?_withAlias, if_neg other]
      rw [others, List.append_assoc] at rest
      rw [List.filter_cons_of_pos (by simpa using unknown)]
      exact rest

end Holds

/-! ### Whole catalogs -/

theorem Records.holds (records : c.Records log) :
    c.Holds log := by
  induction records with
  | empty => exact .empty
  | addType _ added ih =>
    obtain ⟨rfl, -⟩ := addType_ok added
    exact ih.of_same rfl rfl
  | addAlias _ added ih =>
    unfold Catalog.addAlias at added
    split at added
    · cases added
    · cases added
      exact ih.withAlias _ _
  | merge _ _ merged ours theirs =>
    obtain ⟨-, rfl⟩ := merge_ok merged
    rw [takeTypes_eq]
    exact (ours.takeAliases theirs.distinct).of_same rfl rfl
  | freeze _ ih => exact ih.of_same rfl rfl

theorem Records.nativePath?_eq (records : c.Records log)
    (model : String) : c.nativePath? model = firstPath? log model := by
  rw [nativePath?, records.holds.natives, lookup_firsts_swap]

theorem records_of_addEntries {ts : List TypeEntry} {c' : Catalog}
    {index : Nat} (records : c.Records log) (done : c.addEntries index ts = .ok c') : c'.Records log := by
  induction ts generalizing c index with
  | nil =>
    cases done
    exact records
  | cons t ts ih =>
    rw [addEntries] at done
    obtain ⟨info, -, done⟩ := Ty.exists_of_bind done
    obtain ⟨next, added, done⟩ := Ty.exists_of_bind done
    exact ih (records.addType (Ty.ok_of_mapError added)) done

theorem records_foldl_withAlias {aliases : List (String × String)} (records : c.Records log)
    (unfrozen : c.frozen = false) :
    (aliases.foldl (fun c a => c.withAlias a.1 a.2) c).Records (log ++ aliases) := by
  induction aliases generalizing c log with
  | nil =>
    rw [List.append_nil]
    exact records
  | cons a as ih =>
    have next : (c.withAlias a.1 a.2).Records (log ++ [(a.1, a.2)]) :=
      records.addAlias (by rw [Catalog.addAlias, unfrozen]; rfl)
    have rest := ih next unfrozen
    rwa [List.append_assoc] at rest

theorem records_of_ofFile {f : File} (done : ofFile f = .ok c) : c.Records f.aliases := by
  have rest : ∀ aliases : List (String × String),
      ((aliases.foldl (fun c a => c.withAlias a.1 a.2) Catalog.empty).addEntries 0 f.types >>=
        fun c => pure c.freeze) = .ok c → c.Records aliases := by
    intro aliases done
    obtain ⟨c', added, done⟩ := Ty.exists_of_bind done
    cases done
    exact (records_of_addEntries (records_foldl_withAlias .empty rfl) added).freeze
  unfold ofFile at done
  unfold File.aliases
  dsimp only at done
  cases found : f.primitives with
  | absent =>
    rw [found] at done
    exact rest [] done
  | pairs aliases =>
    rw [found] at done
    exact rest aliases done
  | noMapping =>
    rw [found] at done
    cases done

/-! ### Primitives that lose their paths -/

/-- The primitive loses its host path: the path was registered for it before any other one, then for
another primitive, and not again. -/
def Loses (log : List (String × String)) (model : String) : Prop :=
  ∃ path other before between after,
    log = before ++ (path, model) :: (between ++ (path, other) :: after) ∧
      (∀ a ∈ before, a.2 ≠ model) ∧ other ≠ model ∧ ∀ a ∈ after, a.1 ≠ path

section Loses

variable {log : List (String × String)} {path model : String}

theorem firstPath?_eq_some_iff : firstPath? log model = some path ↔
    ∃ before after, log = before ++ (path, model) :: after ∧ ∀ a ∈ before, a.2 ≠ model := by
  rw [firstPath?, Option.map_eq_some_iff]
  constructor
  · rintro ⟨⟨p, m⟩, found, rfl⟩
    obtain ⟨same, before, after, parts, none⟩ := List.find?_eq_some_iff_append.mp found
    obtain rfl := of_decide_eq_true same
    exact ⟨before, after, parts, fun a member => by simpa using none a member⟩
  · rintro ⟨before, after, parts, none⟩
    refine ⟨(path, model), List.find?_eq_some_iff_append.mpr ⟨decide_eq_true rfl, before, after, parts, ?_⟩, rfl⟩
    exact fun a member => by simpa using none a member

theorem lastModel?_eq_some_iff : lastModel? log path = some model ↔
    ∃ before after, log = before ++ (path, model) :: after ∧ ∀ a ∈ after, a.1 ≠ path := by
  rw [lastModel?, Option.map_eq_some_iff]
  constructor
  · rintro ⟨⟨p, m⟩, found, rfl⟩
    obtain ⟨same, after, before, parts, none⟩ := List.find?_eq_some_iff_append.mp found
    obtain rfl := of_decide_eq_true same
    refine ⟨before.reverse, after.reverse, ?_, fun a member => ?_⟩
    · rw [← List.reverse_reverse log, parts]
      simp
    · simpa using none a (List.mem_reverse.mp member)
  · rintro ⟨before, after, rfl, none⟩
    refine ⟨(path, model), List.find?_eq_some_iff_append.mpr
      ⟨decide_eq_true rfl, after.reverse, before.reverse, by simp, fun a member => ?_⟩, rfl⟩
    simpa using none a (List.mem_reverse.mp member)

theorem loses_iff : Loses log model ↔
    ∃ path other, firstPath? log model = some path ∧ lastModel? log path = some other ∧ other ≠ model := by
  simp only [firstPath?_eq_some_iff, lastModel?_eq_some_iff]
  constructor
  · rintro ⟨path, other, before, between, after, rfl, first, different, last⟩
    exact ⟨path, other, ⟨before, _, rfl, first⟩,
      ⟨before ++ (path, model) :: between, after, by simp, last⟩, different⟩
  · rintro ⟨path, other, ⟨before, rest, rfl, first⟩, ⟨front, after, same, last⟩, different⟩
    rcases List.append_eq_append_iff.mp same with ⟨between, rfl, tail⟩ | ⟨between, rfl, tail⟩
    · cases between with
      | nil =>
        obtain ⟨entry, -⟩ := List.cons.inj tail
        exact absurd (Prod.mk.inj entry).2.symm different
      | cons b between =>
        obtain ⟨rfl, rfl⟩ := List.cons.inj tail
        exact ⟨path, other, before, between, after, rfl, first, different, last⟩
    · -- the first registration for the primitive does not come after the last one of the path
      cases between with
      | nil =>
        obtain ⟨entry, -⟩ := List.cons.inj tail
        exact absurd (Prod.mk.inj entry).2 different
      | cons b between =>
        obtain ⟨-, rfl⟩ := List.cons.inj tail
        exact absurd rfl (last (path, model) (by simp))

instance : Decidable (Loses log model) :=
  decidable_of_iff (((firstPath? log model).bind (lastModel? log)).any (· ≠ model) = true) <| by
    rw [loses_iff]
    cases firstPath? log model <;> simp [Option.any_eq_true]

end Loses

theorem Records.invertsAt_iff (records : c.Records log)
    (model : String) : c.InvertsAt model ↔ ¬Loses log model := by
  rw [loses_iff]
  unfold InvertsAt
  simp only [records.nativePath?_eq, records.holds.last]
  constructor
  · rintro inverts ⟨path, other, first, last, different⟩
    rw [inverts path first] at last
    exact different (Option.some.inj last).symm
  · intro kept path first
    obtain ⟨before, after, rfl, -⟩ := firstPath?_eq_some_iff.mp first
    cases last : lastModel? (before ++ (path, model) :: after) path with
    | none =>
      rw [lastModel?, Option.map_eq_none_iff, List.find?_eq_none] at last
      exact absurd (decide_eq_true rfl) (last (path, model) (by simp))
    | some other =>
      by_contra different
      exact kept ⟨path, other, first, last, fun same => different (same ▸ rfl)⟩

/-- Whatever was registered, added and merged in whatever order, the host path of a primitive stands for
the primitive exactly if the primitive did not lose it. For the catalog of a file this is a matter of
the aliases in the file. A merge takes no path away. -/
theorem native_inverts_iff {c : Catalog} {log : List (String × String)} (records : c.Records log)
    (model : String) :
    (c.InvertsAt model ↔ ¬Loses log model) ∧
    (∀ f, ofFile f = .ok c → (c.InvertsAt model ↔ ¬Loses f.aliases model)) ∧
    ∀ other next, c.InvertsAt model → c.merge other = .ok next → next.InvertsAt model := by
  refine ⟨records.invertsAt_iff model, ?_, fun other next => InvertsAt.merge⟩
  intro f read
  exact (records_of_ofFile read).invertsAt_iff model

/-- A file in which the second path of a primitive goes to another one. -/
def shifted : File := { primitives := .pairs [("i32", "int"), ("word", "int"), ("word", "long")] }

theorem native_inverts_iff_shifted :
    ∃ c, ofFile shifted = .ok c ∧ c.nativePath? "int" = some "i32" ∧ c.nativePath? "long" = some "word" ∧
      c.InvertsAt "int" ∧ c.InvertsAt "long" := by
  obtain ⟨c, read, paths⟩ : ∃ c, ofFile shifted = .ok c ∧
      (c.nativePath? "int" = some "i32" ∧ c.nativePath? "long" = some "word") :=
    ⟨_, rfl, rfl, rfl⟩
  have records := records_of_ofFile read
  exact ⟨c, read, paths.1, paths.2,
    ((native_inverts_iff records "int").2.1 _ read).mpr (by decide),
    ((native_inverts_iff records "long").2.1 _ read).mpr (by decide)⟩

/-- The path `i32` is registered for `int` and then for `long`. The catalog still knows `int` by it. -/
theorem native_misses :
    ∃ c, ofFile { primitives := .pairs [("i32", "int"), ("i32", "long")] } = .ok c ∧
      c.Records [("i32", "int"), ("i32", "long")] ∧
      c.nativePath? "int" = some "i32" ∧ c.primitive? "i32" = some "long" := by
  obtain ⟨c, read, answers⟩ :
      ∃ c, ofFile { primitives := .pairs [("i32", "int"), ("i32", "long")] } = .ok c ∧
        (c.nativePath? "int" = some "i32" ∧ c.primitive? "i32" = some "long") :=
    ⟨_, rfl, rfl, rfl⟩
  exact ⟨c, read, records_of_ofFile read, answers⟩

end Catalog

end TypeEngine.Host
