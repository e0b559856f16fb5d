import Mathlib.Data.List.Find
import TypeEngine.Proofs.Host.History

/-!
# Merging catalogs

Merging keeps what is there and appends what is new. A catalog in whose making no host path was aliased
twice is made of its first entries (`Orderly`), and so is a merge of such catalogs (`union_eq`): of the
types and the aliases of both, one after the other, the first one of each path counts, and the paths of
primitives follow from the aliases. The laws of merging are laws of first entries.
-/

namespace TypeEngine.Host

/-- Types of the same path. -/
def samePath (t u : TypeInfo) : Bool := t.path = u.path

theorem samePath_iff (t u : TypeInfo) : samePath t u = true ↔ t.path = u.path := decide_eq_true_iff

namespace Catalog

/-- A catalog in whose making no host path was aliased twice. -/
def AliasedSingly (c : Catalog) : Prop := ∃ log, c.Records log ∧ (log.map Prod.fst).Nodup

/-- The catalog as it can be added to. -/
def thaw (c : Catalog) : Catalog := { c with frozen := false }

/-- What merging the second catalog into the first one gives, whether the first one is frozen or not. -/
def union (a b : Catalog) : Catalog := (a.thaw.takeAliases b.aliases).takeTypes b.types

/-- The merge of catalogs, where earlier ones win. -/
def unionAll (cs : List Catalog) : Catalog := cs.foldl union .empty

/-- The catalog of the first types and aliases of two lists. A primitive is known by the first path that
stands for it. -/
def ofFirsts (types : List TypeInfo) (aliases : List (String × String)) : Catalog :=
  { types := firsts samePath types
    aliases := firsts sameFirst aliases
    natives := firsts sameFirst ((firsts sameFirst aliases).map Prod.swap) }

/-- Different entries have different paths, and the paths of primitives follow from the aliases. -/
structure Orderly (c : Catalog) : Prop where
  types : c.typePaths.Nodup
  aliases : c.aliasPaths.Nodup
  natives : c.natives = firsts sameFirst (c.aliases.map Prod.swap)

variable {a b c : Catalog} {types : List TypeInfo} {aliases : List (String × String)}

theorem orderly_ofFirsts (types : List TypeInfo) (aliases : List (String × String)) :
    (ofFirsts types aliases).Orderly :=
  ⟨nodup_firsts samePath_iff types, nodup_firsts sameFirst_iff aliases, rfl⟩

theorem Orderly.thaw_eq (orderly : c.Orderly) : c.thaw = ofFirsts c.types c.aliases := by
  rw [ofFirsts, firsts_eq_self samePath_iff orderly.types, firsts_eq_self sameFirst_iff orderly.aliases,
    ← orderly.natives]
  rfl

/-! ### Catalogs of first entries -/

theorem types_takeTypes (c : Catalog) (types : List TypeInfo) :
    (c.takeTypes types).types =
      types.foldl (fun kept t => if kept.any (samePath · t) then kept else kept ++ [t]) c.types := by
  unfold takeTypes
  induction types generalizing c with
  | nil => rfl
  | cons t ts ih =>
    have known : (c.lookup? t.path).isSome = c.types.any (samePath · t) := List.isSome_find?
    rw [List.foldl_cons, List.foldl_cons, known, ih]
    split <;> rfl

theorem aliases_takeAliases (c : Catalog) (aliases : List (String × String)) :
    (c.takeAliases aliases).aliases =
      aliases.foldl (fun kept a => if kept.any (sameFirst · a) then kept else kept ++ [a]) c.aliases := by
  unfold takeAliases
  induction aliases generalizing c with
  | nil => rfl
  | cons a as ih =>
    have known : (c.primitive? a.1).isSome = c.aliases.any (sameFirst · a) := (any_sameFirst _ a).symm
    rw [List.foldl_cons, List.foldl_cons, ih]
    cases taken : c.aliases.any (sameFirst · a) with
    | true => rw [known.trans taken, if_pos rfl, if_pos rfl]
    | false =>
      have new : a.1 ∉ c.aliases.map Prod.fst := by
        rw [← aliasPaths, ← primitive?_eq_none_iff, ← Option.not_isSome_iff_eq_none, known.trans taken]
        exact Bool.false_ne_true
      rw [known.trans taken, if_neg Bool.false_ne_true, if_neg Bool.false_ne_true]
      exact congrArg (List.foldl _ · as) (putAlias_new new)

theorem natives_takeAliases (natives : c.natives = firsts sameFirst (c.aliases.map Prod.swap))
    (aliases : List (String × String)) :
    (c.takeAliases aliases).natives = firsts sameFirst ((c.takeAliases aliases).aliases.map Prod.swap) := by
  refine takeAliases_keeps (P := fun c => c.natives = firsts sameFirst (c.aliases.map Prod.swap))
    (fun c a _ new natives => ?_) natives
  rw [natives_withAlias natives, withAlias, putAlias_new new, List.map_append]
  rfl

theorem takeAliases_eq (c : Catalog) (aliases : List (String × String)) :
    c.takeAliases aliases = { c with aliases := (c.takeAliases aliases).aliases
                                     natives := (c.takeAliases aliases).natives } :=
  takeAliases_keeps (P := fun d => d = { c with aliases := d.aliases, natives := d.natives })
    (fun d a _ _ same => by rw [same]; rfl) rfl

theorem union_eq (orderly : a.Orderly) (b : Catalog) :
    a.union b = ofFirsts (a.types ++ b.types) (a.aliases ++ b.aliases) := by
  have ofAliases : (a.thaw.takeAliases b.aliases).aliases = firsts sameFirst (a.aliases ++ b.aliases) := by
    rw [aliases_takeAliases, ← foldl_firsts sameFirst_iff, firsts_eq_self sameFirst_iff orderly.aliases]
    rfl
  have ofNatives := natives_takeAliases (c := a.thaw) orderly.natives b.aliases
  have ofTypes : ((a.thaw.takeAliases b.aliases).takeTypes b.types).types =
      firsts samePath (a.types ++ b.types) := by
    rw [types_takeTypes, takeAliases_eq, ← foldl_firsts samePath_iff, firsts_eq_self samePath_iff orderly.types]
    rfl
  rw [union, takeTypes_eq, ofTypes, takeAliases_eq, ofNatives, ofAliases]
  rfl

theorem ofFirsts_append (types types' : List TypeInfo) (aliases aliases' : List (String × String)) :
    (ofFirsts types aliases).union (ofFirsts types' aliases') =
      ofFirsts (types ++ types') (aliases ++ aliases') := by
  rw [union_eq (orderly_ofFirsts types aliases)]
  simp only [ofFirsts, firsts_firsts_append samePath_iff, firsts_append_firsts samePath_iff,
    firsts_firsts_append sameFirst_iff, firsts_append_firsts sameFirst_iff]

theorem union_eq_thaw (a b : Catalog) : a.union b = a.thaw.union b.thaw := rfl

/-! ### Catalogs without repeated aliases -/

theorem nodup_takeTypes (distinct : c.typePaths.Nodup) (types : List TypeInfo) :
    (c.takeTypes types).typePaths.Nodup := by
  have first : c.types = firsts samePath c.types := (firsts_eq_self samePath_iff distinct).symm
  rw [typePaths, types_takeTypes, first, foldl_firsts samePath_iff]
  exact nodup_firsts samePath_iff _

theorem Records.nodup_typePaths {log : List (String × String)} (records : c.Records log) :
    c.typePaths.Nodup := by
  induction records with
  | empty => exact List.nodup_nil
  | addType _ added ih => exact (addType_ok added).2 ih
  | addAlias _ added ih =>
    unfold Catalog.addAlias at added
    split at added
    · cases added
    · cases added
      exact ih
  | @merge c other _ _ _ _ _ merged ours _ =>
    obtain ⟨-, rfl⟩ := merge_ok merged
    refine nodup_takeTypes ?_ _
    rw [takeAliases_eq]
    exact ours
  | freeze _ ih => exact ih

theorem AliasedSingly.orderly (single : c.AliasedSingly) : c.Orderly := by
  obtain ⟨log, records, once⟩ := single
  refine ⟨records.nodup_typePaths, records.holds.distinct, ?_⟩
  rw [records.holds.listed once]
  exact records.holds.natives

theorem Orderly.primitive?_eq (orderly : c.Orderly) {entry : String × String} (member : entry ∈ c.aliases) :
    c.primitive? entry.1 = some entry.2 := by
  obtain ⟨front, back, parts⟩ := List.append_of_mem member
  refine List.lookup_eq_some_iff.mpr ⟨front, back, parts, fun other earlier => bne_iff_ne.mpr fun same => ?_⟩
  have distinct := orderly.aliases
  rw [aliasPaths, parts, List.map_append, List.nodup_append] at distinct
  exact distinct.2.2 _ (List.mem_map_of_mem earlier) _ (by simp) same.symm

theorem Orderly.nativePath?_eq (orderly : c.Orderly) (model : String) :
    c.nativePath? model = c.aliasPaths.find? fun path => c.primitive? path = some model := by
  rw [nativePath?, orderly.natives, lookup_firsts_swap, firstPath?, aliasPaths, List.find?_map]
  refine congrArg (Option.map Prod.fst) (List.find?_congr fun entry member => ?_)
  simp [orderly.primitive?_eq member]

theorem AliasedSingly.thaw_eq (single : c.AliasedSingly) : c.thaw = ofFirsts c.types c.aliases :=
  single.orderly.thaw_eq

/-! ### The laws -/

theorem ofFirsts_union (types : List TypeInfo) (aliases : List (String × String)) (single : c.AliasedSingly) :
    (ofFirsts types aliases).union c = ofFirsts (types ++ c.types) (aliases ++ c.aliases) := by
  rw [union_eq_thaw, single.thaw_eq]
  exact ofFirsts_append types c.types aliases c.aliases

theorem union_ofFirsts (single : c.AliasedSingly) (types : List TypeInfo) (aliases : List (String × String)) :
    c.union (ofFirsts types aliases) = ofFirsts (c.types ++ types) (c.aliases ++ aliases) := by
  rw [union_eq_thaw, single.thaw_eq]
  exact ofFirsts_append c.types types c.aliases aliases

theorem union_assoc (onceA : a.AliasedSingly) (onceB : b.AliasedSingly) (onceC : c.AliasedSingly) :
    (a.union b).union c = a.union (b.union c) := by
  rw [union_eq onceA.orderly, union_eq onceB.orderly, ofFirsts_union _ _ onceC, union_ofFirsts onceA,
    List.append_assoc, List.append_assoc]

theorem empty_union (single : a.AliasedSingly) : Catalog.empty.union a = a.thaw :=
  (ofFirsts_union [] [] single).trans single.thaw_eq.symm

theorem union_empty (a : Catalog) : a.union .empty = a.thaw := rfl

theorem union_self (single : a.AliasedSingly) : a.union a = a.thaw := by
  rw [union_eq single.orderly, single.thaw_eq, ofFirsts, ofFirsts, firsts_append_self samePath_iff,
    firsts_append_self sameFirst_iff]

theorem merge_eq_union (unfrozen : a.frozen = false) (b : Catalog) : a.merge b = .ok (a.union b) := by
  have same : a.thaw = a := by rw [thaw, ← unfrozen]
  rw [merge_eq unfrozen, union, same]

theorem foldlM_merge (cs : List Catalog) {start : Catalog} (unfrozen : start.frozen = false) :
    cs.foldlM merge start = .ok (cs.foldl union start) := by
  induction cs generalizing start with
  | nil => rfl
  | cons c cs ih =>
    have next : (start.union c).frozen = false := by
      rw [union, takeTypes_eq, takeAliases_eq]
      rfl
    rw [List.foldlM_cons, merge_eq_union unfrozen, List.foldl_cons, ← ih next]
    rfl

theorem unionAll_eq {cs : List Catalog} (single : ∀ c ∈ cs, c.AliasedSingly) :
    unionAll cs = ofFirsts (cs.flatMap Catalog.types) (cs.flatMap Catalog.aliases) := by
  unfold unionAll
  induction cs using List.reverseRecOn with
  | nil => rfl
  | append_singleton cs c ih =>
    rw [List.foldl_concat, ih fun c member => single c (List.mem_append_left _ member),
      ofFirsts_union _ _ (single c (by simp))]
    simp

section Lookups

variable (cs : List Catalog)

theorem lookup?_ofFirsts (path : String) :
    (ofFirsts (cs.flatMap Catalog.types) aliases).lookup? path = cs.findSome? (·.lookup? path) := by
  have search : (firsts samePath (cs.flatMap Catalog.types)).find? (·.path = path) =
      (cs.flatMap Catalog.types).find? (·.path = path) :=
    find?_firsts samePath_iff (fun t u same => by rw [same]) _
  exact search.trans List.find?_flatMap

theorem primitive?_ofFirsts (path : String) :
    (ofFirsts types (cs.flatMap Catalog.aliases)).primitive? path = cs.findSome? (·.primitive? path) := by
  have search : (firsts sameFirst (cs.flatMap Catalog.aliases)).find? (·.1 = path) =
      (cs.flatMap Catalog.aliases).find? (·.1 = path) :=
    find?_firsts sameFirst_iff (fun a b same => by rw [same]) _
  rw [primitive?, lookup_eq_find?]
  calc ((firsts sameFirst (cs.flatMap Catalog.aliases)).find? (·.1 = path)).map Prod.snd
      = ((cs.flatMap Catalog.aliases).find? (·.1 = path)).map Prod.snd := by rw [search]
    _ = (cs.findSome? fun c => c.aliases.find? (·.1 = path)).map Prod.snd := by rw [List.find?_flatMap]
    _ = cs.findSome? fun c => (c.aliases.find? (·.1 = path)).map Prod.snd := List.map_findSome?
    _ = cs.findSome? (·.primitive? path) := by simp only [primitive?, lookup_eq_find?]

theorem typePaths_ofFirsts :
    (ofFirsts (cs.flatMap Catalog.types) aliases).typePaths = (cs.flatMap typePaths).eraseDups :=
  (map_firsts samePath_iff _).trans (congrArg List.eraseDups List.map_flatMap)

theorem aliasPaths_ofFirsts :
    (ofFirsts types (cs.flatMap Catalog.aliases)).aliasPaths = (cs.flatMap aliasPaths).eraseDups :=
  (map_firsts sameFirst_iff _).trans (congrArg List.eraseDups List.map_flatMap)

end Lookups

/-- Merging catalogs in which no host path is aliased twice. It does not matter how merges are grouped;
the empty catalog adds nothing, and neither does the catalog itself. A merge of many catalogs answers as
the earliest one that has the path, lists every path once, in the order in which the paths come up, and
knows a primitive by the first aliased path that stands for it. -/
theorem union_leftBiased :
    (∀ a b c : Catalog, a.AliasedSingly → b.AliasedSingly → c.AliasedSingly →
      (a.frozen = false → a.merge b = .ok (a.union b)) ∧
      (a.union b).union c = a.union (b.union c) ∧
      Catalog.empty.union a = a.thaw ∧ a.union .empty = a.thaw ∧ a.union a = a.thaw) ∧
    ∀ cs : List Catalog, (∀ c ∈ cs, c.AliasedSingly) →
      cs.foldlM merge .empty = .ok (unionAll cs) ∧
      (∀ path, (unionAll cs).lookup? path = cs.findSome? (·.lookup? path)) ∧
      (∀ path, (unionAll cs).primitive? path = cs.findSome? (·.primitive? path)) ∧
      (unionAll cs).typePaths = (cs.flatMap typePaths).eraseDups ∧
      (unionAll cs).aliasPaths = (cs.flatMap aliasPaths).eraseDups ∧
      ∀ model, (unionAll cs).nativePath? model =
        (unionAll cs).aliasPaths.find? fun path => (unionAll cs).primitive? path = some model := by
  constructor
  · intro a b c onceA onceB onceC
    exact ⟨fun unfrozen => merge_eq_union unfrozen b, union_assoc onceA onceB onceC, empty_union onceA,
      union_empty a, union_self onceA⟩
  · intro cs single
    refine ⟨foldlM_merge cs rfl, ?_⟩
    rw [unionAll_eq single]
    exact ⟨lookup?_ofFirsts cs, primitive?_ofFirsts cs, typePaths_ofFirsts cs, aliasPaths_ofFirsts cs,
      (orderly_ofFirsts _ _).nativePath?_eq⟩

/-- A host whose words are of the type `int`. -/
def narrowHost : Catalog :=
  { Catalog.empty.withAlias "word" "int" with types := [{ name := "Box", typeParams := ["T"] }] }

/-- A host whose words are of the type `long`, which has a second name. -/
def wideHost : Catalog :=
  { (Catalog.empty.withAlias "word" "long").withAlias "quad" "long" with
    types := [{ name := "Box" }, { name := "Lid" }] }

/-- The first host has the word, so that `long` is known by its second name. -/
theorem union_leftBiased_words :
    narrowHost.AliasedSingly ∧ wideHost.AliasedSingly ∧
      (narrowHost.union wideHost).union narrowHost = narrowHost.union (wideHost.union narrowHost) ∧
      wideHost.nativePath? "long" = some "word" ∧
      (unionAll [narrowHost, wideHost]).nativePath? "long" = some "quad" ∧
      ((unionAll [narrowHost, wideHost]).lookup? "Box").map TypeInfo.typeParams = some ["T"] ∧
      (unionAll [narrowHost, wideHost]).typePaths = ["Box", "Lid"] := by
  have narrow : narrowHost.AliasedSingly := ⟨[("word", "int")],
    (Records.empty.addAlias rfl).addType (t := { name := "Box", typeParams := ["T"] }) rfl, by decide⟩
  have wide : wideHost.AliasedSingly := ⟨[("word", "long"), ("quad", "long")],
    (((Records.empty.addAlias rfl).addAlias rfl).addType (t := { name := "Box" }) rfl).addType
      (t := { name := "Lid" }) rfl, by decide⟩
  obtain ⟨-, types, -, listed, -, native⟩ := union_leftBiased.2 [narrowHost, wideHost] (by simp [narrow, wide])
  refine ⟨narrow, wide, (union_leftBiased.1 _ _ _ narrow wide narrow).2.1, rfl, ?_, ?_, ?_⟩
  · rw [native]
    rfl
  · rw [types]
    rfl
  · rw [listed]
    decide

end Catalog

end TypeEngine.Host
