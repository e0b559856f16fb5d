import Mathlib.Data.List.Nodup
import TypeEngine.Proofs.Host.Chain
import TypeEngine.Proofs.Host.File
import TypeEngine.Proofs.Package.Load

/-!
# What the catalog of a program holds

The catalog of a program has each exported type of the described packages at its path, and apart from
maps nothing else (`Describes.of_catalog`). A type with a base refers to the path of the base
(`base_path`), which is in the catalog exactly if the base is exported.
-/

namespace TypeEngine

open Host (Catalog TypeInfo)

namespace Host.Catalog

variable {c : Catalog} {t : TypeInfo}

theorem lookup?_of_mem_types (distinct : c.typePaths.Nodup) (member : t ∈ c.types) :
    c.lookup? t.path = some t := by
  obtain ⟨i, found⟩ := Option.isSome_iff_exists.mp (lookup?_isSome.mpr (List.mem_map_of_mem member))
  rw [found, List.inj_on_of_nodup_map distinct (List.mem_of_find?_eq_some found) member (path_of_lookup? found)]

theorem exists_foldlM_addType {ts : List TypeInfo} (unfrozen : c.frozen = false)
    (distinct : (c.typePaths ++ ts.map TypeInfo.path).Nodup) :
    ∃ c', ts.foldlM addType c = .ok c' ∧ c'.frozen = false := by
  induction ts generalizing c with
  | nil => exact ⟨c, rfl, unfrozen⟩
  | cons t ts ih =>
    rw [List.map_cons, List.append_cons] at distinct
    have new : (c.lookup? t.path).isSome = false := by
      rw [← Bool.not_eq_true, lookup?_isSome]
      exact fun known => (List.nodup_append.mp (List.nodup_append.mp distinct).1).2.2 _ known _ (by simp) rfl
    have added : c.addType t = .ok { c with types := c.types ++ [t.declare] } := by
      rw [addType, unfrozen, new]
      rfl
    rw [List.foldlM_cons, added]
    refine ih unfrozen ?_
    rwa [typePaths, List.map_append]

end Host.Catalog

namespace Package

namespace Program

variable {p : Program} {c : Catalog} {package : String} {d : TypeDef} {t : Shape}

/-! ### The types of the catalog -/

/-- The types that are described. -/
def describedTypes (p : Program) : List TypeDef := p.loaded.flatMap fun l => p.exportedTypes l.path

/-- The catalog has the described types. -/
structure Describes (p : Program) (c : Catalog) : Prop where
  holds : ∀ d ∈ p.describedTypes, c.lookup? (p.typeInfo d).path = some (p.typeInfo d).declare
  only : ∀ i ∈ c.types, i.path = "Map" ∨ ∃ d ∈ p.describedTypes, i.path = (p.typeInfo d).path

theorem foldlM_addPackage {ls : List Loaded} {c c' : Catalog} (done : ls.foldlM p.addPackage c = .ok c') :
    c'.types = c.types ++ ((ls.flatMap fun l => p.exportedTypes l.path).map p.typeInfo).map TypeInfo.declare ∧
      (c.typePaths.Nodup → c'.typePaths.Nodup) := by
  induction ls generalizing c with
  | nil =>
    cases done
    exact ⟨by simp, id⟩
  | cons l ls ih =>
    rw [List.foldlM_cons] at done
    obtain ⟨next, first, done⟩ := Ty.exists_of_bind done
    obtain ⟨rfl, kept⟩ := Catalog.foldlM_addType (Ty.ok_of_mapError first)
    obtain ⟨grown, distinct⟩ := ih done
    refine ⟨?_, distinct ∘ kept⟩
    rw [grown, List.append_assoc, ← List.map_append, ← List.map_append, List.flatMap_cons]

theorem Describes.of_types (distinct : c.typePaths.Nodup) {more : List TypeInfo}
    (types : c.types = (p.describedTypes.map p.typeInfo).map TypeInfo.declare ++ more)
    (maps : ∀ i ∈ more, i.path = "Map") : p.Describes c where
  holds d member := by
    refine Catalog.lookup?_of_mem_types (t := (p.typeInfo d).declare) distinct ?_
    rw [types]
    exact List.mem_append_left _ (List.mem_map_of_mem (List.mem_map_of_mem member))
  only i member := by
    rw [types, List.mem_append, List.map_map] at member
    rcases member with member | member
    · obtain ⟨d, listed, rfl⟩ := List.mem_map.mp member
      exact .inr ⟨d, listed, rfl⟩
    · exact .inl (maps i member)

theorem Describes.of_catalog (done : p.catalog = .ok c) : p.Describes c := by
  unfold catalog at done
  obtain ⟨described, added, done⟩ := Ty.exists_of_bind done
  obtain ⟨grown, distinct⟩ := foldlM_addPackage added
  replace distinct := distinct List.nodup_nil
  have plain : described.types = (p.describedTypes.map p.typeInfo).map TypeInfo.declare ++ [] := by
    rw [List.append_nil]
    exact grown
  dsimp only at done
  split at done <;> cases done
  · -- The type of maps comes after the described ones.
    cases maps : described.addType { name := "Map", typeParams := ["K", "V"] } with
    | error _ => exact .of_types distinct plain (by simp)
    | ok c' =>
      obtain ⟨rfl, kept⟩ := Catalog.addType_ok maps
      refine .of_types (kept distinct) (congrArg (· ++ _) grown) fun i member => ?_
      obtain rfl := List.mem_singleton.mp member
      rfl
  · exact .of_types distinct plain (by simp)

theorem exists_foldlM_addPackage {ls : List Loaded} {c : Catalog} (unfrozen : c.frozen = false)
    (distinct :
      (c.typePaths ++ ((ls.flatMap fun l => p.exportedTypes l.path).map p.typeInfo).map TypeInfo.path).Nodup) :
    ∃ c', ls.foldlM p.addPackage c = .ok c' := by
  induction ls generalizing c with
  | nil => exact ⟨c, rfl⟩
  | cons l ls ih =>
    rw [List.flatMap_cons, List.map_append, List.map_append, ← List.append_assoc] at distinct
    obtain ⟨next, first, open_⟩ := Catalog.exists_foldlM_addType unfrozen (List.nodup_append.mp distinct).1
    have added : p.addPackage c l = .ok next := by
      rw [addPackage, first]
      rfl
    rw [List.foldlM_cons, added]
    refine ih open_ ?_
    obtain ⟨rfl, _⟩ := Catalog.foldlM_addType first
    rw [Catalog.typePaths, List.map_append, List.map_map (f := TypeInfo.declare)]
    exact distinct

theorem exists_catalog (distinct : (p.describedTypes.map fun d => (p.typeInfo d).path).Nodup) :
    ∃ c, p.catalog = .ok c := by
  obtain ⟨c, added⟩ : ∃ c, p.loaded.foldlM p.addPackage startingCatalog = .ok c := by
    refine exists_foldlM_addPackage rfl ?_
    rw [List.map_map]
    exact distinct
  rw [catalog, added]
  exact ⟨_, rfl⟩

/-! ### Paths -/

theorem packageName?_eq_some (regular : p.Regular) {name : String}
    (found : p.packageName? package = some name) :
    name ≠ "" ∧ (∀ type path, wellKnown.lookup (package ++ "." ++ type) = some path → path = name ++ "." ++ type) ∧
      ∃ l ∈ p.loaded, l.path = package := by
  obtain ⟨l, listed, rfl⟩ := Option.map_eq_some_iff.mp found
  have member := List.mem_of_find?_eq_some listed
  have path := List.find?_some listed
  obtain rfl := of_decide_eq_true path
  exact ⟨regular.packages l member, regular.wellKnown l member, l, member, rfl⟩

theorem mem_describedTypes : d ∈ p.describedTypes ↔
    d ∈ p.types ∧ isExported d.id.name = true ∧ ∃ l ∈ p.loaded, l.path = d.id.package := by
  simp only [describedTypes, exportedTypes, List.mem_flatMap, List.mem_mergeSort, List.mem_filter, Bool.and_eq_true,
    decide_eq_true_eq]
  constructor
  · rintro ⟨l, member, declared, package, exported⟩
    exact ⟨declared, exported, l, member, package.symm⟩
  · rintro ⟨declared, exported, l, member, package⟩
    exact ⟨l, member, declared, package.symm, exported⟩

theorem typeInfo_path (regular : p.Regular)
    (found : p.packageName? d.id.package = some package) : (p.typeInfo d).path = package ++ "." ++ d.id.name := by
  have named : (p.typeInfo d).namespaceName = package := by
    show (p.packageName? d.id.package).getD "" = package
    rw [found]
    rfl
  rw [TypeInfo.path, named, if_neg (packageName?_eq_some regular found).1]
  rfl

theorem exists_packageName (described : d ∈ p.describedTypes) :
    ∃ package, p.packageName? d.id.package = some package := by
  obtain ⟨_, _, l, member, path⟩ := mem_describedTypes.mp described
  rw [packageName?, ← Option.isSome_iff_exists, Option.isSome_map, List.find?_isSome]
  exact ⟨l, member, decide_eq_true path⟩

theorem name_of_path {package' name name' : String} (plain : '.' ∉ name.toList) (plain' : '.' ∉ name'.toList)
    (same : package ++ "." ++ name = package' ++ "." ++ name') : name = name' := by
  have last : ∀ (package : String) {name : String}, '.' ∉ name.toList →
      (package ++ "." ++ name).toList.reverse.takeWhile (· ≠ '.') = name.toList.reverse := by
    intro package name plain
    have chars : (package ++ "." ++ name).toList.reverse = name.toList.reverse ++ '.' :: package.toList.reverse := by
      simp
    have before : ∀ c ∈ name.toList.reverse, decide (c ≠ '.') = true := by
      intro c member
      rw [decide_eq_true_eq]
      rintro rfl
      exact plain (List.mem_reverse.mp member)
    rw [chars, List.takeWhile_append_of_pos before, List.takeWhile_cons_of_neg (by decide), List.append_nil]
  have equal := last package plain
  rw [same, last package' plain'] at equal
  exact (String.toList_inj.mp (List.reverse_injective equal)).symm

theorem path_ne (package name : String) : package ++ "." ++ name ≠ "" ∧ package ++ "." ++ name ≠ "Map" := by
  have point : '.' ∈ (package ++ "." ++ name).toList := by simp
  constructor <;> intro same <;> rw [same] at point <;> exact absurd point (by decide)

/-! ### Bases -/

/-- The form of a type is that of a structure. -/
def IsStruct (p : Program) (t : Shape) : Prop := ∃ owner ls ts, p.body? t = some (.shape (.struct owner ls ts))

theorem IsStruct.isInterface (struct_ : p.IsStruct t) : p.isInterface t = false := by
  obtain ⟨owner, ls, ts, body⟩ := struct_
  rw [Program.isInterface, body]

theorem IsStruct.isError {q n : String} {args : List Shape} (struct_ : p.IsStruct (.named q n args)) :
    p.isError (.named q n args) = false := by
  obtain ⟨owner, ls, ts, body⟩ := struct_
  have none : p.interfaceMethods (.named q n args) = [] := by
    rw [interfaceMethods, interfaceMethodsAt, body]
  rw [Program.isError, none]

theorem IsStruct.declared {q n : String} {args : List Shape} (struct_ : p.IsStruct (.named q n args)) :
    q ≠ "" ∧ ∃ b, p.type? ⟨q, n⟩ = some b := by
  obtain ⟨owner, ls, ts, body⟩ := struct_
  have package : q ≠ "" := by
    rintro rfl
    rw [body?, Shape.resolved, bodyAt_builtin] at body
    · split at body <;> cases body
    · intro _ same
      cases same
  rw [body?, Shape.resolved, bodyAt_declared package] at body
  · obtain ⟨b, found, _⟩ := Option.bind_eq_some_iff.mp body
    exact ⟨package, b, found⟩
  · intro _ same
    cases same

theorem isLoadedStruct_eq_true (loaded : p.isLoadedStruct t = true) :
    ∃ q n args, t = .named q n args ∧ (p.packageName? q).isSome = true ∧ p.IsStruct (.named q n args) := by
  unfold isLoadedStruct at loaded
  split at loaded
  · rename_i q n args
    obtain ⟨package, struct_⟩ := Bool.and_eq_true_iff.mp loaded
    split at struct_
    · rename_i owner ls ts body
      exact ⟨q, n, args, rfl, package, owner, ls, ts, body⟩
    · cases struct_
  · cases loaded

theorem base?_eq_some {s : Shape} {l : Label} {place : Nat} (found : p.base? s = some ((l, t), place)) :
    (t, place) ∈ p.embeds s ∧ p.isLoadedStruct t.pointee = true := by
  have rules := List.find?_some found
  obtain ⟨embedded, loaded⟩ := Bool.and_eq_true_iff.mp rules
  refine ⟨List.mem_map.mpr ⟨((l, t), place), ?_, rfl⟩, loaded⟩
  exact List.mem_filter.mpr ⟨List.mem_of_find?_eq_some found, embedded⟩

/-- The type has the base, which it embeds at the place. -/
structure HasBase (p : Program) (d b : TypeDef) (place : Nat) : Prop where
  declared : p.type? b.id = some b
  field : ∃ l t args, p.base? (self d) = some ((l, t), place) ∧ t.pointee = .named b.id.package b.id.name args

theorem exists_hasBase {place : Nat} (found : (p.base? (self d)).map Prod.snd = some place) :
    ∃ b, p.HasBase d b place := by
  obtain ⟨⟨⟨l, t⟩, _⟩, base, rfl⟩ := Option.map_eq_some_iff.mp found
  obtain ⟨q, n, args, named, _, struct_⟩ := isLoadedStruct_eq_true (base?_eq_some base).2
  obtain ⟨_, b, declared⟩ := struct_.declared
  have same := List.find?_some declared
  have id : b.id = ⟨q, n⟩ := of_decide_eq_true same
  exact ⟨b, id ▸ declared, l, t, args, base, by rw [id]; exact named⟩

namespace HasBase

variable {d b : TypeDef} {place : Nat}

theorem base? (base : p.HasBase d b place) : (p.base? (self d)).map Prod.snd = some place := by
  obtain ⟨l, t, args, found, _⟩ := base.field
  rw [found]
  rfl

/-- What is known of the type of the field in which the base is embedded. -/
theorem exists_embedded (base : p.HasBase d b place) :
    ∃ t args, (t, place) ∈ p.embeds (self d) ∧ t.target = .named b.id.package b.id.name args ∧
      (p.packageName? b.id.package).isSome = true ∧ p.IsStruct (.named b.id.package b.id.name args) ∧
      (p.typeInfo d).base? = some (p.ref (.named b.id.package b.id.name args)) := by
  obtain ⟨l, t, args, found, named⟩ := base.field
  obtain ⟨embedded, loaded⟩ := base?_eq_some found
  obtain ⟨q, n, args', same, package, struct_⟩ := isLoadedStruct_eq_true loaded
  rw [named] at same
  cases same
  refine ⟨t, args, embedded, ?_, package, struct_, ?_⟩
  · cases t with
    | pointer e =>
      obtain rfl : e = _ := named
      rfl
    | named => cases named; rfl
    | _ => cases named
  · show (p.base? (self d)).map (fun base => p.ref base.1.2.pointee) = _
    rw [found, Option.map_some]
    exact congrArg (fun t => some (p.ref t)) named

theorem isInterface (settled : p.Settled) (base : p.HasBase d b place) :
    p.isInterface (self d) = false ∧ p.isInterface (self b) = false := by
  obtain ⟨t, args, embedded, _, _, struct_, _⟩ := base.exists_embedded
  constructor
  · by_contra other
    have none := no_struct fun q ls ts body => other (IsStruct.isInterface ⟨q, ls, ts, body⟩)
    rw [none.1] at embedded
    cases embedded
  · rw [← struct_.isInterface]
    exact isInterface_bare settled rfl

theorem exists_path (regular : p.Regular) (base : p.HasBase d b place) :
    ∃ r, (p.typeInfo d).base? = some r ∧ r.path = (p.typeInfo b).path ∧
      ∃ package, (p.typeInfo b).path = package ++ "." ++ b.id.name := by
  obtain ⟨t, args, _, _, package, struct_, found⟩ := base.exists_embedded
  obtain ⟨package, package_⟩ := Option.isSome_iff_exists.mp package
  have path := typeInfo_path regular package_
  refine ⟨_, found, ?_, package, path⟩
  have known := (packageName?_eq_some regular package_).2.1 b.id.name
  rw [ref, struct_.isError, path]
  show p.namedPath b.id.package b.id.name = _
  rw [namedPath, if_neg struct_.declared.1, package_]
  cases found : wellKnown.lookup (b.id.package ++ "." ++ b.id.name) with
  | none => rfl
  | some path => exact known path found

theorem isBase (regular : p.Regular) (describes : p.Describes c) (base : p.HasBase d b place)
    (exported : isExported b.id.name = true) :
    b ∈ p.describedTypes ∧ c.IsBase (p.typeInfo d).declare (p.typeInfo b).declare := by
  obtain ⟨r, above, path, package, dotted⟩ := base.exists_path regular
  obtain ⟨_, _, _, _, loaded, _⟩ := base.exists_embedded
  obtain ⟨name, loaded⟩ := Option.isSome_iff_exists.mp loaded
  have package_ := (packageName?_eq_some regular loaded).2.2
  have described : b ∈ p.describedTypes :=
    mem_describedTypes.mpr ⟨List.mem_of_find?_eq_some base.declared, exported, package_⟩
  refine ⟨described, r, above, ?_, ?_⟩
  · rw [path, dotted]
    exact (path_ne package b.id.name).1
  · rw [path]
    exact describes.holds b described

theorem absent (regular : p.Regular) (describes : p.Describes c) (base : p.HasBase d b place)
    (hidden : isExported b.id.name = false) : ∃ r, (p.typeInfo d).base? = some r ∧ c.lookup? r.path = none := by
  obtain ⟨r, above, path, package, dotted⟩ := base.exists_path regular
  have plain := regular.names b (List.mem_of_find?_eq_some base.declared)
  refine ⟨r, above, ?_⟩
  rw [path, dotted]
  by_contra found
  obtain ⟨i, found⟩ := Option.ne_none_iff_exists'.mp found
  have at_ := Catalog.path_of_lookup? found
  rcases describes.only i (List.mem_of_find?_eq_some found) with map | ⟨e, described, same⟩
  · exact (path_ne package b.id.name).2 (at_.symm.trans map)
  · obtain ⟨package', loaded⟩ := exists_packageName described
    rw [same, typeInfo_path regular loaded] at at_
    obtain ⟨declared, exported, _⟩ := mem_describedTypes.mp described
    rw [name_of_path (regular.names e declared) plain at_, hidden] at exported
    cases exported

end HasBase

end Program

end Package

end TypeEngine
