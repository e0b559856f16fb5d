import TypeEngine.Proofs.Engine.Translation
import TypeEngine.Proofs.Host.Alias
import TypeEngine.Proofs.Text.Blank

/-!
# The types that host references denote

A path of the host stands for a primitive (`Knows`) or for itself (`Stands`). `Denoted` says which types
references denote: their lists are in run-length form, and every name in them can be said to the host.
-/

namespace TypeEngine

namespace Engine

open Host

variable {e : Engine} {name path : String} {t elem : Ty} {args : List Slot}

/-! ### Names that the host understands -/

/-- The primitive that a host path stands for: by an alias, or as its own name. -/
def primitiveAt? (e : Engine) (path : String) : Option String :=
  (e.catalog.primitive? path).or (if Ty.isPrimitiveName path then some path else none)

/-- Some host path stands for the primitive. -/
def Knows (e : Engine) (name : String) : Prop := ∃ path, path ≠ "" ∧ e.primitiveAt? path = some name

theorem modelNamed_primitive (at_ : e.primitiveAt? path = some name) (args : List Slot) :
    e.modelNamed path args = modelPrimitive name args := by
  rw [primitiveAt?, Option.or_eq_some_iff] at at_
  unfold modelNamed
  rcases at_ with aliased | ⟨unknown, own⟩
  · rw [aliased]
  · rw [unknown]
    split at own
    · rename_i primitive
      obtain rfl := Option.some.inj own
      rw [if_pos primitive]
    · cases own

theorem primitiveAt?_nativeName (tallies : e.catalog.Tallies) (known : e.Knows name) :
    e.nativeName name ≠ "" ∧ e.primitiveAt? (e.nativeName name) = some name := by
  obtain ⟨path, present, at_⟩ := known
  rw [nativeName]
  cases native : e.catalog.nativePath? name with
  | some first =>
    have found := tallies.native name first native
    exact ⟨tallies.path_ne_empty found, by rw [Option.getD_some, primitiveAt?, found, Option.some_or]⟩
  | none =>
    rw [primitiveAt?, Option.or_eq_some_iff] at at_
    rcases at_ with aliased | ⟨unknown, own⟩
    · have := tallies.known path name aliased
      rw [native] at this
      cases this
    · split at own
      · rename_i primitive
        obtain rfl := Option.some.inj own
        exact ⟨present, by rw [Option.getD_none, primitiveAt?, unknown, if_pos primitive]; rfl⟩
      · cases own

/-! ### Paths that stand for themselves -/

/-- The host path stands for types with the path `main`, and can be read off it. -/
structure Stands (e : Engine) (path : String) (main : Path) : Prop where
  present : path ≠ ""
  named : ∀ args, e.modelNamed path args = .ok (some (.mk main (Slot.positional args)))
  notPrimitive : main.isPrimitive = false
  notParameter : main.isParameter = false
  notEmpty : main.isEmpty = false
  spelt : ".".intercalate (main.blocks.map Block.name) = path

theorem Stands.notList {main : Path} (stands : e.Stands path main) (slots : List Slot) :
    (Ty.mk main slots).isList = false := by
  rw [Bool.eq_false_iff]
  intro list
  have same : main.bare = (Path.ofPrimitive "list").bare := Path.beq_iff_bare.mp list
  have primitive := stands.notPrimitive
  rw [← Path.isPrimitive_bare, same] at primitive
  cases primitive

theorem intercalate_concat {glue last : String} {texts : List String} (some : texts ≠ []) :
    glue.intercalate (texts ++ [last]) = glue.intercalate texts ++ glue ++ last := by
  induction texts with
  | nil => exact absurd rfl some
  | cons first texts ih =>
    cases texts with
    | nil => simp [String.intercalate_cons_cons]
    | cons next texts =>
      have rest := ih (List.cons_ne_nil _ _)
      rw [List.cons_append] at rest
      rw [List.cons_append, List.cons_append, String.intercalate_cons_cons, rest, String.intercalate_cons_cons]
      simp [String.append_assoc]

theorem spelt_scopePath (info : TypeInfo) :
    ".".intercalate (info.scopePath.blocks.map Block.name) = info.path := by
  rw [TypeInfo.scopePath, TypeInfo.path]
  split
  · rfl
  · rename_i inner
    have segments : ".".intercalate (Text.segments info.namespaceName) = info.namespaceName :=
      String.toList_inj.mp (Text.join_splitOn rfl _)
    have names : ((Text.segments info.namespaceName).map
        fun name => ({ kind := .namespaceLevel, name } : Block)).map Block.name =
          Text.segments info.namespaceName := by
      rw [List.map_map]
      exact List.map_id _
    have some : Text.segments info.namespaceName ≠ [] := by
      rw [Text.segments, ne_eq, List.map_eq_nil_iff]
      exact Text.splitOn_ne_nil _ _
    dsimp only
    rw [List.map_append, names, List.map_singleton, intercalate_concat some, segments]

theorem toBlock_cases (k : Host.Kind) : k.toBlock ≠ .primitive ∧ k.toBlock ≠ .parameter := by
  cases k <;> decide

theorem notPrimitive_scopePath (info : TypeInfo) : info.scopePath.isPrimitive = false := by
  rw [TypeInfo.scopePath, Path.isPrimitive]
  cases outer : (if info.namespaceName = "" then [] else Text.segments info.namespaceName) with
  | nil => simp [toBlock_cases]
  | cons first rest =>
    cases rest <;> rfl

theorem modelNamed_other (unknown : e.primitiveAt? path = none) (args : List Slot) :
    e.modelNamed path args =
      if Ty.collectionNames.contains path then
        .ok (some (.mk ⟨[{ kind := .classType, name := path }]⟩ (Slot.positional args)))
      else .ok ((e.catalog.lookup? path).map fun info => .mk info.scopePath (Slot.positional args)) := by
  rw [primitiveAt?, Option.or_eq_none_iff] at unknown
  have plain : ¬Ty.isPrimitiveName path = true := by
    intro primitive
    rw [if_pos primitive] at unknown
    cases unknown.2
  unfold modelNamed
  rw [unknown.1, if_neg plain]

theorem stands_of_modelNamed (present : path ≠ "") (unknown : e.primitiveAt? path = none)
    (done : e.modelNamed path args = .ok (some t)) :
    ∃ main, e.Stands path main ∧ t = .mk main (Slot.positional args) := by
  have named := modelNamed_other unknown
  rw [named] at done
  by_cases collection : Ty.collectionNames.contains path = true
  · rw [if_pos collection] at done
    cases done
    exact ⟨_, ⟨present, fun args => by rw [named, if_pos collection], rfl, rfl, rfl, String.intercalate_singleton⟩, rfl⟩
  · rw [if_neg collection] at done
    obtain ⟨info, found, rfl⟩ := Option.map_eq_some_iff.mp (Except.ok.inj done)
    have same : info.path = path := by
      simpa using List.find?_some (p := fun t : TypeInfo => t.path = path) found
    refine ⟨_, ⟨present, fun args => ?_, notPrimitive_scopePath info, ?_, ?_, ?_⟩, rfl⟩
    · rw [named, if_neg collection, found]
      rfl
    · simp [TypeInfo.scopePath, Path.isParameter, Path.last?, toBlock_cases]
    · simp [TypeInfo.scopePath, Path.isEmpty]
    · rw [spelt_scopePath, same]

/-! ### The types that references denote -/

/-- Types that references denote. Their lists are in run-length form, and every name in them can be
said to the host, that of the null type apart. -/
inductive Denoted (e : Engine) : Ty → Prop
  | param {name : String} (present : name ≠ "") : Denoted e (.param name)
  | null : Denoted e .null
  | list {n : Int} {elem : Ty} (known : e.Knows "list") (flat : elem.isList = false) :
      Denoted e elem → Denoted e (.layered n elem)
  | shape {name : String} {ts : List Ty} (known : e.Knows name) (notList : name ≠ "list")
      (remade : ∀ us : List Ty, us.length = ts.length →
        modelPrimitive name (us.map (.type "")) = .ok (some (.named (.ofPrimitive name) us))) :
      (∀ u ∈ ts, Denoted e u) → Denoted e (.named (.ofPrimitive name) ts)
  | host {path : String} {main : Path} {slots : List Slot} (stands : e.Stands path main)
      (values : ∀ name text, .value name text ∈ slots → text ≠ "") :
      (∀ name u, .type name u ∈ slots → Denoted e u) → Denoted e (.mk main (Slot.positional slots))

theorem isList_named (name : String) (ts : List Ty) :
    (Ty.named (.ofPrimitive name) ts).isList = decide (name = "list") := by
  rw [Bool.eq_iff_iff, decide_eq_true_iff]
  change (Path.ofPrimitive name == Path.ofPrimitive "list") = true ↔ _
  rw [Path.beq_iff_bare]
  simp [Path.bare, Path.ofPrimitive, Block.bare]

theorem Denoted.of_listParts {n : Int} (denoted : e.Denoted t) (parts : t.listParts = .ok (some (n, elem))) :
    t = .layered n elem ∧ elem.isList = false ∧ e.Denoted elem := by
  have list := Ty.isList_of_listParts parts
  cases denoted with
  | param present => cases list
  | null => cases list
  | list known flat inner =>
    obtain ⟨rfl, rfl⟩ := Ty.eq_of_listParts_layered parts
    exact ⟨rfl, flat, inner⟩
  | shape known notList =>
    rw [isList_named] at list
    exact absurd (of_decide_eq_true list) notList
  | host stands =>
    rw [stands.notList] at list
    cases list

theorem Denoted.listN {k : Int} (known : e.Knows "list") (denoted : e.Denoted elem)
    (wrapped : elem.listN k = .ok t) : e.Denoted t := by
  rcases Ty.listN_cases wrapped with ⟨found, rfl⟩ | ⟨m, inner, found, rfl⟩
  · exact .list known (Ty.isList_of_none found) denoted
  · obtain ⟨_, flat, denoted⟩ := denoted.of_listParts found
    exact .list known flat denoted

theorem Denoted.modelPrimitive (known : e.Knows name)
    (each : ∀ n u, .type n u ∈ args → e.Denoted u) (done : modelPrimitive name args = .ok (some t)) :
    e.Denoted t := by
  rcases modelPrimitive_form done with ⟨rfl, n, elem, k, slot, wrapped⟩ | ⟨notList, ts, rfl, inside, remade⟩
  · exact .listN known (each n elem slot) wrapped
  · refine .shape known notList remade fun u member => ?_
    obtain ⟨n, slot⟩ := inside u member
    exact each n u slot

theorem Denoted.modelNamed (present : path ≠ "")
    (values : ∀ n text, .value n text ∈ args → text ≠ "") (each : ∀ n u, .type n u ∈ args → e.Denoted u)
    (done : e.modelNamed path args = .ok (some t)) : e.Denoted t := by
  cases at_ : e.primitiveAt? path with
  | some name =>
    rw [modelNamed_primitive at_] at done
    exact .modelPrimitive ⟨path, present, at_⟩ each done
  | none =>
    obtain ⟨main, stands, rfl⟩ := stands_of_modelNamed present at_ done
    exact .host stands values each

theorem denoted_of_toModelAt (r : Ref) {depth : Nat} (found : e.toModelAt depth r = .ok (some t)) :
    e.Denoted t :=
  toModelAt_rec (P := fun _ t => e.Denoted t) (fun _ present => .param present) (fun _ => .null)
    (fun _ present values types found => .modelNamed present values types found) r found

end Engine

end TypeEngine
