import TypeEngine.Host.Document
import TypeEngine.Proofs.Host.Ref
import TypeEngine.Proofs.Ty.Outcome

/-!
# Catalogs read back

A catalog reads back from the file that describes it (`Catalog.ofFile_toFile`) when each reference in
it does, its types have names and different paths, and what files leave out is what reading puts
there: the names of constructors, the declaring types of members and the order of primitives.
-/

namespace TypeEngine.Host

open Ty (bind_ok)

variable {names : List String} {c : Catalog} {t : TypeInfo} {ts : List TypeInfo}

/-! ### Callables -/

/-- The callable reads back where `names` are the parameters of its type. -/
structure Callable.ReadsBack (names : List String) (c : Callable) : Prop where
  ret : c.ret.ReadsBack (names ++ c.typeParams)
  params : ∀ p ∈ c.params, p.type.ReadsBack (names ++ c.typeParams)
  last : ∀ p ∈ c.params.dropLast, p.variadic = false

theorem readParams_entry {ps : List Param}
    (each : ∀ p ∈ ps, p.type.ReadsBack names) (last : ∀ p ∈ ps.dropLast, p.variadic = false) :
    readParams names (ps.map Param.entry) = .ok ps := by
  induction ps with
  | nil => rfl
  | cons p ps ih =>
    have type : Ref.parse p.entry.type names = .ok p.type := each p (by simp)
    have fits : (p.entry.variadic && !(ps.map Param.entry).isEmpty) = false := by
      cases ps with
      | nil => simp
      | cons q qs =>
        have single : p.variadic = false := last p (by simp)
        rw [show p.entry.variadic = false from single, Bool.false_and]
    have rest : readParams names (ps.map Param.entry) = .ok ps :=
      ih (fun q member => each q (List.mem_cons_of_mem _ member)) fun q member => by
        cases ps with
        | nil => cases member
        | cons q' qs => exact last q (List.mem_cons_of_mem _ member)
    rw [List.map_cons, readParams, type, fits, rest]
    rfl

theorem deprecationOf?_text (d : Deprecation) : deprecationOf? d.text = some d := by
  cases d <;> rfl

theorem Callable.read_entry {c : Callable} (back : c.ReadsBack names) (name : String) :
    CallableEntry.read { c.entry with name } names = .ok { c with name } := by
  have ret : Ref.parse c.entry.ret (names ++ c.typeParams) = .ok c.ret := back.ret
  have params := readParams_entry back.params back.last
  unfold CallableEntry.read
  dsimp only
  rw [show c.entry.deprecated = c.deprecated.text from rfl, deprecationOf?_text]
  dsimp only
  rw [show c.entry.typeParams = c.typeParams from rfl, ret,
    show c.entry.params = c.params.map Param.entry from rfl, params]
  rfl

/-! ### Types -/

/-- The type without what its members say of the type that declares them. -/
def TypeInfo.undeclared (t : TypeInfo) : TypeInfo :=
  { t with
    properties := t.properties.map fun p => { p with declaring := "" }
    constants := t.constants.map fun k => { k with declaring := "" } }

structure TypeInfo.ReadsBack (t : TypeInfo) : Prop where
  named : t.name ≠ ""
  base : ∀ r ∈ t.base?, r.display ≠ "" ∧ r.ReadsBack t.typeParams
  interfaces : ∀ r ∈ t.interfaces, r.ReadsBack t.typeParams
  methods : ∀ m ∈ t.methods, m.ReadsBack t.typeParams
  constructors : ∀ c ∈ t.constructors, c.name = t.name ∧ c.ReadsBack t.typeParams
  properties : ∀ p ∈ t.properties, p.declaring = t.path ∧ p.type.ReadsBack t.typeParams
  constants : ∀ k ∈ t.constants,
    k.declaring = t.path ∧ k.type.display ≠ "" ∧ k.type.ReadsBack t.typeParams

theorem mapM_map_ok {ε α β γ : Type} {f : α → β} {g : β → Except ε γ} {h : α → γ} {l : List α}
    (each : ∀ a ∈ l, g (f a) = .ok (h a)) : (l.map f).mapM g = .ok (l.map h) := by
  induction l with
  | nil => rfl
  | cons a l ih =>
    rw [List.map_cons, List.mapM_cons, each a (by simp), bind_ok,
      ih fun b member => each b (List.mem_cons_of_mem _ member)]
    rfl

theorem Kind.name_ne_empty (k : Kind) : k.name ≠ "" := by
  cases k <;> decide

theorem Kind.ofName?_name (k : Kind) : Kind.ofName? k.name = some k := by
  cases k <;> rfl

theorem TypeInfo.declare_undeclared (back : t.ReadsBack) : t.undeclared.declare = t := by
  have properties : t.undeclared.declare.properties = t.properties :=
    calc t.undeclared.declare.properties
        = t.properties.map fun p => { p with declaring := t.path } := List.map_map
      _ = t.properties.map id :=
        List.map_congr_left fun p member => by rw [← (back.properties p member).1]; rfl
      _ = t.properties := List.map_id _
  have constants : t.undeclared.declare.constants = t.constants :=
    calc t.undeclared.declare.constants
        = t.constants.map fun k => { k with declaring := t.path } := List.map_map
      _ = t.constants.map id :=
        List.map_congr_left fun k member => by rw [← (back.constants k member).1]; rfl
      _ = t.constants := List.map_id _
  calc t.undeclared.declare
      = { t with properties := t.undeclared.declare.properties
                 constants := t.undeclared.declare.constants } := rfl
    _ = t := by rw [properties, constants]

theorem PropertyEntry.read_display {p : Property} (back : p.type.ReadsBack names) :
    PropertyEntry.read { p with type := p.type.display } names = .ok { p with declaring := "" } := by
  have type : Ref.parse p.type.display names = .ok p.type := back
  rw [PropertyEntry.read, type]
  rfl

theorem ConstantEntry.read_display {k : Constant} (owner : String)
    (shown : k.type.display ≠ "") (back : k.type.ReadsBack names) :
    ConstantEntry.read { k with type := k.type.display } owner names = .ok { k with declaring := "" } := by
  have type : Ref.parse k.type.display names = .ok k.type := back
  rw [ConstantEntry.read, if_neg shown, type]
  rfl

theorem TypeInfo.reference_display {r : Ref} (back : r.ReadsBack t.typeParams) :
    t.entry.reference r.display = .ok r := by
  have parsed : Ref.parse r.display t.entry.typeParams = .ok r := back
  rw [TypeEntry.reference, parsed]
  rfl

theorem TypeInfo.readMembers_entry (back : t.ReadsBack) :
    t.entry.readMembers t.kind t.base? = .ok t.undeclared := by
  have interfaces : t.entry.interfaces.mapM t.entry.reference = .ok (t.interfaces.map id) :=
    mapM_map_ok fun r member => reference_display (back.interfaces r member)
  have methods : t.entry.methods.mapM
      (fun m => (m.read t.entry.typeParams).mapError (EntryFault.method m.name)) = .ok (t.methods.map id) :=
    mapM_map_ok fun m member => congrArg (Except.mapError (EntryFault.method m.name))
      (Callable.read_entry (back.methods m member) m.name)
  have constructors : t.entry.constructors.mapM
      (fun c => ((c.read t.entry.typeParams).map fun c => { c with name := t.entry.name }).mapError
        EntryFault.constructor) = .ok (t.constructors.map id) := by
    refine mapM_map_ok fun c member => ?_
    obtain ⟨named, readsBack⟩ := back.constructors c member
    rw [show t.entry.typeParams = t.typeParams from rfl, Callable.read_entry readsBack,
      show t.entry.name = c.name from named.symm]
    rfl
  have properties : t.entry.properties.mapM (·.read t.entry.typeParams) = .ok t.undeclared.properties :=
    mapM_map_ok fun p member => PropertyEntry.read_display (back.properties p member).2
  have constants : t.entry.constants.mapM (·.read t.entry.path t.entry.typeParams) =
      .ok t.undeclared.constants :=
    mapM_map_ok fun k member =>
      ConstantEntry.read_display t.entry.path (back.constants k member).2.1 (back.constants k member).2.2
  rw [List.map_id] at interfaces methods constructors
  rw [TypeEntry.readMembers, interfaces, methods, constructors, properties, constants]
  rfl

theorem TypeInfo.read_entry (back : t.ReadsBack) : t.entry.read = .ok t.undeclared := by
  have kind : t.entry.kind ≠ "" := t.kind.name_ne_empty
  have base : t.entry.base = (t.base?.map Ref.display).getD "" := rfl
  have members := readMembers_entry back
  unfold TypeEntry.read
  rw [if_neg (show t.entry.name ≠ "" from back.named), if_neg kind,
    show Kind.ofName? t.entry.kind = some t.kind from t.kind.ofName?_name, base]
  cases found : t.base? with
  | none =>
    rw [found] at members
    exact members
  | some r =>
    obtain ⟨shown, readsBack⟩ := back.base r found
    rw [found] at members
    change (if r.display = "" then t.entry.readMembers t.kind none
      else some <$> t.entry.reference r.display >>= t.entry.readMembers t.kind) = _
    rw [if_neg shown, reference_display readsBack]
    exact members

/-! ### Catalogs -/

structure Catalog.ReadsBack (c : Catalog) : Prop where
  types : ∀ t ∈ c.types, t.ReadsBack
  distinct : c.typePaths.Nodup
  /-- Registering the aliases in their order gives the aliases and natives of the catalog. -/
  aliases : c.aliases.foldl (fun c (path, model) => c.withAlias path model) Catalog.empty =
    { aliases := c.aliases, natives := c.natives }
  frozen : c.frozen = true

theorem Catalog.lookup?_isSome {path : String} :
    (c.lookup? path).isSome = true ↔ path ∈ c.typePaths := by
  simp [lookup?, typePaths]

theorem Catalog.addType_ok {c' : Catalog} (done : c.addType t = .ok c') :
    c' = { c with types := c.types ++ [t.declare] } ∧ (c.typePaths.Nodup → c'.typePaths.Nodup) := by
  unfold addType at done
  split at done
  · cases done
  split at done
  · cases done
  · rename_i new
    cases done
    refine ⟨rfl, fun before => ?_⟩
    rw [lookup?_isSome] at new
    have paths : typePaths { c with types := c.types ++ [t.declare] } = c.typePaths ++ [t.path] :=
      List.map_append
    rw [paths, List.nodup_append]
    refine ⟨before, by simp, fun path known other single => ?_⟩
    obtain rfl := List.mem_singleton.mp single
    rintro rfl
    exact new known

theorem Catalog.foldlM_addType {c' : Catalog} (done : ts.foldlM addType c = .ok c') :
    c' = { c with types := c.types ++ ts.map TypeInfo.declare } ∧
      (c.typePaths.Nodup → c'.typePaths.Nodup) := by
  induction ts generalizing c with
  | nil =>
    cases done
    exact ⟨by simp, id⟩
  | cons t ts ih =>
    rw [List.foldlM_cons] at done
    obtain ⟨mid, first, done⟩ := Ty.exists_of_bind done
    obtain ⟨rfl, kept⟩ := addType_ok first
    obtain ⟨rfl, distinct⟩ := ih done
    exact ⟨by simp, distinct ∘ kept⟩

theorem Catalog.foldlM_addType_of_nodup (unfrozen : c.frozen = false)
    (fresh : (c.typePaths ++ ts.map TypeInfo.path).Nodup) :
    ts.foldlM addType c = .ok { c with types := c.types ++ ts.map TypeInfo.declare } := by
  induction ts generalizing c with
  | nil => simp [pure, Except.pure]
  | cons t ts ih =>
    have new : (c.lookup? t.path).isSome = false := by
      rw [← Bool.not_eq_true, lookup?_isSome]
      exact fun known => (List.nodup_append.mp fresh).2.2 _ known _ (by simp) rfl
    have added : c.addType t = .ok { c with types := c.types ++ [t.declare] } := by
      rw [addType, unfrozen, new]
      rfl
    have own : t.declare.path = t.path := rfl
    have rest := ih (c := { c with types := c.types ++ [t.declare] }) unfrozen
      (by simpa [typePaths, own] using fresh)
    rw [List.foldlM_cons, added, Ty.bind_ok, rest, List.map_cons, List.append_assoc]
    rfl

theorem Catalog.addEntries_entry (each : ∀ t ∈ ts, t.ReadsBack)
    (fresh : (c.typePaths ++ ts.map TypeInfo.path).Nodup) (unfrozen : c.frozen = false) (index : Nat) :
    c.addEntries index (ts.map TypeInfo.entry) = .ok { c with types := c.types ++ ts } := by
  induction ts generalizing c index with
  | nil => rw [List.map_nil, addEntries, List.append_nil]
  | cons t ts ih =>
    have back := each t (by simp)
    have new : (c.lookup? t.path).isSome = false := by
      rw [← Bool.not_eq_true, lookup?_isSome]
      exact fun known => (List.nodup_append.mp fresh).2.2 _ known _ (by simp) rfl
    have added : c.addType t.undeclared = .ok { c with types := c.types ++ [t] } := by
      rw [addType, unfrozen, show t.undeclared.path = t.path from rfl, new,
        TypeInfo.declare_undeclared back]
      rfl
    have rest := ih (c := { c with types := c.types ++ [t] })
      (fun u member => each u (List.mem_cons_of_mem _ member))
      (by simpa [typePaths] using fresh) unfrozen (index + 1)
    rw [List.map_cons, addEntries, TypeInfo.read_entry back]
    change ((c.addType t.undeclared).mapError _ >>= _) = _
    rw [added]
    change addEntries _ (index + 1) _ = _
    rw [rest, List.append_assoc]
    rfl

theorem Catalog.ofFile_toFile (back : c.ReadsBack) : Catalog.ofFile c.toFile = .ok c := by
  have types := addEntries_entry (c := { aliases := c.aliases, natives := c.natives }) back.types
    back.distinct rfl 0
  have rest : (do
      let c ← (c.aliases.foldl (fun c (path, model) => c.withAlias path model) Catalog.empty).addEntries 0
        c.toFile.types
      return c.freeze) = Except.ok c := by
    rw [back.aliases, show c.toFile.types = c.types.map TypeInfo.entry from rfl, types, bind_ok]
    exact congrArg Except.ok (by rw [freeze, ← back.frozen]; rfl)
  have primitives : c.toFile.primitives = if c.aliases.isEmpty then .absent else .pairs c.aliases := rfl
  unfold ofFile
  rw [primitives]
  cases found : c.aliases
  all_goals
    rw [found] at rest
    exact rest

/-! ### Texts -/

/-- The text of the file reads as the file. -/
def Codec.Keeps (k : Codec) (f : File) : Prop := k.decode (k.encode f) = some f

theorem Codec.parse_of_decode {k : Codec} {text : String} {f : File} (decoded : k.decode text = some f) :
    k.parse text = Catalog.ofFile f := by
  rw [parse, decoded]

theorem Codec.parse_render {k : Codec} (back : c.ReadsBack) (kept : k.Keeps c.toFile) :
    k.parse (k.render c) = .ok c := by
  rw [render, parse_of_decode kept]
  exact Catalog.ofFile_toFile back

/-- Whether the text of a document reads as the document is a matter of its characters. -/
theorem Codec.keeps_yaml {f : File}
    (kept : (Yaml.Node.ofChars f.node.chars).bind File.ofDocument? = some f) : Codec.yaml.Keeps f := by
  rw [Keeps, yaml]
  dsimp only
  rwa [Yaml.Node.parse, Yaml.Node.render, String.toList_ofList]

end TypeEngine.Host
