import TypeEngine.Proofs.Host.File
import TypeEngine.Proofs.Proto.Linked
import TypeEngine.Proofs.Proto.Reach

/-!
# Catalogs of schemas read back

The catalog of a linked library reads back from the file that describes it
(`Library.catalog_readsBack`): its references are made of declared paths.
-/

namespace TypeEngine.Proto

open Host (Catalog TypeInfo Callable Ref)

variable {path : String} {l : Library}

/-! ### References -/

theorem isBlank_of_isWordChar {c : Char} (word : Token.isWordChar c = true) : Text.isBlank c = false :=
  Parse.forall_isWordChar (P := fun c => Text.isBlank c = false) (by decide) word

theorem isDelimiter_of_isWordChar {c : Char} (word : Token.isWordChar c = true) : Ref.isDelimiter c = false :=
  Parse.forall_isWordChar (P := fun c => Ref.isDelimiter c = false) (by decide) word

theorem IsPath.isLabel (isPath : IsPath path) : Ref.IsLabel path.toList := by
  have visible : ∀ c ∈ path.toList, Text.isBlank c = false := by
    intro c member
    rcases isPath.chars c member with word | rfl
    · exact isBlank_of_isWordChar word
    · rfl
  refine ⟨ne_nil_of_letters isPath.letters, fun c member => ?_, ?_, ?_⟩
  · rcases isPath.chars c member with word | rfl
    · exact isDelimiter_of_isWordChar word
    · rfl
  · cases first : path.toList.head? with
    | none => rfl
    | some c => exact visible c (List.mem_of_head? first)
  · cases last : path.toList.getLast? with
    | none => rfl
    | some c => exact visible c (List.mem_of_getLast? last)

theorem IsPath.written (isPath : IsPath path) : Ref.Written [] (.ofPath path) :=
  .path isPath.isLabel isPath.letters (by simp)

theorem written_listOf {r : Ref} (written : Ref.Written [] r) : Ref.Written [] (listOf r) := by
  have list : IsPath "list" := (IsName.of_all (by decide) (by decide)).isPath
  exact .applied list.isLabel list.letters (by simpa using written)

theorem Scalar.isPath_name (s : Scalar) : IsPath s.name := by
  refine IsName.isPath ?_
  cases s
  all_goals exact .of_all (by decide) (by decide)

theorem FieldType.written_ref {t : FieldType} (resolved : t.IsResolved) : Ref.Written [] t.ref := by
  unfold FieldType.ref
  split
  · exact written_listOf (IsName.of_all (by decide) (by decide)).isPath.written
  · exact (Scalar.isPath_name _).written
  · exact IsPath.written resolved
  · exact IsPath.written resolved
  · exact IsPath.written resolved
  · exact absurd resolved id

theorem Message.written_refOf {m : Message} (sound : m.Sound True) (isEntry : m.isMapEntry = true) {n : Int}
    (listed : n ∈ [(1 : Int), 2]) : Ref.Written [] (m.refOf n) := by
  obtain ⟨_, fields, _, _, entry⟩ := sound
  obtain ⟨f, member, number⟩ := entry isEntry n listed
  rw [refOf]
  cases found : m.fields.find? (·.number = n) with
  | none => exact absurd (List.find?_eq_none.mp found f member) (by simp [number])
  | some g => exact FieldType.written_ref (fields trivial g (List.mem_of_find?_eq_some found))

section

variable {l : Library} (sound : ∀ f ∈ l.files, f.Sound True)
include sound

theorem Library.sound_message {m : Message} (found : l.message? path = some m) :
    m.Sound True := by
  obtain ⟨before, after, parts, _⟩ := List.lookup_eq_some_iff.mp found
  have member : (path, m) ∈ l.files.flatMap File.allMessages := by simp [parts]
  obtain ⟨f, inside, member⟩ := List.mem_flatMap.mp member
  exact ((sound f inside).allMessages _ member).2

theorem Library.written_fieldRef {f : Field} (resolved : f.type.IsResolved) : Ref.Written [] (l.fieldRef f) := by
  have type := FieldType.written_ref resolved
  unfold fieldRef
  split
  · rename_i entry found
    have both : entry.Sound True ∧ entry.isMapEntry = true := by
      unfold entry? at found
      split at found
      · obtain ⟨found, isEntry⟩ := Option.filter_eq_some_iff.mp found
        exact ⟨sound_message sound found, isEntry⟩
      · obtain ⟨found, isEntry⟩ := Option.filter_eq_some_iff.mp found
        exact ⟨sound_message sound found, isEntry⟩
      · cases found
    have map : IsPath mapPath := (IsName.of_all (by decide) (by decide)).isPath
    refine .applied map.isLabel map.letters fun r member => ?_
    have either : r = entry.refOf 1 ∨ r = entry.refOf 2 := by simpa using member
    rcases either with rfl | rfl
    · exact Message.written_refOf both.1 both.2 (by simp)
    · exact Message.written_refOf both.1 both.2 (by simp)
  · split
    · exact written_listOf type
    · exact type

end

/-! ### Items -/

/-- The item has a path, and what is in it is sound. -/
def Item.Sound : Item → Prop
  | .message path m => IsPath path ∧ m.Sound True
  | .enum path _ => IsPath path
  | .service path s => IsPath path ∧ s.Sound True

theorem Message.items_eq (scope : String) (m : Message) :
    m.items scope =
      let path := qualify scope m.name
      if m.isMapEntry || (aliases.lookup path).isSome then []
      else .message path m :: m.nested.flatMap (·.items path) ++
        m.enums.map fun e => .enum (qualify path e.name) e := by
  have go : ∀ (scope : String) (ms : List Message), items.go scope ms = ms.flatMap (·.items scope) := by
    intro scope ms
    induction ms with
    | nil => rfl
    | cons m ms ih => rw [items.go, List.flatMap_cons, ih]
  obtain ⟨name, fields, nested⟩ := m
  rw [items, go]

theorem Message.Sound.items {m : Message} (sound : m.Sound True) {scope : String} (outer : IsScope scope) :
    ∀ x ∈ m.items scope, x.Sound := by
  induction sound generalizing scope with
  | intro name fields enums nested entry ih =>
    have path := name.qualify outer
    intro x member
    rw [items_eq] at member
    dsimp only at member
    split at member
    · cases member
    · rw [List.cons_append, List.mem_cons, List.mem_append] at member
      rcases member with rfl | member | member
      · exact ⟨path, .intro name fields enums nested entry⟩
      · obtain ⟨n, inside, member⟩ := List.mem_flatMap.mp member
        exact ih n inside (.inr path) x member
      · obtain ⟨e, inside, rfl⟩ := List.mem_map.mp member
        exact (enums e inside).qualify (.inr path)

theorem File.Sound.items {f : File} (sound : f.Sound True) : ∀ x ∈ f.items, x.Sound := by
  intro x member
  simp only [File.items, List.mem_append] at member
  rcases member with (member | member) | member
  · obtain ⟨m, inside, member⟩ := List.mem_flatMap.mp member
    exact (sound.messages m inside).items sound.package x member
  · obtain ⟨e, inside, rfl⟩ := List.mem_map.mp member
    exact (sound.enums e inside).qualify sound.package
  · obtain ⟨s, inside, rfl⟩ := List.mem_map.mp member
    exact ⟨(sound.services s inside).name.qualify sound.package, sound.services s inside⟩

/-! ### Types -/

theorem splitPath_named (isPath : IsPath path) : (splitPath path).2 ≠ "" := by
  have ends := isPath.ends
  rw [← List.head?_reverse] at ends
  rw [splitPath]
  cases reversed : path.toList.reverse with
  | nil =>
    rw [reversed] at ends
    cases ends
  | cons c cs =>
    rw [reversed] at ends
    have last : (c != '.') = true := ends
    dsimp only
    rw [List.takeWhile_cons_of_pos (p := (· != '.')) last, ne_eq, ← String.toList_inj, String.toList_ofList]
    simp

theorem Method.callable_readsBack {m : Method} (paths : IsPath m.input ∧ IsPath m.output) :
    m.callable.ReadsBack [] := by
  have streamed : ∀ (many : Bool) {path : String}, IsPath path →
      Ref.ReadsBack [] (if many then listOf (.ofPath path) else .ofPath path) := by
    intro many path isPath
    cases many
    · exact Ref.readsBack_of_written isPath.written
    · exact Ref.readsBack_of_written (written_listOf isPath.written)
  refine ⟨streamed _ paths.2, fun p member => ?_, fun p member => by cases member⟩
  obtain rfl := List.mem_singleton.mp member
  exact streamed _ paths.1

/-- A type without type parameters whose members do not say yet who declares them. -/
theorem readsBack_declare {t : TypeInfo} (named : t.name ≠ "") (params : t.typeParams = [])
    (base : t.base? = none) (interfaces : t.interfaces = [])
    (methods : ∀ m ∈ t.methods, m.ReadsBack [])
    (constructors : ∀ c ∈ t.constructors, c.name = t.name ∧ c.ReadsBack [])
    (properties : ∀ p ∈ t.properties, p.declaring = "" ∧ Ref.Written [] p.type)
    (constants : ∀ k ∈ t.constants, k.declaring = "" ∧ Ref.Written [] k.type) : t.declare.ReadsBack := by
  have own : t.declare.typeParams = [] := params
  refine ⟨named, ?_, ?_, ?_, ?_, ?_, ?_⟩
  · rw [show t.declare.base? = none from base]
    simp
  · rw [show t.declare.interfaces = [] from interfaces]
    simp
  · rwa [own]
  · rwa [own]
  · rw [own]
    intro p member
    obtain ⟨p, inside, rfl⟩ := List.mem_map.mp member
    obtain ⟨undeclared, written⟩ := properties p inside
    exact ⟨if_pos undeclared, Ref.readsBack_of_written written⟩
  · rw [own]
    intro k member
    obtain ⟨k, inside, rfl⟩ := List.mem_map.mp member
    obtain ⟨undeclared, written⟩ := constants k inside
    refine ⟨if_pos undeclared, fun empty => ?_, Ref.readsBack_of_written written⟩
    exact (Ref.visible_display written).1 (String.toList_inj.mpr empty)

theorem Item.info_readsBack (sound : ∀ f ∈ l.files, f.Sound True) {x : Item} (item : x.Sound) :
    (x.info l).declare.ReadsBack := by
  cases x with
  | message path m =>
    obtain ⟨isPath, ⟨_, fields, _, _, _⟩⟩ := item
    refine readsBack_declare (splitPath_named isPath) rfl rfl rfl (by simp [info]) ?_ ?_ (by simp [info])
    · intro c member
      obtain rfl := List.mem_singleton.mp member
      exact ⟨rfl, Ref.readsBack_absent _, by simp, by simp⟩
    · intro p member
      obtain ⟨f, inside, rfl⟩ := List.mem_map.mp member
      exact ⟨rfl, Library.written_fieldRef sound (fields trivial f inside)⟩
  | enum path e =>
    refine readsBack_declare (splitPath_named item) rfl rfl rfl (by simp [info]) (by simp [info])
      (by simp [info]) fun k member => ?_
    obtain ⟨v, _, rfl⟩ := List.mem_map.mp member
    exact ⟨rfl, IsPath.written item⟩
  | service path s =>
    refine readsBack_declare (splitPath_named item.1) rfl rfl rfl (fun c member => ?_) (by simp [info])
      (by simp [info]) (by simp [info])
    obtain ⟨m, inside, rfl⟩ := List.mem_map.mp member
    exact Method.callable_readsBack (item.2.methods trivial m inside)

/-! ### Catalogs -/

theorem Library.mem_reached {roots : List String} {f : File} (member : f ∈ l.reached roots) :
    f ∈ l.files :=
  (mem_reached_iff.mp member).mem

theorem freeze_readsBack {ts : List TypeInfo} (types : ∀ t ∈ ts, t.ReadsBack)
    (distinct : (ts.map TypeInfo.path).Nodup) : Catalog.ReadsBack { startingCatalog with types := ts, frozen := true } :=
  ⟨types, distinct, rfl, rfl⟩

theorem map_readsBack : TypeInfo.ReadsBack (TypeInfo.declare { name := mapPath, typeParams := ["K", "V"] }) where
  named := by decide
  base _ member := by cases member
  interfaces _ member := by cases member
  methods _ member := by cases member
  constructors _ member := by cases member
  properties _ member := by cases member
  constants _ member := by cases member

theorem Library.catalog_readsBack (sound : ∀ f ∈ l.files, f.Sound True) {roots : List String}
    {c : Catalog} (done : l.catalog roots = .ok c) : c.ReadsBack := by
  obtain ⟨c', added, done⟩ := Ty.exists_of_bind done
  obtain ⟨rfl, distinct⟩ := Catalog.foldlM_addType added
  replace distinct := distinct List.nodup_nil
  have items : ∀ t ∈ (((l.reached roots).flatMap File.items).map (·.info l)).map TypeInfo.declare,
      t.ReadsBack := by
    intro t member
    obtain ⟨info, inside, rfl⟩ := List.mem_map.mp member
    obtain ⟨x, listed, rfl⟩ := List.mem_map.mp inside
    obtain ⟨f, reached, listed⟩ := List.mem_flatMap.mp listed
    exact Item.info_readsBack sound ((sound f (mem_reached reached)).items x listed)
  obtain rfl := Except.ok.inj done
  split
  · cases withMap : Catalog.addType _ _ with
    | error _ => exact freeze_readsBack items distinct
    | ok c =>
      obtain ⟨rfl, kept⟩ := Catalog.addType_ok withMap
      refine freeze_readsBack (List.forall_mem_append.mpr ⟨items, fun t member => ?_⟩) (kept distinct)
      obtain rfl := List.mem_singleton.mp member
      exact map_readsBack
  · exact freeze_readsBack items distinct

end TypeEngine.Proto
