import Mathlib.Data.List.DropRight
import Mathlib.Data.List.Forall2
import TypeEngine.Proofs.Host.Alias
import TypeEngine.Proofs.Host.File

/-!
# Catalog files that are written again

A catalog that was read from a file can be written to a file and read again, if the codec of files
reads back what it wrote (`Catalog.parse_render_of_parse`). What reading accepts is what writing
produces: references come out of the reader in a form that reads back (`Ref.written_of_parse`), and so
do the members that hold them.
-/

namespace TypeEngine

namespace Text

theorem head?_dropWhile (p : Char → Bool) (cs : List Char) : (cs.dropWhile p).head?.any p = false := by
  have first := List.head?_dropWhile_not p cs
  cases found : (cs.dropWhile p).head? with
  | none => rfl
  | some c =>
    rw [found] at first
    exact first

theorem getLast?_trim (cs : List Char) : (trim cs).getLast?.any isBlank = false := by
  rw [trim, dropEnd, List.getLast?_reverse]
  exact head?_dropWhile _ _

theorem head?_trim (cs : List Char) : (trim cs).head?.any isBlank = false := by
  obtain ⟨rest, whole⟩ : trim cs <+: cs.dropWhile isBlank := List.rdropWhile_prefix _ _
  have first := head?_dropWhile isBlank cs
  cases found : trim cs with
  | nil => rfl
  | cons c cs' =>
    rw [← whole, found] at first
    exact first

theorem mem_of_mem_trim {c : Char} {cs : List Char} (member : c ∈ trim cs) : c ∈ cs :=
  (List.dropWhile_suffix _).subset ((List.rdropWhile_prefix _ _).subset member)

end Text

namespace Host

variable {names : List String}

/-! ### References -/

namespace Ref

theorem isLabel_trim {text : List Char} (present : (Text.trim (text.takeWhile (!isDelimiter ·))).isEmpty = false) :
    IsLabel (Text.trim (text.takeWhile (!isDelimiter ·))) where
  present := by simpa using present
  plain c member := by simpa using List.mem_takeWhile_imp (Text.mem_of_mem_trim member)
  starts := Text.head?_trim _
  ends := Text.getLast?_trim _

/-- Whatever is read could have been written. -/
theorem written_of_read (params : List String) (fuel : Nat) :
    (∀ text r rest, read params fuel text = .ok (r, rest) → Written params r) ∧
      ∀ text done cs args rest, readArgs params fuel text done cs = .ok (args, rest) →
        ∃ arg more, args = done ++ arg :: more ∧ ∀ r ∈ arg :: more, Written params r := by
  induction fuel with
  | zero =>
    constructor
    · intro text r rest done
      cases done
    · intro text done cs args rest finished
      cases finished
  | succ fuel ih =>
    obtain ⟨reads, readsArgs⟩ := ih
    constructor
    · intro text r rest done
      rw [read] at done
      dsimp only at done
      split at done
      · cases done
      · rename_i present
        have label := isLabel_trim (Bool.not_eq_true _ ▸ present)
        rw [← String.toList_ofList (l := Text.trim _)] at label
        split at done
        · rename_i digits
          cases done
          exact .value label (by rwa [String.toList_ofList])
        · rename_i other
          have letters := Bool.not_eq_true _ ▸ other
          rw [← String.toList_ofList (l := Text.trim _)] at letters
          split at done
          · obtain ⟨⟨args, after⟩, inner, done⟩ := Ty.exists_of_bind done
            cases done
            obtain ⟨arg, more, rfl, each⟩ := readsArgs _ _ _ _ _ inner
            exact .applied label letters each
          · cases done
            split
            · rename_i listed
              exact .param label letters (by simpa using listed)
            · rename_i unlisted
              exact .path label letters (by simpa using unlisted)
    · intro text done cs args rest finished
      rw [readArgs] at finished
      obtain ⟨⟨arg, after⟩, first, finished⟩ := Ty.exists_of_bind finished
      have written := reads _ _ _ first
      dsimp only at finished
      split at finished
      · obtain ⟨next, more, rfl, each⟩ := readsArgs _ _ _ _ _ finished
        exact ⟨arg, next :: more, by simp, List.forall_mem_cons.mpr ⟨written, each⟩⟩
      · cases finished
        exact ⟨arg, [], rfl, by simpa using written⟩
      · cases finished

theorem written_of_parse {s : String} {params : List String} {r : Ref} (done : parse s params = .ok r) :
    Text.trim s.toList = [] ∧ r = absent ∨ Written params r := by
  rw [parse] at done
  dsimp only at done
  split at done
  · rename_i blank
    cases done
    exact .inl ⟨List.isEmpty_iff.mp blank, rfl⟩
  · obtain ⟨⟨r', rest⟩, front, done⟩ := Ty.exists_of_bind done
    dsimp only at done
    split at done
    · cases done
      exact .inr ((written_of_read params _).1 _ _ _ front)
    · cases done

theorem readsBack_of_parse {s : String} {params : List String} {r : Ref} (done : parse s params = .ok r) :
    r.ReadsBack params := by
  rcases written_of_parse done with ⟨_, rfl⟩ | written
  · exact readsBack_absent params
  · exact readsBack_of_written written

end Ref

/-! ### Members -/

theorem readsBack_of_readParams {entries : List ParamEntry} {ps : List Param}
    (done : readParams names entries = .ok ps) :
    (∀ p ∈ ps, p.type.ReadsBack names) ∧ (∀ p ∈ ps.dropLast, p.variadic = false) ∧
      ps.length = entries.length := by
  induction entries generalizing ps with
  | nil =>
    cases done
    simp
  | cons e entries ih =>
    rw [readParams] at done
    obtain ⟨type, read, done⟩ := Ty.exists_of_bind done
    split at done
    · cases done
    · rename_i fits
      obtain ⟨rest, later, done⟩ := Ty.exists_of_bind done
      cases done
      obtain ⟨each, last, length⟩ := ih later
      refine ⟨List.forall_mem_cons.mpr ⟨Ref.readsBack_of_parse (Ty.ok_of_mapError read), each⟩, ?_, by simp [length]⟩
      cases rest with
      | nil => simp
      | cons q qs =>
        have single : e.variadic = false := by
          cases entries with
          | nil => cases length
          | cons e' entries => simpa using fits
        rw [List.dropLast_cons_cons, List.forall_mem_cons]
        exact ⟨single, last⟩

theorem CallableEntry.readsBack_of_read {e : CallableEntry} {c : Callable}
    (done : e.read names = .ok c) : c.ReadsBack names := by
  unfold CallableEntry.read at done
  dsimp only at done
  split at done
  · obtain ⟨ret, result, done⟩ := Ty.exists_of_bind done
    obtain ⟨params, args, done⟩ := Ty.exists_of_bind done
    cases done
    obtain ⟨each, last, _⟩ := readsBack_of_readParams args
    exact ⟨Ref.readsBack_of_parse (Ty.ok_of_mapError result), each, last⟩
  · cases done

/-! ### Types -/

/-- Something is written, but nothing is shown. -/
def IsBlank (s : String) : Prop := s ≠ "" ∧ Text.trim s.toList = []

instance (s : String) : Decidable (IsBlank s) := inferInstanceAs (Decidable (_ ∧ _))

/-- An entry whose base and constants say what type they have: by a text that shows something, or
for a constant by leaving it to the type, whose path reads as a reference to it. -/
structure TypeEntry.Legible (t : TypeEntry) : Prop where
  base : ¬IsBlank t.base
  constants : ∀ k ∈ t.constants, ¬IsBlank k.type
  owner : (∃ k ∈ t.constants, k.type = "") → Ref.parse t.path t.typeParams = .ok (.ofPath t.path)

theorem display_ne_empty {s : String} {params : List String} {r : Ref} (done : Ref.parse s params = .ok r)
    (there : s ≠ "") (shown : ¬IsBlank s) : r.display ≠ "" := by
  rcases Ref.written_of_parse done with ⟨blank, _⟩ | written
  · exact absurd ⟨there, blank⟩ shown
  · intro empty
    exact (Ref.visible_display written).1 (String.toList_inj.mpr empty)

theorem ConstantEntry.readsBack_of_read {e : ConstantEntry} {owner : String}
    {k : Constant} (done : e.read owner names = .ok k) (shown : ¬IsBlank e.type)
    (own : e.type = "" → owner ≠ "" ∧ Ref.parse owner names = .ok (.ofPath owner)) :
    k.declaring = "" ∧ k.type.display ≠ "" ∧ k.type.ReadsBack names := by
  rw [ConstantEntry.read] at done
  split at done
  · rename_i missing
    obtain ⟨type, same, done⟩ := Ty.exists_of_bind done
    cases same
    cases done
    obtain ⟨there, back⟩ := own missing
    refine ⟨rfl, ?_, ?_⟩
    · rwa [Ref.display_path]
    · rwa [Ref.ReadsBack, Ref.display_path]
  · rename_i there
    obtain ⟨type, read, done⟩ := Ty.exists_of_bind done
    cases done
    have parsed := Ty.ok_of_mapError read
    exact ⟨rfl, display_ne_empty parsed there shown, Ref.readsBack_of_parse parsed⟩

theorem TypeInfo.path_ne_empty {t : TypeInfo} (named : t.name ≠ "") : t.path ≠ "" := by
  rw [path]
  split
  · exact named
  · intro empty
    have chars := congrArg String.toList empty
    simp at chars

theorem TypeEntry.exists_of_read {t : TypeEntry} {info : TypeInfo} (done : t.read = .ok info) :
    t.name ≠ "" ∧ ∃ kind base?, t.readMembers kind base? = .ok info ∧
      ∀ r ∈ base?, t.base ≠ "" ∧ Ref.parse t.base t.typeParams = .ok r := by
  have ofBase : ∀ kind, (if t.base = "" then t.readMembers kind none
      else some <$> t.reference t.base >>= t.readMembers kind) =
        .ok info →
      ∃ base?, t.readMembers kind base? = .ok info ∧
        ∀ r ∈ base?, t.base ≠ "" ∧ Ref.parse t.base t.typeParams = .ok r := by
    intro kind done
    split at done
    · exact ⟨none, done, by simp⟩
    · rename_i there
      obtain ⟨base?, read, done⟩ := Ty.exists_of_bind done
      obtain ⟨r, parsed, rfl⟩ := Ty.exists_of_map read
      exact ⟨some r, done, fun r' same => ⟨there, Option.some.inj same ▸ Ty.ok_of_mapError parsed⟩⟩
  unfold TypeEntry.read at done
  dsimp only at done
  split at done
  · cases done
  refine ⟨‹_›, ?_⟩
  split at done
  · exact ⟨_, ofBase .classKind done⟩
  · split at done
    · exact ⟨_, ofBase _ done⟩
    · cases done

theorem TypeEntry.readsBack_of_read {t : TypeEntry} {info : TypeInfo} (done : t.read = .ok info)
    (legible : t.Legible) : info.declare.ReadsBack := by
  obtain ⟨named, kind, base?, done, base⟩ := exists_of_read done
  rw [readMembers] at done
  obtain ⟨interfaces, ofInterfaces, done⟩ := Ty.exists_of_bind done
  obtain ⟨methods, ofMethods, done⟩ := Ty.exists_of_bind done
  obtain ⟨constructors, ofConstructors, done⟩ := Ty.exists_of_bind done
  obtain ⟨properties, ofProperties, done⟩ := Ty.exists_of_bind done
  obtain ⟨constants, ofConstants, done⟩ := Ty.exists_of_bind done
  cases done
  refine ⟨named, ?_, ?_, ?_, ?_, ?_, ?_⟩
  · intro r member
    obtain ⟨there, parsed⟩ := base r member
    exact ⟨display_ne_empty parsed there legible.base, Ref.readsBack_of_parse parsed⟩
  · intro r member
    obtain ⟨s, _, read⟩ := exists_of_mem_mapM ofInterfaces member
    exact Ref.readsBack_of_parse (Ty.ok_of_mapError read)
  · intro m member
    obtain ⟨e, _, read⟩ := exists_of_mem_mapM ofMethods member
    exact CallableEntry.readsBack_of_read (Ty.ok_of_mapError read)
  · intro c member
    obtain ⟨e, _, read⟩ := exists_of_mem_mapM ofConstructors member
    obtain ⟨c', own, rfl⟩ := Ty.exists_of_map (Ty.ok_of_mapError read)
    have back := CallableEntry.readsBack_of_read own
    exact ⟨rfl, back.ret, back.params, back.last⟩
  · intro p member
    obtain ⟨p, inside, rfl⟩ := List.mem_map.mp member
    obtain ⟨e, _, read⟩ := exists_of_mem_mapM ofProperties inside
    obtain ⟨type, parsed, read⟩ := Ty.exists_of_bind read
    cases read
    exact ⟨rfl, Ref.readsBack_of_parse (Ty.ok_of_mapError parsed)⟩
  · intro k member
    obtain ⟨k, inside, rfl⟩ := List.mem_map.mp member
    obtain ⟨e, listed, read⟩ := exists_of_mem_mapM ofConstants inside
    obtain ⟨undeclared, shown, back⟩ := ConstantEntry.readsBack_of_read read (legible.constants e listed)
      fun missing => ⟨TypeInfo.path_ne_empty named, legible.owner ⟨e, listed, missing⟩⟩
    exact ⟨if_pos undeclared, shown, back⟩

/-! ### Catalogs -/

/-- A file whose host paths of primitives are different and whose types say what they have. -/
structure File.Legible (f : File) : Prop where
  aliases : ∀ aliases, f.primitives = .pairs aliases → (aliases.map Prod.fst).Nodup
  types : ∀ t ∈ f.types, t.Legible

namespace Catalog

variable {c : Catalog}

theorem foldl_withAlias {aliases : List (String × String)}
    (distinct : (c.aliasPaths ++ aliases.map Prod.fst).Nodup) :
    ∃ natives, aliases.foldl (fun c (path, model) => c.withAlias path model) c =
      { c with aliases := c.aliases ++ aliases, natives } := by
  induction aliases generalizing c with
  | nil => exact ⟨c.natives, by simp⟩
  | cons a as ih =>
    obtain ⟨path, model⟩ := a
    have new : path ∉ c.aliases.map Prod.fst := fun known =>
      (List.nodup_append.mp distinct).2.2 _ known _ (by simp) rfl
    have put : putAlias path model c.aliases = _ := putAlias_new new
    obtain ⟨natives, rest⟩ := ih (c := c.withAlias path model) (by
      rw [aliasPaths, withAlias, put]
      simpa [aliasPaths] using distinct)
    refine ⟨natives, ?_⟩
    rw [List.foldl_cons, rest, withAlias, put, List.append_assoc]
    rfl

theorem readsBack_of_addEntries {ts : List TypeEntry} (legible : ∀ t ∈ ts, t.Legible) {c' : Catalog}
    {index : Nat} (done : c.addEntries index ts = .ok c') :
    ∃ infos, c' = { c with types := c.types ++ infos } ∧ (∀ t ∈ infos, t.ReadsBack) ∧
      (c.typePaths.Nodup → c'.typePaths.Nodup) := by
  induction ts generalizing c index with
  | nil =>
    cases done
    exact ⟨[], by simp, by simp, id⟩
  | cons t ts ih =>
    rw [List.forall_mem_cons] at legible
    rw [addEntries] at done
    obtain ⟨info, read, done⟩ := Ty.exists_of_bind done
    obtain ⟨next, added, done⟩ := Ty.exists_of_bind done
    obtain ⟨rfl, kept⟩ := addType_ok (Ty.ok_of_mapError added)
    obtain ⟨infos, rfl, each, distinct⟩ := ih legible.2 done
    exact ⟨info.declare :: infos, by simp, List.forall_mem_cons.mpr
      ⟨TypeEntry.readsBack_of_read (Ty.ok_of_mapError read) legible.1, each⟩, distinct ∘ kept⟩

theorem readsBack_of_ofFile {f : File} (legible : f.Legible) (done : ofFile f = .ok c) :
    c.ReadsBack := by
  have rest : ∀ aliases : List (String × String), (aliases.map Prod.fst).Nodup →
      ((aliases.foldl (fun c (path, model) => c.withAlias path model) Catalog.empty).addEntries 0 f.types >>=
        fun c => pure c.freeze) = .ok c → c.ReadsBack := by
    intro aliases distinct done
    obtain ⟨natives, recorded⟩ := foldl_withAlias (c := .empty) distinct
    obtain ⟨c', added, done⟩ := Ty.exists_of_bind done
    rw [recorded] at added
    obtain ⟨infos, rfl, each, kept⟩ := readsBack_of_addEntries legible.types added
    cases done
    exact ⟨each, kept List.nodup_nil, recorded, rfl⟩
  unfold ofFile at done
  dsimp only at done
  split at done
  · exact rest [] List.nodup_nil done
  · rename_i aliases found
    exact rest aliases (legible.aliases aliases found) done
  · cases done

/-- A catalog read from a legible file is written as a text that reads as the same catalog, whatever the
codec that reads back the file that was written. -/
theorem parse_render_of_parse {k : Codec} {text : String} {f : File} {c : Catalog}
    (decoded : k.decode text = some f) (legible : f.Legible) (parsed : k.parse text = .ok c)
    (kept : k.Keeps c.toFile) : k.parse (k.render c) = .ok c := by
  rw [Codec.parse_of_decode decoded] at parsed
  exact Codec.parse_render (readsBack_of_ofFile legible parsed) kept

end Catalog

/-! ### A shop -/

namespace Shop

/-- An enumeration whose members leave their type to it, and a generic type with members of each kind. -/
def file : File :=
  { primitives := .pairs [("i32", "int"), ("u8", "byte"), ("word", "int")]
    types :=
      [{ namespaceName := "shop"
         name := "Color"
         kind := "enum"
         constants := [{ name := "Red", value := "1" }, { name := "Odd", type := "i32" }] },
        { name := "Box"
          typeParams := ["T"]
          base := " shop.Base[ T ,3]"
          interfaces := ["seq[T]", " "]
          methods :=
            [{ name := "put"
               typeParams := ["U"]
               params := [{ name := "x", type := "U", optional := true, default? := some "" },
                 { name := "rest", type := "list[T]", variadic := true }]
               ret := "map[U, shop.Box[T]]"
               deprecated := "warning" }]
          constructors := [{ name := "new", static := true }]
          properties := [{ name := "size", type := "i32", readOnly := true }] }] }

def text : String := Codec.yaml.encode file

theorem decode_text : Codec.yaml.decode text = some file :=
  Codec.keeps_yaml (by decide +kernel)

theorem legible : file.Legible where
  aliases aliases found := by
    cases found
    decide
  types t member := by
    have plain : "shop.Color".toList.all (!Ref.isDelimiter ·) = true := by decide
    have color : Ref.Written [] (.ofPath "shop.Color") :=
      .path ⟨by decide, fun c member => by simpa using List.all_eq_true.mp plain c member, by decide, by decide⟩
        (by decide) (by simp)
    simp only [file, List.mem_cons, List.not_mem_nil, or_false] at member
    rcases member with rfl | rfl
    · refine ⟨by decide, by decide, fun _ => ?_⟩
      have back := Ref.readsBack_of_written color
      rwa [Ref.ReadsBack, Ref.display_path] at back
    · refine ⟨by decide, by decide, ?_⟩
      rintro ⟨k, member, _⟩
      cases member

theorem parse_render_of_parse_text :
    ∃ c, Codec.yaml.decode text = some file ∧ file.Legible ∧ Codec.yaml.parse text = .ok c ∧
      c.types.length = 2 ∧ Codec.yaml.Keeps c.toFile ∧ Codec.yaml.parse (Codec.yaml.render c) = .ok c := by
  have read : ((Catalog.ofFile file).toOption.any fun c =>
      c.types.length = 2 &&
        (Yaml.Node.ofChars c.toFile.node.chars).bind File.ofDocument? = some c.toFile) = true := by
    decide +kernel
  cases accepted : Catalog.ofFile file with
  | error fault =>
    rw [accepted] at read
    cases read
  | ok c =>
    rw [accepted] at read
    obtain ⟨size, kept⟩ := Bool.and_eq_true_iff.mp (show (_ && _) = true from read)
    have parsed : Codec.yaml.parse text = .ok c := by
      rw [Codec.parse_of_decode decode_text]
      exact accepted
    have kept := Codec.keeps_yaml (of_decide_eq_true kept)
    exact ⟨c, decode_text, legible, parsed, of_decide_eq_true size, kept,
      Catalog.parse_render_of_parse decode_text legible parsed kept⟩

end Shop

end Host

end TypeEngine
