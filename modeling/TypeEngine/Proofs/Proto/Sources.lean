import TypeEngine.Proofs.Proto.Catalog
import TypeEngine.Proofs.Proto.Inquiry

/-!
# What a catalog of schemas depends on

What is assumed of a parser of schema files, and that the built-in one has it (`lawful_builtin`): the
outcome depends on the files that are asked for, of which blanks at the ends of lines do not count, and
the names in a linked library are names. So each catalog of a library reads back.
-/

namespace TypeEngine.Proto

open Host (Catalog)

/-- What is assumed of a parser. What it answers is a function of what it asks for already. -/
structure Parser.Lawful (p : Parser) : Prop where
  blanks : ∀ names, (p names).IgnoresBlanks
  sound : ∀ names texts l, (p names).answer texts = some l → ∀ f ∈ l.files, f.Sound True

section

variable {p : Parser} {names : List String} {texts other : String → Option String} {c : Catalog}

/-- The catalog of the files called `names`, where texts are found without effects. -/
def Parser.catalog (p : Parser) (texts : String → Option String) (names : List String) :
    Option (Except Host.Refusal Catalog) :=
  ((p names).answer texts).map (·.catalog names)

theorem run_catalogOfSources {σ : Type} {s : σ} {sources : String → StateM σ (Option String)}
    (reads : ∀ name, (sources name).run s = (texts name, s)) :
    (catalogOfSources sources names p).run.run s = (p.catalog texts names, s) := by
  have answer := Inquiry.run_of_reads reads (p names)
  rw [catalogOfSources, OptionT.run_bind, Option.elimM, StateT.run_bind, OptionT.run_mk, answer, Parser.catalog]
  cases (p names).answer texts <;> rfl

/-- Texts that differ only in blanks at the ends of lines make the same catalog. -/
theorem Parser.Lawful.catalog_congr (lawful : p.Lawful)
    (agree : ∀ name ∈ (p names).asked texts,
      (other name).map Storage.Cache.fingerprint = (texts name).map Storage.Cache.fingerprint) :
    p.catalog other names = p.catalog texts names := by
  rw [catalog, catalog, ((lawful.blanks names).congr agree).2]

theorem Parser.Lawful.readsBack (lawful : p.Lawful) (done : p.catalog texts names = some (.ok c)) :
    c.ReadsBack := by
  obtain ⟨l, library, catalog⟩ := Option.map_eq_some_iff.mp done
  exact Library.catalog_readsBack (lawful.sound names texts l library) catalog

end

/-! ### The built-in parser -/

section

variable {names : List String} {texts : String → Option String}

theorem findFile_ignoresBlanks (name : String) : (findFile name).IgnoresBlanks := by
  refine ⟨fun text text' same => ?_, fun text => ?_⟩
  · cases text with
    | none =>
      rw [Option.map_none, eq_comm, Option.map_eq_none_iff] at same
      rw [same]
    | some text =>
      rw [Option.map_some, eq_comm] at same
      obtain ⟨text', rfl, alike⟩ := Option.map_eq_some_iff.mp same
      exact congrArg Inquiry.done (File.parse_of_fingerprint alike name).symm
  · cases text <;> trivial

theorem load_ignoresBlanks (fuel : Nat) :
    (∀ above l name, (load findFile fuel above l name).run.IgnoresBlanks) ∧
    ∀ above l names, (loadAll findFile fuel above l names).run.IgnoresBlanks := by
  induction fuel with
  | zero => exact ⟨fun _ _ _ => trivial, fun _ _ _ => trivial⟩
  | succ fuel ih =>
    refine ⟨fun above l name => ?_, fun above l names => ?_⟩
    · rw [load]
      split
      · trivial
      split
      · trivial
      · exact .run_bind (findFile_ignoresBlanks name) fun f => .run_bind (ih.2 _ _ _) fun l => trivial
    · cases names with
      | nil => trivial
      | cons name names =>
        rw [loadAll]
        exact .run_bind (ih.1 _ _ _) fun l => ih.2 _ _ _

theorem builtin_ignoresBlanks (names : List String) : (Parser.builtin names).IgnoresBlanks := by
  refine .run_bind ((load_ignoresBlanks _).2 _ _ _) fun l => .run_bind ?_ fun l => ?_
  · exact trivial
  · split <;> trivial

theorem wellKnown?_sound {name : String} {f : File} (known : wellKnown? name = some f) : f.Sound False := by
  have package : IsScope "google.protobuf" := .inr (.of_all (by decide) (by decide) (by decide))
  have single : ∀ {m : Message}, m.Sound False → ∀ n ∈ [m], n.Sound False := by
    intro m sound n member
    rwa [List.mem_singleton.mp member]
  unfold wellKnown? at known
  split at known
  · cases known
    exact ⟨package, single (.intro (.of_all (by decide) (by decide)) False.elim (by simp) (by simp) (by simp)),
      by simp [wellKnown?.counted], by simp [wellKnown?.counted]⟩
  · cases known
    exact ⟨package, single (.intro (.of_all (by decide) (by decide)) False.elim (by simp) (by simp) (by simp)),
      by simp [wellKnown?.counted], by simp [wellKnown?.counted]⟩
  · cases known
    exact ⟨package, single (.intro (.of_all (by decide) (by decide)) False.elim (by simp) (by simp) (by simp)),
      by simp, by simp⟩
  · cases known

theorem findFile_sound {name : String} {f : File} (found : (findFile name).answer texts = some f) :
    f.Sound False := by
  rw [findFile, Inquiry.answer] at found
  cases here : texts name with
  | some text =>
    rw [here] at found
    exact File.parse_sound found
  | none =>
    rw [here] at found
    exact wellKnown?_sound found

theorem sound_load (fuel : Nat) :
    (∀ above l name l', (load findFile fuel above l name).run.answer texts = some l' →
      (∀ f ∈ l.files, f.Sound False) → ∀ f ∈ l'.files, f.Sound False) ∧
    ∀ above l names l', (loadAll findFile fuel above l names).run.answer texts = some l' →
      (∀ f ∈ l.files, f.Sound False) → ∀ f ∈ l'.files, f.Sound False := by
  induction fuel with
  | zero =>
    refine ⟨fun _ _ _ _ done => ?_, fun _ _ _ _ done => ?_⟩
    · cases done
    · cases done
  | succ fuel ih =>
    refine ⟨fun above l name l' done known => ?_, fun above l names l' done known => ?_⟩
    · rw [load] at done
      split at done
      · cases done
      split at done
      · cases done
        exact known
      · rw [Inquiry.answer_run_bind] at done
        obtain ⟨f, here, done⟩ := Option.bind_eq_some_iff.mp done
        rw [Inquiry.answer_run_bind] at done
        obtain ⟨mid, loaded, same⟩ := Option.bind_eq_some_iff.mp done
        cases same
        obtain ⟨package, messages, enums, services⟩ := findFile_sound here
        refine List.forall_mem_append.mpr ⟨ih.2 _ _ _ _ loaded known, fun g single => ?_⟩
        obtain rfl := List.mem_singleton.mp single
        exact ⟨package, messages, enums, services⟩
    · cases names with
      | nil =>
        cases done
        exact known
      | cons name names =>
        rw [loadAll, Inquiry.answer_run_bind] at done
        obtain ⟨mid, first, done⟩ := Option.bind_eq_some_iff.mp done
        exact ih.2 _ _ _ _ done (ih.1 _ _ _ _ first known)

theorem builtin_sound {l : Library} (done : (Parser.builtin names).answer texts = some l) :
    ∀ f ∈ l.files, f.Sound True := by
  rw [Parser.builtin, Library.ofSources, Inquiry.answer_run_bind] at done
  obtain ⟨loaded, load, done⟩ := Option.bind_eq_some_iff.mp done
  rw [Inquiry.answer_run_bind] at done
  obtain ⟨linked, link, done⟩ := Option.bind_eq_some_iff.mp done
  split at done
  · cases done
    exact Library.link?_sound ((sound_load _).2 _ _ _ _ load (by simp)) link
  · cases done

theorem lawful_builtin : Parser.builtin.Lawful := ⟨builtin_ignoresBlanks, fun _ _ _ => builtin_sound⟩

end

end TypeEngine.Proto
