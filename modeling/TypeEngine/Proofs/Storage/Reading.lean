import TypeEngine.Proofs.Proto.Sources
import TypeEngine.Proofs.Storage.Disk
import TypeEngine.Proofs.Storage.Key
import TypeEngine.Storage.Open

/-!
# What a schema source is read from

Opening a schema source reads its file, and then either the catalog that is stored for the key or the
files that are looked for in the import directories. A reading is what the second way starts from.
-/

namespace TypeEngine.Storage

open Host (Catalog Codec)

/-- The disk, the location of the named file and its text, and where imports are looked for. -/
structure Reading where
  disk : Disk
  path : String
  text : String
  imports : List String

namespace Reading

/-- The reading of a schema source, if its file can be read. -/
def of? (d : Disk) (base : String) (s : CatalogSource) : Option Reading :=
  let path := seenFrom base s.path
  match s.kind, d.read path with
  | "proto", .ok text => some ⟨d, path, text, importDirs base s⟩
  | _, _ => none

theorem of?_disk {d e : Disk} {base : String} {s : CatalogSource} {x : Reading} (reading : of? d base s = some x)
    (same : e.read (seenFrom base s.path) = d.read (seenFrom base s.path)) :
    x.disk = d ∧ of? e base s = some { x with disk := e } := by
  unfold of? at reading ⊢
  dsimp only at reading ⊢
  rw [same]
  split at reading
  · cases reading
    exact ⟨rfl, rfl⟩
  · cases reading

/-- What the key is made from. -/
def parts (x : Reading) : List String := ["proto", Cache.fingerprint x.text, "\n".intercalate x.imports]

def key (x : Reading) : String := Cache.key x.parts

theorem key_disk (x : Reading) (d : Disk) : ({ x with disk := d } : Reading).key = x.key := rfl

theorem isPlain_fileName (x : Reading) : IsPlain (Cache.fileName x.key) := Cache.isPlain_fileName x.parts

/-- The name of the file below the import directories. -/
def rel? (x : Reading) : Option String := relativeTo? x.imports x.path

def dirs (x : Reading) : List String := if x.imports.isEmpty then ["."] else x.imports

/-- The text of a schema file in the first directory that has it. -/
def text? (x : Reading) (name : String) : Option String :=
  x.dirs.findSome? fun dir => (x.disk.read (join dir name)).toOption

/-- What loading gives, without a cache. -/
def load (x : Reading) (f : Formats) : Except LoadFault Catalog :=
  match x.rel? with
  | none => .error (.outside x.path)
  | some rel =>
    match f.schemas.catalog x.text? [rel] with
    | some c => c.mapError .refused
    | none => .error .schema

/-- The schema files that are looked for. -/
def asked (x : Reading) (f : Formats) : List String :=
  match x.rel? with
  | none => []
  | some rel => (f.schemas [rel]).asked x.text?

/-- Two readings see the same but for the named file, which is in the key: its name below the import
directories and, up to blanks at the ends of lines, each file that is looked for. -/
structure Matches (f : Formats) (x y : Reading) : Prop where
  rel : y.rel? = x.rel?
  texts : ∀ name ∈ x.asked f,
    x.text? name = some x.text ∧ y.text? name = some y.text ∨
      (y.text? name).map Cache.fingerprint = (x.text? name).map Cache.fingerprint

variable {f : Formats} {x y : Reading} {c : Catalog}

theorem asked_eq {rel : String} (here : x.rel? = some rel) :
    x.asked f = (f.schemas [rel]).asked x.text? := by
  rw [asked, here]

/-! ### What loading depends on -/

theorem load_congr (lawful : f.schemas.Lawful) (path : y.path = x.path) (rel : y.rel? = x.rel?)
    (texts : ∀ name ∈ x.asked f,
      (y.text? name).map Cache.fingerprint = (x.text? name).map Cache.fingerprint) :
    y.load f = x.load f := by
  rw [load, load, path, rel]
  cases here : x.rel? with
  | none => rfl
  | some rel =>
    rw [asked_eq here] at texts
    dsimp only
    rw [lawful.catalog_congr texts]

theorem load_ok (loaded : x.load f = .ok c) :
    ∃ rel, x.rel? = some rel ∧ f.schemas.catalog x.text? [rel] = some (.ok c) := by
  rw [load] at loaded
  split at loaded
  · cases loaded
  · rename_i rel here
    refine ⟨rel, here, ?_⟩
    split at loaded
    · rename_i made catalog
      rw [catalog, Ty.ok_of_mapError loaded]
    · cases loaded

theorem Matches.load (lawful : f.schemas.Lawful) (alike : Matches f x y)
    (named : Cache.fingerprint y.text = Cache.fingerprint x.text) (loaded : x.load f = .ok c) :
    y.load f = .ok c := by
  obtain ⟨rel, here, catalog⟩ := load_ok loaded
  have same : f.schemas.catalog y.text? [rel] = f.schemas.catalog x.text? [rel] := by
    refine lawful.catalog_congr fun name asked => ?_
    rcases alike.texts name (asked_eq here ▸ asked) with ⟨mine, theirs⟩ | same
    · rw [mine, theirs, Option.map_some, Option.map_some, named]
    · exact same
  rw [Reading.load, alike.rel, here]
  dsimp only
  rw [same, catalog]
  rfl

theorem parse_render (lawful : f.schemas.Lawful) (loaded : x.load f = .ok c)
    (kept : f.codec.Keeps c.toFile) : f.codec.parse (f.codec.render c) = .ok c := by
  obtain ⟨rel, _, catalog⟩ := load_ok loaded
  exact Host.Codec.parse_render (lawful.readsBack catalog) kept

theorem findSome?_congr {α β : Type} {f g : α → Option β} {l : List α} (same : ∀ a ∈ l, f a = g a) :
    l.findSome? f = l.findSome? g := by
  induction l with
  | nil => rfl
  | cons a l ih =>
    rw [List.forall_mem_cons] at same
    rw [List.findSome?_cons, List.findSome?_cons, same.1, ih same.2]

theorem load_disk (lawful : f.schemas.Lawful) {e : Disk}
    (same : ∀ dir ∈ x.dirs, ∀ name ∈ x.asked f, e.read (join dir name) = x.disk.read (join dir name)) :
    ({ x with disk := e } : Reading).load f = x.load f := by
  refine load_congr lawful rfl rfl fun name asked => ?_
  have text : ({ x with disk := e } : Reading).text? name = x.text? name :=
    findSome?_congr fun dir member => congrArg Except.toOption (same dir member name asked)
  rw [text]

theorem fingerprint_of_message (solid : ∀ dir ∈ x.imports, '\x00' ∉ dir.toList)
    (solid' : ∀ dir ∈ y.imports, '\x00' ∉ dir.toList)
    (same : Cache.message x.parts = Cache.message y.parts) :
    Cache.fingerprint x.text = Cache.fingerprint y.text := by
  have before := (Cache.message_inj ["proto", Cache.fingerprint x.text] ["proto", Cache.fingerprint y.text]
    (Cache.notMem_intercalate (by decide) solid) (Cache.notMem_intercalate (by decide) solid') same).1
  exact Cache.message_cancel ["proto"] before

end Reading

/-! ### Runs of programs -/

/-- Runs a program on a disk. -/
def Disk.run {ε α : Type} (d : Disk) (x : ExceptT ε (StateM Disk) α) : Except ε α × Disk := x.run.run d

namespace Disk

variable {ε α β : Type} (d : Disk)

theorem run_bind (x : ExceptT ε (StateM Disk) α) (f : α → ExceptT ε (StateM Disk) β) :
    d.run (x >>= f) =
      match d.run x with
      | (.ok a, e) => e.run (f a)
      | (.error fault, e) => (.error fault, e) := by
  change (match d.run x with
    | (r, e) => (ExceptT.bindCont f r).run e) = _
  rcases d.run x with ⟨r, e⟩
  cases r <;> rfl

theorem run_lift (x : StateM Disk α) :
    d.run (ExceptT.lift x : ExceptT ε (StateM Disk) α) = (.ok (StateT.run x d).1, (StateT.run x d).2) := rfl

theorem run_mapError {ε' : Type} (fault : ε' → ε) (x : StateM Disk (Except ε' α)) :
    d.run (ExceptT.mk do return (← x).mapError fault : ExceptT ε (StateM Disk) α) =
      ((StateT.run x d).1.mapError fault, (StateT.run x d).2) := rfl

end Disk

theorem run_schemaText (name : String) (dirs : List String) (d : Disk) :
    (schemaText name dirs : StateM Disk (Option String)).run d =
      (dirs.findSome? fun dir => (d.read (join dir name)).toOption, d) := by
  induction dirs with
  | nil => rfl
  | cons dir dirs ih =>
    have read : StateT.run (Storage.read (join dir name) : StateM Disk _) d = (d.read (join dir name), d) := rfl
    rw [schemaText, StateT.run_bind, read, List.findSome?_cons]
    cases d.read (join dir name) with
    | ok text => rfl
    | error _ => exact ih

theorem Reading.run_load (x : Reading) (f : Formats) :
    x.disk.run (loadSchema x.imports x.path f) = (x.load f, x.disk) := by
  rw [loadSchema, load, rel?]
  cases relativeTo? x.imports x.path with
  | none => rfl
  | some rel =>
    have texts : (Proto.catalogOfSources (schemaText · x.dirs) [rel] f.schemas :
        OptionT (StateM Disk) _).run.run x.disk = (f.schemas.catalog x.text? [rel], x.disk) :=
      Proto.run_catalogOfSources fun name => run_schemaText name x.dirs x.disk
    rw [dirs] at texts
    simp only [loadSchemas]
    rw [Disk.run_bind, Disk.run_lift, texts]
    cases f.schemas.catalog x.text? [rel] with
    | none => rfl
    | some c => rfl

/-! ### The cache -/

namespace Cache

variable {c : Cache} {key : String} {load : ExceptT LoadFault (StateM Disk) Catalog} {k : Codec} {d : Disk}

theorem run_lookup (c : Cache) (key : String) (k : Codec) (d : Disk) :
    (c.lookup key k : StateM Disk (Option Catalog)).run d =
      match d.read (c.file key) with
      | .error _ => (none, d)
      | .ok text =>
        match k.parse text with
        | .ok catalog => (some catalog, d)
        | .error _ => (none, (d.remove (c.file key)).2) := by
  change StateT.run (match d.read (c.file key) with
    | .error _ => pure none
    | .ok text => _ : StateM Disk (Option Catalog)) d = _
  cases d.read (c.file key) with
  | error _ => rfl
  | ok text =>
    dsimp only
    cases k.parse text <;> rfl

/-- The disk after a catalog was to be stored. What stood in the way is told. -/
def stored (c : Cache) (key : String) (catalog : Catalog) (k : Codec) (d : Disk) : Disk :=
  match d.run (c.store key catalog k) with
  | (.ok _, e) => e
  | (.error fault, e) => { e with warnings := e.warnings ++ [fault.warning ++ "\n"] }

theorem run_cached_hit {text : String} {catalog : Catalog} (read : d.read (c.file key) = .ok text)
    (parsed : k.parse text = .ok catalog) : d.run (c.cached key load k) = (.ok ⟨catalog, true⟩, d) := by
  rw [cached, Disk.run_bind, Disk.run_lift, run_lookup, read]
  dsimp only
  rw [parsed]
  rfl

theorem run_cached_fault {denial : Denial} (read : d.read (c.file key) = .error denial) {fault : LoadFault}
    (loaded : d.run load = (.error fault, d)) : d.run (c.cached key load k) = (.error fault, d) := by
  rw [cached, Disk.run_bind, Disk.run_lift, run_lookup, read]
  dsimp only
  rw [Disk.run_bind, loaded]

theorem run_cached_store {denial : Denial} (read : d.read (c.file key) = .error denial) {catalog : Catalog}
    (loaded : d.run load = (.ok catalog, d)) :
    d.run (c.cached key load k) = (.ok ⟨catalog, false⟩, c.stored key catalog k d) := by
  rw [cached, Disk.run_bind, Disk.run_lift, run_lookup, read]
  dsimp only
  rw [Disk.run_bind, loaded]
  dsimp only
  have store : StateT.run (c.store key catalog k : ExceptT StoreFault (StateM Disk) Unit).run d =
      d.run (c.store key catalog k) := rfl
  rw [Disk.run_bind, Disk.run_lift, store]
  unfold stored
  rcases d.run (c.store key catalog k) with ⟨_ | _, e⟩ <;> rfl

theorem run_makeDirectories (p : String) (d : Disk) :
    StateT.run (Storage.makeDirectories p : StateM Disk (Except Denial Unit)) d = d.makeDirectories p := by
  have step : (Storage.makeDirectories p : StateM Disk (Except Denial Unit)) =
      modifyGet (·.makeDirectories p) := rfl
  rw [step]
  -- Unfolding the walk along the path is not needed, and it is slow.
  generalize Disk.makeDirectories = make
  rfl

theorem run_store (c : Cache) (key : String) (catalog : Catalog) (k : Codec) (d : Disk) :
    d.run (c.store key catalog k) =
      match d.makeDirectories c.dir with
      | (.error cause, e) => (.error (.directory cause), e)
      | (.ok _, e) =>
        ((e.write (c.file key) (k.render catalog)).1.mapError .write,
          (e.write (c.file key) (k.render catalog)).2) := by
  rw [store, Disk.run_bind, Disk.run_mapError, run_makeDirectories]
  rcases d.makeDirectories c.dir with ⟨_ | _, e⟩ <;> rfl

/-- Storing makes the directory and then, if that is done, writes the file of the key. -/
theorem stored_rec {P : Disk → Prop} {catalog : Catalog} (warn : ∀ e warnings, P e → P { e with warnings })
    (made : P (d.makeDirectories c.dir).2)
    (written : (d.makeDirectories c.dir).1 = .ok () →
      P ((d.makeDirectories c.dir).2.write (c.file key) (k.render catalog)).2) :
    P (c.stored key catalog k d) := by
  unfold stored
  rw [run_store]
  rcases outcome : d.makeDirectories c.dir with ⟨_ | _, e⟩ <;> rw [outcome] at made written
  · exact warn e _ made
  · replace written := written rfl
    dsimp only at written ⊢
    rcases outcome : e.write (c.file key) (k.render catalog) with ⟨_ | _, f⟩ <;> rw [outcome] at written
    · exact warn f _ written
    · exact written

end Cache

/-! ### Sources -/

section

variable {cache : Cache} {base : String} {s : CatalogSource} {f : Formats} {d e : Disk}

theorem run_read {fault : Denial → LoadFault} (d : Disk) (path : String) :
    d.run (orFault fault (Storage.read path)) = ((d.read path).mapError fault, d) := rfl

theorem run_openSource {x : Reading} (reading : Reading.of? d base s = some x) :
    d.run (openSource cache base s f) =
      ((d.run (cache.cached x.key (loadSchema x.imports x.path f) f.codec)).1.map (·.catalog),
        (d.run (cache.cached x.key (loadSchema x.imports x.path f) f.codec)).2) := by
  unfold Reading.of? at reading
  dsimp only at reading
  split at reading
  · rename_i kind read
    cases reading
    simp only [openSource, kind]
    rw [Disk.run_bind, run_read, read]
    simp only [Except.mapError]
    rw [Disk.run_bind, Reading.key, Reading.parts]
    rcases d.run (cache.cached _ (loadSchema (importDirs base s) (seenFrom base s.path) f) f.codec) with
      ⟨_ | _, e⟩ <;> rfl
  · cases reading

theorem openSource_of_unread {x : Reading} (reading : Reading.of? d base s = some x) {denial : Denial}
    (unread : d.read (cache.file x.key) = .error denial) :
    (d.run (openSource cache base s f)).1 = x.load f := by
  obtain ⟨rfl, _⟩ := Reading.of?_disk reading rfl
  have load := x.run_load f
  rw [run_openSource reading]
  cases loaded : x.load f with
  | error fault =>
    rw [loaded] at load
    rw [Cache.run_cached_fault unread load]
    rfl
  | ok catalog =>
    rw [loaded] at load
    rw [Cache.run_cached_store unread load]
    rfl

theorem run_openSource_of_none (cache : Cache) (f : Formats) (none : Reading.of? d base s = none)
    (same : e.read (seenFrom base s.path) = d.read (seenFrom base s.path)) :
    ∃ r, d.run (openSource cache base s f) = (r, d) ∧ e.run (openSource cache base s f) = (r, e) := by
  unfold openSource
  split
  · simp only [loadCatalog, Disk.run_bind, run_read, same]
    cases d.read (seenFrom base s.path) <;> exact ⟨_, rfl, rfl⟩
  · rename_i kind
    have unread : ∃ denial, d.read (seenFrom base s.path) = .error denial := by
      cases read : d.read (seenFrom base s.path) with
      | error denial => exact ⟨denial, rfl⟩
      | ok text => simp [Reading.of?, kind, read] at none
    obtain ⟨denial, unread⟩ := unread
    simp only [Disk.run_bind, run_read, same, unread, Except.mapError]
    exact ⟨_, rfl, rfl⟩
  · exact ⟨_, rfl, rfl⟩
  · exact ⟨_, rfl, rfl⟩
  · exact ⟨_, rfl, rfl⟩

end

end TypeEngine.Storage
