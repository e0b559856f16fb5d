import TypeEngine.Proofs.Storage.Reading

/-!
# Opening with a cache

A session writes files and opens settings, in any order. The cache directory then holds only catalogs
of readings of the session, each in the file of its key (`Valid`). So an opening gives what it gives
with an empty cache (`opened_cleared`), if readings with one key see the same files. The key covers
the named file only: what the named file imports is not in it, and a change there is not seen
(`opened_stale`). Both hold of every parser of schemas and every codec of catalog files that keep to
their laws (`Trusted`).
-/

namespace TypeEngine.Storage

open Host (Catalog)
open Disk (Inside AgreeOutside)

/-! ### Events and what they read -/

/-- The schema sources that are read when sources are opened one after another. -/
def readings (f : Formats) (cache : Cache) (base : String) (d : Disk) : List CatalogSource → List Reading
  | [] => []
  | s :: sources =>
    (Reading.of? d base s).toList ++
      match d.run (openSource cache base s f) with
      | (.ok _, e) => readings f cache base e sources
      | (.error _, _) => []

inductive Event where
  | write (path text : String)
  | makeDirectories (path : String)
  | opens (o : Options) (base : String)

namespace Event

def run (f : Formats) (d : Disk) : Event → Disk
  | write path text => (d.write path text).2
  | makeDirectories path => (d.makeDirectories path).2
  | opens o base => (d.run (openCatalogs o base f)).2

def readings (f : Formats) (d : Disk) : Event → List Reading
  | opens o base => Storage.readings f ⟨seenFrom base o.cacheDir⟩ base d o.catalogs
  | _ => []

/-- The cache directory is `top`, where nothing else is read or written. -/
def Apart (top : List String) (d : Disk) : Event → Prop
  | write path _ => ¬Inside top (d.place path)
  | makeDirectories path => ¬Inside top (d.place path)
  | opens o base =>
    d.place (seenFrom base o.cacheDir) = top ∧
      ∀ s ∈ o.catalogs, ∀ q ∈ d.trail (seenFrom base s.path), ¬Inside top q

end Event

/-- The disk after a session. -/
def session (f : Formats) (d : Disk) (events : List Event) : Disk := events.foldl (Event.run f) d

def sessionReadings (f : Formats) (d : Disk) : List Event → List Reading
  | [] => []
  | event :: events => event.readings f d ++ sessionReadings f (event.run f d) events

/-- What is assumed of the readings of a session with the cache directory `top`. -/
structure Trusted (f : Formats) (top : List String) (R : List Reading) : Prop where
  /-- Parsing ignores blanks at the ends of lines and gives names that are names. -/
  parser : f.schemas.Lawful
  /-- No schema file is looked for in the cache directory. -/
  apart : ∀ x ∈ R, ∀ dir ∈ x.dirs, ∀ name ∈ x.asked f, ∀ q ∈ x.disk.trail (join dir name), ¬Inside top q
  /-- The names of directories hold no zero. -/
  solid : ∀ x ∈ R, ∀ dir ∈ x.imports, '\x00' ∉ dir.toList
  /-- The hash has no collisions. -/
  distinct : ∀ x ∈ R, ∀ y ∈ R, x.key = y.key → Cache.message x.parts = Cache.message y.parts
  /-- The codec reads back what it wrote. -/
  legible : ∀ x ∈ R, ∀ c, x.load f = .ok c → f.codec.Keeps c.toFile
  /-- What keys leave out is the same. -/
  settled : ∀ x ∈ R, ∀ y ∈ R, x.key = y.key → Reading.Matches f x y

/-! ### What the cache directory holds -/

/-- All that lies in the directory `top` is catalogs of readings, each in the file of its key. -/
def Valid (f : Formats) (top : List String) (R : List Reading) (d : Disk) : Prop :=
  ∀ q c, Inside top q → d.content? q = some c → d.IsDirectory top ∧
    ∃ x ∈ R, ∃ catalog modified, q = top ++ [Cache.fileName x.key] ∧ c = .file (f.codec.render catalog) modified ∧
      x.load f = .ok catalog

namespace Valid

variable {f : Formats} {top : List String} {R : List Reading} {d e : Disk}

theorem of_empty (empty : ∀ q, Inside top q → d.content? q = none) : Valid f top R d := by
  intro q c inside there
  rw [empty q inside] at there
  cases there

theorem frame (valid : Valid f top R d) (same : ∀ q, Inside top q → e.content? q = d.content? q)
    (kept : d.IsDirectory top → e.IsDirectory top) : Valid f top R e := by
  intro q c inside there
  rw [same q inside] at there
  obtain ⟨made, stored⟩ := valid q c inside there
  exact ⟨kept made, stored⟩

theorem makeDirectories (valid : Valid f top R d) {p : String} (outside : ¬Inside top (d.place p)) :
    Valid f top R (d.makeDirectories p).2 := by
  have grown := d.makeDirectories_extends p
  refine valid.frame (fun q inside => ?_) fun made q above => ?_
  · rcases grown.content q with same | ⟨leads, _, _⟩
    · exact same
    · exact absurd (inside.below leads) outside
  · rcases grown.content q with same | ⟨_, vacant, _⟩
    · rw [same, made q above]
    · rw [made q above] at vacant
      cases vacant

theorem write (valid : Valid f top R d) (absolute : isAbsolute d.workingDirectory = true) {p : String}
    (outside : ¬Inside top (d.place p)) (text : String) : Valid f top R (d.write p text).2 := by
  rcases Disk.write_cases absolute p text with same | ⟨free, written⟩
  · rwa [same]
  rw [written]
  refine valid.frame (fun q within => Disk.content?_set_of_ne ?_ d _) fun made q above => ?_
  · rintro rfl
    exact outside within
  · rw [Disk.content?_set_of_ne, made q above]
    rintro rfl
    exact free (made _ above)

theorem set (valid : Valid f top R d) (made : d.IsDirectory top) {x : Reading} (member : x ∈ R) {catalog : Catalog}
    (loaded : x.load f = .ok catalog) (modified : Nat) :
    Valid f top R (d.set (top ++ [Cache.fileName x.key]) (.file (f.codec.render catalog) modified)) := by
  have inside : top ++ [Cache.fileName x.key] ≠ [] := by simp
  intro q c within there
  rw [Disk.content?_set inside] at there
  refine ⟨fun p above => ?_, ?_⟩
  · rw [Disk.content?_set_of_ne, made p above]
    rintro rfl
    exact Disk.not_inside_above above (Disk.inside_append top _)
  · split at there
    · rename_i here
      cases there
      exact ⟨x, member, catalog, modified, here, rfl, loaded⟩
    · exact (valid q c within there).2

end Valid

/-! ### One source -/

section

variable {f : Formats} {top : List String} {R : List Reading} {d e : Disk} {cache : Cache} {base : String}

/-- The disk after a reading, but for what lies in the cache directory. -/
def Reading.after (x : Reading) (f : Formats) (cache : Cache) : Disk :=
  match x.load f with
  | .ok _ => (x.disk.makeDirectories cache.dir).2
  | .error _ => x.disk

theorem stored_valid {x : Reading} (member : x ∈ R) {catalog : Catalog} (loaded : x.load f = .ok catalog)
    (valid : Valid f top R e) (agree : AgreeOutside top d e) (absolute : isAbsolute e.workingDirectory = true)
    (place : e.place cache.dir = top) :
    AgreeOutside top (d.makeDirectories cache.dir).2 (cache.stored x.key catalog f.codec e) ∧
      Valid f top R (cache.stored x.key catalog f.codec e) := by
  have outside : ¬Inside top (e.place cache.dir) := by
    rw [place]
    exact Disk.not_inside_above (List.prefix_refl _)
  have made := (agree.makeDirectories ((agree.place _).trans place)).2
  have grown := valid.makeDirectories outside
  have cwd := (e.makeDirectories_extends cache.dir).cwd
  have rooted : isAbsolute (e.makeDirectories cache.dir).2.workingDirectory = true := by rw [cwd, absolute]
  have file : (e.makeDirectories cache.dir).2.place (cache.file x.key) = top ++ [Cache.fileName x.key] := by
    rw [Cache.file, Disk.place_join rooted x.isPlain_fileName, ← place, Disk.place, cwd, Disk.place]
  refine Cache.stored_rec (P := fun e' => AgreeOutside top (d.makeDirectories cache.dir).2 e' ∧ Valid f top R e')
    (fun e' warnings kept => ⟨⟨kept.1.cwd, kept.1.content⟩, kept.2⟩) ⟨made, grown⟩ fun done => ?_
  have directory := Disk.makeDirectories_ok done
  rw [place] at directory
  rcases Disk.write_cases rooted (cache.file x.key) (f.codec.render catalog) with same | ⟨_, written⟩
  · rw [same]
    exact ⟨made, grown⟩
  · rw [written, file]
    exact ⟨made.trans (AgreeOutside.set_inside _ (Disk.inside_append top _) _).symm,
      grown.set directory member loaded _⟩

/-- What is found in the file of a key is what the reading would load. -/
theorem parse_of_read (trusted : Trusted f top R) {x : Reading} (member : x ∈ R) (valid : Valid f top R e)
    (absolute : isAbsolute e.workingDirectory = true) (place : e.place cache.dir = top) {text : String}
    (read : e.read (cache.file x.key) = .ok text) :
    e.IsDirectory top ∧ ∃ catalog, f.codec.parse text = .ok catalog ∧ x.load f = .ok catalog := by
  have there : ∃ modified, e.content? (top ++ [Cache.fileName x.key]) = some (.file text modified) := by
    rw [Disk.read] at read
    split at read
    · rename_i found
      cases read
      obtain ⟨here, there⟩ := Disk.find_ok absolute found
      rw [here, Cache.file, Disk.place_join absolute x.isPlain_fileName, place] at there
      exact ⟨_, there⟩
    · cases read
    · cases read
  obtain ⟨modified, there⟩ := there
  obtain ⟨made, y, known, catalog, _, file, content, loaded⟩ := valid _ _ (Disk.inside_append top _) there
  obtain ⟨rfl, rfl⟩ := Content.file.inj content
  have key : y.key = x.key := by
    have same := List.append_cancel_left file
    exact (Cache.fileName_inj (List.cons.inj same).1).symm
  have message := trusted.distinct x member y known key.symm
  have named := Reading.fingerprint_of_message (trusted.solid x member) (trusted.solid y known) message
  exact ⟨made, catalog, Reading.parse_render trusted.parser loaded (trusted.legible y known catalog loaded),
    (trusted.settled y known x member key).load trusted.parser named loaded⟩

/-- A reading gives what it gives without a cache, and keeps the cache directory valid. -/
theorem cached_valid (trusted : Trusted f top R) {x : Reading} (member : x ∈ R) (valid : Valid f top R e)
    (agree : AgreeOutside top x.disk e) (absolute : isAbsolute e.workingDirectory = true)
    (place : e.place cache.dir = top) :
    ∃ found e', e.run (cache.cached x.key (loadSchema x.imports x.path f) f.codec) = (found, e') ∧
      found.map (·.catalog) = x.load f ∧ AgreeOutside top (x.after f cache) e' ∧ Valid f top R e' := by
  cases read : e.read (cache.file x.key) with
  | ok text =>
    obtain ⟨made, catalog, parsed, loaded⟩ := parse_of_read trusted member valid absolute place read
    refine ⟨_, _, Cache.run_cached_hit read parsed, loaded.symm, ?_, valid⟩
    -- the directory was there, so making it anew changes nothing
    have kept : x.disk.IsDirectory (x.disk.place cache.dir) := by
      rw [agree.place, place]
      intro q above
      rw [agree.content q (Disk.not_inside_above above), made q above]
    rw [Reading.after, loaded]
    dsimp only
    rw [Disk.makeDirectories_of_isDirectory kept]
    exact agree
  | error denial =>
    have same : ({ x with disk := e } : Reading).load f = x.load f :=
      Reading.load_disk trusted.parser fun dir known name asked =>
        (agree.read (trusted.apart x member dir known name asked)).symm
    have load : e.run (loadSchema x.imports x.path f) = (x.load f, e) := by
      rw [← same]
      exact Reading.run_load { x with disk := e } f
    rw [Reading.after]
    cases loaded : x.load f with
    | error fault =>
      rw [loaded] at load
      exact ⟨_, _, Cache.run_cached_fault read load, rfl, agree, valid⟩
    | ok catalog =>
      rw [loaded] at load
      obtain ⟨after, valid⟩ := stored_valid member loaded valid agree absolute place
      exact ⟨_, _, Cache.run_cached_store read load, rfl, after, valid⟩

theorem Reading.after_cwd (x : Reading) (f : Formats) (cache : Cache) :
    (x.after f cache).workingDirectory = x.disk.workingDirectory := by
  unfold after
  split
  · exact (x.disk.makeDirectories_extends cache.dir).cwd
  · rfl

/-! ### Programs that do not see the cache -/

/-- Two disks with valid cache directories that agree on all else. -/
structure Alike (f : Formats) (top : List String) (R : List Reading) (d e : Disk) : Prop where
  agree : AgreeOutside top d e
  left : Valid f top R d
  right : Valid f top R e

/-- The program gives the same on both disks, and leaves them alike. -/
structure Blind {ε α : Type} (f : Formats) (top : List String) (R : List Reading) (d e : Disk)
    (x : ExceptT ε (StateM Disk) α) : Prop where
  outcome : (d.run x).1 = (e.run x).1
  cwd : (d.run x).2.workingDirectory = d.workingDirectory
  alike : Alike f top R (d.run x).2 (e.run x).2

namespace Blind

variable {ε ε' α β : Type} {x : ExceptT ε (StateM Disk) α}

theorem of_result (alike : Alike f top R d e) (r : Except ε α) : Blind f top R d e (ExceptT.mk (pure r)) :=
  ⟨rfl, rfl, alike⟩

theorem adapt (first : Blind f top R d e x) (g : ε → ε') : Blind f top R d e (x.adapt g) :=
  ⟨congrArg (Except.mapError g) first.outcome, first.cwd, first.alike⟩

theorem bind {g : α → ExceptT ε (StateM Disk) β} (first : Blind f top R d e x)
    (next : ∀ a, (d.run x).1 = .ok a → Blind f top R (d.run x).2 (e.run x).2 (g a)) :
    Blind f top R d e (x >>= g) := by
  have step := d.run_bind x g
  have step' := e.run_bind x g
  obtain ⟨outcome, cwd, alike⟩ := first
  generalize d.run x = mine at step outcome cwd alike next
  generalize e.run x = theirs at step' outcome alike next
  obtain ⟨r, d'⟩ := mine
  obtain ⟨r', e'⟩ := theirs
  obtain rfl : r = r' := outcome
  cases r with
  | error fault => exact ⟨by rw [step, step'], by rw [step, cwd], by rw [step, step']; exact alike⟩
  | ok a =>
    obtain ⟨outcome, cwd', alike⟩ := next a rfl
    exact ⟨by rw [step, step', outcome], by rw [step, cwd', cwd], by rw [step, step']; exact alike⟩

end Blind

variable {s : CatalogSource}

/-- Opening a source tells no two disks apart that differ in the cache only. -/
theorem blind_openSource (trusted : Trusted f top R) (alike : Alike f top R d e)
    (absolute : isAbsolute d.workingDirectory = true) (place : d.place cache.dir = top)
    (outside : ∀ q ∈ d.trail (seenFrom base s.path), ¬Inside top q)
    (known : ∀ x ∈ Reading.of? d base s, x ∈ R) : Blind f top R d e (openSource cache base s f) := by
  have read := alike.agree.read outside
  cases reading : Reading.of? d base s with
  | none =>
    obtain ⟨r, mine, theirs⟩ := run_openSource_of_none cache f reading read.symm
    exact ⟨by rw [mine, theirs], by rw [mine], by rw [mine, theirs]; exact alike⟩
  | some x =>
    have member := known x reading
    obtain ⟨rfl, moved⟩ := Reading.of?_disk reading read.symm
    obtain ⟨found, d', mine, loaded, after, left⟩ :=
      cached_valid trusted member alike.left (.refl _) absolute place
    obtain ⟨found', e', theirs, loaded', after', right⟩ :=
      cached_valid trusted member alike.right alike.agree (alike.agree.cwd ▸ absolute) (alike.agree.place _ ▸ place)
    have run : x.disk.run (openSource cache base s f) = (x.load f, d') := by
      rw [run_openSource reading, mine, loaded]
    have run' : e.run (openSource cache base s f) = (x.load f, e') := by
      rw [run_openSource moved, x.key_disk, theirs, loaded']
    exact ⟨by rw [run, run'], by rw [run, ← after.cwd, x.after_cwd],
      by rw [run, run']; exact ⟨after.symm.trans after', left, right⟩⟩

theorem blind_openSources (trusted : Trusted f top R) (alike : Alike f top R d e)
    (absolute : isAbsolute d.workingDirectory = true) (place : d.place cache.dir = top)
    {sources : List CatalogSource}
    (outside : ∀ s ∈ sources, ∀ q ∈ d.trail (seenFrom base s.path), ¬Inside top q)
    (known : ∀ x ∈ readings f cache base d sources, x ∈ R) (c : Catalog) (index : Nat) :
    Blind f top R d e (openSources cache base f c index sources) := by
  induction sources generalizing d e c index with
  | nil => exact .of_result alike (.ok c)
  | cons s sources ih =>
    rw [readings, List.forall_mem_append] at known
    rw [List.forall_mem_cons] at outside
    have first := blind_openSource trusted alike absolute place outside.1 (by simpa using known.1)
    rw [openSources]
    refine .bind (first.adapt _) fun loaded done => .bind (.of_result first.alike _) fun c _ => ?_
    have run : d.run (openSource cache base s f) = (.ok loaded, (d.run (openSource cache base s f)).2) :=
      Prod.ext (Ty.ok_of_mapError done) rfl
    have later := known.2
    rw [run] at later
    refine ih first.alike (first.cwd ▸ absolute) ?_ ?_ later c (index + 1)
    · rw [Disk.place_congr first.cwd, place]
    · intro s listed
      rw [Disk.trail_congr first.cwd]
      exact outside.2 s listed

/-! ### Sessions -/

theorem blind_openCatalogs (trusted : Trusted f top R) (alike : Alike f top R d e)
    (absolute : isAbsolute d.workingDirectory = true) {o : Options} (apart : (Event.opens o base).Apart top d)
    (known : ∀ x ∈ (Event.opens o base).readings f d, x ∈ R) : Blind f top R d e (openCatalogs o base f) :=
  .bind (blind_openSources trusted alike absolute apart.1 apart.2 known .empty 0) fun c _ =>
    .of_result (blind_openSources trusted alike absolute apart.1 apart.2 known .empty 0).alike (.ok c.freeze)

/-- An event keeps the cache directory valid. -/
theorem Valid.event (trusted : Trusted f top R) (valid : Valid f top R d)
    (absolute : isAbsolute d.workingDirectory = true) {event : Event} (apart : event.Apart top d)
    (known : ∀ x ∈ event.readings f d, x ∈ R) :
    Valid f top R (event.run f d) ∧ (event.run f d).workingDirectory = d.workingDirectory := by
  cases event with
  | write path text =>
    rw [Event.run]
    refine ⟨valid.write absolute apart text, ?_⟩
    rcases Disk.write_cases absolute path text with same | ⟨_, same⟩ <;> rw [same]
    rfl
  | makeDirectories path =>
    rw [Event.run]
    exact ⟨valid.makeDirectories apart, (d.makeDirectories_extends path).cwd⟩
  | opens o base =>
    have blind := blind_openCatalogs trusted ⟨.refl d, valid, valid⟩ absolute apart known
    rw [Event.run]
    exact ⟨blind.alike.left, blind.cwd⟩

theorem Event.Apart.congr {event : Event} (apart : event.Apart top d)
    (cwd : e.workingDirectory = d.workingDirectory) : event.Apart top e := by
  cases event with
  | write path text => rwa [Event.Apart, Disk.place_congr cwd]
  | makeDirectories path => rwa [Event.Apart, Disk.place_congr cwd]
  | opens o base =>
    refine ⟨(Disk.place_congr cwd _).trans apart.1, fun s listed => ?_⟩
    rw [Disk.trail_congr cwd]
    exact apart.2 s listed

theorem Valid.session (trusted : Trusted f top R) {events : List Event} (valid : Valid f top R d)
    (absolute : isAbsolute d.workingDirectory = true) (apart : ∀ event ∈ events, event.Apart top d)
    (known : ∀ x ∈ sessionReadings f d events, x ∈ R) :
    Valid f top R (session f d events) ∧ (session f d events).workingDirectory = d.workingDirectory := by
  induction events generalizing d with
  | nil => exact ⟨valid, rfl⟩
  | cons event events ih =>
    rw [sessionReadings, List.forall_mem_append] at known
    rw [List.forall_mem_cons] at apart
    obtain ⟨after, cwd⟩ := valid.event trusted absolute apart.1 known.1
    obtain ⟨valid, same⟩ := ih after (cwd ▸ absolute) (fun event listed => (apart.2 event listed).congr cwd) known.2
    exact ⟨valid, same.trans cwd⟩

theorem sessionReadings_append (f : Formats) (d : Disk) (before after : List Event) :
    sessionReadings f d (before ++ after) =
      sessionReadings f d before ++ sessionReadings f (session f d before) after := by
  induction before generalizing d with
  | nil => rfl
  | cons event before ih =>
    rw [List.cons_append, sessionReadings, sessionReadings, ih, List.append_assoc]
    rfl

/-- The disk with nothing in the directory `top`. -/
def Disk.cleared (d : Disk) (top : List String) : Disk :=
  { d with contents := d.contents.filter fun x => !decide (Inside top x.1) }

theorem Disk.content?_cleared (d : Disk) (top q : List String) :
    (d.cleared top).content? q = if Inside top q then none else d.content? q := by
  cases q with
  | nil => rw [content?_root, content?_root, if_neg (not_inside_above List.nil_prefix)]
  | cons name q =>
    have kept := lookup_filter (fun p => !decide (Inside top p)) d.contents (name :: q)
    simpa [cleared, content?, ite_not] using kept

theorem Disk.agreeOutside_cleared (d : Disk) (top : List String) : AgreeOutside top d (d.cleared top) :=
  ⟨rfl, fun q outside => by rw [content?_cleared, if_neg outside]⟩

/-- Opening settings gives the same as with an empty cache directory. -/
theorem opened_cleared (f : Formats) (d : Disk) (top : List String) (events : List Event) (o : Options) (base : String)
    (absolute : isAbsolute d.workingDirectory = true) (empty : ∀ q, Inside top q → d.content? q = none)
    (apart : ∀ event ∈ events ++ [.opens o base], event.Apart top d)
    (trusted : Trusted f top (sessionReadings f d (events ++ [.opens o base]))) :
    ((session f d events).run (openCatalogs o base f)).1 =
      (((session f d events).cleared top).run (openCatalogs o base f)).1 := by
  rw [List.forall_mem_append] at apart
  have parts := sessionReadings_append f d events [.opens o base]
  obtain ⟨valid, cwd⟩ := (Valid.of_empty empty).session trusted absolute apart.1 fun x member => by
    rw [parts]
    exact List.mem_append_left _ member
  have bare : ∀ q, Inside top q → ((session f d events).cleared top).content? q = none :=
    fun q inside => by rw [Disk.content?_cleared, if_pos inside]
  refine (blind_openCatalogs trusted ⟨Disk.agreeOutside_cleared _ top, valid, .of_empty bare⟩ (cwd ▸ absolute)
    ((apart.2 _ (List.mem_singleton.mpr rfl)).congr cwd) fun x member => ?_).outcome
  rw [parts]
  exact List.mem_append_right _ (List.mem_append_left _ member)

end

/-! ### A session with an import -/

namespace Sample

def order : String := "import \"item.proto\";"

def item : String := "message Item \x7b\x7d"

def part : String := "message Part \x7b\x7d"

/-- The disk where the imported file has the text. -/
def disk (imported : String) : Disk where
  workingDirectory := "/"
  contents := [(["order.proto"], .file order 0), (["item.proto"], .file imported 0), (["cache"], .directory)]

def source : CatalogSource where
  kind := "proto"
  path := "order.proto"

def settings : Options where
  cacheDir := "cache"
  catalogs := [source]

def cache : Cache := ⟨seenFrom "/" settings.cacheDir⟩

/-- What opening the settings gives. -/
def opened (f : Formats) (d : Disk) : Except LoadFault Catalog := (d.run (openCatalogs settings "/" f)).1

/-- The reading of the source on a disk where the named file has the text. -/
def reading (d : Disk) (text : String) : Reading := ⟨d, "/order.proto", text, ["/"]⟩

theorem ok_of_toOption {ε α : Type} {x : Except ε α} {a : α} (given : x.toOption = some a) : x = .ok a := by
  cases x with
  | error e => cases given
  | ok b => exact congrArg Except.ok (Option.some.inj given)

theorem error_of_toOption {ε α : Type} {x : Except ε α} (refused : x.toOption = none) : ∃ e, x = .error e := by
  cases x with
  | error e => exact ⟨e, rfl⟩
  | ok a => cases refused

variable {f : Formats} {d e : Disk} {text text' imported : String}

theorem of?_source (read : (d.read "/order.proto").toOption = some text) :
    Reading.of? d "/" source = some (reading d text) := by
  have path : seenFrom "/" source.path = "/order.proto" := by decide +kernel
  have dirs : importDirs "/" source = ["/"] := by decide +kernel
  simp only [Reading.of?, path, dirs, ok_of_toOption read]
  rfl

theorem readings_settings (read : (d.read "/order.proto").toOption = some text) :
    (Event.opens settings "/").readings f d = [reading d text] := by
  have first : readings f cache "/" d [source] = [reading d text] := by
    rw [readings, of?_source read]
    split <;> rfl
  exact first

/-- The disk holds the files of the sample, up to blanks at the ends of the named one. -/
structure Holds (d : Disk) (text imported : String) : Prop where
  order : (d.read "/order.proto").toOption = some text
  item : (d.read "/item.proto").toOption = some imported
  cwd : d.workingDirectory = "/"
  blanks : Cache.fingerprint text = Cache.fingerprint Sample.order

def names : List String := ["order.proto", "item.proto"]

theorem text?_eq (d : Disk) (text name : String) :
    (reading d text).text? name = (d.read (join "/" name)).toOption := by
  have single : (reading d text).text? name = ["/"].findSome? fun dir => (d.read (join dir name)).toOption := rfl
  rw [single, List.findSome?_cons]
  cases (d.read (join "/" name)).toOption <;> rfl

namespace Holds

theorem text?_order (holds : Holds d text imported) : (reading d text).text? "order.proto" = some text := by
  have path : join "/" "order.proto" = "/order.proto" := by decide +kernel
  rw [text?_eq, path, holds.order]

theorem text?_item (holds : Holds d text imported) : (reading d text).text? "item.proto" = some imported := by
  have path : join "/" "item.proto" = "/item.proto" := by decide +kernel
  rw [text?_eq, path, holds.item]

theorem texts (holds : Holds d text imported) (holds' : Holds e text' imported) {name : String}
    (listed : name ∈ names) : ((reading e text').text? name).map Cache.fingerprint =
      ((reading d text).text? name).map Cache.fingerprint := by
  simp only [names, List.mem_cons, List.not_mem_nil, or_false] at listed
  rcases listed with rfl | rfl
  · rw [holds.text?_order, holds'.text?_order, Option.map_some, Option.map_some, holds.blanks, holds'.blanks]
  · rw [holds.text?_item, holds'.text?_item]

theorem rel? (d : Disk) (text : String) : (reading d text).rel? = some "order.proto" := by
  have rel : relativeTo? ["/"] "/order.proto" = some "order.proto" := by decide +kernel
  exact rel

theorem asked (holds : Holds d text imported) (holds' : Holds e text' imported) (lawful : f.schemas.Lawful)
    (asks : ∀ name ∈ (reading d text).asked f, name ∈ names) :
    (reading e text').asked f = (reading d text).asked f := by
  rw [Reading.asked_eq (rel? d text)] at asks ⊢
  rw [Reading.asked_eq (rel? e text')]
  exact ((lawful.blanks _).congr fun name member => holds.texts holds' (asks name member)).1

theorem load (holds : Holds d text imported) (holds' : Holds e text' imported) (lawful : f.schemas.Lawful)
    (asks : ∀ name ∈ (reading d text).asked f, name ∈ names) :
    (reading e text').load f = (reading d text).load f :=
  Reading.load_congr lawful rfl rfl fun name member => holds.texts holds' (asks name member)

end Holds

/-- The formats read the files of the sample and no others, whichever of its two texts the imported file
has, and read back the catalog that they make of the first one. -/
structure Reads (f : Formats) : Prop where
  parser : f.schemas.Lawful
  asks : ∀ imported ∈ [item, part], ∀ name ∈ (reading (disk imported) order).asked f, name ∈ names
  loads : ∃ c, (reading (disk item) order).load f = .ok c ∧ f.codec.Keeps c.toFile

theorem reads_builtin : Reads {} where
  parser := Proto.lawful_builtin
  asks := by decide +kernel
  loads := by
    have kept : ((reading (disk item) order).load {}).toOption.any (fun c =>
        (Yaml.Node.ofChars c.toFile.node.chars).bind Host.File.ofDocument? = some c.toFile) = true := by
      decide +kernel
    obtain ⟨c, loaded, kept⟩ := Option.any_eq_true _ _ |>.mp kept
    exact ⟨c, ok_of_toOption loaded, Host.Codec.keeps_yaml (of_decide_eq_true kept)⟩

theorem holds_disk : Holds (disk item) order item := ⟨by decide +kernel, by decide +kernel, rfl, rfl⟩

theorem trusted (reads : Reads f) {R : List Reading}
    (each : ∀ x ∈ R, ∃ d text, x = reading d text ∧ Holds d text item) : Trusted f ["cache"] R where
  parser := reads.parser
  apart x member dir known name asked q visited := by
    obtain ⟨d, text, rfl, holds⟩ := each x member
    have outside : ∀ name ∈ names, ∀ q ∈ (disk item).trail (join "/" name), ¬Inside ["cache"] q := by
      decide +kernel
    obtain rfl : dir = "/" := List.mem_singleton.mp known
    have same : (disk item).workingDirectory = d.workingDirectory := holds.cwd.symm
    have asks := reads.asks item (by simp)
    rw [holds_disk.asked holds reads.parser asks] at asked
    refine outside name (asks name asked) q ?_
    rwa [Disk.trail_congr same]
  solid x member dir known := by
    obtain ⟨d, text, rfl, holds⟩ := each x member
    obtain rfl : dir = "/" := List.mem_singleton.mp known
    decide
  distinct x member y member' _ := by
    obtain ⟨d, text, rfl, holds⟩ := each x member
    obtain ⟨e, text', rfl, holds'⟩ := each y member'
    rw [Reading.parts, Reading.parts, reading, reading, holds.blanks, holds'.blanks]
  legible x member c loaded := by
    obtain ⟨d, text, rfl, holds⟩ := each x member
    obtain ⟨c', same, kept⟩ := reads.loads
    rw [holds_disk.load holds reads.parser (reads.asks item (by simp)), same] at loaded
    exact Except.ok.inj loaded ▸ kept
  settled x member y member' _ := by
    obtain ⟨d, text, rfl, holds⟩ := each x member
    obtain ⟨e, text', rfl, holds'⟩ := each y member'
    have asks := reads.asks item (by simp)
    refine ⟨rfl, fun name asked => .inr (holds.texts holds' (asks name ?_))⟩
    rwa [holds_disk.asked holds reads.parser asks] at asked

theorem empty (q : List String) (inside : Inside ["cache"] q) : (disk item).content? q = none := by
  obtain ⟨⟨rest, rfl⟩, other⟩ := inside
  cases rest with
  | nil => exact absurd rfl other
  | cons name rest => simp [Disk.content?, disk, List.lookup_cons]

/-- The settings are opened, and then a file is written. -/
def revised (path text : String) : List Event := [.opens settings "/", .write path text]

theorem apart (path text : String) (outside : ¬Inside ["cache"] ((disk item).place path)) :
    ∀ event ∈ revised path text ++ [.opens settings "/"], event.Apart ["cache"] (disk item) := by
  have opens : (Event.opens settings "/").Apart ["cache"] (disk item) := by
    refine ⟨by decide +kernel, fun s listed => ?_⟩
    obtain rfl := List.mem_singleton.mp listed
    decide +kernel
  have writes : (Event.write path text).Apart ["cache"] (disk item) := outside
  simp [revised, opens, writes]

theorem holds_blank : Holds (session {} (disk item) (revised "order.proto" (order ++ " "))) (order ++ " ") item :=
  ⟨by decide +kernel, by decide +kernel, by decide +kernel, by decide +kernel⟩

end Sample

open Sample in
/-- A blank at the end of the named file keeps the key, and the stored catalog is right. -/
theorem opened_cleared_blank :
    opened {} (session {} (disk item) (revised "order.proto" (order ++ " "))) =
      opened {} ((session {} (disk item) (revised "order.proto" (order ++ " "))).cleared ["cache"]) := by
  rw [opened, opened]
  refine opened_cleared {} (disk item) ["cache"] _ settings "/" (by decide) empty (apart _ _ (by decide +kernel))
    (trusted reads_builtin ?_)
  have first : sessionReadings {} (disk item) (revised "order.proto" (order ++ " ")) =
      [reading (disk item) order] := by
    rw [revised, sessionReadings, readings_settings holds_disk.order]
    rfl
  rw [sessionReadings_append, first, sessionReadings, readings_settings holds_blank.order]
  refine List.forall_mem_cons.mpr ⟨⟨_, _, rfl, holds_disk⟩, ?_⟩
  exact List.forall_mem_cons.mpr ⟨⟨_, _, rfl, holds_blank⟩, fun x none => nomatch none⟩

namespace Sample

variable {f : Formats} {d : Disk} {imported : String}

/-- What opening makes of the outcome of the one source. -/
def finish : Except LoadFault Catalog → Except LoadFault Catalog
  | .error fault => .error (.source 0 "proto" fault)
  | .ok c => ((Catalog.empty.merge c).mapError .refused).map Catalog.freeze

theorem run_settings (f : Formats) (d : Disk) :
    d.run (openCatalogs settings "/" f) =
      (finish (d.run (openSource cache "/" source f)).1, (d.run (openSource cache "/" source f)).2) := by
  have one : d.run (openCatalogs settings "/" f) =
      d.run (openSources cache "/" f .empty 0 [source] >>= fun c => pure c.freeze) := rfl
  have adapted : d.run ((openSource cache "/" source f).adapt (LoadFault.source 0 source.kind)) =
      ((d.run (openSource cache "/" source f)).1.mapError (LoadFault.source 0 "proto"),
        (d.run (openSource cache "/" source f)).2) := rfl
  rw [one, openSources, Disk.run_bind, Disk.run_bind, adapted]
  rcases d.run (openSource cache "/" source f) with ⟨fault | c, e⟩
  · rfl
  · have merged : e.run (orFault LoadFault.refused (pure (Catalog.empty.merge c))) =
        ((Catalog.empty.merge c).mapError .refused, e) := rfl
    dsimp only [Except.mapError, finish]
    rw [Disk.run_bind, merged]
    cases Catalog.empty.merge c <;> rfl

def key : String := (reading (disk item) order).key

theorem key_reading (d : Disk) : (reading d order).key = key := (reading (disk item) order).key_disk d

/-- Where the catalog of the named file is stored. -/
def stored : List String := ["cache", Cache.fileName key]

/-- All that matters of a disk: the texts of the two files, and that of the stored catalog if there is one. -/
structure Laid (d : Disk) (imported : String) (stored? : Option String) : Prop where
  cwd : d.workingDirectory = "/"
  clock : d.clock = 0
  order : d.content? ["order.proto"] = some (.file Sample.order 0)
  item : d.content? ["item.proto"] = some (.file imported 0)
  cache : d.content? ["cache"] = some .directory
  stored : d.content? stored = stored?.map (.file · 0)

theorem trail_file : (disk item).trail (cache.file key) = [[], [], ["cache"]] ++ [stored] := by decide +kernel

theorem place_file : (disk item).place (cache.file key) = stored := by decide +kernel

namespace Laid

variable {stored? : Option String}

theorem disk (imported : String) : Laid (Sample.disk imported) imported none :=
  ⟨rfl, rfl, rfl, rfl, rfl, rfl⟩

theorem find_file (laid : Laid d imported stored?) :
    d.find (Sample.cache.file key) =
      (d.content? Sample.stored).elim (.error .missing) fun c => .ok (Sample.stored, c) := by
  have same : d.workingDirectory = (Sample.disk Sample.item).workingDirectory := laid.cwd
  refine Disk.find_of_trail (by decide +kernel) ((Disk.trail_congr same _).trans trail_file) fun q member => ?_
  simp only [List.mem_cons, List.not_mem_nil, or_false] at member
  rcases member with rfl | rfl | rfl
  · rfl
  · rfl
  · exact laid.cache

theorem read_file (laid : Laid d imported stored?) : (d.read (Sample.cache.file key)).toOption = stored? := by
  rw [Disk.read, laid.find_file, laid.stored]
  cases stored? <;> rfl

theorem find_top (laid : Laid d imported stored?) {p name : String} (named : p ≠ "") (before : List (List String))
    (visited : (Sample.disk Sample.item).trail p = before ++ [[name]]) (tops : ∀ q ∈ before, q = [])
    {c : Content} (there : d.content? [name] = some c) : d.find p = .ok ([name], c) := by
  have same : d.workingDirectory = (Sample.disk Sample.item).workingDirectory := laid.cwd
  rw [Disk.find_of_trail named ((Disk.trail_congr same _).trans visited), there]
  · rfl
  · intro q member
    rw [tops q member]
    rfl

theorem holds (laid : Laid d imported stored?) : Holds d Sample.order imported where
  order := by
    rw [Disk.read, laid.find_top (by decide) [[], []] (by decide +kernel) (by simp) laid.order]
    rfl
  item := by
    rw [Disk.read, laid.find_top (by decide) [[], []] (by decide +kernel) (by simp) laid.item]
    rfl
  cwd := laid.cwd
  blanks := rfl

theorem write_item (laid : Laid d imported stored?) (text : String) :
    Laid (d.write "item.proto" text).2 text stored? := by
  have found := laid.find_top (p := "item.proto") (by decide) [[]] (by decide +kernel) (by simp) laid.item
  rw [Disk.write_file found (by simp)]
  refine ⟨laid.cwd, laid.clock, ?_, ?_, ?_, ?_⟩
  · exact (Disk.content?_set_of_ne (by decide) d _).trans laid.order
  · rw [Disk.content?_set (by simp), if_pos rfl, laid.clock]
  · exact (Disk.content?_set_of_ne (by decide) d _).trans laid.cache
  · exact (Disk.content?_set_of_ne (by decide) d _).trans laid.stored

theorem store (laid : Laid d imported none) (c : Catalog) (k : Host.Codec) :
    Laid (Sample.cache.stored key c k d) imported (some (k.render c)) := by
  have same : d.workingDirectory = (Sample.disk Sample.item).workingDirectory := laid.cwd
  have place := (Disk.place_congr same (Sample.cache.file key)).trans place_file
  have there : d.IsDirectory (d.place Sample.cache.dir) := by
    rw [Disk.place_congr same, show (Sample.disk Sample.item).place Sample.cache.dir = ["cache"] by decide +kernel]
    intro q above
    rcases List.prefix_cons_iff.mp above with rfl | ⟨rest, rfl, nil⟩
    · rfl
    · rw [List.prefix_nil.mp nil]
      exact laid.cache
  have missing : d.find (Sample.cache.file key) = .error .missing := by rw [laid.find_file, laid.stored]; rfl
  have written := Disk.write_new missing (by rw [place]; exact laid.stored) (by rw [place]; exact laid.cache)
    (k.render c)
  -- the directory is there, so the file is all that is new
  have run : d.run (Sample.cache.store key c k) = (.ok (), d.set Sample.stored (.file (k.render c) d.clock)) := by
    rw [Cache.run_store, Disk.makeDirectories_of_isDirectory there]
    dsimp only
    rw [written, place]
    rfl
  rw [Cache.stored, run]
  refine ⟨laid.cwd, laid.clock, ?_, ?_, ?_, ?_⟩
  · exact (Disk.content?_set_of_ne (by simp [Sample.stored]) d _).trans laid.order
  · exact (Disk.content?_set_of_ne (by simp [Sample.stored]) d _).trans laid.item
  · exact (Disk.content?_set_of_ne (by simp [Sample.stored]) d _).trans laid.cache
  · rw [Disk.content?_set (by simp [Sample.stored]), if_pos rfl, laid.clock]
    rfl

theorem cleared (laid : Laid d imported stored?) : Laid (d.cleared ["cache"]) imported none := by
  refine ⟨laid.cwd, laid.clock, ?_, ?_, ?_, ?_⟩
  · rw [Disk.content?_cleared, if_neg (by decide), laid.order]
  · rw [Disk.content?_cleared, if_neg (by decide), laid.item]
  · rw [Disk.content?_cleared, if_neg (by decide), laid.cache]
  · rw [Disk.content?_cleared, if_pos (show Inside ["cache"] Sample.stored from Disk.inside_append ["cache"] _)]
    rfl

theorem run_source (laid : Laid d imported none) {c : Catalog} (loaded : (reading d Sample.order).load f = .ok c) :
    d.run (openSource Sample.cache "/" source f) = (.ok c, Sample.cache.stored key c f.codec d) := by
  obtain ⟨denial, unread⟩ := error_of_toOption laid.read_file
  have load := (reading d Sample.order).run_load f
  rw [loaded] at load
  rw [run_openSource (of?_source laid.holds.order), key_reading, Cache.run_cached_store unread load]
  rfl

/-- Where nothing is stored, the files are read. -/
theorem opened_none (laid : Laid d imported none) (lawful : f.schemas.Lawful)
    (asks : ∀ name ∈ (reading (Sample.disk imported) Sample.order).asked f, name ∈ names) :
    opened f d = finish ((reading (Sample.disk imported) Sample.order).load f) := by
  obtain ⟨denial, unread⟩ := error_of_toOption laid.read_file
  rw [opened, run_settings, openSource_of_unread (of?_source laid.holds.order) unread,
    (Laid.disk imported).holds.load laid.holds lawful asks]

/-- Where a catalog is stored, the imported file is not read. -/
theorem opened_some {text : String} (laid : Laid d imported (some text)) {c : Catalog}
    (parsed : f.codec.parse text = .ok c) : opened f d = finish (.ok c) := by
  rw [opened, run_settings, run_openSource (of?_source laid.holds.order), key_reading,
    Cache.run_cached_hit (ok_of_toOption laid.read_file) parsed]
  rfl

end Laid

/-- The disk after the settings were opened and the imported file has changed. -/
def changed (f : Formats) : Disk := session f (disk item) (revised "item.proto" part)

theorem laid_changed {c : Catalog} (loaded : (reading (disk item) order).load f = .ok c) :
    Laid (changed f) part (some (f.codec.render c)) := by
  have first : (Event.opens settings "/").run f (disk item) = cache.stored key c f.codec (disk item) := by
    rw [Event.run, run_settings, (Laid.disk item).run_source loaded]
  have both : changed f = (((Event.opens settings "/").run f (disk item)).write "item.proto" part).2 := rfl
  rw [both, first]
  exact ((Laid.disk item).store c f.codec).write_item part

/-- An opening without a cache tells the two texts of the imported file apart. -/
structure Tells (f : Formats) : Prop extends Reads f where
  differ : opened f (disk item) ≠ opened f (disk part)

theorem tells_builtin : Tells {} where
  toReads := reads_builtin
  differ := by
    let names : Except LoadFault Catalog → Option (List String) :=
      fun r => r.toOption.map fun c => c.types.map (·.name)
    have other : names (finish ((reading (disk item) order).load {})) ≠
        names (finish ((reading (disk part) order).load {})) := by decide +kernel
    rw [(Laid.disk item).opened_none reads_builtin.parser (reads_builtin.asks item (by simp)),
      (Laid.disk part).opened_none reads_builtin.parser (reads_builtin.asks part (by simp))]
    exact fun same => other (congrArg names same)

end Sample

open Sample in
/-- A change of what the named file imports is not seen, whatever the formats. -/
theorem opened_stale :
    (∀ f, Tells f → opened f (changed f) ≠ opened f ((changed f).cleared ["cache"])) ∧ Tells {} := by
  refine ⟨fun f tells => ?_, tells_builtin⟩
  obtain ⟨c, loaded, kept⟩ := tells.loads
  have laid := laid_changed loaded
  -- the stored catalog is that of the first text, and without it the second text is read
  have before : opened f (changed f) = opened f (disk item) := by
    rw [laid.opened_some (Reading.parse_render tells.parser loaded kept),
      (Laid.disk item).opened_none tells.parser (tells.asks item (by simp)), loaded]
  have after : opened f ((changed f).cleared ["cache"]) = opened f (disk part) := by
    rw [laid.cleared.opened_none tells.parser (tells.asks part (by simp)),
      (Laid.disk part).opened_none tells.parser (tells.asks part (by simp))]
  rw [before, after]
  exact tells.differ

end TypeEngine.Storage
