import TypeEngine.Proofs.Proto.Names
import TypeEngine.Proofs.Ty.Outcome
import TypeEngine.Proto.Link

/-!
# Linked files

Linking gives every field and method the path of something that is declared, and paths of declared
things are names between points (`Library.link?_sound`).
-/

namespace TypeEngine.Proto

variable {linked : Prop} {m : Message} {scope path : String} {f : File} {s : Symbol} {l : Library}

/-! ### Paths of symbols -/

theorem Message.withNested_eq (scope : String) (m : Message) :
    m.withNested scope = (qualify scope m.name, m) ::
      m.nested.flatMap (·.withNested (qualify scope m.name)) := by
  have go : ∀ (scope : String) (ms : List Message), withNested.go scope ms = ms.flatMap (·.withNested scope) := by
    intro scope ms
    induction ms with
    | nil => rfl
    | cons m ms ih => rw [withNested.go, List.flatMap_cons, ih]
  obtain ⟨name, fields, nested⟩ := m
  rw [withNested, go]

theorem Message.Sound.withNested (sound : m.Sound linked)
    (outer : IsScope scope) : ∀ x ∈ m.withNested scope, IsPath x.1 ∧ x.2.Sound linked := by
  induction sound generalizing scope with
  | intro name fields enums nested entry ih =>
    have path := name.qualify outer
    rw [withNested_eq, List.forall_mem_cons]
    refine ⟨⟨path, .intro name fields enums nested entry⟩, fun x member => ?_⟩
    obtain ⟨n, inside, member⟩ := List.mem_flatMap.mp member
    exact ih n inside (.inr path) x member

theorem File.Sound.allMessages (sound : f.Sound linked) :
    ∀ x ∈ f.allMessages, IsPath x.1 ∧ x.2.Sound linked := by
  intro x member
  obtain ⟨m, inside, member⟩ := List.mem_flatMap.mp member
  exact (sound.messages m inside).withNested sound.package x member

/-- What can be the type of a field. -/
def Symbol.IsType (s : Symbol) : Prop := s = .message ∨ s = .enum

theorem Symbol.not_isType_leaf : ¬ Symbol.leaf.IsType := by rintro (leaf | leaf) <;> cases leaf

theorem Enum.isPath_of_symbol {e : Enum} (outer : IsScope scope)
    (name : IsName e.name) (member : (path, s) ∈ e.symbols scope) (type : s.IsType) : IsPath path := by
  rcases List.mem_cons.mp member with same | member
  · cases same
    exact name.qualify outer
  · obtain ⟨v, _, same⟩ := List.mem_map.mp member
    cases same
    exact absurd type Symbol.not_isType_leaf

theorem Message.isPath_of_symbol {owner : String}
    (outer : IsPath owner) (sound : m.Sound linked) (member : (path, s) ∈ m.ownSymbols owner)
    (type : s.IsType) : IsPath path := by
  obtain ⟨_, _, enums, _, _⟩ := sound
  have leaf : ∀ (α : Type) (name : α → String) (xs : List α),
      (path, s) ∉ xs.map fun x => (qualify owner (name x), Symbol.leaf) := by
    intro α name xs member
    obtain ⟨x, _, same⟩ := List.mem_map.mp member
    cases same
    exact Symbol.not_isType_leaf type
  simp only [ownSymbols, List.mem_append, List.cons_append, List.mem_cons] at member
  rcases member with same | ((member | member) | member) | member
  · cases same
    exact outer
  · exact absurd member (leaf Field Field.name _)
  · exact absurd member (leaf String id _)
  · obtain ⟨e, inside, member⟩ := List.mem_flatMap.mp member
    exact e.isPath_of_symbol (.inr outer) (enums e inside) member type
  · exact absurd member (leaf Extension (·.field.name) _)

theorem File.isPath_of_symbols (sound : f.Sound linked)
    (found : f.symbols.lookup path = some s) (type : s.IsType) : IsPath path := by
  obtain ⟨before, after, parts, _⟩ := List.lookup_eq_some_iff.mp found
  have member : (path, s) ∈ f.symbols := by simp [parts]
  simp only [symbols, List.mem_append] at member
  rcases member with ((member | member) | member) | member
  · obtain ⟨⟨owner, m⟩, inside, member⟩ := List.mem_flatMap.mp member
    obtain ⟨outer, sound⟩ := sound.allMessages _ inside
    exact m.isPath_of_symbol outer sound member type
  · obtain ⟨e, inside, member⟩ := List.mem_flatMap.mp member
    exact e.isPath_of_symbol sound.package (sound.enums e inside) member type
  · obtain ⟨service, _, member⟩ := List.mem_flatMap.mp member
    simp only [Service.symbols, List.mem_cons, List.mem_map] at member
    rcases member with same | ⟨_, _, same⟩
    · cases same
      rcases type with service | service <;> cases service
    · cases same
      exact absurd type Symbol.not_isType_leaf
  · obtain ⟨_, _, same⟩ := List.mem_map.mp member
    cases same
    exact absurd type Symbol.not_isType_leaf

theorem isPath_of_seen {files : List File} (sound : ∀ f ∈ files, f.Sound linked)
    (found : seenSymbol? files path = some s) (type : s.IsType) :
    IsPath path := by
  obtain ⟨f, member, found⟩ := List.exists_of_findSome?_eq_some found
  rw [File.symbol?, Option.or_eq_some_iff] at found
  rcases found with found | ⟨_, package⟩
  · exact f.isPath_of_symbols (sound f member) found type
  · split at package
    · cases package
      rcases type with package | package <;> cases package
    · cases package

/-! ### Resolution -/

theorem inScope?_query {query : String → Option Symbol} {first name : String}
    (found : inScope? query scope first name = some (path, some s)) : query path = some s := by
  unfold inScope? at found
  dsimp only at found
  split at found
  · cases found
  · rename_i here
    split at found
    · rename_i whole
      cases found
      rw [← whole, here]
    · split at found
      · cases found
      · exact (Prod.mk.inj (Option.some.inj found)).1 ▸ (Prod.mk.inj (Option.some.inj found)).2

section

variable {linked : Prop} {files : List File} {f : File} (own : f.Sound linked)
  (seen : ∀ g ∈ files, g.Sound linked)
include own seen

theorem isPath_of_resolve {scopes : List String} {name : String}
    (found : resolve? files f scopes name = some (path, s)) (type : s.IsType) : IsPath path := by
  unfold resolve? at found
  dsimp only at found
  split at found
  · obtain ⟨s', found, same⟩ := Option.map_eq_some_iff.mp found
    cases same
    exact isPath_of_seen seen found type
  · split at found
    · rename_i chosen
      cases found
      obtain ⟨x, member, same⟩ := List.mem_filterMap.mp (List.mem_of_find?_eq_some chosen)
      obtain rfl : x = some (path, some s) := same
      simp only [List.mem_append, List.mem_map, List.mem_singleton] at member
      rcases member with (⟨scope, _, found⟩ | ⟨scope, _, found⟩) | found
      · exact f.isPath_of_symbols own (inScope?_query found) type
      · exact isPath_of_seen seen (inScope?_query found) type
      · exact isPath_of_seen seen (inScope?_query found.symm) type
    · cases found

theorem isResolved_of_resolveType {t t' : FieldType}
    (done : resolveType? files f path t = some t') : t'.IsResolved := by
  unfold resolveType? at done
  split at done
  · cases done
    trivial
  · split at done
    · rename_i found
      cases done
      exact isPath_of_resolve own seen found (.inl rfl)
    · rename_i found
      cases done
      exact isPath_of_resolve own seen found (.inr rfl)
    · cases done
  · obtain ⟨⟨p, s⟩, found, done⟩ := Option.bind_eq_some_iff.mp done
    dsimp only at done
    split at done
    · rename_i message
      cases done
      exact isPath_of_resolve own seen found (.inl message)
    · cases done
  · split at done
    · rename_i found
      cases done
      exact isPath_of_seen seen found (.inl rfl)
    · cases done
  · split at done
    · rename_i found
      cases done
      exact isPath_of_seen seen found (.inr rfl)
    · cases done

theorem isPath_of_resolveMessage {name p : String}
    (done : resolveMessage? files f path name = some p) : IsPath p := by
  obtain ⟨⟨q, s⟩, found, done⟩ := Option.bind_eq_some_iff.mp done
  dsimp only at done
  split at done
  · rename_i message
    cases done
    exact isPath_of_resolve own seen found (.inl message)
  · cases done

end

/-- What resolving a message changes. -/
theorem Message.resolve?_inv {files : List File} {m' : Message}
    (done : m.resolve? files f scope = some m') :
    ∃ fields nested extensions,
      m.fields.mapM (resolveField? files f (qualify scope m.name)) = some fields ∧
      m.nested.mapM (·.resolve? files f (qualify scope m.name)) = some nested ∧
      m' = { m with fields, nested, extensions } := by
  have go : ∀ (scope : String) (ms : List Message),
      resolve?.go files f scope ms = ms.mapM (·.resolve? files f scope) := by
    intro scope ms
    induction ms with
    | nil => rfl
    | cons m ms ih => rw [resolve?.go, List.mapM_cons, ih]
  obtain ⟨name, fields, nested⟩ := m
  rw [resolve?, go] at done
  obtain ⟨fields', resolved, done⟩ := Option.bind_eq_some_iff.mp done
  obtain ⟨nested', inner, done⟩ := Option.bind_eq_some_iff.mp done
  obtain ⟨extensions', _, same⟩ := Option.bind_eq_some_iff.mp done
  exact ⟨fields', nested', extensions', resolved, inner, (Option.some.inj same).symm⟩

section

variable {linked : Prop} {files : List File} {f : File} (own : f.Sound linked)
  (seen : ∀ g ∈ files, g.Sound linked)
include own seen

theorem Message.Sound.resolve (sound : m.Sound linked) {m' : Message}
    (done : m.resolve? files f scope = some m') : m'.Sound True := by
  induction sound generalizing m' scope with
  | intro name fields enums nested entry ih =>
    obtain ⟨fields', nested', extensions, resolved, inner, rfl⟩ := Message.resolve?_inv done
    refine .intro name (fun _ x member => ?_) enums (fun n member => ?_) fun isEntry number listed => ?_
    · obtain ⟨x, _, same⟩ := (mem_mapM resolved).1 x member
      obtain ⟨type, found, rfl⟩ := Option.map_eq_some_iff.mp same
      exact isResolved_of_resolveType own seen found
    · obtain ⟨n, inside, same⟩ := (mem_mapM inner).1 n member
      exact ih n inside same
    · obtain ⟨x, member, rfl⟩ := entry isEntry number listed
      obtain ⟨y, kept, same⟩ := (mem_mapM resolved).2 x member
      obtain ⟨type, _, rfl⟩ := Option.map_eq_some_iff.mp same
      exact ⟨_, kept, rfl⟩

theorem Service.Sound.resolve {s s' : Service} (sound : s.Sound linked)
    (done : s.resolve? files f = some s') : s'.Sound True := by
  obtain ⟨methods, resolved, same⟩ := Option.bind_eq_some_iff.mp done
  cases same
  refine ⟨sound.name, fun _ m member => ?_⟩
  obtain ⟨m, _, done⟩ := (mem_mapM resolved).1 m member
  obtain ⟨input, first, done⟩ := Option.bind_eq_some_iff.mp done
  obtain ⟨output, second, same⟩ := Option.bind_eq_some_iff.mp done
  cases same
  exact ⟨isPath_of_resolveMessage own seen first, isPath_of_resolveMessage own seen second⟩

end

theorem Library.mem_seenFrom {g : File} (member : g ∈ l.seenFrom f) : g = f ∨ g ∈ l.files := by
  have go : ∀ (fuel : Nat) (name : String), ∀ g ∈ seenFrom.go l fuel name, g ∈ l.files := by
    intro fuel
    induction fuel with
    | zero => intro name g member; cases member
    | succ fuel ih =>
      intro name g member
      rw [seenFrom.go] at member
      split at member
      · cases member
      · rename_i h found
        rcases List.mem_cons.mp member with rfl | member
        · exact List.mem_of_find?_eq_some found
        · obtain ⟨i, _, member⟩ := List.mem_flatMap.mp member
          exact ih i.path g member
  rcases List.mem_cons.mp member with same | member
  · exact .inl same
  · obtain ⟨i, _, member⟩ := List.mem_flatMap.mp member
    exact .inr (go _ _ _ member)

theorem File.Sound.resolve (sound : ∀ f ∈ l.files, f.Sound linked) {f' : File}
    (member : f ∈ l.files) (done : f.resolve? l = some f') : f'.Sound True := by
  have own := sound f member
  have seen : ∀ g ∈ l.seenFrom f, g.Sound linked := by
    intro g inside
    rcases l.mem_seenFrom inside with rfl | inside
    · exact own
    · exact sound g inside
  obtain ⟨messages, first, done⟩ := Option.bind_eq_some_iff.mp done
  obtain ⟨services, second, done⟩ := Option.bind_eq_some_iff.mp done
  obtain ⟨extensions, _, same⟩ := Option.bind_eq_some_iff.mp done
  cases same
  refine ⟨own.package, fun m inside => ?_, own.enums, fun s inside => ?_⟩
  · obtain ⟨m, inside, done⟩ := (mem_mapM first).1 m inside
    exact (own.messages m inside).resolve own seen done
  · obtain ⟨s, inside, done⟩ := (mem_mapM second).1 s inside
    exact (own.services s inside).resolve own seen done

theorem Library.link?_sound {l' : Library} (sound : ∀ f ∈ l.files, f.Sound linked)
    (done : l.link? = some l') : ∀ f ∈ l'.files, f.Sound True := by
  obtain ⟨files, resolved, done⟩ := Option.bind_eq_some_iff.mp done
  dsimp only at done
  split at done
  · cases done
    intro f member
    obtain ⟨g, inside, done⟩ := (mem_mapM resolved).1 f member
    exact File.Sound.resolve sound inside done
  · cases done

end TypeEngine.Proto
