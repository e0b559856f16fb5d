import Mathlib.Data.List.TakeWhile
import TypeEngine.Proofs.Engine.Instance

/-!
# Members of an instance

A member that a declaration gives to a generic type it gives to every instance of the type, with the
same substitution in the type of the member (`property_instance`).

The memo table is of no effect along one chain of bases, because the types in it have different paths
(`findBase_fresh`). This takes paths that can be told from keys with arguments, and a list has no
place for type arguments that is the same for all instances (`property_split`).
-/

namespace TypeEngine

namespace Engine

variable {e : Engine} {ts : Tables} {σ : Subst} {a a' t : Ty}

/-! ### Without a memo -/

/-- What a key has before the separator. -/
def keyPath (key : String) : List Char := key.toList.takeWhile (· ≠ '\x1e')

theorem keyPath_key (separable : Separable t.main) : keyPath t.key = t.main.key.toList := by
  have plain : ∀ c ∈ t.main.key.toList, decide (c ≠ '\x1e') = true := by
    intro c member
    exact decide_eq_true fun same => separable (same ▸ member)
  unfold keyPath Ty.key
  split
  · exact List.takeWhile_eq_self_iff.mpr plain
  · rw [String.toList_append, String.toList_append, List.append_assoc,
      List.takeWhile_append_of_pos plain]
    simp

/-- The session holds supertypes of types at the `earlier` paths only. -/
structure Fresh (s : Session) (ts : Tables) (earlier : List String) : Prop where
  tables : s.tables = ts
  memo : ∀ entry ∈ s.current.supers, ∃ key ∈ earlier, keyPath entry.1 = key.toList

theorem directSupertypes_fresh {s : Session} {earlier : List String} (fresh : Fresh s ts earlier)
    (separable : Separable t.main) (new : t.main.key ∉ earlier) :
    ∃ s', (e.directSupertypes t).run s = (e.lookupSupertypes ts t, s') ∧
      Fresh s' ts (t.main.key :: earlier) := by
  have missing : s.current.supers.lookup t.key = none := by
    rw [List.lookup_eq_none_iff]
    intro entry member
    obtain ⟨key, known, path⟩ := fresh.memo entry member
    refine bne_iff_ne.mpr fun same => new ?_
    rw [← same, keyPath_key separable] at path
    rwa [String.toList_injective path]
  have tables : s.current.tables = ts := s.current_tables.trans fresh.tables
  have kept : ∀ entry ∈ s.current.supers, ∃ key ∈ t.main.key :: earlier, keyPath entry.1 = key.toList := by
    intro entry member
    obtain ⟨key, known, path⟩ := fresh.memo entry member
    exact ⟨key, List.mem_cons_of_mem _ known, path⟩
  have current : ∀ supers, ({ s.current with supers } : Session).current = { s.current with supers } :=
    fun supers => if_pos s.current_supersRevision
  rw [directSupertypes_run, missing, tables]
  cases e.lookupSupertypes ts t with
  | error fault => exact ⟨s.current, rfl, tables, by rw [current]; exact kept⟩
  | ok found =>
    refine ⟨_, rfl, tables, ?_⟩
    rw [current]
    exact List.forall_mem_cons.mpr ⟨⟨_, List.mem_cons_self, keyPath_key separable⟩, kept⟩

theorem separable_of_base {found : List Supertype} {next : Supertype} (generic : Generic ts)
    (native : e.catalog = .empty) (done : e.lookupSupertypes ts t = .ok found)
    (first : found.find? (!·.isInterface) = some next) : Separable next.type.main := by
  obtain ⟨decl, b, declared, base⟩ := declared_of_base native done first
  have info := generic.base declared base
  rw [lookupSupertypes_declared declared base] at done
  obtain ⟨c, applied, done⟩ := Ty.exists_of_bind done
  obtain ⟨ifaces, _, done⟩ := Ty.exists_of_bind done
  obtain rfl := Except.ok.inj done
  obtain rfl : ⟨c, false⟩ = next := Option.some.inj first
  unfold Separable
  rw [Path.key_congr (Ty.main_of_apply info.notParam applied)]
  exact info.separable

/-- The paths in a chain of bases are different, so no memoised answer is used. -/
theorem findBaseFrom_fresh {p : Ty → Bool} (generic : Generic ts) (native : e.catalog = .empty)
    {s : Session} {fuel : Nat} {earlier : List String} (fresh : Fresh s ts earlier)
    (separable : Separable t.main) (new : t.main.key ∉ earlier) :
    ((e.findBaseFrom p fuel (t.main.key :: earlier) t).run s).1 =
      e.ancestor ts p fuel (t.main.key :: earlier) t := by
  induction fuel generalizing s earlier t with
  | zero => rfl
  | succ fuel ih =>
    obtain ⟨s', run, fresh⟩ := directSupertypes_fresh (e := e) fresh separable new
    rw [findBaseFrom, ancestor, Query.run_bind, run]
    cases done : e.lookupSupertypes ts t with
    | error fault => rfl
    | ok found =>
      rw [Ty.bind_ok]
      dsimp only
      cases first : found.find? (!·.isInterface) with
      | none => rfl
      | some next =>
        dsimp only
        by_cases known : (t.main.key :: earlier).contains next.type.main.key = true
        · rw [if_pos known, if_pos known]
          rfl
        rw [if_neg known, if_neg known]
        by_cases holds : p next.type = true
        · rw [if_pos holds, if_pos holds]
          rfl
        rw [if_neg holds, if_neg holds]
        exact ih fresh (separable_of_base generic native done first)
          fun member => known (List.contains_iff_mem.mpr member)

theorem findBase_fresh {p : Ty → Bool} (generic : Generic ts) (native : e.catalog = .empty)
    (separable : Separable t.main) : ((e.findBase p t).run { tables := ts }).1 =
      e.ancestor ts p (e.maxDepth + 1) [t.main.key] t :=
  findBaseFrom_fresh generic native ⟨rfl, nofun⟩ separable List.not_mem_nil

/-! ### Owners -/

/-- A type whose instances have instances of its members. -/
structure GenericOwner (ts : Tables) (owner : Ty) : Prop where
  orderly : owner.Orderly
  notParam : owner.isParam = false
  supplied : Supplied ts owner
  separable : Separable owner.main
  outer {path : Path} {name : String} {p : Property} : ts.property? path name = some p →
    ts.type? path = none ∨ path ∈ owner.main.outward ∧ path.length < owner.main.length →
    p.type.params = []

theorem GenericOwner.link {owner owner' : Ty} {limit : Int} (ready : GenericOwner ts owner)
    (range : ∀ x v, σ.get? x = some v → v.Orderly) (bound : σ.isEmpty = false)
    (applied : owner.apply σ limit = .ok owner') : Link ts σ owner owner' := by
  have runs := ready.orderly.runLength
  have images : ∀ x v, σ.get? x = some v → v.Shaped :=
    fun x v known => (range x v known).runLength.sound.shaped
  have made := applied
  rw [Ty.apply_of_ok bound bound applied] at made
  refine ⟨(Ty.main_of_apply ready.notParam applied).symm, fun notList => ?_, ?_, ready.supplied⟩
  · obtain ⟨out, mapped, rfl⟩ := Ty.exists_of_replace ready.notParam notList
      (ready.orderly.names owner owner.self_mem_parts) made
    exact Slot.both_imp (Slot.both_of_mapTypes mapped) fun _ v _ v' _ _ done _ => ⟨v', done, rfl⟩
  · rcases Ty.replace_shaped runs.sound ready.orderly.names images with
      ⟨u, done, shaped⟩ | ⟨fault, failed, _⟩
    · obtain rfl := Except.ok.inj (done.symm.trans made)
      exact shaped
    · cases failed.symm.trans made

theorem type_of_makes {m m' : Ty} {limit : Int} (bound : σ.isEmpty = false)
    (makes : m.Sound → Ty.Makes σ m m') (done : m.apply σ limit = .ok t) : (m' == t) = true := by
  rw [Ty.apply_of_ok bound bound done] at done
  obtain ⟨v, made, same⟩ := makes (Ty.sound_of_ok done)
  obtain rfl := Except.ok.inj (done.symm.trans made)
  exact Ty.beq_iff_bare.mpr same.symm

/-- The answer is the member `m`, with what `σ` makes of its type, or the count of a list has left the
64-bit range. -/
def Carries (σ : Subst) (limit : Int) (m : Member) (answer : Except Fault (Option Member)) : Prop :=
  (∃ m', answer = .ok (some m') ∧ m' = { m with type := m'.type, scope := m'.scope } ∧
    (m'.scope == m.scope) = true ∧
    ∀ t, m.type.apply σ limit = .ok t → (m'.type == t) = true) ∨
  ∃ fault, answer = .error fault ∧ Ty.Overflow fault

/-- A member that is declared at the path of both types. -/
theorem Link.carries {name : String} {p : Property} {scope scope' : Path} {origin : Origin} {m : Member}
    {limit : Int} (generic : Generic ts) (link : Link ts σ a a') (bound : σ.isEmpty = false)
    (found : ts.property? a.main name = some p) (undeclared : ts.type? a.main = none → p.type.params = [])
    (same : scope.bare = scope'.bare)
    (done : (e.instantiate ts (p.member scope origin) a).map some = .ok (some m)) :
    Carries σ limit m ((e.instantiate ts (p.member scope' origin) a').map some) := by
  obtain ⟨m₀, answer, same'⟩ := Ty.exists_of_map done
  obtain rfl := Option.some.inj same'
  rcases link.instantiate scope' generic found undeclared answer with
    ⟨m', done', form, makes⟩ | ⟨fault, failed, overflow⟩
  · refine .inl ⟨m', by rw [done']; rfl, ?_, ?_, fun t applied => type_of_makes bound makes applied⟩
    · rw [form]
    · rw [form, Engine.instantiate_form answer]
      exact Path.beq_iff_bare.mpr same.symm
  · exact .inr ⟨fault, by rw [failed]; rfl, overflow⟩

section

variable {owner owner' : Ty} {name : String} {m : Member} {limit : Int} (generic : Generic ts)
  (ready : GenericOwner ts owner) (link : Link ts σ owner owner') (bound : σ.isEmpty = false)
include generic ready link bound

theorem carries_visible {scope : Path} {p : Property} (visible : visible? ts owner.main name = some (scope, p))
    (found : ((e.property owner name).run { tables := ts }).1 = .ok (some m)) :
    Carries σ limit m ((e.property owner' name).run { tables := ts }).1 := by
  obtain ⟨scope', visible', same⟩ :
      ∃ scope', visible? ts owner'.main name = some (scope', p) ∧ scope.bare = scope'.bare := by
    have alike := visible?_congr link.main ts name
    rw [visible] at alike
    obtain ⟨⟨scope', p'⟩, visible', pair⟩ := Option.map_eq_some_iff.mp alike.symm
    obtain ⟨same, rfl⟩ := Prod.mk.inj pair
    exact ⟨scope', visible', same.symm⟩
  obtain ⟨inside, declared⟩ : scope ∈ owner.main.outward ∧ ts.property? scope name = some p := by
    obtain ⟨place, inside, here⟩ := List.exists_of_findSome?_eq_some visible
    obtain ⟨q, declared, pair⟩ := Option.map_eq_some_iff.mp here
    obtain ⟨rfl, rfl⟩ := Prod.mk.inj pair
    exact ⟨inside, declared⟩
  have test : (scope' == owner'.main) = (scope == owner.main) := by
    rw [Bool.eq_iff_iff, Path.beq_iff_bare, Path.beq_iff_bare, same, link.main]
  rw [property_visible visible] at found
  rw [property_visible visible', test]
  cases here : scope == owner.main with
  | true =>
    have path := Path.beq_iff_bare.mp here
    rw [if_pos here] at found
    rw [if_pos rfl]
    refine link.carries generic bound (Tables.property?_congr path name ▸ declared) ?_ same found
    intro undeclared
    exact ready.outer declared (.inl (Tables.type?_congr path ▸ undeclared))
  | false =>
    rw [if_neg (Bool.eq_false_iff.mp here)] at found
    rw [if_neg Bool.false_ne_true]
    obtain rfl := Option.some.inj (Except.ok.inj found)
    have closed := ready.outer declared (.inr ⟨inside, length_lt_of_outward inside here⟩)
    have orderly := generic.property declared
    refine .inl ⟨_, rfl, rfl, Path.beq_iff_bare.mpr same.symm, fun t applied => ?_⟩
    exact type_of_makes bound (fun _ => Ty.makes_self orderly.runLength orderly.names closed σ) applied

theorem carries_hidden (native : e.catalog = .empty) (hidden : visible? ts owner.main name = none)
    (found : ((e.property owner name).run { tables := ts }).1 = .ok (some m))
    (origin : m.origin = .user ∨ m.origin = .base) :
    Carries σ limit m ((e.property owner' name).run { tables := ts }).1 := by
  have hidden' : visible? ts owner'.main name = none := by
    have alike := visible?_congr link.main ts name
    rw [hidden] at alike
    exact Option.map_eq_none_iff.mp alike.symm
  have key : owner'.main.key = owner.main.key := Path.key_congr link.main.symm
  have separable' : Separable owner'.main := by
    unfold Separable
    rw [key]
    exact ready.separable
  rw [property_hidden hidden, findBase_fresh generic native ready.separable] at found
  rw [property_hidden hidden', findBase_fresh generic native separable', key]
  cases first : e.ancestor ts (fun b => (ts.property? b.main name).isSome) (e.maxDepth + 1)
      [owner.main.key] owner with
  | error fault =>
    rw [first] at found
    cases found
  | ok base? =>
    rw [first] at found
    cases base? with
    | none =>
      exfalso
      dsimp only at found
      split at found
      · obtain rfl := Option.some.inj (Except.ok.inj found)
        rcases origin with no | no <;> cases no
      · have host := native_of_hostMember (Ty.ok_of_mapError found)
        rw [host] at origin
        rcases origin with no | no <;> cases no
    | some base =>
      have byPath : ∀ t u : Ty, t.main.bare = u.main.bare →
          (ts.property? t.main name).isSome = (ts.property? u.main name).isSome :=
        fun t u path => by rw [Tables.property?_congr path]
      rcases link.ancestor generic native byPath first with
        ⟨base', second, link'⟩ | ⟨fault, failed, overflow⟩
      · rw [second]
        dsimp only at found ⊢
        rw [← Tables.property?_congr link'.main]
        cases declared : ts.property? base.main name with
        | none =>
          rw [declared] at found
          cases found
        | some p =>
          rw [declared] at found
          exact link'.carries generic bound declared
            (fun undeclared => ready.outer declared (.inl undeclared)) link'.main found
      · rw [failed]
        exact .inr ⟨fault, rfl, overflow⟩

end

/-- What a declared type has under a name, its instances have as well, with the same substitution in
the type of the member. -/
theorem property_instance {owner owner' : Ty} {name : String} {m : Member} (native : e.catalog = .empty)
    (generic : Generic ts) (ready : GenericOwner ts owner) (range : ∀ x v, σ.get? x = some v → v.Orderly)
    (applied : owner.apply σ e.maxDepth = .ok owner')
    (found : ((e.property owner name).run { tables := ts }).1 = .ok (some m))
    (origin : m.origin = .user ∨ m.origin = .base) :
    Carries σ e.maxDepth m ((e.property owner' name).run { tables := ts }).1 := by
  cases bound : σ.isEmpty with
  | true =>
    rw [Ty.apply_empty bound] at applied
    obtain rfl := Except.ok.inj applied
    refine .inl ⟨m, found, rfl, Path.beq_iff_bare.mpr rfl, fun t applied => ?_⟩
    rw [Ty.apply_empty bound] at applied
    rw [Except.ok.inj applied]
    exact Ty.beq_rfl t
  | false =>
    have link := ready.link range bound applied
    cases visible : visible? ts owner.main name with
    | some found_ =>
      obtain ⟨scope, p⟩ := found_
      exact carries_visible generic ready link bound visible found
    | none => exact carries_hidden generic ready link bound native visible found origin

end Engine

/-! ### Boxes in crates -/

def pathOf (name : String) : Path := ⟨[{ kind := .classType, name }]⟩

def boxDecl : TypeDecl := { path := pathOf "Box", params := [{ name := "E" }] }

def crateDecl : TypeDecl :=
  { path := pathOf "Crate", params := [{ name := "A" }],
    base? := some (.named (pathOf "Box") [.layered 1 (.param "A")]) }

/-- `Box[E]` has items of type `list() E`, and `Crate[A]` has the base `Box[list() A]`. -/
def crates : Tables :=
  { types := [⟨(pathOf "Box").key, boxDecl⟩, ⟨(pathOf "Crate").key, crateDecl⟩]
    properties := [⟨(pathOf "Box").key, { name := "items", type := .layered 1 (.param "E") }⟩] }

theorem crates_type? {path : Path} {decl : TypeDecl} (declared : crates.type? path = some decl) :
    decl = boxDecl ∨ decl = crateDecl := by
  obtain ⟨f, member, rfl⟩ := List.mem_map.mp (List.mem_of_mem_head? declared)
  have member := (List.mem_filter.mp member).1
  simp only [crates, List.mem_cons, List.not_mem_nil, or_false] at member
  rcases member with rfl | rfl
  · exact .inl rfl
  · exact .inr rfl

theorem crates_property? {path : Path} {name : String} {p : Property}
    (found : crates.property? path name = some p) :
    crates.type? path = some boxDecl ∧ path.key = (pathOf "Box").key ∧ p.type = .layered 1 (.param "E") := by
  obtain ⟨f, member, rfl⟩ := List.mem_map.mp (List.mem_of_find?_eq_some found)
  obtain ⟨member, key⟩ := List.mem_filter.mp member
  obtain rfl := List.mem_singleton.mp member
  have key : path.key = (pathOf "Box").key := (of_decide_eq_true key).symm
  refine ⟨?_, key, rfl⟩
  rw [Tables.type?, Tables.under, key]
  rfl

theorem crates_generic : Engine.Generic crates where
  base := by
    intro path decl b declared base
    rcases crates_type? declared with rfl | rfl
    · cases base
    · obtain rfl := Option.some.inj base
      refine ⟨⟨⟨_, rfl, rfl⟩, by decide⟩, rfl, by decide, ?_, by unfold Engine.Separable; decide⟩
      intro decl declared
      obtain rfl : boxDecl = decl := Option.some.inj declared
      decide
  interface := nofun
  property := by
    intro path name p found
    rw [(crates_property? found).2.2]
    exact ⟨⟨_, rfl, rfl⟩, by decide⟩
  params := by
    intro path name decl p declared found
    obtain ⟨known, _, type⟩ := crates_property? found
    obtain rfl := Option.some.inj (known.symm.trans declared)
    rw [type]
    decide
  list := nofun

theorem crate_owner : Engine.GenericOwner crates (.named (pathOf "Crate") [.param "T"]) where
  orderly := ⟨⟨_, rfl, rfl⟩, by decide⟩
  notParam := rfl
  supplied := by
    intro decl declared
    obtain rfl : crateDecl = decl := Option.some.inj declared
    decide
  separable := by
    unfold Engine.Separable
    decide
  outer := by
    intro path name p found outside
    obtain ⟨known, key, _⟩ := crates_property? found
    rcases outside with undeclared | ⟨_, shorter⟩
    · cases known.symm.trans undeclared
    · obtain ⟨blocks⟩ := path
      have none : blocks = [] := List.length_eq_zero_iff.mp (Nat.lt_one_iff.mp shorter)
      subst none
      exact absurd key (by decide)

theorem property_instance_items :
    let m : Member :=
      { name := "items", type := .layered 2 (.param "T"), scope := pathOf "Box", origin := .base }
    ((({} : Engine).property (.named (pathOf "Crate") [.param "T"]) "items").run
      { tables := crates }).1 = .ok (some m) ∧
    Engine.Carries ⟨[("T", .layered 2 .int)]⟩ 64 m
      ((({} : Engine).property (.named (pathOf "Crate") [.layered 2 .int]) "items").run
        { tables := crates }).1 := by
  have range : ∀ x v, (⟨[("T", .layered 2 .int)]⟩ : Subst).get? x = some v → v.Orderly := by
    intro x v bound
    rw [Subst.get?, List.lookup_cons] at bound
    split at bound
    · obtain rfl := Option.some.inj bound
      exact ⟨⟨_, rfl, rfl⟩, by decide⟩
    · cases bound
  exact ⟨rfl, Engine.property_instance (e := {}) rfl crates_generic crate_owner range rfl rfl (.inr rfl)⟩

/-! ### What an instance can lose -/

/-- `list[E]` has a first element of type `E`. -/
def listed : Tables :=
  { types :=
      [⟨(Path.ofPrimitive "list").key, { path := .ofPrimitive "list", params := [{ name := "E" }] }⟩]
    properties := [⟨(Path.ofPrimitive "list").key, { name := "first", type := .param "E" }⟩] }

/-- The base of `A[E]` has the key of `A[int]`. -/
def clashing : Tables :=
  { types :=
      [⟨(pathOf "A").key,
          { path := pathOf "A", params := [{ name := "E" }],
            base? := some (.mk (pathOf "A\x1eA[int]") []) }⟩,
        ⟨(pathOf "A\x1eA[int]").key,
          { path := pathOf "A\x1eA[int]", base? := some (.mk (pathOf "M") []) }⟩]
    properties := [⟨(pathOf "M").key, { name := "p", type := .int }⟩] }

/-- In a list of several layers the count takes the first place, and a name with the separator can
make a memoised answer out of nothing. -/
theorem property_split :
    let type := fun ts owner name =>
      ((({} : Engine).property owner name).run { tables := ts }).1.toOption.map fun m? =>
        m?.map (·.type.display)
    (type listed (.layered 1 (.param "T")) "first" = some (some "T") ∧
      ((Ty.layered 1 (.param "T")).apply ⟨[("T", .layered 2 .int)]⟩ 64).toOption.map Ty.display =
        some (Ty.layered 3 .int).display ∧
      type listed (.layered 3 .int) "first" = some (some "E")) ∧
    type clashing (.named (pathOf "A") [.param "T"]) "p" = some (some "int") ∧
    type clashing (.named (pathOf "A") [.int]) "p" = some none := by
  decide +kernel

end TypeEngine
