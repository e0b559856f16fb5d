import TypeEngine.Proofs.Engine.History
import TypeEngine.Proofs.Engine.Member
import TypeEngine.Proofs.Firsts
import TypeEngine.Proofs.Ty.Composition

/-!
# Bases of an instance

The bases of a generic type and the bases of an instance come from two chains of substitutions, one
for each base. The two chains stay side by side (`Link`): what the substitution makes of an argument
in the first chain is the argument in the second. `Link.base` is one step of the chain and
`Link.ancestor` follows the chain to the nearest base of interest.
-/

namespace TypeEngine

/-! ### Bindings of arguments -/

namespace Subst

variable {s s' : Subst} {R : Ty → Ty → Prop}

theorem get?_set (s : Subst) (name x : String) (t : Ty) :
    (s.set name t).get? x = if x = name then some t else s.get? x := by
  unfold set get?
  rw [List.lookup_append, lookup_filter (· != name), lookup_cons_ite]
  by_cases same : x = name
  · simp [same]
  · simp [same]

theorem isEmpty_iff : s.isEmpty = true ↔ ∀ x, s.get? x = none := by
  refine ⟨fun empty x => get?_of_isEmpty empty x, fun none => ?_⟩
  unfold isEmpty
  cases bindings : s.bindings with
  | nil => rfl
  | cons first rest =>
    have missing := none first.1
    rw [get?, bindings, List.lookup_cons, beq_self_eq_true] at missing
    cases missing

/-- Neither substitution binds the parameter, or both do and to related types. -/
def Paired (R : Ty → Ty → Prop) (s s' : Subst) (x : String) : Prop :=
  (s.get? x = none ∧ s'.get? x = none) ∨
    ∃ v v', s.get? x = some v ∧ s'.get? x = some v' ∧ R v v'

theorem paired_ofArguments {xs ys : List Slot} (slots : List.Forall₂ (Slot.Both R) xs ys)
    (names : List String) (start : ∀ x, Paired R s s' x) (x : String) :
    Paired R (ofArguments names xs s) (ofArguments names ys s') x := by
  induction slots generalizing names s s' with
  | nil => cases names <;> exact start x
  | cons first _ ih =>
    cases names with
    | nil => cases first <;> exact start x
    | cons name names =>
      cases first with
      | @type _ _ t u holds =>
        refine ih names fun y => ?_
        unfold Paired
        rw [get?_set, get?_set]
        split
        · exact .inr ⟨t, u, rfl, rfl, holds⟩
        · exact start y
      | value => exact ih names start

end Subst

theorem Ty.paired_bindParams {R : Ty → Ty → Prop} {t u : Ty}
    (slots : List.Forall₂ (Slot.Both R) t.extra u.extra) (names : List String) (x : String) :
    (t.bindParams names).Paired R (u.bindParams names) x :=
  Subst.paired_ofArguments slots names (fun _ => .inl ⟨rfl, rfl⟩) x

theorem Ty.bindParams_nil (t : Ty) : t.bindParams [] = .empty := by
  unfold bindParams
  cases t.extra with
  | nil => rfl
  | cons s slots => cases s <;> rfl

/-! ### Generic declarations -/

/-- The type is canonical and keeps the names in each argument list apart. -/
structure Ty.Orderly (t : Ty) : Prop where
  canonical : t.IsCanonical
  names : ∀ u ∈ t.parts, (u.extra.map Slot.name).Nodup

theorem Ty.Orderly.runLength {t : Ty} (orderly : t.Orderly) : t.RunLength :=
  orderly.canonical.runLength orderly.names

def TypeDecl.paramNames (decl : TypeDecl) : List String := decl.params.map Restriction.name

namespace Engine

variable {found : List Supertype}

/-- If the type is declared, each parameter of the declaration gets a type argument. -/
def Supplied (ts : Tables) (t : Ty) : Prop :=
  ∀ decl, ts.type? t.main = some decl → ∀ x ∈ decl.paramNames, (declSubst decl t).get? x ≠ none

/-- The key of the path can be told from keys of types with arguments. -/
def Separable (p : Path) : Prop := '\x1e' ∉ p.key.toList

/-- A base that can be instantiated together with the type that has it. -/
structure GenericBase (ts : Tables) (decl : TypeDecl) (b : Ty) : Prop where
  orderly : b.Orderly
  notParam : b.isParam = false
  params : ∀ x ∈ b.params, x ∈ decl.paramNames
  supplied : Supplied ts b
  separable : Separable b.main

/-- Bases and members mention the parameters of the declaration that they belong to, and bases give
an argument to each parameter. -/
structure Generic (ts : Tables) : Prop where
  base {path : Path} {decl : TypeDecl} {b : Ty} :
    ts.type? path = some decl → decl.base? = some b → GenericBase ts decl b
  interface {path : Path} {i : Ty} : i ∈ ts.interfaces? path → i.Orderly
  property {path : Path} {name : String} {p : Property} : ts.property? path name = some p → p.type.Orderly
  params {path : Path} {name : String} {decl : TypeDecl} {p : Property} : ts.type? path = some decl →
    ts.property? path name = some p → ∀ x ∈ p.type.params, x ∈ decl.paramNames
  list {decl : TypeDecl} : ts.type? (.ofPrimitive "list") = some decl → decl.params = []

variable {e : Engine} {ts : Tables} {σ : Subst} {a a' b c t : Ty} {decl : TypeDecl}

theorem paramNames_of_list (generic : Generic ts) (list : t.isList = true)
    (declared : ts.type? t.main = some decl) : decl.paramNames = [] := by
  rw [Tables.type?_congr (Path.beq_iff_bare.mp list)] at declared
  rw [TypeDecl.paramNames, generic.list declared]
  rfl

theorem Supplied.apply {s : Subst} {limit : Int} (generic : Generic ts) (supplied : Supplied ts b)
    (orderly : b.Orderly) (notParam : b.isParam = false) (done : b.apply s limit = .ok c) :
    Supplied ts c := by
  intro decl declared x known
  rw [Tables.type?_congr (Ty.main_of_apply notParam done)] at declared
  cases list : b.isList with
  | true =>
    rw [paramNames_of_list generic list declared] at known
    cases known
  | false =>
    have kinds := Ty.kinds_of_apply notParam list (orderly.names b b.self_mem_parts) done
    have given := supplied decl declared x known
    rcases Ty.paired_bindParams kinds decl.paramNames x with ⟨missing, _⟩ | ⟨_, v, _, bound, _⟩
    · exact absurd missing given
    · change (c.bindParams decl.paramNames).get? x ≠ none
      rw [bound]
      nofun

/-! ### Side by side -/

/-- A type in the chain of bases of a type, and the one in its place for an instance under `σ`. -/
structure Link (ts : Tables) (σ : Subst) (a a' : Ty) : Prop where
  main : a.main.bare = a'.main.bare
  slots : a.isList = false →
    List.Forall₂ (Slot.Both fun v v' => v.Sound → Ty.Makes σ v v') a.extra a'.extra
  shaped : a'.Shaped
  supplied : Supplied ts a

namespace Link

theorem bindings (generic : Generic ts) (link : Link ts σ a a') (declared : ts.type? a.main = some decl)
    (x : String) : (declSubst decl a).Paired (fun v v' => (v.Sound → Ty.Makes σ v v') ∧ v'.Shaped)
      (declSubst decl a') x := by
  cases list : a.isList with
  | true =>
    have empty : ∀ t, declSubst decl t = .empty := by
      intro t
      change t.bindParams decl.paramNames = .empty
      rw [paramNames_of_list generic list declared, Ty.bindParams_nil]
    rw [empty, empty]
    exact .inl ⟨rfl, rfl⟩
  | false =>
    refine Ty.paired_bindParams (Slot.both_imp (link.slots list) ?_) _ x
    exact fun n v m v' _ slot holds => ⟨holds, link.shaped.slot slot⟩

section

variable (generic : Generic ts) (link : Link ts σ a a') (declared : ts.type? a.main = some decl)
include generic link declared

theorem isEmpty_eq : (declSubst decl a).isEmpty = (declSubst decl a').isEmpty := by
  rw [Bool.eq_iff_iff, Subst.isEmpty_iff, Subst.isEmpty_iff]
  refine forall_congr' fun x => ?_
  rcases link.bindings generic declared x with ⟨first, second⟩ | ⟨v, v', first, second, _⟩ <;>
    simp [first, second]

theorem shaped_image (x : String) (v : Ty) (bound : (declSubst decl a').get? x = some v) : v.Shaped := by
  rcases link.bindings generic declared x with ⟨_, missing⟩ | ⟨_, w, _, second, _, shaped⟩
  · cases missing.symm.trans bound
  · obtain rfl := Option.some.inj (second.symm.trans bound)
    exact shaped

theorem images {u : Ty} (params : ∀ x ∈ u.params, x ∈ decl.paramNames) (x : String)
    (known : x ∈ u.params) : ∃ v v', (declSubst decl a).get? x = some v ∧
      (declSubst decl a').get? x = some v' ∧ (v.Sound → Ty.Makes σ v v') := by
  rcases link.bindings generic declared x with ⟨missing, _⟩ | ⟨v, v', first, second, makes, _⟩
  · exact absurd missing (link.supplied decl declared x (params x known))
  · exact ⟨v, v', first, second, makes⟩

/-- What the two chains have at their next base. -/
theorem base {limit : Int} (base : decl.base? = some b) (done : b.apply (declSubst decl a) limit = .ok c) :
    (∃ c', b.apply (declSubst decl a') limit = .ok c' ∧ Link ts σ c c') ∨
      ∃ fault, b.apply (declSubst decl a') limit = .error fault ∧ Ty.Overflow fault := by
  have info := generic.base declared base
  have runs := info.orderly.runLength
  have alike := link.isEmpty_eq generic declared
  refine (Ty.apply_shaped runs.sound info.orderly.names alike (link.shaped_image generic declared)
    done).imp_left fun ⟨c', done', shaped⟩ => ⟨c', done', ?_⟩
  refine ⟨?_, fun notList => ?_, shaped, info.supplied.apply generic info.orderly info.notParam done⟩
  · rw [Ty.main_of_apply info.notParam done, Ty.main_of_apply info.notParam done']
  · have other : b.isList = false := by
      rw [← notList, Ty.isList, Ty.isList, ← Path.beq_bare, ← Path.beq_bare c.main,
        Ty.main_of_apply info.notParam done]
    exact Ty.Makes.apply_slots alike (link.images generic declared info.params) done done' runs
      info.orderly.names info.notParam other

end

/-- What the two chains make of a member that is declared at their path. -/
theorem instantiate {name : String} {p : Property} {scope : Path} {origin : Origin} {m : Member}
    (scope' : Path) (generic : Generic ts) (link : Link ts σ a a') (found : ts.property? a.main name = some p)
    (undeclared : ts.type? a.main = none → p.type.params = [])
    (done : e.instantiate ts (p.member scope origin) a = .ok m) :
    (∃ m', e.instantiate ts (p.member scope' origin) a' = .ok m' ∧
      m' = { m with type := m'.type, scope := scope' } ∧ (m.type.Sound → Ty.Makes σ m.type m'.type)) ∨
    ∃ fault, e.instantiate ts (p.member scope' origin) a' = .error fault ∧ Ty.Overflow fault := by
  have orderly := generic.property found
  have runs := orderly.runLength
  unfold Engine.instantiate at done ⊢
  rw [← Tables.type?_congr link.main]
  cases declared : ts.type? a.main with
  | none =>
    rw [declared] at done
    obtain rfl := Except.ok.inj done
    exact .inl ⟨_, rfl, rfl, fun _ => Ty.makes_self runs orderly.names (undeclared declared) σ⟩
  | some decl =>
    rw [declared] at done
    obtain ⟨u, applied, done⟩ := Ty.exists_of_bind done
    obtain rfl := Except.ok.inj done
    have alike := link.isEmpty_eq generic declared
    have images := link.images generic declared (generic.params declared found)
    rcases Ty.apply_shaped runs.sound orderly.names alike (link.shaped_image generic declared) applied
      with ⟨u', applied', _⟩ | ⟨fault, failed, overflow⟩
    · refine .inl ⟨{ p.member scope' origin with type := u' }, ?_, rfl, fun sound => ?_⟩
      · change (p.type.apply _ _ >>= _) = _
        rw [applied']
        rfl
      · exact Ty.Makes.apply alike images applied applied' runs orderly.names sound
    · refine .inr ⟨fault, ?_, overflow⟩
      change (p.type.apply _ _ >>= _) = _
      rw [failed]
      rfl

end Link

/-! ### Following the bases -/

/-- The supertypes of a declared type with a base. -/
theorem lookupSupertypes_declared (declared : ts.type? t.main = some decl) (base : decl.base? = some b) :
    e.lookupSupertypes ts t = (do
      let c ← b.apply (declSubst decl t) e.maxDepth
      let ifaces ← (ts.interfaces? t.main).mapM fun i => i.apply (declSubst decl t) e.maxDepth
      return ⟨c, false⟩ :: ifaces.map (⟨·, true⟩)) := by
  unfold lookupSupertypes
  rw [declared]
  dsimp only
  rw [base, Option.toList_some, List.mapM_cons, List.mapM_nil]
  cases b.apply (declSubst decl t) e.maxDepth with
  | error fault => rfl
  | ok c =>
    cases (ts.interfaces? t.main).mapM fun i => i.apply (declSubst decl t) e.maxDepth <;> rfl

theorem find?_interfaces (types : List Ty) :
    (types.map fun t => (⟨t, true⟩ : Supertype)).find? (!·.isInterface) = none := by
  simp

theorem catalogSupertypes_empty (native : e.catalog = .empty)
    (done : e.catalogSupertypes t = .ok found) : found = [] := by
  have unknown : ∀ info?, e.hostInfo t = .ok info? → info? = none := by
    intro info? answer
    obtain ⟨path?, _, answer⟩ := Ty.exists_of_bind answer
    rw [← Except.ok.inj answer, native]
    cases path? <;> rfl
  obtain ⟨info?, described, done⟩ := Ty.exists_of_bind done
  rw [unknown info? described] at done
  exact (Except.ok.inj done).symm

/-- Without a host catalog a base is a declared one. -/
theorem declared_of_base {next : Supertype} (native : e.catalog = .empty)
    (done : e.lookupSupertypes ts t = .ok found) (first : found.find? (!·.isInterface) = some next) :
    ∃ decl b, ts.type? t.main = some decl ∧ decl.base? = some b := by
  cases declared : ts.type? t.main with
  | some decl =>
    cases base : decl.base? with
    | some b => exact ⟨decl, b, rfl, base⟩
    | none =>
      unfold lookupSupertypes at done
      rw [declared] at done
      dsimp only at done
      rw [base] at done
      obtain ⟨bases, none, done⟩ := Ty.exists_of_bind done
      obtain ⟨ifaces, _, done⟩ := Ty.exists_of_bind done
      obtain rfl : [] = bases := Except.ok.inj none
      rw [← Except.ok.inj done, List.map_nil, List.nil_append, find?_interfaces] at first
      cases first
  | none =>
    unfold lookupSupertypes at done
    rw [declared] at done
    obtain ⟨builtin, _, done⟩ := Ty.exists_of_bind (Ty.ok_of_mapError done)
    obtain ⟨host, answer, done⟩ := Ty.exists_of_bind done
    rw [← Except.ok.inj done, catalogSupertypes_empty native answer, List.append_nil,
      find?_interfaces] at first
    cases first

theorem mapM_answers {α β ε : Type} {f : α → Except ε β} {Q : ε → Prop} {l : List α}
    (each : ∀ x ∈ l, (∃ y, f x = .ok y) ∨ ∃ fault, f x = .error fault ∧ Q fault) :
    (∃ out, l.mapM f = .ok out) ∨ ∃ fault, l.mapM f = .error fault ∧ Q fault := by
  induction l with
  | nil => exact .inl ⟨[], rfl⟩
  | cons x l ih =>
    rw [List.forall_mem_cons] at each
    rw [List.mapM_cons]
    rcases each.1 with ⟨y, first⟩ | ⟨fault, failed, blame⟩
    · rw [first, Ty.bind_ok]
      rcases ih each.2 with ⟨out, rest⟩ | ⟨fault, failed, blame⟩
      · exact .inl ⟨y :: out, by rw [rest]; rfl⟩
      · exact .inr ⟨fault, by rw [failed]; rfl, blame⟩
    · exact .inr ⟨fault, by rw [failed]; rfl, blame⟩

/-- What the two chains find above themselves. -/
theorem Link.lookup {next : Supertype} (generic : Generic ts)
    (native : e.catalog = .empty) (link : Link ts σ a a') (done : e.lookupSupertypes ts a = .ok found)
    (first : found.find? (!·.isInterface) = some next) :
    (∃ found' next', e.lookupSupertypes ts a' = .ok found' ∧
      found'.find? (!·.isInterface) = some next' ∧ Link ts σ next.type next'.type) ∨
    ∃ fault, e.lookupSupertypes ts a' = .error fault ∧ Ty.Overflow fault := by
  obtain ⟨decl, b, declared, base⟩ := declared_of_base native done first
  have declared' : ts.type? a'.main = some decl := by rw [← Tables.type?_congr link.main, declared]
  rw [lookupSupertypes_declared declared base] at done
  rw [lookupSupertypes_declared declared' base, ← Tables.interfaces?_congr link.main]
  obtain ⟨c, applied, done⟩ := Ty.exists_of_bind done
  obtain ⟨ifaces, instances, done⟩ := Ty.exists_of_bind done
  obtain rfl := Except.ok.inj done
  obtain rfl : ⟨c, false⟩ = next := Option.some.inj first
  rcases link.base generic declared base applied with ⟨c', applied', link'⟩ | ⟨fault, failed, overflow⟩
  · rw [applied', Ty.bind_ok]
    have each : ∀ i ∈ ts.interfaces? a.main,
        (∃ j, i.apply (declSubst decl a') e.maxDepth = .ok j) ∨
          ∃ fault, i.apply (declSubst decl a') e.maxDepth = .error fault ∧ Ty.Overflow fault := by
      intro i member
      have orderly := generic.interface member
      obtain ⟨j, instance_⟩ := ok_of_mapM instances member
      exact (Ty.apply_shaped orderly.runLength.sound orderly.names (link.isEmpty_eq generic declared)
        (link.shaped_image generic declared) instance_).imp_left fun ⟨j, done, _⟩ => ⟨j, done⟩
    rcases mapM_answers each with ⟨out, all⟩ | ⟨fault, failed, overflow⟩
    · rw [all, Ty.bind_ok]
      exact .inl ⟨_, ⟨c', false⟩, rfl, rfl, link'⟩
    · exact .inr ⟨fault, by rw [failed]; rfl, overflow⟩
  · exact .inr ⟨fault, by rw [failed]; rfl, overflow⟩

/-- The nearest declared base of `t` with property `p`, where nothing is memoised. -/
def ancestor (e : Engine) (ts : Tables) (p : Ty → Bool) :
    Nat → List String → Ty → Except Fault (Option Ty)
  | 0, _, _ => .error (.tooComplex .baseChain e.maxDepth)
  | fuel + 1, seen, t => do
    match (← e.lookupSupertypes ts t).find? (!·.isInterface) with
    | none => return none
    | some next =>
      let key := next.type.main.key
      if seen.contains key then return none
      else if p next.type then return some next.type
      else ancestor e ts p fuel (key :: seen) next.type

/-- In one chain of bases the two types stay side by side. -/
theorem Link.ancestor {p : Ty → Bool} (generic : Generic ts) (native : e.catalog = .empty)
    (byPath : ∀ t u : Ty, t.main.bare = u.main.bare → p t = p u) {fuel : Nat} {seen : List String}
    (link : Link ts σ a a') (done : e.ancestor ts p fuel seen a = .ok (some c)) :
    (∃ c', e.ancestor ts p fuel seen a' = .ok (some c') ∧ Link ts σ c c') ∨
      ∃ fault, e.ancestor ts p fuel seen a' = .error fault ∧ Ty.Overflow fault := by
  induction fuel generalizing seen a a' with
  | zero => cases done
  | succ fuel ih =>
    rw [Engine.ancestor] at done ⊢
    obtain ⟨found, supertypes, done⟩ := Ty.exists_of_bind done
    cases first : found.find? (!·.isInterface) with
    | none =>
      rw [first] at done
      cases done
    | some next =>
      rw [first] at done
      dsimp only at done
      rcases link.lookup generic native supertypes first with
        ⟨found', next', supertypes', first', link'⟩ | ⟨fault, failed, overflow⟩
      · rw [supertypes', Ty.bind_ok, first']
        dsimp only
        rw [← byPath next.type next'.type link'.main, ← Path.key_congr link'.main]
        by_cases known : seen.contains next.type.main.key = true
        · rw [if_pos known] at done
          cases done
        rw [if_neg known] at done ⊢
        by_cases holds : p next.type = true
        · rw [if_pos holds] at done ⊢
          obtain rfl := Option.some.inj (Except.ok.inj done)
          exact .inl ⟨_, rfl, link'⟩
        · rw [if_neg holds] at done ⊢
          exact ih link' done
      · exact .inr ⟨fault, by rw [failed]; rfl, overflow⟩

end Engine

end TypeEngine
