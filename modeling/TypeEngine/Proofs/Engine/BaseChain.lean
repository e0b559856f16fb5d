import TypeEngine.Proofs.Engine.History
import TypeEngine.Proofs.Engine.Lineage
import TypeEngine.Proofs.Host.Chain

/-!
# Members along the base chain

`Ascent` follows the bases of a type without a bound, through the sessions that the steps leave.
A search for a base goes along such an ascent until it succeeds, is too deep or comes back to a path
(`findBaseFrom_along`). So the properties that a base declares are found from below
(`inherits_of_ascent`). Properties of the host are inherited along the chain of the catalog, which
is transitive (`Catalog.mem_chain_trans`), and only there. `property_inherited` has the two together,
and `property_unshared` what it takes.
-/

namespace TypeEngine

open Host

namespace Engine

variable {e : Engine} {s s' s'' s₁ : Session} {t b c : Ty} {line : List Ty} {p : Ty → Bool}
  {found : List Supertype} {fuel : Nat} {seen : List String} {scope : Path} {ts : Tables}

/-! ### Ascents -/

/-- From `t` on, the bases are those of `line`, one after the other. Asking for them takes the
session from `s` to `s'`. -/
inductive Ascent (e : Engine) : Session → Ty → List Ty → Session → Prop where
  | here {s : Session} {t : Ty} : Ascent e s t [] s
  | base {s s₁ s' : Session} {t : Ty} {found : List Supertype} {next : Supertype} {line : List Ty} :
      (e.directSupertypes t).run s = (.ok found, s₁) →
      found.find? (!·.isInterface) = some next →
      Ascent e s₁ next.type line s' → Ascent e s t (next.type :: line) s'

theorem Ascent.append {rest : List Ty} (ascent : Ascent e s t (line ++ [b]) s')
    (more : Ascent e s' b rest s'') : Ascent e s t (line ++ b :: rest) s'' := by
  induction line generalizing s t with
  | nil =>
    cases ascent with
    | base answer first ascent =>
      cases ascent
      exact .base answer first more
  | cons a line ih =>
    cases ascent with
    | base answer first ascent => exact .base answer first (ih ascent)

theorem directSupertypes_tables (t : Ty) (s : Session) :
    ((e.directSupertypes t).run s).2.tables = s.tables := by
  rw [directSupertypes_run, ← s.current_tables]
  split
  · rfl
  · split <;> rfl

theorem Ascent.tables (ascent : Ascent e s t line s') : s'.tables = s.tables := by
  induction ascent with
  | here => rfl
  | @base s s₁ _ t _ _ _ answer _ _ ih => rw [ih, ← directSupertypes_tables t s, answer]

/-- One step of the search for a base. -/
theorem findBaseFrom_step {next : Supertype}
    (answer : (e.directSupertypes t).run s = (.ok found, s'))
    (first : found.find? (!·.isInterface) = some next) :
    (e.findBaseFrom p (fuel + 1) seen t).run s =
      if seen.contains next.type.main.key then (.ok none, s')
      else if p next.type then (.ok (some next.type), s')
      else (e.findBaseFrom p fuel (next.type.main.key :: seen) next.type).run s' := by
  rw [findBaseFrom, Query.run_bind, answer]
  dsimp only
  rw [first]
  dsimp only
  split
  · rfl
  · split <;> rfl

theorem findBaseFrom_stop (answer : (e.directSupertypes t).run s = (.ok found, s'))
    (top : found.find? (!·.isInterface) = none) :
    (e.findBaseFrom p (fuel + 1) seen t).run s = (.ok none, s') := by
  rw [findBaseFrom, Query.run_bind, answer]
  dsimp only
  rw [top]
  rfl

theorem findBaseFrom_fault {fault : Fault}
    (answer : (e.directSupertypes t).run s = (.error fault, s')) :
    (e.findBaseFrom p (fuel + 1) seen t).run s = (.error fault, s') := by
  rw [findBaseFrom, Query.run_bind, answer]

theorem ascent_of_findBaseFrom (done : (e.findBaseFrom p fuel seen t).run s = (.ok (some b), s')) :
    p b = true ∧ ∃ line, Ascent e s t (line ++ [b]) s' := by
  induction fuel generalizing s seen t with
  | zero => cases done
  | succ fuel ih =>
    rcases answer : (e.directSupertypes t).run s with ⟨found | found, s₁⟩
    · rw [findBaseFrom_fault answer] at done
      cases done
    cases first : found.find? (!·.isInterface) with
    | none =>
      rw [findBaseFrom_stop answer first] at done
      cases done
    | some next =>
      rw [findBaseFrom_step answer first] at done
      split at done
      · cases done
      split at done
      · rename_i holds
        cases done
        exact ⟨holds, [], .base answer first .here⟩
      · obtain ⟨holds, line, ascent⟩ := ih done
        exact ⟨holds, next.type :: line, .base answer first ascent⟩

/-- What a search makes of an ascent: it stops at a type that it looks for, is too deep, comes back to
a path, or goes on from the end. -/
theorem findBaseFrom_along (ascent : Ascent e s t line s') (fuel : Nat)
    (start : t.main.key ∈ seen) :
    (∃ b s₁, b ∈ line ∧ p b = true ∧
      (e.findBaseFrom p fuel seen t).run s = (.ok (some b), s₁)) ∨
    ((e.findBaseFrom p fuel seen t).run s).1 = .error (.tooComplex .baseChain e.maxDepth) ∨
    (∃ before b after, line = before ++ b :: after ∧ (∀ a ∈ before, p a = false) ∧
      b.main.key ∈ seen ++ before.map (·.main.key) ∧
      ((e.findBaseFrom p fuel seen t).run s).1 = .ok none) ∨
    (∀ a ∈ line, p a = false) ∧ ∃ fuel' seen', fuel' ≤ fuel ∧ (line.getLastD t).main.key ∈ seen' ∧
      (e.findBaseFrom p fuel seen t).run s = (e.findBaseFrom p fuel' seen' (line.getLastD t)).run s' := by
  induction ascent generalizing fuel seen with
  | here => exact .inr (.inr (.inr ⟨nofun, fuel, seen, Nat.le_refl _, start, rfl⟩))
  | @base s s₁ s' t found next line answer first _ ih =>
    cases fuel with
    | zero => exact .inr (.inl rfl)
    | succ fuel =>
      rw [findBaseFrom_step answer first, List.getLastD_cons]
      by_cases known : seen.contains next.type.main.key = true
      · rw [if_pos known]
        exact .inr (.inr (.inl ⟨[], next.type, line, rfl, nofun,
          by simpa using List.contains_iff_mem.mp known, rfl⟩))
      rw [if_neg known]
      cases holds : p next.type with
      | true =>
        rw [if_pos rfl]
        exact .inl ⟨next.type, s₁, List.mem_cons_self, holds, rfl⟩
      | false =>
        rw [if_neg Bool.false_ne_true]
        rcases @ih (next.type.main.key :: seen) fuel List.mem_cons_self with
          ⟨b, s₂, member, target, done⟩ | deep | ⟨before, b, after, split, others, again, done⟩ |
          ⟨others, fuel', seen', fewer, last, done⟩
        · exact .inl ⟨b, s₂, List.mem_cons_of_mem _ member, target, done⟩
        · exact .inr (.inl deep)
        · refine .inr (.inr (.inl ⟨next.type :: before, b, after, by rw [split]; rfl,
            List.forall_mem_cons.mpr ⟨holds, others⟩, ?_, done⟩))
          simp only [List.cons_append, List.mem_cons, List.mem_append, List.map_cons] at again ⊢
          tauto
        · exact .inr (.inr (.inr ⟨List.forall_mem_cons.mpr ⟨holds, others⟩, fuel', seen',
            Nat.le_succ_of_le fewer, last, done⟩))

/-- A search that ends without success does so from fewer steps and with more paths seen, unless it
is too deep. -/
theorem findBaseFrom_none {fuel' : Nat} {seen' : List String}
    (ended : ((e.findBaseFrom p fuel seen t).run s).1 = .ok none) (fewer : fuel' ≤ fuel)
    (more : seen ⊆ seen') :
    ((e.findBaseFrom p fuel' seen' t).run s).1 = .ok none ∨
      ((e.findBaseFrom p fuel' seen' t).run s).1 = .error (.tooComplex .baseChain e.maxDepth) := by
  induction fuel' generalizing fuel seen seen' s t with
  | zero => exact .inr rfl
  | succ fuel' ih =>
    obtain ⟨fuel, rfl⟩ : ∃ n, fuel = n + 1 := ⟨fuel - 1, by omega⟩
    rcases answer : (e.directSupertypes t).run s with ⟨found | found, s₁⟩
    · rw [findBaseFrom_fault answer] at ended
      cases ended
    cases first : found.find? (!·.isInterface) with
    | none => exact .inl (by rw [findBaseFrom_stop answer first])
    | some next =>
      rw [findBaseFrom_step answer first] at ended ⊢
      by_cases known : seen'.contains next.type.main.key = true
      · rw [if_pos known]
        exact .inl rfl
      have unknown : ¬seen.contains next.type.main.key = true := fun old =>
        known (List.contains_iff_mem.mpr (more (List.contains_iff_mem.mp old)))
      rw [if_neg unknown] at ended
      rw [if_neg known]
      cases holds : p next.type with
      | true =>
        rw [holds, if_pos rfl] at ended
        cases ended
      | false =>
        rw [holds, if_neg Bool.false_ne_true] at ended
        rw [if_neg Bool.false_ne_true]
        exact ih ended (by omega) (List.cons_subset_cons _ more)

/-! ### Cycles -/

/-- The base chain comes back to a path only in a cycle of paths: on it, types of the same path have
bases of the same path. -/
def Steady (e : Engine) (s : Session) (t : Ty) : Prop :=
  ∀ line s', Ascent e s t line s' → ∀ a a' b b', [a, a'] <:+: t :: line → [b, b'] <:+: t :: line →
    a.main.key = b.main.key → a'.main.key = b'.main.key

theorem next_of_distinct {line : List Ty} {a a' c c' : Ty} (distinct : (line.map (·.main.key)).Nodup)
    (first : [a, a'] <:+: line) (second : [c, c'] <:+: line) (same : a.main.key = c.main.key) :
    a' = c' := by
  obtain ⟨front, back, rfl⟩ := first
  obtain ⟨front', back', whole⟩ := second
  simp only [List.append_assoc, List.cons_append, List.nil_append] at whole distinct
  induction front generalizing front' with
  | nil =>
    cases front' with
    | nil => exact (List.cons.inj (List.cons.inj whole).2).1.symm
    | cons x front' =>
      obtain ⟨_, rest⟩ := List.cons.inj whole
      rw [List.nil_append, List.map_cons, List.nodup_cons, ← rest] at distinct
      exact absurd (List.mem_map.mpr ⟨c, by simp, same.symm⟩) distinct.1
  | cons y front ih =>
    rw [List.cons_append, List.map_cons, List.nodup_cons] at distinct
    cases front' with
    | nil =>
      obtain ⟨rfl, rest⟩ := List.cons.inj whole
      exact absurd (List.mem_map.mpr ⟨a, by simp, same⟩) distinct.1
    | cons x front' => exact ih front' (List.cons.inj whole).2 distinct.2

theorem Ascent.starts {other : List Ty} (whole : Ascent e s t line s')
    (answer : (e.directSupertypes (line.getLastD t)).run s' = (.ok found, s₁))
    (top : found.find? (!·.isInterface) = none) (part : Ascent e s t other s'') : other <+: line := by
  induction part generalizing line with
  | here => exact List.nil_prefix
  | @base s s₂ s'' t found₂ next other answer₂ first _ ih =>
    cases whole with
    | here =>
      rw [List.getLastD_nil, answer₂] at answer
      obtain ⟨same, _⟩ := Prod.mk.inj answer
      rw [Except.ok.inj same, top] at first
      cases first
    | base answer₃ first₃ whole =>
      obtain ⟨same, rfl⟩ := Prod.mk.inj (answer₂.symm.trans answer₃)
      obtain rfl := Except.ok.inj same
      obtain rfl := Option.some.inj (first.symm.trans first₃)
      rw [List.getLastD_cons] at answer
      exact List.cons_prefix_cons.mpr ⟨rfl, ih whole answer⟩

/-- A base chain that ends, with paths that differ. -/
theorem Steady.of_top (whole : Ascent e s t line s')
    (answer : (e.directSupertypes (line.getLastD t)).run s' = (.ok found, s₁))
    (top : found.find? (!·.isInterface) = none) (distinct : ((t :: line).map (·.main.key)).Nodup) :
    e.Steady s t := by
  intro other s'' part a a' b b' first second same
  have shorter : t :: other <:+: t :: line :=
    (List.cons_prefix_cons.mpr ⟨rfl, whole.starts answer top part⟩).isInfix
  rw [next_of_distinct distinct (first.trans shorter) (second.trans shorter) same]

theorem key_mem_of_again {before after : List Ty}
    (steady : ∀ a a' c c', [a, a'] <:+: t :: (before ++ b :: after) →
      [c, c'] <:+: t :: (before ++ b :: after) → a.main.key = c.main.key → a'.main.key = c'.main.key)
    (again : ∃ a ∈ t :: before, a.main.key = b.main.key) :
    ∀ c ∈ b :: after, ∃ a ∈ t :: before, a.main.key = c.main.key := by
  -- what comes after a type of `before`, or is `b` itself, has a path of `before` again
  have follows : ∀ a ∈ t :: before, ∃ a', [a, a'] <:+: t :: (before ++ b :: after) ∧
      ∃ a'' ∈ t :: before, a''.main.key = a'.main.key := by
    intro a member
    obtain ⟨front, back, parts⟩ := List.append_of_mem member
    have whole : t :: (before ++ b :: after) = front ++ a :: (back ++ b :: after) := by
      rw [← List.cons_append, parts, List.append_assoc, List.cons_append]
    rw [whole]
    cases back with
    | nil => exact ⟨b, ⟨front, after, by simp⟩, again⟩
    | cons a' back => exact ⟨a', ⟨front, back ++ b :: after, by simp⟩, a', by rw [parts]; simp, rfl⟩
  suffices along : ∀ front c rest, t :: (before ++ b :: after) = front ++ c :: rest →
      (∃ a ∈ t :: before, a.main.key = c.main.key) →
      ∀ d ∈ c :: rest, ∃ a ∈ t :: before, a.main.key = d.main.key from
    along (t :: before) b after rfl again
  intro front c rest whole same
  induction rest generalizing front c with
  | nil => exact List.forall_mem_singleton.mpr same
  | cons d rest ih =>
    refine List.forall_mem_cons.mpr ⟨same, ih (front ++ [c]) d (by simpa using whole) ?_⟩
    obtain ⟨a, member, key⟩ := same
    obtain ⟨a', next, a'', member', key'⟩ := follows a member
    exact ⟨a'', member', key'.trans (steady a a' c d next ⟨front, rest, by simp [whole]⟩ key)⟩

/-! ### Declared properties -/

/-- The search for a base of `t` comes to `b`, in session `s'`. -/
def Visits (e : Engine) (s : Session) (t b : Ty) (s' : Session) : Prop :=
  ∃ p, (e.findBase p t).run s = (.ok (some b), s')

/-- The property is found, unless the search is too deep or a property that `t` or one of its bases
declares cannot be instantiated there. -/
def Inherits (e : Engine) (s : Session) (t : Ty) (name : String) : Prop :=
  (∃ m, ((e.property t name).run s).1 = .ok (some m)) ∨
  (∃ work limit, ((e.property t name).run s).1 = .error (.tooComplex work limit)) ∨
  ∃ owner p decl v, (owner = t ∨ ∃ s', e.Visits s t owner s') ∧
    s.tables.property? owner.main name = some p ∧ s.tables.type? owner.main = some decl ∧
    p.type.apply (declSubst decl owner) e.maxDepth = .error (.broken v) ∧
    ((e.property t name).run s).1 = .error (.broken v)

variable {name : String}

theorem inherits_of_declared {owner : Ty} {p : TypeEngine.Property} {origin : Origin}
    (place : owner = t ∨ ∃ s', e.Visits s t owner s')
    (declared : s.tables.property? owner.main name = some p)
    (answer : ((e.property t name).run s).1 =
      (e.instantiate s.tables (p.member scope origin) owner).map some) : e.Inherits s t name := by
  unfold instantiate at answer
  cases known : s.tables.type? owner.main with
  | none =>
    rw [known] at answer
    exact .inl ⟨_, answer⟩
  | some decl =>
    rw [known] at answer
    dsimp only at answer
    cases applied : p.type.apply (declSubst decl owner) e.maxDepth with
    | ok type =>
      have applied' : (p.member scope origin).type.apply (declSubst decl owner) e.maxDepth =
        .ok type := applied
      rw [applied', Ty.bind_ok] at answer
      exact .inl ⟨_, answer⟩
    | error fault =>
      have applied' : (p.member scope origin).type.apply (declSubst decl owner) e.maxDepth =
        .error fault := applied
      rw [applied'] at answer
      cases fault with
      | malformed cause => exact absurd applied (Ty.apply_ne_malformed _)
      | tooComplex work limit => exact .inr (.inl ⟨work, limit, answer⟩)
      | broken v => exact .inr (.inr ⟨owner, p, decl, v, place, declared, known, applied, answer⟩)

theorem property?_of_key {p q : Path} (same : p.key = q.key) :
    ts.property? p name = ts.property? q name := by
  rw [Tables.property?, Tables.property?, Tables.under, Tables.under, same]

theorem exists_of_visible {path : Path} {p : TypeEngine.Property}
    (visible : visible? ts path name = some (scope, p)) : ts.property? scope name = some p := by
  obtain ⟨place, _, here⟩ := List.exists_of_findSome?_eq_some visible
  obtain ⟨q, declared, pair⟩ := Option.map_eq_some_iff.mp here
  obtain ⟨rfl, rfl⟩ := Prod.mk.inj pair
  exact declared

theorem property?_of_hidden {path : Path} (hidden : visible? ts path name = none) :
    ts.property? path name = none := by
  have self : path ∈ path.outward :=
    List.mem_map.mpr ⟨path.length, by simp, by rw [Path.length, List.take_length]⟩
  exact Option.map_eq_none_iff.mp (List.findSome?_eq_none_iff.mp hidden path self)

theorem inherits_of_visible {p : TypeEngine.Property}
    (visible : visible? s.tables t.main name = some (scope, p)) : e.Inherits s t name := by
  have answer := property_visible (e := e) visible
  cases here : scope == t.main with
  | true =>
    rw [if_pos here] at answer
    refine inherits_of_declared (.inl rfl) ?_ answer
    rw [← Tables.property?_congr (Path.beq_iff_bare.mp here), exists_of_visible visible]
  | false =>
    rw [if_neg (Bool.eq_false_iff.mp here)] at answer
    exact .inl ⟨_, answer⟩

/-- The search for a base stops at the types at which the property is declared. -/
abbrev declares (ts : Tables) (name : String) (b : Ty) : Bool := (ts.property? b.main name).isSome

theorem inherits_of_base (hidden : visible? s.tables t.main name = none)
    (found : (e.findBase (declares s.tables name) t).run s = (.ok (some b), s')) :
    e.Inherits s t name := by
  obtain ⟨p, declared⟩ := Option.isSome_iff_exists.mp (ascent_of_findBaseFrom found).1
  have answer := property_hidden (e := e) hidden
  rw [found] at answer
  dsimp only at answer
  rw [declared] at answer
  exact inherits_of_declared (.inr ⟨s', _, found⟩) declared answer

theorem inherits_of_ascent (steady : e.Steady s t) (ascent : Ascent e s t (line ++ [b]) s')
    (declared : declares s.tables name b = true) : e.Inherits s t name := by
  cases visible : visible? s.tables t.main name with
  | some found => exact inherits_of_visible visible
  | none =>
    have member : b ∈ line ++ [b] := by simp
    rcases findBaseFrom_along (p := declares s.tables name) ascent (e.maxDepth + 1)
        (List.mem_singleton.mpr rfl) with
      ⟨c, s₁, _, _, done⟩ | deep | ⟨before, c, after, split, others, again, _⟩ | ⟨others, _⟩
    · exact inherits_of_base visible done
    · have answer := property_hidden (e := e) visible
      rw [findBase, deep] at answer
      exact .inr (.inl ⟨_, _, answer⟩)
    · -- in a cycle the paths are those of the types before, where nothing is declared
      have undeclared : ∀ a ∈ t :: before, declares s.tables name a = false := by
        refine List.forall_mem_cons.mpr ⟨?_, others⟩
        rw [declares, property?_of_hidden visible]
        rfl
      rw [split] at ascent member
      have again : ∃ a ∈ t :: before, a.main.key = c.main.key := by
        rw [List.singleton_append, List.mem_cons] at again
        rcases again with same | again
        · exact ⟨t, List.mem_cons_self, same.symm⟩
        · obtain ⟨a, early, same⟩ := List.mem_map.mp again
          exact ⟨a, List.mem_cons_of_mem _ early, same⟩
      obtain ⟨a, before_, key⟩ : ∃ a ∈ t :: before, a.main.key = b.main.key := by
        rcases List.mem_append.mp member with early | late
        · exact ⟨b, List.mem_cons_of_mem _ early, rfl⟩
        · exact key_mem_of_again (steady _ _ ascent) again b late
      have nothing := undeclared a before_
      rw [declares, property?_of_key key] at nothing
      exact absurd declared (Bool.eq_false_iff.mp nothing)
    · rw [others b member] at declared
      cases declared

end Engine

/-! ### Properties of the host -/

namespace Host.Catalog

variable {c : Catalog} {i j : TypeInfo} {path : String}

theorem exists_property_of_base {name : String} {q : Host.Property} (below : i ∈ c.chain path)
    (listed : c.property? i.path name = some q) : ∃ p, c.property? path name = some p := by
  obtain ⟨k, member, here⟩ := List.exists_of_findSome?_eq_some listed
  have some : ((c.chain path).findSome? fun t => t.properties.find? (·.name = name)).isSome := by
    rw [List.findSome?_isSome_iff]
    exact ⟨k, mem_chain_trans below member, by rw [here]; rfl⟩
  exact Option.isSome_iff_exists.mp some

end Host.Catalog

namespace Engine

variable {e : Engine} {s s' : Session} {t b : Ty} {name : String} {m : Member}

/-- In the catalog, too, `b` is a base of `t`, and the first property of the name that the catalog
has for `t` denotes a type there. -/
structure HostBase (e : Engine) (t b : Ty) (name : String) : Prop where
  above : ∃ path info, e.hostPath t = .ok (some path) ∧ info ∈ e.catalog.chain path ∧
    e.hostPath b = .ok (some info.path)
  denotes {path : String} {p : Host.Property} : e.hostPath t = .ok (some path) →
    e.catalog.property? path name = some p →
    ∃ declaring type, e.catalog.lookup? p.declaring = some declaring ∧
      e.instantiateRef p.type
        (if p.declaring = path then t.bindParams declaring.typeParams else .empty) = .ok (some type)

/-- The member that the catalog has for a type. -/
abbrev hostProperty (e : Engine) (t : Ty) (name : String) : Except Violation (Option Member) :=
  e.hostMember (fun path name => (e.catalog.property? path name).map (·, "")) t name

theorem property?_of_hostMember {path : String} (done : e.hostProperty b name = .ok (some m))
    (at_ : e.hostPath b = .ok (some path)) : ∃ q, e.catalog.property? path name = some q := by
  unfold hostProperty hostMember at done
  rw [at_, Ty.bind_ok] at done
  dsimp only at done
  cases listed : e.catalog.property? path name with
  | none =>
    rw [listed] at done
    cases done
  | some q => exact ⟨q, rfl⟩

theorem HostBase.member (base : e.HostBase t b name) (done : e.hostProperty b name = .ok (some m)) :
    ∃ m', e.hostProperty t name = .ok (some m') := by
  obtain ⟨path, info, at_, below, above⟩ := base.above
  obtain ⟨q, listed⟩ := property?_of_hostMember done above
  obtain ⟨p, found⟩ := Catalog.exists_property_of_base below listed
  obtain ⟨declaring, type, known, denoted⟩ := base.denotes at_ found
  obtain ⟨m', member, _⟩ := hostMember_property at_ found known denoted
  exact ⟨m', member⟩

theorem inherits_of_host (visits : e.Visits s t b s') (base : e.HostBase t b name)
    (undeclared : ((e.findBase (declares s.tables name) b).run s').1 = .ok none)
    (done : e.hostProperty b name = .ok (some m)) : e.Inherits s t name := by
  cases visible : visible? s.tables t.main name with
  | some found => exact inherits_of_visible visible
  | none =>
    obtain ⟨q, visits⟩ := visits
    obtain ⟨_, line, ascent⟩ := ascent_of_findBaseFrom visits
    have answer := property_hidden (e := e) visible
    have ended : ((e.findBase (declares s.tables name) t).run s).1 = .ok none →
        e.Inherits s t name := by
      intro ended
      rw [ended] at answer
      dsimp only at answer
      cases builtin : Builtin.property? t name with
      | some p =>
        rw [builtin] at answer
        exact .inl ⟨_, answer⟩
      | none =>
        obtain ⟨m', member⟩ := base.member done
        rw [builtin] at answer
        have answer : ((e.property t name).run s).1 = (e.hostProperty t name).mapError .broken := answer
        rw [member] at answer
        exact .inl ⟨m', answer⟩
    have deep : ((e.findBase (declares s.tables name) t).run s).1 =
        .error (.tooComplex .baseChain e.maxDepth) → e.Inherits s t name := by
      intro deep
      rw [deep] at answer
      exact .inr (.inl ⟨_, _, answer⟩)
    rcases findBaseFrom_along (p := declares s.tables name) ascent (e.maxDepth + 1)
        (List.mem_singleton.mpr rfl) with
      ⟨c, s₁, _, _, found⟩ | limit | ⟨_, _, _, _, _, _, top⟩ | ⟨_, fuel, seen, fewer, last, rest⟩
    · exact inherits_of_base visible found
    · exact deep limit
    · exact ended top
    · rw [List.getLastD_concat] at last rest
      have same := congrArg Prod.fst rest
      rcases findBaseFrom_none undeclared fewer (List.cons_subset.mpr ⟨last, List.nil_subset _⟩) with
        top | limit
      · exact ended (same.trans top)
      · exact deep (same.trans limit)

/-! ### Where a property is found -/

theorem user_of_visible {scope : Path} {p : TypeEngine.Property}
    (visible : visible? s.tables b.main name = some (scope, p))
    (found : ((e.property b name).run s).1 = .ok (some m)) : m.origin = .user ∧ m.scope = scope := by
  rw [property_visible visible] at found
  split at found
  · obtain ⟨m', made, same⟩ := Ty.exists_of_map found
    obtain rfl := Option.some.inj same
    rw [instantiate_form made]
    exact ⟨rfl, rfl⟩
  · obtain rfl := Option.some.inj (Except.ok.inj found)
    exact ⟨rfl, rfl⟩

/-- A property that a base has is found from below, if the base declares or inherits it, or the host
has it and the base is one in the catalog as well. -/
theorem property_inherited (visits : e.Visits s t b s') (steady : e.Steady s t)
    (found : ((e.property b name).run s').1 = .ok (some m))
    (own : m.origin = .base ∨ m.origin = .user ∧ (m.scope == b.main) = true ∨
      m.origin = .native ∧ e.HostBase t b name) : e.Inherits s t name := by
  obtain ⟨q, run⟩ := visits
  obtain ⟨_, line, ascent⟩ := ascent_of_findBaseFrom run
  have tables := ascent.tables
  cases visible : visible? s'.tables b.main name with
  | some place =>
    obtain ⟨scope, p⟩ := place
    obtain ⟨origin, rfl⟩ := user_of_visible visible found
    rw [origin] at own
    rcases own with no | ⟨_, here⟩ | ⟨no, _⟩
    · cases no
    · refine inherits_of_ascent steady ascent ?_
      rw [declares, ← Tables.property?_congr (Path.beq_iff_bare.mp here), ← tables,
        exists_of_visible visible]
      rfl
    · cases no
  | none =>
    rw [property_hidden visible, tables] at found
    rcases above : (e.findBase (declares s.tables name) b).run s' with ⟨fault | base?, s₁⟩
    · rw [above] at found
      cases found
    rw [above] at found
    cases base? with
    | some c =>
      obtain ⟨declared, line', more⟩ := ascent_of_findBaseFrom above
      have whole := ascent.append more
      rw [← List.cons_append, ← List.append_assoc] at whole
      exact inherits_of_ascent steady whole declared
    | none =>
      dsimp only at found
      cases builtin : Builtin.property? b name with
      | some p =>
        rw [builtin] at found
        obtain rfl := Option.some.inj (Except.ok.inj found)
        rcases own with no | ⟨no, _⟩ | ⟨no, _⟩ <;> cases no
      | none =>
        rw [builtin] at found
        have host : e.hostProperty b name = .ok (some m) := Ty.ok_of_mapError found
        rw [native_of_hostMember host] at own
        rcases own with no | ⟨no, _⟩ | ⟨_, base⟩
        · cases no
        · cases no
        · exact inherits_of_host ⟨q, run⟩ base (by rw [above]) host

end Engine

/-! ### Shapes -/

/-- The host has shapes with a name. Squares are shapes, and so are blobs, whose own name is of a type
that the host does not describe. -/
def shapes : Engine :=
  { catalog :=
      { types :=
          [{ name := "Shape"
             properties := [{ name := "Name", type := .ofPath "string", declaring := "Shape" }] },
            { name := "Square", base? := some (.ofPath "Shape") },
            { name := "Blob", base? := some (.ofPath "Shape")
              properties := [{ name := "Name", type := .ofPath "Unknown", declaring := "Blob" }] }] } }

theorem square_hostBase : shapes.HostBase (classOf "Square" []) (classOf "Shape" []) "Name" where
  above := ⟨"Square", _, rfl, List.mem_cons_of_mem _ List.mem_cons_self, rfl⟩
  denotes := by
    intro path p at_ found
    obtain rfl : "Square" = path := Option.some.inj (Except.ok.inj at_)
    obtain rfl : { name := "Name", type := .ofPath "string", declaring := "Shape" } = p :=
      Option.some.inj found
    exact ⟨_, .string, rfl, rfl⟩

theorem property_inherited_square :
    ∃ s', shapes.Visits {} (classOf "Square" []) (classOf "Shape" []) s' ∧
      shapes.Steady {} (classOf "Square" []) ∧ shapes.Inherits {} (classOf "Square" []) "Name" := by
  have visits : shapes.Visits {} (classOf "Square" []) (classOf "Shape" []) _ := ⟨fun _ => true, rfl⟩
  have steady : shapes.Steady {} (classOf "Square" []) :=
    .of_top (.base rfl rfl .here) rfl rfl (by decide +kernel)
  exact ⟨_, visits, steady,
    Engine.property_inherited visits steady rfl (.inr (.inr ⟨rfl, square_hostBase⟩))⟩

/-- A figure is declared with the base `Shape` and a word with the base `string`. `Mixin[T]` has the
base `T`, and `Middle` has in turn a mixin for base, of `Named`. `Pile[T]` is named by a list of `T`,
and `Heap[T]` has the base `Pile[list() T]`. -/
def figures : Tables :=
  let path := fun name => (classOf name []).main
  let declare := fun name params base? =>
    ⟨(path name).key, { path := path name, params := params.map fun name => { name }, base? }⟩
  { types :=
      [declare "Figure" [] (some (classOf "Shape" [])), declare "Word" [] (some .string),
        declare "Mixin" ["T"] (some (.param "T")),
        declare "Middle" [] (some (classOf "Mixin" [classOf "Named" []])), declare "Named" [] none,
        declare "Pile" ["T"] (some (classOf "Named" [])),
        declare "Heap" ["T"] (some (classOf "Pile" [.layered 1 (.param "T")]))]
    properties :=
      [⟨(path "Named").key, { name := "name", type := .string }⟩,
        ⟨(path "Pile").key, { name := "name", type := .layered 1 (.param "T") }⟩] }

/-- Properties of the host are not inherited by a declared type, nor past one without a type, and
built-in ones not at all. A chain that takes a second turn through a generic type is taken for a
cycle, and a nearer property of the name may have no instance. -/
theorem property_unshared :
    let visits := fun t name =>
      ((shapes.findBase (·.display = name) t).run { tables := figures }).1.toOption.any Option.isSome
    let origin := fun t name => ((shapes.property t name).run { tables := figures }).1.toOption.map
      fun m? => m?.map (·.origin)
    let mixin := classOf "Mixin" [classOf "Middle" []]
    let heap := classOf "Heap" [.layered 9223372036854775807 .int]
    (visits (classOf "Figure" []) "Shape" = true ∧ visits (classOf "Blob" []) "Shape" = true ∧
      origin (classOf "Shape" []) "Name" = some (some .native) ∧
      origin (classOf "Figure" []) "Name" = some none ∧ origin (classOf "Blob" []) "Name" = some none) ∧
    (visits (classOf "Word" []) "string" = true ∧ origin .string "Length" = some (some .builtin) ∧
      origin (classOf "Word" []) "Length" = some none) ∧
    (visits mixin "Middle" = true ∧ origin (classOf "Middle" []) "name" = some (some .base) ∧
      origin mixin "name" = some none) ∧
    visits heap "Named" = true ∧ origin (classOf "Named" []) "name" = some (some .user) ∧
    origin heap "name" = none := by
  decide +kernel

end TypeEngine
