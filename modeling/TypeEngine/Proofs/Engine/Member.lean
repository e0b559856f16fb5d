import TypeEngine.Engine.Member
import TypeEngine.Proofs.Engine.Query
import TypeEngine.Proofs.Symbols.Keys
import TypeEngine.Proofs.Ty.Substitution

/-!
# Members of a type

A property is looked for in the scopes from the owner outward (`visible?`), then at the bases of the
owner, then among the built-in properties and in the host catalog. `property_visible` and
`property_hidden` are the two halves of this order. What is visible depends on the bare path.
-/

namespace TypeEngine

theorem Path.outward_bare (p : Path) : p.bare.outward = p.outward.map bare := by
  simp [outward, bare, length, List.map_take]

/-- The property as a member that was found in a scope. -/
def Property.member (p : Property) (scope : Path) (origin : Origin) : Member :=
  { name := p.name, type := p.type, attributes := p.attributes, scope, origin }

namespace Engine

variable {e : Engine}

theorem instantiate_form {ts : Tables} {m m' : Member} {owner : Ty} (done : e.instantiate ts m owner = .ok m') :
    m' = { m with type := m'.type } := by
  unfold instantiate at done
  split at done
  · rw [← Except.ok.inj done]
  · obtain ⟨u, _, done⟩ := Ty.exists_of_bind done
    rw [← Except.ok.inj done]

/-- The property of a name that is visible from a path, and the scope that has it. -/
def visible? (ts : Tables) (path : Path) (name : String) : Option (Path × Property) :=
  path.outward.findSome? fun scope => (ts.property? scope name).map (scope, ·)

theorem findSome?_visible (ts : Tables) (path : Path) (name : String) (f : Path → Property → Member) :
    path.outward.findSome? (fun scope => (ts.property? scope name).map (f scope)) =
      (visible? ts path name).map fun found => f found.1 found.2 := by
  rw [visible?, List.map_findSome?]
  congr 1
  funext scope
  rw [Function.comp_apply, Option.map_map]
  rfl

section

variable {owner : Ty} {name : String} {s : Session}

theorem property_visible {scope : Path} {p : Property}
    (found : visible? s.tables owner.main name = some (scope, p)) :
    ((e.property owner name).run s).1 =
      if scope == owner.main then (e.instantiate s.tables (p.member scope .user) owner).map some
      else .ok (some (p.member scope .user)) := by
  have tables : Query.tables.run s = (.ok s.tables, s) := rfl
  unfold property lookupMember
  rw [Query.run_bind, tables]
  dsimp only
  rw [Query.run_bind, tables]
  simp only [Option.map_map, Function.comp_def, findSome?_visible, found, Option.map_some]
  split
  · rw [Query.run_ofFault_pure]
    rfl
  · rfl

theorem property_hidden (hidden : visible? s.tables owner.main name = none) :
    ((e.property owner name).run s).1 =
      match ((e.findBase (fun b => (s.tables.property? b.main name).isSome) owner).run s).1 with
      | .error fault => .error fault
      | .ok (some base) =>
        match s.tables.property? base.main name with
        | some p => (e.instantiate s.tables (p.member base.main .base) base).map some
        | none => .ok none
      | .ok none =>
        match Builtin.property? owner name with
        | some p => .ok (some (p.member owner.main .builtin))
        | none =>
          (e.hostMember (fun path name => (e.catalog.property? path name).map (·, "")) owner
            name).mapError .broken := by
  have tables : Query.tables.run s = (.ok s.tables, s) := rfl
  unfold property lookupMember
  rw [Query.run_bind, tables]
  dsimp only
  rw [Query.run_bind, tables]
  simp only [Option.map_map, Function.comp_def, findSome?_visible, hidden, Option.map_none,
    Option.isSome_map, Query.run_bind]
  cases (e.findBase (fun b => (s.tables.property? b.main name).isSome) owner).run s with
  | mk result after =>
    cases result with
    | error fault => rfl
    | ok base? =>
      cases base? with
      | none =>
        dsimp only
        cases Builtin.property? owner name <;> rfl
      | some base =>
        dsimp only
        cases s.tables.property? base.main name with
        | none => rfl
        | some p =>
          dsimp only [Option.map_some]
          rw [Query.run_ofFault_pure]
          rfl

end

theorem visible?_bare (ts : Tables) (path : Path) (name : String) :
    visible? ts path.bare name = (visible? ts path name).map (Prod.map Path.bare id) := by
  rw [visible?, visible?, Path.outward_bare, List.findSome?_map, List.map_findSome?]
  congr 1
  funext scope
  rw [Function.comp_apply, Function.comp_apply, Tables.property?_congr (Path.bare_bare scope),
    Option.map_map]
  rfl

theorem visible?_congr {p q : Path} (same : p.bare = q.bare) (ts : Tables) (name : String) :
    (visible? ts p name).map (Prod.map Path.bare id) = (visible? ts q name).map (Prod.map Path.bare id) := by
  rw [← visible?_bare, same, visible?_bare]

theorem native_of_hostMember {native : String → String → Option (Host.Property × String)} {owner : Ty}
    {name : String} {m : Member} (done : e.hostMember native owner name = .ok (some m)) :
    m.origin = .native := by
  unfold hostMember at done
  obtain ⟨path?, _, done⟩ := Ty.exists_of_bind done
  split at done
  · cases done
  split at done
  · cases done
  split at done
  · cases done
  obtain ⟨type?, _, done⟩ := Ty.exists_of_bind done
  split at done
  · cases done
  · obtain rfl := Option.some.inj (Except.ok.inj done)
    rfl

theorem length_lt_of_outward {p q : Path} (inside : p ∈ q.outward) (other : (p == q) = false) :
    p.length < q.length := by
  obtain ⟨n, member, rfl⟩ := List.mem_map.mp inside
  rw [List.mem_reverse, List.mem_range] at member
  have shorter : n ≠ q.length := by
    rintro rfl
    rw [Path.length, List.take_length, Path.beq_iff_bare.mpr rfl] at other
    cases other
  simp only [Path.length, List.length_take] at member shorter ⊢
  omega

end Engine

end TypeEngine
