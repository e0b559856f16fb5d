import TypeEngine.Proofs.Host.Chain

/-!
# Members found along the bases

Bases can lead back, to an unknown type or to no path at all. Which types are met when they are
followed is said by `Trail` without a bound on their number: those at the paths before the first one
that is empty, unknown or met already. There is exactly one such list, and the bounded chain is that
list (`chain_trail`), so its bound is never what ends it. What a search for members finds can be read
off the trail (`search_trail`).
-/

namespace TypeEngine.Host.Catalog

variable {c : Catalog} {path start : String} {seen : List String} {n : Nat} {t : TypeInfo} {base : Ref}
  {types others : List TypeInfo}

/-! ### Trails -/

/-- The path that the type at `path` gives as its base. -/
def basePath? (c : Catalog) (path : String) : Option String :=
  (c.lookup? path).bind fun t => t.base?.map Ref.path

/-- The path that `n` steps from base to base lead to. -/
def pathAt? (c : Catalog) : Nat → String → Option String
  | 0, start => some start
  | n + 1, start => (c.basePath? start).bind (c.pathAt? n)

/-- The path `n` steps from `start` is a new one: not empty, not in `seen`, and not met before. -/
structure Fresh (c : Catalog) (seen : List String) (start : String) (n : Nat) (path : String) : Prop where
  reached : c.pathAt? n start = some path
  named : path ≠ ""
  unseen : path ∉ seen
  first : ∀ m < n, c.pathAt? m start ≠ some path

/-- The types at the paths from `start` on, up to the first path that is not new or not known. -/
structure Trail (c : Catalog) (seen : List String) (start : String) (types : List TypeInfo) : Prop where
  met : ∀ n t, types[n]? = some t → ∃ path, c.Fresh seen start n path ∧ c.lookup? path = some t
  ends : ∀ path, c.Fresh seen start types.length path → c.lookup? path = none

theorem fresh_zero : c.Fresh seen start 0 path ↔ path = start ∧ path ≠ "" ∧ path ∉ seen := by
  constructor
  · rintro ⟨reached, named, unseen, _⟩
    exact ⟨(Option.some.inj reached).symm, named, unseen⟩
  · rintro ⟨rfl, named, unseen⟩
    exact ⟨rfl, named, unseen, fun m before => absurd before (Nat.not_lt_zero m)⟩

theorem pathAt?_succ (known : c.lookup? start = some t) :
    c.pathAt? (n + 1) start = t.base?.bind fun base => c.pathAt? n base.path := by
  rw [pathAt?, basePath?, known, Option.bind_some]
  cases t.base? <;> rfl

theorem fresh_succ (known : c.lookup? start = some t) (above : t.base? = some base) :
    c.Fresh seen start (n + 1) path ↔ c.Fresh (start :: seen) base.path n path := by
  have step : ∀ m, c.pathAt? (m + 1) start = c.pathAt? m base.path := fun m => by
    rw [pathAt?_succ known, above, Option.bind_some]
  constructor
  · rintro ⟨reached, named, unseen, first⟩
    refine ⟨step n ▸ reached, named, ?_, fun m before => step m ▸ first (m + 1) (Nat.succ_lt_succ before)⟩
    rw [List.mem_cons, not_or]
    exact ⟨fun same => first 0 (Nat.succ_pos n) (by rw [same]; rfl), unseen⟩
  · rintro ⟨reached, named, unseen, first⟩
    rw [List.mem_cons, not_or] at unseen
    refine ⟨(step n).trans reached, named, unseen.2, fun m before => ?_⟩
    cases m with
    | zero => exact fun same => unseen.1 (Option.some.inj same).symm
    | succ m => exact step m ▸ first m (Nat.lt_of_succ_lt_succ before)

namespace Trail

theorem nil (stop : start = "" ∨ start ∈ seen ∨ c.lookup? start = none) : c.Trail seen start [] where
  met n t member := by
    rw [List.getElem?_nil] at member
    cases member
  ends path fresh := by
    obtain ⟨rfl, named, unseen⟩ := fresh_zero.mp fresh
    exact (stop.resolve_left named).resolve_left unseen

section

variable (named : start ≠ "") (unseen : start ∉ seen) (known : c.lookup? start = some t)
include named unseen known

theorem single (top : t.base? = none) : c.Trail seen start [t] where
  met n t' member := by
    cases n with
    | zero =>
      obtain rfl := Option.some.inj member
      exact ⟨start, fresh_zero.mpr ⟨rfl, named, unseen⟩, known⟩
    | succ n => cases member
  ends path fresh := by
    have reached := fresh.reached
    rw [List.length_singleton, pathAt?_succ known, top] at reached
    cases reached

theorem cons (above : t.base? = some base) (rest : c.Trail (start :: seen) base.path types) :
    c.Trail seen start (t :: types) where
  met n t' member := by
    cases n with
    | zero =>
      obtain rfl := Option.some.inj member
      exact ⟨start, fresh_zero.mpr ⟨rfl, named, unseen⟩, known⟩
    | succ n =>
      obtain ⟨path, fresh, found⟩ := rest.met n t' member
      exact ⟨path, (fresh_succ known above).mpr fresh, found⟩
  ends path fresh := rest.ends path ((fresh_succ known above).mp fresh)

end

theorem getElem?_of (trail : c.Trail seen start types) (other : c.Trail seen start others)
    (member : types[n]? = some t) : others[n]? = some t := by
  obtain ⟨path, fresh, known⟩ := trail.met n t member
  rcases Nat.lt_or_ge n others.length with inside | outside
  · have present : others[n]? = some others[n] := List.getElem?_eq_getElem inside
    obtain ⟨path', fresh', known'⟩ := other.met n _ present
    obtain rfl := Option.some.inj (fresh.reached.symm.trans fresh'.reached)
    rw [present, ← known', known]
  · -- The other one would have ended at a path that is new and known.
    obtain ⟨long, _⟩ := List.getElem?_eq_some_iff.mp member
    obtain ⟨path', fresh', known'⟩ :=
      trail.met others.length _ (List.getElem?_eq_getElem (Nat.lt_of_le_of_lt outside long))
    rw [other.ends path' fresh'] at known'
    cases known'

theorem unique (trail : c.Trail seen start types) (other : c.Trail seen start others) : others = types :=
  List.ext_getElem? fun _ => Option.ext fun _ => ⟨other.getElem?_of trail, trail.getElem?_of other⟩

theorem lookup?_of_mem (trail : c.Trail seen start types) (member : t ∈ types) :
    c.lookup? t.path = some t := by
  obtain ⟨n, found⟩ := List.mem_iff_getElem?.mp member
  obtain ⟨path, _, known⟩ := trail.met n t found
  rw [path_of_lookup? known, known]

theorem nodup (trail : c.Trail seen start types) : (types.map TypeInfo.path).Nodup := by
  rw [List.Nodup, List.pairwise_map, List.pairwise_iff_getElem]
  intro m n early late before same
  obtain ⟨path, fresh, known⟩ := trail.met n _ (List.getElem?_eq_getElem late)
  obtain ⟨path', fresh', known'⟩ := trail.met m _ (List.getElem?_eq_getElem early)
  rw [path_of_lookup? known, path_of_lookup? known'] at same
  exact fresh.first m before (same ▸ fresh'.reached)

theorem length_le (trail : c.Trail seen start types) : types.length ≤ c.types.length := by
  have listed : types.map TypeInfo.path ⊆ c.typePaths := by
    intro path member
    obtain ⟨t, inside, rfl⟩ := List.mem_map.mp member
    exact List.mem_map_of_mem (List.mem_of_find?_eq_some (trail.lookup?_of_mem inside))
  have fewer := (List.subperm_of_subset trail.nodup listed).length_le
  rwa [typePaths, List.length_map, List.length_map] at fewer

end Trail

/-- Each step sees one more path of the catalog, so the bound on the steps is never reached. -/
theorem chainFrom_trail {fuel : Nat} (distinct : seen.Nodup) (listed : seen ⊆ c.typePaths)
    (enough : c.types.length < seen.length + fuel) : c.Trail seen start (c.chainFrom fuel seen start) := by
  induction fuel generalizing seen start with
  | zero =>
    have fewer := (List.subperm_of_subset distinct listed).length_le
    rw [typePaths, List.length_map] at fewer
    omega
  | succ fuel ih =>
    by_cases named : start = ""
    · rw [chainFrom, named]
      exact .nil (.inl rfl)
    by_cases unseen : start ∈ seen
    · have stop : c.chainFrom (fuel + 1) seen start = [] := by simp [chainFrom, unseen]
      rw [stop]
      exact .nil (.inr (.inl unseen))
    cases known : c.lookup? start with
    | none =>
      have stop : c.chainFrom (fuel + 1) seen start = [] := by simp [chainFrom, known]
      rw [stop]
      exact .nil (.inr (.inr known))
    | some t =>
      rw [chainFrom_next named unseen known]
      cases above : t.base? with
      | none => exact .single named unseen known above
      | some base =>
        have inside : start ∈ c.typePaths := by
          rw [← path_of_lookup? known]
          exact List.mem_map_of_mem (List.mem_of_find?_eq_some known)
        refine .cons named unseen known above (ih (List.nodup_cons.mpr ⟨unseen, distinct⟩)
          (List.cons_subset.mpr ⟨inside, listed⟩) ?_)
        rw [List.length_cons]
        omega

theorem chain_trail (c : Catalog) (path : String) : c.Trail [] path (c.chain path) :=
  chainFrom_trail List.nodup_nil (List.nil_subset _) (by simp)

/-! ### Members -/

/-- What searches for members at `path` answer, where `types` are searched in order. -/
structure Searched (c : Catalog) (path : String) (types : List TypeInfo) : Prop where
  methods (name : String) : c.methods path name =
    types.flatMap fun t => t.methods.filter (·.name = name)
  property (name : String) : c.property? path name =
    (types.flatMap TypeInfo.properties).find? (·.name = name)
  constant (name : String) : c.constant? path name =
    (types.flatMap TypeInfo.constants).find? (·.name = name)
  no_property (name : String) : c.property? path name = none ↔
    ∀ t ∈ types, ∀ p ∈ t.properties, p.name ≠ name
  no_constant (name : String) : c.constant? path name = none ↔
    ∀ t ∈ types, ∀ k ∈ t.constants, k.name ≠ name

theorem chain_searched (c : Catalog) (path : String) : c.Searched path (c.chain path) where
  methods _ := rfl
  property _ := List.find?_flatMap.symm
  constant _ := List.find?_flatMap.symm
  no_property _ := by simp [property?, List.findSome?_eq_none_iff, List.find?_eq_none]
  no_constant _ := by simp [constant?, List.findSome?_eq_none_iff, List.find?_eq_none]

/-- Whatever the bases of a catalog are, following them from a path meets a finite trail of types,
each once; searches for members go through exactly these types, in this order. -/
theorem search_trail (c : Catalog) (path : String) :
    ∃ types, c.Trail [] path types ∧ (∀ others, c.Trail [] path others → others = types) ∧
      (types.map TypeInfo.path).Nodup ∧ types.length ≤ c.types.length ∧ c.Searched path types :=
  have trail := c.chain_trail path
  ⟨_, trail, fun _ => trail.unique, trail.nodup, trail.length_le, c.chain_searched path⟩

-- A loop of two types is entered from a third one.
example : (({ types := [{ name := "X", base? := some (.ofPath "A") }, { name := "A", base? := some (.ofPath "B") },
    { name := "B", base? := some (.ofPath "A") }] } : Catalog).chain "X").map TypeInfo.name = ["X", "A", "B"] := by
  decide

end TypeEngine.Host.Catalog
