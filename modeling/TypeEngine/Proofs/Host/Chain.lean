import Mathlib.Data.List.Perm.Subperm
import TypeEngine.Host.Catalog

/-!
# The chain of bases

The chain of a type has the base of each of its types (`mem_chainFrom_of_isBase`), so it has the whole
chain of each of them (`mem_chain_trans`), also where bases lead back.
-/

namespace TypeEngine.Host.Catalog

variable {c : Catalog} {i j : TypeInfo} {path : String} {fuel : Nat} {seen : List String}

theorem path_of_lookup? (known : c.lookup? path = some i) : i.path = path := by
  have found := List.find?_some known
  exact of_decide_eq_true found

/-- The catalog has `j` as the base of `i`. -/
def IsBase (c : Catalog) (i j : TypeInfo) : Prop :=
  ∃ r, i.base? = some r ∧ r.path ≠ "" ∧ c.lookup? r.path = some j

theorem chainFrom_next (named : path ≠ "") (new : path ∉ seen)
    (known : c.lookup? path = some i) : c.chainFrom (fuel + 1) seen path =
      i :: i.base?.elim [] fun base => c.chainFrom fuel (path :: seen) base.path := by
  cases above : i.base? <;> simp [chainFrom, named, new, known, above]

theorem lookup?_of_mem_chainFrom (member : i ∈ c.chainFrom fuel seen path) :
    path ≠ "" ∧ path ∉ seen ∧ ∃ first, c.lookup? path = some first := by
  cases fuel with
  | zero => cases member
  | succ fuel =>
    rw [chainFrom] at member
    split at member
    · cases member
    · rename_i fresh
      cases known : c.lookup? path with
      | none =>
        rw [known] at member
        cases member
      | some first =>
        simp only [Bool.or_eq_true, decide_eq_true_eq, List.contains_iff_mem, not_or] at fresh
        exact ⟨fresh.1, fresh.2, first, rfl⟩

theorem chainFrom_subset {P : TypeInfo → Prop} (closed : ∀ i j, P i → c.IsBase i j → P j)
    (known : c.lookup? path = some i) (start : P i) :
    ∀ k ∈ c.chainFrom fuel seen path, P k := by
  induction fuel generalizing seen path i with
  | zero => nofun
  | succ fuel ih =>
    intro k member
    obtain ⟨named, new, _⟩ := lookup?_of_mem_chainFrom member
    rw [chainFrom_next named new known] at member
    rcases List.mem_cons.mp member with rfl | member
    · exact start
    cases above : i.base? with
    | none =>
      rw [above] at member
      cases member
    | some r =>
      rw [above] at member
      obtain ⟨named', _, j, known'⟩ := lookup?_of_mem_chainFrom member
      exact ih known' (closed i j start ⟨r, above, named', known'⟩) k member

/-- The base of a type in the chain is in the chain, or at a path that was seen before. -/
theorem mem_chainFrom_of_isBase (distinct : seen.Nodup)
    (listed : seen ⊆ c.typePaths) (enough : c.types.length < seen.length + fuel)
    (member : i ∈ c.chainFrom fuel seen path) (base : c.IsBase i j) :
    j ∈ c.chainFrom fuel seen path ∨ j.path ∈ seen := by
  induction fuel generalizing seen path with
  | zero => cases member
  | succ fuel ih =>
    obtain ⟨named, new, first, known⟩ := lookup?_of_mem_chainFrom member
    have distinct' : (path :: seen).Nodup := List.nodup_cons.mpr ⟨new, distinct⟩
    have listed' : path :: seen ⊆ c.typePaths := by
      refine List.cons_subset.mpr ⟨?_, listed⟩
      rw [← path_of_lookup? known]
      exact List.mem_map_of_mem (List.mem_of_find?_eq_some known)
    rw [chainFrom_next named new known] at member ⊢
    -- a base at `path` is the first type itself
    have home : ∀ {r : Ref}, c.lookup? r.path = some j → j.path = path → j = first := by
      intro r up same
      rw [path_of_lookup? up] at same
      rw [same, known] at up
      exact (Option.some.inj up).symm
    obtain ⟨r, above, named', up⟩ := base
    rcases List.mem_cons.mp member with rfl | member
    · rw [above, Option.elim_some]
      by_cases again : j.path ∈ path :: seen
      · rcases List.mem_cons.mp again with same | again
        · exact .inl (by rw [home up same]; exact List.mem_cons_self)
        · exact .inr again
      · have same := path_of_lookup? up
        rw [same] at again
        obtain ⟨fuel, rfl⟩ : ∃ n, fuel = n + 1 := by
          have fewer := (List.subperm_of_subset distinct' listed').length_le
          simp only [List.length_cons, typePaths, List.length_map] at fewer
          exact ⟨fuel - 1, by omega⟩
        rw [chainFrom_next named' again up]
        exact .inl (List.mem_cons_of_mem _ List.mem_cons_self)
    · cases next : first.base? with
      | none =>
        rw [next] at member
        cases member
      | some r' =>
        rw [next, Option.elim_some] at member
        rcases ih distinct' listed' (by simp only [List.length_cons]; omega) member with later | again
        · exact .inl (List.mem_cons_of_mem _ later)
        · rcases List.mem_cons.mp again with same | again
          · exact .inl (by rw [home up same]; exact List.mem_cons_self)
          · exact .inr again

theorem lookup?_of_mem (member : i ∈ c.chainFrom fuel seen path) :
    c.lookup? i.path = some i := by
  obtain ⟨_, _, first, known⟩ := lookup?_of_mem_chainFrom member
  have step : ∀ i j, c.lookup? i.path = some i → c.IsBase i j → c.lookup? j.path = some j := by
    intro i j _ base
    obtain ⟨r, _, _, up⟩ := base
    rw [path_of_lookup? up, up]
  refine chainFrom_subset step known ?_ i member
  rw [path_of_lookup? known, known]

theorem mem_chain_of_lookup? (named : path ≠ "") (known : c.lookup? path = some i) : i ∈ c.chain path := by
  rw [chain, chainFrom_next named List.not_mem_nil known]
  exact List.mem_cons_self

theorem mem_chain_of_isBase (member : i ∈ c.chain path) (base : c.IsBase i j) : j ∈ c.chain path :=
  (mem_chainFrom_of_isBase List.nodup_nil (List.nil_subset _) (by simp) member base).resolve_right List.not_mem_nil

theorem mem_chain_trans {k : TypeInfo} (below : i ∈ c.chain path) (above : k ∈ c.chain i.path) :
    k ∈ c.chain path :=
  chainFrom_subset (fun _ _ => mem_chain_of_isBase) (lookup?_of_mem below) below k above

theorem mem_methods {name : String} {callable : Callable} :
    callable ∈ c.methods path name ↔ ∃ i ∈ c.chain path, callable ∈ i.methods ∧ callable.name = name := by
  rw [methods, List.mem_flatMap]
  simp only [List.mem_filter, decide_eq_true_eq]

end TypeEngine.Host.Catalog
