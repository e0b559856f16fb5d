import TypeEngine.Proto.Catalog

/-!
# Files reached through imports

The walk over the imports of a library visits the files that can be reached from its roots, each
once (`Library.mem_reached_iff`, `Library.nodup_reached`), whatever the imports share.
-/

namespace TypeEngine.Proto.Library

/-- A file that is a root, or that a file already reached imports. -/
inductive Reaches (l : Library) (roots : List String) : File → Prop
  | root {name : String} {f : File} : name ∈ roots → l.file? name = some f → Reaches l roots f
  | imported {f g : File} {i : Import} :
      Reaches l roots f → i ∈ f.imports → l.file? i.path = some g → Reaches l roots g

variable {l : Library} {roots names seen seen' : List String} {files new : List File} {f g : File}

theorem Reaches.mono (reaches : l.Reaches names f) (subset : names ⊆ roots) : l.Reaches roots f := by
  induction reaches with
  | root member found => exact .root (subset member) found
  | imported _ member found ih => exact .imported ih member found

theorem Reaches.trans (reaches : l.Reaches roots f) (further : l.Reaches (f.imports.map Import.path) g) :
    l.Reaches roots g := by
  induction further with
  | root member found =>
    obtain ⟨i, inside, rfl⟩ := List.mem_map.mp member
    exact .imported reaches inside found
  | imported _ member found ih => exact .imported ih member found

theorem file?_name {name : String} (found : l.file? name = some f) : f.name = name := by
  simpa using List.find?_some found

theorem Reaches.file? (reaches : l.Reaches roots f) : l.file? f.name = some f := by
  cases reaches with
  | root _ found | imported _ _ found => rw [file?_name found, found]

theorem Reaches.mem (reaches : l.Reaches roots f) : f ∈ l.files := List.mem_of_find?_eq_some reaches.file?

/-! ### Steps left -/

/-- The steps that are left for files whose names are not met yet. -/
def left (seen : List String) : List File → Nat
  | [] => 0
  | f :: files => (if seen.contains f.name then 0 else f.imports.length + 1) + left seen files

theorem left_nil (files : List File) : left [] files = files.length + (files.flatMap File.imports).length := by
  induction files with
  | nil => rfl
  | cons f files ih =>
    simp only [left, List.contains_nil, Bool.false_eq_true, if_false, List.length_cons, List.flatMap_cons,
      List.length_append, ih]
    omega

theorem steps_le (subset : seen ⊆ seen') (f : File) :
    (if f.name ∈ seen' then 0 else f.imports.length + 1) ≤
      if f.name ∈ seen then 0 else f.imports.length + 1 := by
  by_cases met : f.name ∈ seen
  · rw [if_pos (subset met)]
    exact Nat.zero_le _
  · rw [if_neg met]
    split <;> omega

theorem left_le (subset : seen ⊆ seen') (files : List File) : left seen' files ≤ left seen files := by
  induction files with
  | nil => exact Nat.le_refl 0
  | cons f files ih =>
    simp only [left, List.contains_iff_mem]
    exact Nat.add_le_add (steps_le subset f) ih

theorem left_lt (fresh : f.name ∉ seen) (member : f ∈ files) :
    left (f.name :: seen) files + f.imports.length + 1 ≤ left seen files := by
  have more : seen ⊆ f.name :: seen := List.subset_cons_self f.name seen
  induction files with
  | nil => cases member
  | cons g files ih =>
    simp only [left, List.contains_iff_mem]
    rcases List.mem_cons.mp member with rfl | member
    · have rest := left_le more files
      rw [if_pos List.mem_cons_self, if_neg fresh]
      omega
    · have first := steps_le more g
      have rest := ih member
      omega

/-! ### The walk -/

/-- What a walk over `names` adds to the names and files met before it. -/
structure Walk (l : Library) (names seen seen' : List String) (new : List File) : Prop where
  met : ∀ x, x ∈ seen' ↔ x ∈ seen ∨ x ∈ new.map File.name
  once : (new.map File.name).Nodup
  fresh : ∀ f ∈ new, f.name ∉ seen
  closed : ∀ f ∈ new, ∀ i ∈ f.imports, (l.file? i.path).isSome → i.path ∈ seen'
  named : ∀ x ∈ names, (l.file? x).isSome → x ∈ seen'
  reached : ∀ f ∈ new, l.Reaches names f

theorem Walk.none (l : Library) (seen : List String) : l.Walk [] seen seen [] := by
  constructor <;> simp

theorem Walk.skip {name : String} (walk : l.Walk names seen seen' new)
    (known : (l.file? name).isSome → name ∈ seen) : l.Walk (name :: names) seen seen' new where
  met := walk.met
  once := walk.once
  fresh := walk.fresh
  closed := walk.closed
  named := List.forall_mem_cons.mpr ⟨fun found => (walk.met name).mpr (.inl (known found)), walk.named⟩
  reached f member := (walk.reached f member).mono (List.subset_cons_self _ _)

/-- The imports of a file come before it, and the other names after. -/
theorem Walk.visit {name : String} {mid : List String} {before : List File} (found : l.file? name = some f)
    (unmet : name ∉ seen) (inner : l.Walk (f.imports.map Import.path) (name :: seen) mid before)
    (outer : l.Walk names mid seen' new) : l.Walk (name :: names) seen seen' (before ++ f :: new) := by
  obtain rfl := file?_name found
  have kept : ∀ x ∈ mid, x ∈ seen' := fun x member => (outer.met x).mpr (.inl member)
  have own : f.name ∈ mid := (inner.met _).mpr (.inl List.mem_cons_self)
  have here : l.Reaches (f.name :: names) f := .root List.mem_cons_self found
  refine ⟨fun x => ?_, ?_, ?_, ?_, ?_, ?_⟩
  · rw [outer.met, inner.met]
    simp only [List.mem_cons, List.map_append, List.map_cons, List.mem_append]
    grind
  · simp only [List.map_append, List.map_cons, List.nodup_append, List.nodup_cons]
    refine ⟨inner.once, ⟨fun again => ?_, outer.once⟩, fun x member y member' same => ?_⟩
    · obtain ⟨g, inside, same⟩ := List.mem_map.mp again
      exact outer.fresh g inside (same ▸ own)
    · subst same
      have met : x ∈ mid := (inner.met x).mpr (.inr member)
      rcases List.mem_cons.mp member' with rfl | member'
      · obtain ⟨g, inside, same⟩ := List.mem_map.mp member
        exact inner.fresh g inside (same ▸ List.mem_cons_self)
      · obtain ⟨g, inside, rfl⟩ := List.mem_map.mp member'
        exact outer.fresh g inside met
  · refine List.forall_mem_append.mpr ⟨fun g inside known => ?_, List.forall_mem_cons.mpr ⟨unmet, ?_⟩⟩
    · exact inner.fresh g inside (List.mem_cons_of_mem _ known)
    · intro g inside known
      exact outer.fresh g inside ((inner.met _).mpr (.inl (List.mem_cons_of_mem _ known)))
  · refine List.forall_mem_append.mpr ⟨fun g inside i member some => ?_, List.forall_mem_cons.mpr ⟨?_, ?_⟩⟩
    · exact kept _ (inner.closed g inside i member some)
    · exact fun i member some => kept _ (inner.named _ (List.mem_map_of_mem member) some)
    · exact outer.closed
  · exact List.forall_mem_cons.mpr ⟨fun _ => kept _ own, outer.named⟩
  · refine List.forall_mem_append.mpr ⟨fun g inside => ?_, List.forall_mem_cons.mpr ⟨here, fun g inside => ?_⟩⟩
    · exact here.trans (inner.reached g inside)
    · exact (outer.reached g inside).mono (List.subset_cons_self _ _)

theorem reach_walk (l : Library) (seen names : List String) (files : List File) {fuel : Nat}
    (enough : names.length + left seen l.files < fuel) :
    ∃ seen' new, l.reach fuel (seen, files) names = (seen', files ++ new) ∧ l.Walk names seen seen' new := by
  induction fuel generalizing seen files names with
  | zero => omega
  | succ fuel ih =>
    cases names with
    | nil => exact ⟨seen, [], by rw [reach, List.append_nil], .none l seen⟩
    | cons name names =>
      rw [List.length_cons] at enough
      rw [reach]
      split
      · rename_i met
        obtain ⟨seen', new, done, walk⟩ := ih seen names files (by omega)
        exact ⟨seen', new, done, walk.skip fun _ => List.contains_iff_mem.mp met⟩
      · rename_i unmet
        have unmet : name ∉ seen := fun met => unmet (List.contains_iff_mem.mpr met)
        split
        · rename_i absent
          obtain ⟨seen', new, done, walk⟩ := ih seen names files (by omega)
          exact ⟨seen', new, done, walk.skip fun found => by rw [absent] at found; cases found⟩
        · rename_i f found
          have fewer := left_lt (file?_name found ▸ unmet) (List.mem_of_find?_eq_some found)
          rw [file?_name found] at fewer
          obtain ⟨mid, before, done, inner⟩ := ih (name :: seen) (f.imports.map Import.path) files
            (by rw [List.length_map]; omega)
          have grown : seen ⊆ mid := fun x member => (inner.met x).mpr (.inl (List.mem_cons_of_mem _ member))
          have rest := left_le grown l.files
          obtain ⟨seen', new, done', outer⟩ := ih mid names (files ++ before ++ [f]) (by omega)
          refine ⟨seen', before ++ f :: new, ?_, .visit found unmet inner outer⟩
          rw [done]
          dsimp only
          rw [done', List.append_assoc, List.append_assoc]
          rfl

theorem reached_walk (l : Library) (roots : List String) :
    ∃ seen', l.Walk roots [] seen' (l.reached roots) := by
  have enough : roots.length + left [] l.files <
      roots.length + l.files.length + (l.files.flatMap File.imports).length + 1 := by
    rw [left_nil]
    omega
  obtain ⟨seen', new, done, walk⟩ := l.reach_walk [] roots [] enough
  refine ⟨seen', ?_⟩
  rw [reached, done]
  exact walk

theorem nodup_reached (l : Library) (roots : List String) : ((l.reached roots).map File.name).Nodup := by
  obtain ⟨_, walk⟩ := l.reached_walk roots
  exact walk.once

theorem mem_reached_iff : f ∈ l.reached roots ↔ l.Reaches roots f := by
  obtain ⟨seen', walk⟩ := l.reached_walk roots
  have listed : ∀ {g : File}, l.file? g.name = some g → g.name ∈ seen' → g ∈ l.reached roots := by
    intro g found met
    obtain ⟨h, inside, same⟩ := List.mem_map.mp (((walk.met _).mp met).resolve_left List.not_mem_nil)
    have found' := (walk.reached h inside).file?
    rw [same, found] at found'
    exact Option.some.inj found' ▸ inside
  refine ⟨walk.reached f, fun reaches => ?_⟩
  induction reaches with
  | @root name f member found =>
    have own := Reaches.file? (.root member found)
    exact listed own (file?_name found ▸ walk.named name member (by rw [found]; rfl))
  | @imported f g i reaches member found ih =>
    have own := Reaches.file? (.imported reaches member found)
    exact listed own (file?_name found ▸ walk.closed f ih i member (by rw [found]; rfl))

end TypeEngine.Proto.Library
