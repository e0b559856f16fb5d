import Mathlib.Logic.Relation
import TypeEngine.Engine.Compatibility
import TypeEngine.Proofs.Engine.History

/-!
# The search upward

What the level-by-level search through the supertypes of a type answers, for any comparison of
supertypes with the destination: the answer of some type above, or a refusal once every type above
was refused. `Climbed` is the invariant, `climbAt_meets` the result.
-/

namespace TypeEngine

variable {e : Engine} {ts : Tables} {T : Ty → Prop}

/-- `u` is among the direct supertypes that the session gives for `t`. -/
def Above (e : Engine) (ts : Tables) (T : Ty → Prop) (t u : Ty) : Prop :=
  ∃ found, SupertypesFor e ts T t found ∧ ∃ s ∈ found, s.type = u

theorem Above.closed (ascending : Ascending e ts T) {t u : Ty} (above : Above e ts T t u) : T u := by
  obtain ⟨found, ⟨t', asked, _, answer⟩, s, member, rfl⟩ := above
  exact ascending.supertypes t' found asked answer s member

/-- The types with the keys `seen` were met above `src`. All but `src` were refused, and only those
of `level` may have supertypes that were not met. -/
structure Climbed (e : Engine) (ts : Tables) (T : Ty → Prop) (refused : Ty → Prop) (src : Ty)
    (level : List Ty) (seen : List String) : Prop where
  start : src.key ∈ seen
  inside : ∀ t ∈ level, T t ∧ Relation.ReflTransGen (Above e ts T) src t ∧ t.key ∈ seen
  known : ∀ k ∈ seen, ∃ t, T t ∧ t.key = k ∧ Relation.ReflTransGen (Above e ts T) src t ∧
    (t = src ∨ refused t) ∧
    (t ∈ level ∨ ∃ found, SupertypesFor e ts T t found ∧ ∀ s ∈ found, s.type.key ∈ seen)

namespace Climbed

variable {refused : Ty → Prop} {src : Ty}

theorem initial (source : T src) : Climbed e ts T refused src [src] [src.key] where
  start := List.mem_singleton.mpr rfl
  inside := by
    intro t member
    obtain rfl := List.mem_singleton.mp member
    exact ⟨source, .refl, List.mem_singleton.mpr rfl⟩
  known := by
    intro k member
    obtain rfl := List.mem_singleton.mp member
    exact ⟨src, source, rfl, .refl, .inl rfl, .inl (List.mem_singleton.mpr rfl)⟩

/-- Going on from the first type of the level: its supertypes were met already or are now refused,
and the latter make up the level after the next. -/
theorem leave (ascending : Ascending e ts T) {t : Ty} {level new : List Ty} {seen : List String}
    {found : List Supertype} (climbed : Climbed e ts T refused src (t :: level) seen)
    (supertypes : SupertypesFor e ts T t found)
    (fresh : ∀ u ∈ new, (∃ s ∈ found, s.type = u) ∧ refused u)
    (met : ∀ s ∈ found, s.type.key ∈ (new.map Ty.key).reverse ++ seen) :
    Climbed e ts T refused src (level ++ new) ((new.map Ty.key).reverse ++ seen) := by
  obtain ⟨_, way, _⟩ := climbed.inside t List.mem_cons_self
  have upward : ∀ u ∈ new, T u ∧ Relation.ReflTransGen (Above e ts T) src u := by
    intro u member
    obtain ⟨⟨s, listed, rfl⟩, _⟩ := fresh u member
    have above : Above e ts T t s.type := ⟨found, supertypes, s, listed, rfl⟩
    exact ⟨above.closed ascending, way.tail above⟩
  refine ⟨List.mem_append_right _ climbed.start, ?_, ?_⟩
  · intro u member
    rcases List.mem_append.mp member with old | added
    · obtain ⟨inside, reached, key⟩ := climbed.inside u (List.mem_cons_of_mem _ old)
      exact ⟨inside, reached, List.mem_append_right _ key⟩
    · obtain ⟨inside, reached⟩ := upward u added
      refine ⟨inside, reached, List.mem_append_left _ ?_⟩
      exact List.mem_reverse.mpr (List.mem_map_of_mem added)
  · intro k member
    rcases List.mem_append.mp member with added | old
    · obtain ⟨u, listed, rfl⟩ := List.mem_map.mp (List.mem_reverse.mp added)
      obtain ⟨inside, reached⟩ := upward u listed
      exact ⟨u, inside, rfl, reached, .inr (fresh u listed).2, .inl (List.mem_append_right _ listed)⟩
    · obtain ⟨u, inside, key, reached, no, rest⟩ := climbed.known k old
      refine ⟨u, inside, key, reached, no, ?_⟩
      rcases rest with pending | ⟨found', supertypes', met'⟩
      · rcases List.mem_cons.mp pending with rfl | pending
        · exact .inr ⟨found, supertypes, met⟩
        · exact .inl (List.mem_append_left _ pending)
      · exact .inr ⟨found', supertypes', fun s listed => List.mem_append_right _ (met' s listed)⟩

end Climbed

/-- The answer of the search from `src`, where comparing a supertype `t` gives an answer `c` with
`Q t c`. -/
def ClimbAnswer (e : Engine) (ts : Tables) (T : Ty → Prop) (Q : Ty → Compatibility → Prop) (src : Ty)
    (c : Compatibility) : Prop :=
  (∃ t c', T t ∧ Relation.TransGen (Above e ts T) src t ∧ Q t c' ∧ c'.ok = true ∧
    c = { c' with adapter := .upcast t :: c'.adapter }) ∨
  (c.ok = false ∧ ∃ seen, Climbed e ts T (fun t => ∃ c', Q t c' ∧ c'.ok = false) src [] seen)

namespace Engine

variable {Q : Ty → Compatibility → Prop} {compare : Nested} {src dst : Ty}

/-- What comparing `supers` comes to: the first match ends the search, and without one all of them
have been met. -/
def Compared (Q : Ty → Compatibility → Prop) (supers : List Supertype) (climb : Climb) :
    Except Compatibility Climb → Prop
  | .error c => ∃ s ∈ supers, ∃ c', Q s.type c' ∧ c'.ok = true ∧
    c = { c' with adapter := .upcast s.type :: c'.adapter }
  | .ok climb' => ∃ new : List Ty, climb'.next = climb.next ++ new ∧
    climb'.seen = (new.map Ty.key).reverse ++ climb.seen ∧
    (∀ t ∈ new, (∃ s ∈ supers, s.type = t) ∧ ∃ c', Q t c' ∧ c'.ok = false) ∧
    ∀ s ∈ supers, s.type.key ∈ climb'.seen

namespace Compared

variable {s : Supertype} {supers : List Supertype} {climb : Climb} {outcome : Except Compatibility Climb}

/-- A type that was seen before is passed over. -/
theorem passed (seen : s.type.key ∈ climb.seen) (rest : Compared Q supers climb outcome) :
    Compared Q (s :: supers) climb outcome := by
  cases outcome with
  | error c =>
    obtain ⟨s', member, rest⟩ := rest
    exact ⟨s', List.mem_cons_of_mem _ member, rest⟩
  | ok climb' =>
    obtain ⟨new, next, seen', refused, met⟩ := rest
    refine ⟨new, next, seen', fun t member => ?_, List.forall_mem_cons.mpr ⟨?_, met⟩⟩
    · obtain ⟨⟨s', member', same⟩, no⟩ := refused t member
      exact ⟨⟨s', List.mem_cons_of_mem _ member', same⟩, no⟩
    · rw [seen']
      exact List.mem_append_right _ seen

/-- A type that does not match is left for the next level. -/
theorem refused {c : Compatibility} (answer : Q s.type c) (no : c.ok = false)
    (rest : Compared Q supers { seen := s.type.key :: climb.seen, next := climb.next ++ [s.type] } outcome) :
    Compared Q (s :: supers) climb outcome := by
  have rest := rest.passed (s := s) List.mem_cons_self
  cases outcome with
  | error c => exact rest
  | ok climb' =>
    obtain ⟨new, next, seen', refused, met⟩ := rest
    refine ⟨s.type :: new, by simpa using next, by simpa using seen', ?_, met⟩
    exact List.forall_mem_cons.mpr ⟨⟨⟨s, List.mem_cons_self, rfl⟩, c, answer, no⟩, refused⟩

end Compared

theorem climbTo_meets
    (compares : ∀ t, T t → (compare t dst).Meets (ReachedAt e T ts) (Q t))
    {supers : List Supertype} (inside : ∀ s ∈ supers, T s.type) (climb : Climb) :
    (climbTo compare dst supers climb).Meets (ReachedAt e T ts) (Compared Q supers climb) := by
  induction supers generalizing climb with
  | nil => exact .pure ⟨[], by simp⟩
  | cons s supers ih =>
    rw [List.forall_mem_cons] at inside
    rw [climbTo]
    refine .ite (fun seen => ?_) fun _ => ?_
    · exact (ih inside.2 climb).mono fun _ => .passed (List.contains_iff_mem.mp seen)
    · refine .bind (compares s.type inside.1) fun c answer => ?_
      refine .ite (fun ok => ?_) fun no => ?_
      · exact .pure ⟨s, List.mem_cons_self, c, answer, ok, rfl⟩
      · exact (ih inside.2 _).mono fun _ => .refused answer (Bool.eq_false_iff.mpr no)

/-- Comparing the supertypes of a level. -/
theorem climbFrom_meets (ascending : Ascending e ts T)
    (compares : ∀ t, T t → (compare t dst).Meets (ReachedAt e T ts) (Q t)) {level : List Ty}
    {climb : Climb}
    (climbed : Climbed e ts T (fun t => ∃ c', Q t c' ∧ c'.ok = false) src (level ++ climb.next)
      climb.seen) :
    (e.climbFrom compare dst level climb).Meets (ReachedAt e T ts) fun
      | .error c => ∃ t c', T t ∧ Relation.TransGen (Above e ts T) src t ∧ Q t c' ∧ c'.ok = true ∧
        c = { c' with adapter := .upcast t :: c'.adapter }
      | .ok climb' => Climbed e ts T (fun t => ∃ c', Q t c' ∧ c'.ok = false) src climb'.next
        climb'.seen := by
  induction level generalizing climb with
  | nil => exact .pure climbed
  | cons t level ih =>
    obtain ⟨asked, way, _⟩ := climbed.inside t List.mem_cons_self
    rw [climbFrom]
    refine .bind (directSupertypes_meets asked) fun found supertypes => ?_
    have upward : ∀ s ∈ found, Above e ts T t s.type :=
      fun s member => ⟨found, supertypes, s, member, rfl⟩
    refine .bind (climbTo_meets compares (fun s member => (upward s member).closed ascending) climb)
      fun outcome post => ?_
    cases outcome with
    | error c =>
      obtain ⟨s, member, c', answer, ok, rfl⟩ := post
      exact .pure ⟨s.type, c', (upward s member).closed ascending, .tail' way (upward s member),
        answer, ok, rfl⟩
    | ok climb' =>
      obtain ⟨new, next, seen, refused, met⟩ := post
      refine ih ?_
      rw [next, ← List.append_assoc, seen]
      exact climbed.leave ascending supertypes refused (by rw [← seen]; exact met)

/-- The comparison of a supertype with the destination, which does not go up again. -/
def compareAt (e : Engine) (budget : Nat) : Nested := fun src dst => do
  if let some c ← e.byShape (e.compatibleAt budget) src.unwrap dst.unwrap then return c
  viaConversions src.unwrap dst.unwrap

theorem climbAt_meets (ascending : Ascending e ts T) {budget : Nat}
    (compares : ∀ b < budget, ∀ t, T t → (e.compareAt b t dst).Meets (ReachedAt e T ts) (Q t))
    {level : List Ty} {seen : List String}
    (climbed : Climbed e ts T (fun t => ∃ c', Q t c' ∧ c'.ok = false) src level seen) :
    (e.climbAt budget dst level seen).Meets (ReachedAt e T ts) (ClimbAnswer e ts T Q src) := by
  induction budget generalizing level seen with
  | zero => exact .throw _
  | succ budget ih =>
    rw [climbAt]
    change (e.climbFrom (e.compareAt budget) dst level { seen, next := [] } >>= _).Meets _ _
    refine .bind (climbFrom_meets ascending (compares budget (Nat.lt_succ_self _))
      (by simpa using climbed)) fun outcome post => ?_
    cases outcome with
    | error c => exact .pure (.inl post)
    | ok climb =>
      dsimp only at post
      refine .ite (fun empty => ?_) fun _ => ?_
      · rw [List.isEmpty_iff.mp empty] at post
        exact .pure (.inr ⟨rfl, climb.seen, post⟩)
      · exact ih (fun b less => compares b (Nat.lt_succ_of_lt less)) post

end Engine

end TypeEngine
