import TypeEngine.Engine.Inference
import TypeEngine.Proofs.Ty.Canonical
import TypeEngine.Proofs.Ty.Substitution

/-!
# Inference finds the substitution

Matching declared with actual types peels layers one by one and never sees the substitution that
made the actual types. `patterns_complete` says that it finds it nevertheless: the parameters are
bound to their images, with the counts of lists written in plain decimal, and the bindings make the
actual types again. Substituting nothing has no limit on the depth while substituting what was
found has one, so for the empty substitution the second part may end in a refusal.
-/

namespace TypeEngine

namespace Inference

open Slot

variable {σ s s' : Subst} {d a : Ty} {limit : Int}

/-- `σ` makes `a` of `d`, up to the way in which the count of an outermost list is written. -/
structure Instance (σ : Subst) (d a : Ty) : Prop where
  declared : d.Tidy
  pattern : d.IsPattern
  actual : a.Tidy
  made : ∃ limit depth u, d.applyAt σ limit depth = .ok u ∧ u.plain.bare = a.bare

namespace Instance

theorem param (inst : Instance σ d a) (parameter : d.isParam = true) :
    a.bare = (σ.image d.main.leaf).plain.bare := by
  obtain ⟨limit, depth, u, done, same⟩ := inst.made
  rw [Ty.applyAt_param (Ty.shallow_of_ok done) parameter] at done
  obtain rfl := Except.ok.inj done
  rw [← same, Ty.plain_congr (inst.pattern.bare_image parameter σ)]

theorem peel (inst : Instance σ d a) (list : d.isList = true) : ∃ d' a',
    d.peelOne = .ok (some d') ∧ a.peelOne = .ok (some a') ∧ Instance σ d' a' ∧
      ∀ x ∈ d.params, x ∈ d'.params := by
  obtain ⟨n, elem, parts, form, notList, tidy⟩ := inst.declared.list_inv list
  obtain ⟨limit, depth, u, done, same⟩ := inst.made
  obtain ⟨u', j, inner, below, natural, small, found, _, notList', tidy', equal⟩ :=
    Ty.applyAt_list_inv inst.actual parts done same
  obtain ⟨arguments, name, slot⟩ := Ty.slotParts_of_listParts parts
  have bounds := Ty.listParts_bounds parts
  refine ⟨_, _, Ty.peelOne_of_listParts parts notList, Ty.peelOne_of_listParts found notList', ?_, ?_⟩
  · refine ⟨tidy.stacked (by omega) (by omega) notList, (inst.pattern.slot slot).stacked _,
      tidy'.stacked (by omega) (by omega) notList', ?_⟩
    by_cases one : n = 1
    · -- the last layer: the element is next, one level deeper
      subst one
      rw [Int.sub_self, Ty.stacked_zero, show (1 : Int) + j - 1 = j by omega]
      exact ⟨limit, depth + 1, u', below, equal⟩
    · have layers := Ty.Layers.of_plain natural (by omega) notList' equal
      obtain ⟨v, wrapped, alike⟩ := layers.listN (show 1 ≤ n - 1 by omega) (by omega)
      obtain ⟨k, core, rfl⟩ := Ty.exists_layered wrapped
      have again : (Ty.layered (n - 1) elem).applyAt σ limit depth = .ok (.layered k core) := by
        rw [Ty.applyAt_list (Ty.shallow_of_ok done) (Ty.listParts_layered ⟨by omega, by omega⟩), below,
          Ty.bind_ok, wrapped]
        rfl
      rw [Ty.stacked_pos (by omega), Ty.stacked_pos (by omega)]
      refine ⟨limit, depth, _, again, ?_⟩
      rw [Ty.plain_layered, alike, show n - 1 + j = n + j - 1 by omega]
  · intro x known
    rw [Ty.mem_params_iff, Ty.parts_eq, arguments] at known
    obtain ⟨v, part, parameter, leaf⟩ := known
    have inside : x ∈ elem.params := by
      rcases List.mem_cons.mp part with rfl | part
      · rw [Ty.isParam_of_listParts parts] at parameter
        cases parameter
      · exact Ty.mem_params_iff.mpr ⟨v, part, parameter, leaf⟩
    unfold Ty.stacked
    split
    · exact inside
    · obtain ⟨name', slot'⟩ := Ty.elem_mem_layered (n - 1) elem
      exact Ty.mem_params_of_slot slot' inside

theorem slots (inst : Instance σ d a) (notParam : d.isParam = false) (notList : d.isList = false) :
    (d.main == a.main) = true ∧ List.Forall₂ (Both (Instance σ)) d.extra a.extra := by
  obtain ⟨limit, depth, u, done, same⟩ := inst.made
  obtain ⟨main, _, related⟩ := Ty.applyAt_other_inv inst.actual notParam notList
    (inst.pattern.names d d.self_mem_parts) done same
  refine ⟨Path.beq_iff_bare.mpr main, both_imp related fun n v m w slot _ found => ?_⟩
  obtain ⟨tidy, u', done, equal⟩ := found
  exact ⟨inst.declared.slots notList n v slot, inst.pattern.slot slot, tidy, limit, depth + 1, u',
    done, equal⟩

theorem of_apply {u : Ty} (declared : d.Regular) (actual : a.Regular)
    (done : d.apply σ limit = .ok u) (same : u.bare = a.bare) : Instance σ d a := by
  refine ⟨declared.tidy, declared.isPattern, actual.tidy, ?_⟩
  unfold Ty.apply at done
  split at done
  · rename_i empty
    obtain rfl := Except.ok.inj done
    obtain ⟨u, again, equal⟩ := Ty.applyAt_self declared.tidy.runLength declared.names
      (fun x _ => Subst.get?_of_isEmpty empty x) (Nat.le_of_eq (Nat.zero_add _))
    exact ⟨_, 0, u, again, actual.tidy.plain_eq (equal.trans same)⟩
  · exact ⟨_, 0, u, done, actual.tidy.plain_eq same⟩

end Instance

/-! ### What matching learns -/

/-- Every binding is to the image of the parameter, with a plain count. -/
def Sound (σ s : Subst) : Prop := ∀ x t, s.get? x = some t → t.bare = (σ.image x).plain.bare

/-- From `s` to `s'` bindings were kept, those added are sound, and the parameters with the property
`P` are now bound. -/
structure Learns (σ : Subst) (P : String → Prop) (s s' : Subst) : Prop where
  kept : ∀ x t, s.get? x = some t → s'.get? x = some t
  sound : Sound σ s → Sound σ s'
  bound : ∀ x, P x → ∃ t, s'.get? x = some t

namespace Learns

variable {P Q : String → Prop}

theorem nothing (none : ∀ x, ¬P x) : Learns σ P s s :=
  ⟨fun _ _ found => found, id, fun x holds => absurd holds (none x)⟩

theorem trans {s₁ s₂ s₃ : Subst} (first : Learns σ P s₁ s₂) (next : Learns σ Q s₂ s₃) :
    Learns σ (fun x => P x ∨ Q x) s₁ s₃ where
  kept x t found := next.kept x t (first.kept x t found)
  sound holds := next.sound (first.sound holds)
  bound x known := by
    rcases known with known | known
    · obtain ⟨t, found⟩ := first.bound x known
      exact ⟨t, next.kept x t found⟩
    · exact next.bound x known

theorem mono (learns : Learns σ P s s') (fewer : ∀ x, Q x → P x) : Learns σ Q s s' :=
  ⟨learns.kept, learns.sound, fun x known => learns.bound x (fewer x known)⟩

theorem bind {name : String} (image : a.bare = (σ.image name).plain.bare) :
    Learns σ (· = name) s (s.bind name a).2 := by
  unfold Subst.bind
  cases bound : s.get? name with
  | some old =>
    refine ⟨fun _ _ found => found, id, ?_⟩
    rintro x rfl
    exact ⟨old, bound⟩
  | none =>
    have added : ∀ x, Subst.get? ⟨s.bindings ++ [(name, a)]⟩ x =
        (s.get? x).or (if x = name then some a else none) := by
      intro x
      rw [Subst.get?, List.lookup_append, Subst.get?]
      by_cases same : x = name
      · simp [same]
      · simp [List.lookup_cons, same, beq_eq_false_iff_ne.mpr same]
    refine ⟨?_, ?_, ?_⟩
    · intro x t found
      rw [added, found, Option.some_or]
    · intro sound x t found
      rw [added] at found
      cases earlier : s.get? x with
      | some old =>
        rw [earlier, Option.some_or] at found
        exact sound x t (earlier.trans found)
      | none =>
        rw [earlier, Option.none_or] at found
        split at found
        · rename_i same
          obtain rfl := Option.some.inj found
          rw [same, image]
        · cases found
    · rintro x rfl
      exact ⟨a, by rw [added, bound, Option.none_or, if_pos rfl]⟩

end Learns

/-- Matching arguments learns the parameters of all of them. -/
theorem unifySlots_learns {match_ : Ty → Ty → Subst → Except Fault Subst}
    (learns : ∀ {d a s s'}, Instance σ d a → match_ d a s = .ok s' → Learns σ (· ∈ d.params) s s')
    {ds as : List Slot} (related : List.Forall₂ (Both (Instance σ)) ds as)
    (done : unifySlots match_ (ds.zip as) s = .ok s') :
    Learns σ (fun x => ∃ name t, .type name t ∈ ds ∧ x ∈ t.params) s s' := by
  induction related generalizing s with
  | nil =>
    obtain rfl := Except.ok.inj done
    exact .nothing fun x known => by simp at known
  | cons first _ ih =>
    cases first with
    | type inst =>
      rw [List.zip_cons_cons, unifySlots] at done
      obtain ⟨between, here, done⟩ := Ty.exists_of_bind done
      refine ((learns inst here).trans (ih done)).mono fun x known => ?_
      obtain ⟨name, t, slot, inside⟩ := known
      rcases List.mem_cons.mp slot with same | slot
      · obtain ⟨_, rfl⟩ := Slot.type.inj same
        exact .inl inside
      · exact .inr ⟨name, t, slot, inside⟩
    | value =>
      refine (ih done).mono fun x known => ?_
      obtain ⟨name, t, slot, inside⟩ := known
      rcases List.mem_cons.mp slot with same | slot
      · cases same
      · exact ⟨name, t, slot, inside⟩

theorem unify_learns {budget : Nat} (inst : Instance σ d a)
    (done : unify limit budget d a s = .ok s') : Learns σ (· ∈ d.params) s s' := by
  induction budget generalizing d a s s' with
  | zero => cases done
  | succ budget ih =>
    rw [unify, inst.declared.unwrap_eq, inst.actual.unwrap_eq] at done
    split at done
    · rename_i parameter
      obtain rfl := Except.ok.inj done
      exact (Learns.bind (inst.param parameter)).mono fun x => Ty.eq_leaf_of_mem_params parameter
    rename_i notParam
    split at done
    · rename_i empty
      obtain rfl := Except.ok.inj done
      exact .nothing fun x known => by rw [List.isEmpty_iff.mp empty] at known; cases known
    split at done
    · rename_i list
      obtain ⟨d', a', peeled, peeled', inst', params⟩ := inst.peel list
      rw [peeled, peeled'] at done
      exact (ih inst' done).mono params
    rename_i notList
    have notParam := Bool.eq_false_iff.mpr notParam
    obtain ⟨main, related⟩ := inst.slots notParam (Bool.eq_false_iff.mpr notList)
    rw [if_neg (by simp [main, related.length_eq])] at done
    exact (unifySlots_learns ih related done).mono fun x => Ty.mem_params_slot notParam

theorem unifyAll_learns {pairs : List (Ty × Ty)} (instances : ∀ p ∈ pairs, Instance σ p.1 p.2)
    (done : unifyAll limit pairs s = .ok s') :
    Learns σ (fun x => ∃ p ∈ pairs, x ∈ p.1.params) s s' := by
  induction pairs generalizing s with
  | nil =>
    obtain rfl := Except.ok.inj done
    exact .nothing fun x known => by simp at known
  | cons p pairs ih =>
    rw [List.forall_mem_cons] at instances
    rw [unifyAll] at done
    obtain ⟨between, here, done⟩ := Ty.exists_of_bind done
    refine ((unify_learns instances.1 here).trans (ih instances.2 done)).mono fun x known => ?_
    obtain ⟨q, member, inside⟩ := known
    rcases List.mem_cons.mp member with rfl | member
    · exact .inl inside
    · exact .inr ⟨q, member, inside⟩

/-! ### What was learnt makes the actual types again -/

theorem Instance.bare_eq (inst : Instance σ d a) (none : ∀ x, x ∉ d.params) : a.bare = d.bare := by
  obtain ⟨limit, depth, u, done, same⟩ := inst.made
  obtain ⟨u', again, equal⟩ := Ty.applyAt_self (s := σ) inst.declared.runLength inst.pattern.names
    (fun x known => absurd known (none x)) (Nat.le_max_right limit (depth + d.nesting))
  have unchanged : u = u' := by
    have room := Nat.le_max_left limit (depth + d.nesting)
    rcases Ty.applyAt_limit (Nat.add_le_add_right room depth) d with refused | alike
    · rw [done] at refused
      cases refused
    · rw [done, again] at alike
      exact Except.ok.inj alike
  rw [← same, unchanged, inst.declared.plain_eq equal]

theorem Instance.apply {u : Ty} (inst : Instance σ d a) (done : d.apply σ limit = .ok u)
    (same : u.bare = a.bare)
    (images : ∀ x ∈ d.params, ∃ v, s.get? x = some v ∧ v.bare = (σ.image x).plain.bare) :
    (∃ v, d.apply s limit = .ok v ∧ v.bare = a.bare) ∨
      (σ.isEmpty = true ∧ ∃ n, d.apply s limit = .error (.tooComplex .substitute n)) := by
  unfold Ty.apply at done ⊢
  cases nothing : s.isEmpty with
  | true =>
    have none : ∀ x, x ∉ d.params := by
      intro x known
      obtain ⟨v, bound, _⟩ := images x known
      rw [Subst.get?_of_isEmpty nothing] at bound
      cases bound
    exact .inl ⟨d, rfl, (inst.bare_eq none).symm⟩
  | false =>
    generalize (if limit ≤ 0 then Ty.defaultLimit else limit.toNat) = bound at done ⊢
    rw [if_neg Bool.false_ne_true]
    cases empty : σ.isEmpty with
    | false =>
      rw [empty, if_neg Bool.false_ne_true] at done
      exact .inl (Ty.applyAt_transfer inst.declared inst.pattern inst.actual images done
        (inst.actual.plain_eq same))
    | true =>
      -- nothing was substituted and no limit was met, but there is one that is high enough
      rw [empty, if_pos rfl] at done
      obtain rfl := Except.ok.inj done
      obtain ⟨u, self, equal⟩ := Ty.applyAt_self inst.declared.runLength inst.pattern.names
        (fun x _ => Subst.get?_of_isEmpty empty x) (Nat.le_of_eq (Nat.zero_add d.nesting))
      obtain ⟨v, applied, alike⟩ := Ty.applyAt_transfer inst.declared inst.pattern inst.actual images
        self (inst.actual.plain_eq (equal.trans same))
      have higher := Nat.le_max_right bound d.nesting
      rcases Ty.applyAt_limit (Nat.add_le_add_right higher 0) d with refused | more
      · rw [applied] at refused
        cases refused
      rw [applied] at more
      have room := Nat.le_max_left bound d.nesting
      rcases Ty.applyAt_limit (Nat.add_le_add_right room 0) d with refused | enough
      · exact .inr ⟨rfl, _, refused⟩
      · exact .inl ⟨v, enough.trans more.symm, alike⟩

/-- Inference is complete for instances: if the declared types become the actual ones under some
substitution, every parameter is bound to its image, and what is found makes the actual types. -/
theorem patterns_complete {declared actual : List Ty} (lengths : declared.length = actual.length)
    (regular : ∀ d ∈ declared, d.Regular) (regular' : ∀ a ∈ actual, a.Regular)
    (instances : ∀ p ∈ declared.zip actual, ∃ u, p.1.apply σ limit = .ok u ∧ (u == p.2) = true)
    (found : patterns declared actual limit = .ok s) :
    (∀ d ∈ declared, ∀ x ∈ d.params, ∃ t, s.get? x = some t ∧
      (t == (σ.image x).plain) = true ∧ ((σ.image x).IsCanonical → (t == σ.image x) = true)) ∧
    ∀ p ∈ declared.zip actual, (∃ v, p.1.apply s limit = .ok v ∧ (v == p.2) = true) ∨
      (σ.isEmpty = true ∧ ∃ n, p.1.apply s limit = .error (.tooComplex .substitute n)) := by
  have made : ∀ p ∈ declared.zip actual, Instance σ p.1 p.2 := by
    intro p member
    obtain ⟨left, right⟩ := List.of_mem_zip member
    obtain ⟨u, done, same⟩ := instances p member
    exact .of_apply (regular _ left) (regular' _ right) done (Ty.beq_iff_bare.mp same)
  have learns := unifyAll_learns made found
  have sound : Sound σ s := learns.sound fun x t bound => by cases bound
  constructor
  · intro d member x known
    obtain ⟨p, paired, rfl⟩ : ∃ p ∈ declared.zip actual, p.1 = d := by
      rw [← List.map_fst_zip (Nat.le_of_eq lengths)] at member
      exact List.mem_map.mp member
    obtain ⟨t, bound⟩ := learns.bound x ⟨p, paired, known⟩
    have same := sound x t bound
    refine ⟨t, bound, Ty.beq_iff_bare.mpr same, fun canonical => Ty.beq_iff_bare.mpr ?_⟩
    rw [same, canonical.bare_plain]
  · intro p member
    obtain ⟨u, done, same⟩ := instances p member
    have images : ∀ x ∈ p.1.params, ∃ v, s.get? x = some v ∧ v.bare = (σ.image x).plain.bare := by
      intro x known
      obtain ⟨t, bound⟩ := learns.bound x ⟨p, member, known⟩
      exact ⟨t, bound, sound x t bound⟩
    have outcome := (made p member).apply done (Ty.beq_iff_bare.mp same) images
    simpa only [Ty.beq_iff_bare] using outcome

/-- `Pair` of two types. -/
def pairOf (left right : Ty) : Ty :=
  .named ⟨[{ kind := .classType, name := "Pair" }]⟩ [left, right]

/-- Matching `list(2) T` and `Pair[T, U]` with `list(5) int` and `Pair[list(3) int, string]`. -/
theorem patterns_complete_pair :
    patterns [.layered 2 (.param "T"), pairOf (.param "T") (.param "U")]
      [.layered 5 .int, pairOf (.layered 3 .int) .string] 64 =
        .ok ⟨[("T", .layered 3 .int), ("U", .string)]⟩ ∧
    ∃ v, (pairOf (.param "T") (.param "U")).apply ⟨[("T", .layered 3 .int), ("U", .string)]⟩ 64 =
      .ok v ∧ (v == pairOf (.layered 3 .int) .string) = true := by
  have found : patterns [.layered 2 (.param "T"), pairOf (.param "T") (.param "U")]
      [.layered 5 .int, pairOf (.layered 3 .int) .string] 64 =
        .ok ⟨[("T", .layered 3 .int), ("U", .string)]⟩ := rfl
  have regular : ∀ d ∈ [.layered 2 (.param "T"), pairOf (.param "T") (.param "U")], d.Regular := by
    rw [List.forall_mem_cons, List.forall_mem_singleton]
    exact ⟨⟨⟨_, rfl, by decide⟩, by decide, by decide, by decide⟩,
      ⟨⟨_, rfl, by decide⟩, by decide, by decide, by decide⟩⟩
  have regular' : ∀ a ∈ [.layered 5 .int, pairOf (.layered 3 .int) .string], a.Regular := by
    rw [List.forall_mem_cons, List.forall_mem_singleton]
    exact ⟨⟨⟨_, rfl, by decide⟩, by decide, by decide, by decide⟩,
      ⟨⟨_, rfl, by decide⟩, by decide, by decide, by decide⟩⟩
  have instances : ∀ p ∈ [.layered 2 (.param "T"), pairOf (.param "T") (.param "U")].zip
      [.layered 5 .int, pairOf (.layered 3 .int) .string],
      ∃ u, p.1.apply ⟨[("U", .string), ("T", .layered 3 .int)]⟩ 64 = .ok u ∧ (u == p.2) = true := by
    rw [List.zip_cons_cons, List.zip_cons_cons, List.zip_nil_right, List.forall_mem_cons,
      List.forall_mem_singleton]
    exact ⟨⟨_, rfl, by decide⟩, ⟨_, rfl, by decide⟩⟩
  refine ⟨found, ?_⟩
  rcases (patterns_complete (by rfl) regular regular' instances found).2
    (pairOf (.param "T") (.param "U"), pairOf (.layered 3 .int) .string) (by simp) with
    done | ⟨empty, _⟩
  · exact done
  · cases empty

/-- A box of a box. -/
def boxed : Ty :=
  .named ⟨[{ kind := .classType, name := "Box" }]⟩
    [.named ⟨[{ kind := .classType, name := "Box" }]⟩ [.int]]

/-- The parameter of `list() T` is bound to `list(2) int` and not to the list whose count is written
`02`. Substituting nothing in `Pair[T, Box[Box[int]]]` has no limit, substituting `T` for `T` has. -/
theorem patterns_inexact :
    ((Ty.layered 1 (.param "T")).Regular ∧ (Ty.layered 3 .int).Regular ∧
      (∃ u, (Ty.layered 1 (.param "T")).apply
        ⟨[("T", .mk (.ofPrimitive "list") [.value "1" "02", .type "2" .int])]⟩ 64 = .ok u ∧
        (u == .layered 3 .int) = true) ∧
      patterns [.layered 1 (.param "T")] [.layered 3 .int] 64 = .ok ⟨[("T", .layered 2 .int)]⟩ ∧
      (Ty.layered 2 .int == .mk (.ofPrimitive "list") [.value "1" "02", .type "2" .int]) = false) ∧
    ((pairOf (.param "T") boxed).Regular ∧
      (pairOf (.param "T") boxed).apply .empty 1 = .ok (pairOf (.param "T") boxed) ∧
      patterns [pairOf (.param "T") boxed] [pairOf (.param "T") boxed] 1 =
        .ok ⟨[("T", .param "T")]⟩ ∧
      (pairOf (.param "T") boxed).apply ⟨[("T", .param "T")]⟩ 1 =
        .error (.tooComplex .substitute 1)) := by
  refine ⟨⟨⟨⟨_, rfl, by decide⟩, by decide, by decide, by decide⟩,
    ⟨⟨_, rfl, by decide⟩, by decide, by decide, by decide⟩, ⟨_, rfl, by decide⟩, rfl, by decide⟩,
    ⟨⟨_, rfl, by decide⟩, by decide, by decide, by decide⟩, rfl, rfl, rfl⟩

end Inference

end TypeEngine
