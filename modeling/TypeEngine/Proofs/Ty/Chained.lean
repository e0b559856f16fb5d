import TypeEngine.Proofs.Firsts
import TypeEngine.Proofs.Ty.Composition

/-!
# Substitutions compose

`Subst.compose` makes one substitution of two. Substituting with it gives what substituting with one
after the other gives (`apply_compose`), although the layers of lists are then added up in another
order and the limit on the depth is met by other types.
-/

namespace TypeEngine

/-! ### The composed substitution -/

namespace Subst

/-- Binds what `s` binds to the image under `s'` of its type, and what else `s'` binds as `s'` does. -/
def compose (s s' : Subst) (limit : Int) : Except Fault Subst := do
  let images ← s.bindings.mapM fun b => return (b.1, ← b.2.apply s' limit)
  return ⟨images ++ s'.bindings.filter fun b => (s.get? b.1).isNone⟩

variable {s s' c : Subst} {limit : Int}

/-- The images of a list of bindings are found under the same names. -/
theorem lookup_images {bs images : List (String × Ty)}
    (done : bs.mapM (fun b => return (b.1, ← b.2.apply s' limit)) = .ok images) (x : String) :
    (bs.lookup x = none ∧ images.lookup x = none) ∨
      ∃ w r, bs.lookup x = some w ∧ w.apply s' limit = .ok r ∧ images.lookup x = some r := by
  induction bs generalizing images with
  | nil =>
    obtain rfl := Except.ok.inj done
    exact .inl ⟨rfl, rfl⟩
  | cons b bs ih =>
    rw [List.mapM_cons] at done
    obtain ⟨image, first, done⟩ := Ty.exists_of_bind done
    obtain ⟨r, applied, first⟩ := Ty.exists_of_bind first
    obtain rfl := Except.ok.inj first
    obtain ⟨rest, later, done⟩ := Ty.exists_of_bind done
    obtain rfl := Except.ok.inj done
    rw [List.lookup_cons, List.lookup_cons]
    cases x == b.1 with
    | true => exact .inr ⟨b.2, r, rfl, applied, rfl⟩
    | false => exact ih later

theorem get?_compose (done : s.compose s' limit = .ok c) (x : String) :
    (s.get? x = none ∧ c.get? x = s'.get? x) ∨
      ∃ w r, s.get? x = some w ∧ w.apply s' limit = .ok r ∧ c.get? x = some r := by
  obtain ⟨images, mapped, done⟩ := Ty.exists_of_bind done
  obtain rfl := Except.ok.inj done
  rcases lookup_images mapped x with ⟨free, none⟩ | ⟨w, r, bound, applied, image⟩
  · refine .inl ⟨free, ?_⟩
    rw [get?, List.lookup_append, none, Option.none_or]
    have unbound : (s.get? x).isNone = true := by rw [get?, free]; rfl
    exact (lookup_filter (fun y => (s.get? y).isNone) s'.bindings x).trans (if_pos unbound)
  · refine .inr ⟨w, r, bound, applied, ?_⟩
    rw [get?, List.lookup_append, image, Option.some_or]

theorem isEmpty_compose (some : s.isEmpty = false) (done : s.compose s' limit = .ok c) :
    c.isEmpty = false := by
  obtain ⟨images, mapped, done⟩ := Ty.exists_of_bind done
  obtain rfl := Except.ok.inj done
  obtain ⟨bs⟩ := s
  cases bs with
  | nil => cases some
  | cons b bs =>
    rw [List.mapM_cons] at mapped
    obtain ⟨image, _, mapped⟩ := Ty.exists_of_bind mapped
    obtain ⟨rest, _, mapped⟩ := Ty.exists_of_bind mapped
    obtain rfl := Except.ok.inj mapped
    rfl

theorem compose_of_isEmpty (empty : s.isEmpty = true) (done : s.compose s' limit = .ok c) : c = s' := by
  obtain ⟨bs⟩ := s
  obtain rfl : bs = [] := List.isEmpty_iff.mp empty
  obtain rfl := Except.ok.inj done
  have all : s'.bindings.filter (fun b => (get? ⟨[]⟩ b.1).isNone) = s'.bindings :=
    List.filter_eq_self.mpr fun _ _ => rfl
  exact congrArg Subst.mk all

end Subst

namespace Ty

open Slot

variable {s s' c : Subst} {t u v w r : Ty} {n m : Int}

/-! ### Lists -/

theorem listN_split (first : 1 ≤ m) (second : 1 ≤ n) (total : n + m ≤ Numeral.greatest) (sound : v.Sound)
    (done : t.listN (n + m) = .ok v) : ∃ u, t.listN m = .ok u ∧ u.listN n = .ok v := by
  rcases listN_cases done with ⟨found, rfl⟩ | ⟨k, elem, found, rfl⟩
  · refine ⟨layered m t, listN_layered first (isList_of_none found), ?_⟩
    exact listN_of_listParts second (listParts_layered ⟨first, by omega⟩) total
  · have inner := listParts_bounds found
    -- the sum of all three is in range, and with it the sum of the inner two
    obtain ⟨parts, counted⟩ := sound _ (self_mem_parts _)
    obtain ⟨rfl, bounds⟩ := listParts_layered_iff.mp counted
    have sum := Numeral.wrap_eq_of_pos (by omega) total inner.2 bounds.1
    rw [sum] at bounds ⊢
    refine ⟨layered (m + k) elem, listN_of_listParts first found (by omega), ?_⟩
    rw [Int.add_assoc]
    exact listN_of_listParts second (listParts_layered ⟨by omega, by omega⟩) (by omega)

theorem replace_of_listN (bounds : 1 ≤ n ∧ n ≤ Numeral.greatest) (wrapped : r.listN n = .ok u)
    (done : u.replace s = .ok v) (sound : v.Sound) : ∃ w, r.replace s = .ok w ∧ w.listN n = .ok v := by
  have counted := sound_of_ok done u u.self_mem_parts
  rcases listN_cases wrapped with ⟨found, rfl⟩ | ⟨k, core, found, rfl⟩
  · exact (replace_list_eq_ok (listParts_layered bounds)).mp done
  · have inner := listParts_bounds found
    obtain ⟨parts, counted⟩ := counted
    obtain ⟨rfl, total⟩ := listParts_layered_iff.mp counted
    have sum := Numeral.wrap_eq_of_pos (by omega) bounds.2 inner.2 total.1
    rw [sum] at total counted done
    obtain ⟨d, below, both⟩ := (replace_list_eq_ok counted).mp done
    obtain ⟨w, once, twice⟩ := listN_split inner.1 bounds.1 total.2 sound both
    exact ⟨w, (replace_list_eq_ok found).mpr ⟨d, below, once⟩, twice⟩

/-! ### The law -/

/-- `c` binds as `s` does and then substitutes with `s'`, or binds as `s'` does. -/
def Chains (s s' c : Subst) : Prop := ∀ x,
  (s.get? x = none ∧ c.get? x = s'.get? x) ∨
    ∃ w r, s.get? x = some w ∧ w.replace s' = .ok r ∧ c.get? x = some r

theorem Chains.replace (chains : Chains s s' c) (names : ∀ u ∈ t.parts, (u.extra.map Slot.name).Nodup)
    (first : t.replace s = .ok u) (second : u.replace s' = .ok v) (sound : v.Sound) :
    ∃ w, t.replace c = .ok w ∧ w.bare = v.bare := by
  induction t using formInduction generalizing u v with
  | param t parameter =>
    rw [replace_param parameter] at first ⊢
    obtain rfl := Except.ok.inj first
    rcases chains t.main.leaf with ⟨free, image⟩ | ⟨w, r, bound, applied, image⟩
    · rw [free, Option.getD_none, replace_param parameter] at second
      rw [image]
      exact ⟨v, second, rfl⟩
    · rw [bound, Option.getD_some, applied] at second
      rw [image]
      exact ⟨v, second, rfl⟩
  | list t n elem parts ih =>
    obtain ⟨_, name, slot⟩ := slotParts_of_listParts parts
    obtain ⟨r, inner, wrapped⟩ := (replace_list_eq_ok parts).mp first
    obtain ⟨r', inner', wrapped'⟩ := replace_of_listN (listParts_bounds parts) wrapped second sound
    obtain ⟨w, applied, same⟩ := ih (fun u part => names u (mem_parts_of_slot slot part)) inner inner'
      (sound.of_listN wrapped')
    obtain ⟨x, again, equal⟩ := listN_ok_congr same wrapped'
    exact ⟨x, (replace_list_eq_ok parts).mpr ⟨w, applied, again⟩, equal⟩
  | malformed t fault parts =>
    rw [replace_malformed parts] at first
    cases first
  | other t notParam notList ih =>
    have distinct := names t t.self_mem_parts
    obtain ⟨out, mapped, rfl⟩ := exists_of_replace notParam notList distinct first
    have named := names_mapTypes mapped
    have notParam' : (mk t.main out).isParam = false := (isParam_mapTypes mapped).trans notParam
    obtain ⟨out', mapped', rfl⟩ := exists_of_replace notParam' notList (named ▸ distinct) second
    have related := both_imp (both_comp (both_of_mapTypes mapped) (both_of_mapTypes mapped'))
      (S := fun t v => ∃ w, t.replace c = .ok w ∧ w.bare = v.bare) fun name t' name' v slot slot' found => by
        obtain ⟨u, here, there⟩ := found
        exact ih name t' slot (fun w part => names w (mem_parts_of_slot slot part)) here there
          (sound.slot slot')
    obtain ⟨found, again, alike⟩ := mapTypes_of_both related
    refine ⟨mk t.main found, ?_, by rw [bare, bare, alike, Ty.main]⟩
    rw [replace_other notParam notList distinct, again]
    rfl

/-- Substituting with one substitution after the other is substituting with the composed one, unless
the count of a list leaves the 64-bit range: then a list in the result cannot be counted. -/
theorem apply_compose {limit : Int} (names : ∀ u ∈ t.parts, (u.extra.map Slot.name).Nodup)
    (composed : s.compose s' limit = .ok c) (first : t.apply s limit = .ok u)
    (second : u.apply s' limit = .ok v) (sound : v.Sound) :
    ∃ w, t.apply c limit = .ok w ∧ (w == v) = true := by
  cases empty : s.isEmpty with
  | true =>
    rw [apply_empty empty] at first
    obtain rfl := Except.ok.inj first
    obtain rfl := Subst.compose_of_isEmpty empty composed
    exact ⟨v, second, beq_rfl v⟩
  | false =>
    have bound := Subst.isEmpty_compose empty composed
    have images := Subst.get?_compose composed
    rw [apply_of_ok empty bound first]
    rw [apply_of_ok empty empty first] at first
    cases empty' : s'.isEmpty with
    | true =>
      -- the second substitution gives everything back, so the two bind alike
      rw [apply_empty empty'] at second
      obtain rfl := Except.ok.inj second
      have agree : ∀ x, c.get? x = s.get? x := by
        intro x
        rcases images x with ⟨free, image⟩ | ⟨w, r, bound, applied, image⟩
        · rw [image, free, Subst.get?_of_isEmpty empty']
        · rw [apply_empty empty'] at applied
          rw [image, bound, Except.ok.inj applied]
      refine ⟨u, ?_, beq_rfl u⟩
      rw [← first]
      exact applyAt_agree t fun x _ => agree x
    | false =>
      have chains : Chains s s' c := by
        intro x
        rcases images x with free | ⟨w, r, bound, applied, image⟩
        · exact .inl free
        · rw [apply_of_ok empty' empty' applied] at applied
          exact .inr ⟨w, r, bound, applied, image⟩
      rw [apply_of_ok empty' empty' second] at second
      obtain ⟨w, done, same⟩ := chains.replace names first second sound
      exact ⟨w, done, beq_iff_bare.mpr same⟩

/-- The layers of the type and those that both substitutions bring along add up. -/
theorem apply_compose_layers :
    ∃ w, (layered 2 (param "T")).apply ⟨[("T", layered 7 int), ("U", layered 4 int)]⟩ 1 = .ok w ∧
      (w == layered 9 int) = true := by
  have merged : ∀ (n k : Int) (t : Ty), 1 ≤ n → 1 ≤ k → n + k ≤ 9 →
      ((layered k t).listN n).mapError Fault.broken = .ok (layered (n + k) t) := by
    intro n k t first second total
    have small : n + k ≤ Numeral.greatest := Int.le_trans total (by decide)
    rw [listN_of_listParts first (listParts_layered ⟨second, by omega⟩) small]
    rfl
  have image : (layered 3 (param "U")).apply ⟨[("U", layered 4 int)]⟩ 1 = .ok (layered 7 int) :=
    merged 3 4 int (by decide) (by decide) (by decide)
  have composed : Subst.compose ⟨[("T", layered 3 (param "U"))]⟩ ⟨[("U", layered 4 int)]⟩ 1 =
      .ok ⟨[("T", layered 7 int), ("U", layered 4 int)]⟩ := by
    rw [Subst.compose, List.mapM_cons, image]
    rfl
  have sound : (layered 9 int).Sound := by
    intro u part
    have listed : u ∈ [layered 9 int, int] := part
    simp only [List.mem_cons, List.not_mem_nil, or_false] at listed
    rcases listed with rfl | rfl <;> exact ⟨_, rfl⟩
  exact apply_compose (u := layered 5 (param "U")) (by decide +kernel) composed
    (merged 2 3 (param "U") (by decide) (by decide) (by decide))
    (merged 5 4 int (by decide) (by decide) (by decide)) sound

end Ty

end TypeEngine
