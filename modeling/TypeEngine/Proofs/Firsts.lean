import Mathlib.Data.List.DropRight
import Mathlib.Data.List.Nodup

/-!
# First occurrences

Of the elements of a list that are the same, the first one counts. Which elements are the same is a
matter of a view of them, such as a name or a path. Lists of first elements can be joined in any
grouping: `firsts_firsts_append` and `firsts_append_firsts` say that elements which are not first in
their own list are not first in a longer one either. In a list of named values, looking up a name finds
the first value of the name.
-/

namespace TypeEngine

/-- The elements that are the same as none before them, where `before` came before all. -/
def firstsAfter {α : Type} (same : α → α → Bool) (before : List α) : List α → List α
  | [] => []
  | x :: xs =>
    if before.any (same · x) then firstsAfter same (before ++ [x]) xs
    else x :: firstsAfter same (before ++ [x]) xs

/-- The elements of a list that are the same as none before them. -/
def firsts {α : Type} (same : α → α → Bool) (xs : List α) : List α := firstsAfter same [] xs

section Lookup

variable {α β : Type} [BEq α] [LawfulBEq α]

theorem lookup_cons_ite [DecidableEq α] (a b : α) (c : β) (l : List (α × β)) :
    ((b, c) :: l).lookup a = if a = b then some c else l.lookup a := by
  rw [List.lookup_cons]
  by_cases same : a = b
  · rw [if_pos same, beq_iff_eq.mpr same]
  · rw [if_neg same, beq_eq_false_iff_ne.mpr same]

theorem lookup_filter (keep : α → Bool) (l : List (α × β)) (a : α) :
    (l.filter fun x => keep x.1).lookup a = if keep a then l.lookup a else none := by
  induction l with
  | nil => simp
  | cons x l ih =>
    obtain ⟨b, c⟩ := x
    rw [List.filter_cons]
    by_cases same : a = b
    · subst same
      split
      · simp
      · rename_i dropped
        rw [ih, if_neg dropped]
    · have other : ∀ l : List (α × β), ((b, c) :: l).lookup a = l.lookup a := by
        intro l
        rw [List.lookup_cons, beq_eq_false_iff_ne.mpr same]
      rw [other]
      split
      · rw [other, ih]
      · exact ih

end Lookup

section Firsts

variable {α β : Type} {same : α → α → Bool} {view : α → β}

theorem firstsAfter_concat (same : α → α → Bool) (before xs : List α) (x : α) :
    firstsAfter same before (xs ++ [x]) =
      firstsAfter same before xs ++ if (before ++ xs).any (same · x) then [] else [x] := by
  induction xs generalizing before with
  | nil =>
    rw [List.nil_append, firstsAfter, firstsAfter, List.append_nil]
    split <;> rfl
  | cons y xs ih =>
    rw [List.cons_append, firstsAfter, firstsAfter, ih, List.append_assoc]
    split <;> rfl

theorem firsts_concat (same : α → α → Bool) (xs : List α) (x : α) :
    firsts same (xs ++ [x]) = if xs.any (same · x) then firsts same xs else firsts same xs ++ [x] := by
  rw [firsts, firstsAfter_concat, List.nil_append]
  split
  · exact List.append_nil _
  · rfl

variable (views : ∀ x y, same x y = true ↔ view x = view y)
include views

theorem any_firsts (xs : List α) (y : α) : (firsts same xs).any (same · y) = xs.any (same · y) := by
  induction xs using List.reverseRecOn with
  | nil => rfl
  | append_singleton xs x ih =>
    rw [firsts_concat, List.any_append]
    split
    · rename_i known
      obtain ⟨z, earlier, twin⟩ := List.any_eq_true.mp known
      cases again : same x y with
      | false => simp [ih, again]
      | true =>
        have first : xs.any (same · y) = true :=
          List.any_eq_true.mpr ⟨z, earlier,
            (views z y).mpr (((views z x).mp twin).trans ((views x y).mp again))⟩
        simp [ih, first]
    · rw [List.any_append, ih]

theorem find?_firsts {p : α → Bool} (respects : ∀ x y, view x = view y → p x = p y) (xs : List α) :
    (firsts same xs).find? p = xs.find? p := by
  induction xs using List.reverseRecOn with
  | nil => rfl
  | append_singleton xs x ih =>
    rw [firsts_concat, List.find?_append]
    split
    · rename_i known
      obtain ⟨z, earlier, twin⟩ := List.any_eq_true.mp known
      have equal := respects z x ((views z x).mp twin)
      rw [ih]
      cases found : p x with
      | false => simp [found]
      | true =>
        have hit : (xs.find? p).isSome = true := by
          rw [List.find?_isSome]
          exact ⟨z, earlier, equal.trans found⟩
        obtain ⟨w, first⟩ := Option.isSome_iff_exists.mp hit
        simp [first]
    · rw [List.find?_append, ih]

theorem foldl_firsts (xs ys : List α) :
    ys.foldl (fun kept y => if kept.any (same · y) then kept else kept ++ [y]) (firsts same xs) =
      firsts same (xs ++ ys) := by
  induction ys generalizing xs with
  | nil => rw [List.append_nil, List.foldl_nil]
  | cons y ys ih => rw [List.foldl_cons, any_firsts views, ← firsts_concat, ih, List.append_assoc]; rfl

theorem firsts_append_firsts (xs ys : List α) :
    firsts same (xs ++ firsts same ys) = firsts same (xs ++ ys) := by
  induction ys using List.reverseRecOn with
  | nil => rfl
  | append_singleton ys y ih =>
    rw [firsts_concat, ← List.append_assoc, firsts_concat, List.any_append]
    split
    · rename_i known
      rw [known, Bool.or_true, if_pos rfl, ih]
    · rename_i new
      rw [← List.append_assoc, firsts_concat, List.any_append, any_firsts views, ih]

theorem firsts_firsts (xs : List α) : firsts same (firsts same xs) = firsts same xs :=
  firsts_append_firsts views [] xs

theorem firsts_firsts_append (xs ys : List α) :
    firsts same (firsts same xs ++ ys) = firsts same (xs ++ ys) := by
  rw [← foldl_firsts views, firsts_firsts views, foldl_firsts views]

theorem firsts_append_self (xs : List α) : firsts same (xs ++ xs) = firsts same xs := by
  suffices known : ∀ ys ⊆ xs, firsts same (xs ++ ys) = firsts same xs from known xs fun _ inside => inside
  intro ys
  induction ys using List.reverseRecOn with
  | nil => rw [List.append_nil]; exact fun _ => rfl
  | append_singleton ys y ih =>
    intro inside
    obtain ⟨others, last⟩ := List.append_subset.mp inside
    have known : xs.any (same · y) = true :=
      List.any_eq_true.mpr ⟨y, last (List.mem_singleton.mpr rfl), (views y y).mpr rfl⟩
    rw [← List.append_assoc, firsts_concat, List.any_append, known, Bool.true_or, if_pos rfl, ih others]

theorem firsts_eq_self {xs : List α} (distinct : (xs.map view).Nodup) : firsts same xs = xs := by
  induction xs using List.reverseRecOn with
  | nil => rfl
  | append_singleton xs x ih =>
    rw [List.map_append, List.nodup_append] at distinct
    rw [firsts_concat, if_neg, ih distinct.1]
    rintro known
    obtain ⟨y, member, twin⟩ := List.any_eq_true.mp known
    exact distinct.2.2 _ (List.mem_map_of_mem member) _ (List.mem_singleton.mpr rfl) ((views y x).mp twin)

theorem nodup_firsts (xs : List α) : ((firsts same xs).map view).Nodup := by
  induction xs using List.reverseRecOn with
  | nil => exact List.nodup_nil
  | append_singleton xs x ih =>
    rw [firsts_concat, ← any_firsts views]
    split
    · exact ih
    · rename_i new
      rw [List.map_append, List.map_singleton, List.nodup_append]
      refine ⟨ih, List.nodup_singleton _, fun b known c single => ?_⟩
      obtain rfl := List.mem_singleton.mp single
      obtain ⟨y, member, rfl⟩ := List.mem_map.mp known
      exact fun twin => new (List.any_eq_true.mpr ⟨y, member, (views y x).mpr twin⟩)

theorem map_firsts [BEq β] [LawfulBEq β] (xs : List α) :
    (firsts same xs).map view = (xs.map view).eraseDups := by
  induction xs using List.reverseRecOn with
  | nil => rfl
  | append_singleton xs x ih =>
    have known : (xs.map view).contains (view x) = xs.any (same · x) := by
      rw [Bool.eq_iff_iff, List.contains_iff_mem, List.mem_map, List.any_eq_true]
      simp only [views]
    rw [firsts_concat, List.map_append, List.eraseDups_append, ← ih, List.map_singleton, List.removeAll,
      List.filter_cons, List.elem_eq_contains, known]
    cases xs.any (same · x) <;> simp [List.eraseDups_cons]

end Firsts

end TypeEngine
