import Mathlib.Data.List.TakeWhile
import TypeEngine.Text.Blank

/-!
# Trimming and splitting

Pieces between separators hold none, and texts join to pieces as they were split.
-/

namespace TypeEngine.Text

variable {cs : List Char} {sep : Char} {glue : String}

/-! ### Ends of texts -/

theorem dropEnd_cons (p : Char → Bool) (c : Char) (cs : List Char) :
    dropEnd p (c :: cs) =
      if p c && (dropEnd p cs).isEmpty then [] else c :: dropEnd p cs := by
  rw [dropEnd, dropEnd, List.reverse_cons, List.dropWhile_append, List.isEmpty_reverse]
  split
  · rename_i empty
    rw [List.isEmpty_iff] at empty
    cases holds : p c <;> simp [holds, empty]
  · rename_i some
    rw [if_neg fun both => some (Bool.and_eq_true_iff.mp both).2, List.reverse_append]
    rfl

theorem dropWhile_of_head {p : Char → Bool} (starts : cs.head?.any p = false) :
    cs.dropWhile p = cs := by
  cases cs with
  | nil => rfl
  | cons c cs => exact List.dropWhile_cons_of_neg (by simpa using starts)

theorem trim_eq_self (starts : cs.head?.any isBlank = false)
    (ends : cs.getLast?.any isBlank = false) : trim cs = cs := by
  rw [trim, dropWhile_of_head starts, dropEnd,
    dropWhile_of_head (by rwa [List.head?_reverse]), List.reverse_reverse]

/-! ### Pieces -/

theorem splitOn_ne_nil (sep : Char) (cs : List Char) : splitOn sep cs ≠ [] := by
  cases cs with
  | nil => exact List.cons_ne_nil _ _
  | cons c cs =>
    rw [splitOn]
    split
    · exact List.cons_ne_nil _ _
    · split <;> exact List.cons_ne_nil _ _

theorem mem_splitOn {piece : List Char} (member : piece ∈ splitOn sep cs) :
    sep ∉ piece := by
  induction cs generalizing piece with
  | nil =>
    obtain rfl := List.mem_singleton.mp member
    exact List.not_mem_nil
  | cons c cs ih =>
    rw [splitOn] at member
    split at member
    · rcases List.mem_cons.mp member with rfl | member
      · exact List.not_mem_nil
      · exact ih member
    · rename_i other
      split at member
      · obtain rfl := List.mem_singleton.mp member
        simpa using Ne.symm other
      · rename_i first rest split
        rw [split] at ih
        rcases List.mem_cons.mp member with rfl | member
        · rw [List.mem_cons, not_or]
          exact ⟨Ne.symm other, ih List.mem_cons_self⟩
        · exact ih (List.mem_cons_of_mem _ member)

theorem splitOn_of_not_mem (absent : sep ∉ cs) : splitOn sep cs = [cs] := by
  induction cs with
  | nil => rfl
  | cons c cs ih =>
    rw [List.mem_cons, not_or] at absent
    rw [splitOn, if_neg (Ne.symm absent.1), ih absent.2]

theorem splitOn_append (sep : Char) (front back : List Char) :
    splitOn sep (front ++ sep :: back) = splitOn sep front ++ splitOn sep back := by
  induction front with
  | nil => simp [splitOn]
  | cons c front ih =>
    rw [List.cons_append, splitOn, splitOn, ih]
    split
    · rfl
    · obtain ⟨piece, pieces, split⟩ := List.exists_cons_of_ne_nil (splitOn_ne_nil sep front)
      rw [split]
      rfl

/-! ### Joined texts -/

theorem toList_intercalate_cons (single : glue.toList = [sep]) (first : String)
    {more : List String} (some : more ≠ []) :
    (glue.intercalate (first :: more)).toList = first.toList ++ sep :: (glue.intercalate more).toList := by
  obtain ⟨next, more, rfl⟩ := List.exists_cons_of_ne_nil some
  rw [String.intercalate_cons_cons, String.toList_append, String.toList_append, single, List.append_assoc]
  rfl

/-- Texts without the sign that joins them are the pieces of the joined text. -/
theorem splitOn_join (single : glue.toList = [sep]) {first : String}
    {more : List String} (solid : ∀ p ∈ first :: more, sep ∉ p.toList) :
    splitOn sep (glue.intercalate (first :: more)).toList = (first :: more).map String.toList := by
  induction more generalizing first with
  | nil => rw [String.intercalate_singleton, splitOn_of_not_mem (solid first (by simp))]; rfl
  | cons next more ih =>
    rw [List.forall_mem_cons] at solid
    rw [toList_intercalate_cons single first (List.cons_ne_nil _ _), splitOn_append,
      splitOn_of_not_mem solid.1, ih solid.2]
    rfl

theorem join_splitOn (single : glue.toList = [sep]) (cs : List Char) :
    (glue.intercalate ((splitOn sep cs).map String.ofList)).toList = cs := by
  induction cs with
  | nil => simp [splitOn]
  | cons c cs ih =>
    have some : (splitOn sep cs).map String.ofList ≠ [] := by simpa using splitOn_ne_nil sep cs
    rw [splitOn]
    split
    · rename_i same
      rw [List.map_cons, toList_intercalate_cons single _ some, ih, same]
      rfl
    · split
      · rename_i none
        exact absurd none (splitOn_ne_nil sep cs)
      · rename_i piece pieces split
        rw [split, List.map_cons] at ih
        rw [List.map_cons]
        cases pieces with
        | nil => simpa using ih
        | cons next pieces =>
          rw [toList_intercalate_cons single _ (by simp)] at ih ⊢
          simpa using ih

theorem append_cons_inj {α : Type} {a : α} {l l' r r' : List α} (first : a ∉ l) (first' : a ∉ l')
    (same : l ++ a :: r = l' ++ a :: r') : l = l' ∧ r = r' := by
  induction l generalizing l' with
  | nil =>
    cases l' with
    | nil => exact ⟨rfl, (List.cons.inj same).2⟩
    | cons b l' => exact absurd (List.cons.inj same).1 (List.ne_of_not_mem_cons first')
  | cons b l ih =>
    cases l' with
    | nil => exact absurd (List.cons.inj same).1.symm (List.ne_of_not_mem_cons first)
    | cons b' l' =>
      obtain ⟨rfl, tails⟩ := List.cons.inj same
      obtain ⟨rfl, rest⟩ := ih (List.not_mem_of_not_mem_cons first) (List.not_mem_of_not_mem_cons first') tails
      exact ⟨rfl, rest⟩

end TypeEngine.Text
