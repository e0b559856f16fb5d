import TypeEngine.Host.Ref
import TypeEngine.Proofs.Text.Blank

/-!
# References read back

A reference is displayed in a form that reads back as itself (`readsBack_of_written`) when each of
its names could have been read: it is there, it holds no delimiter and no white space at its ends,
and digits stand for values only.
-/

namespace TypeEngine.Host.Ref

variable {name : String} {params : List String} {r : Ref} {rest : List Char}

/-- A name that is read as it is written. -/
structure IsLabel (name : List Char) : Prop where
  present : name ≠ []
  plain : ∀ c ∈ name, isDelimiter c = false
  starts : name.head?.any Text.isBlank = false
  ends : name.getLast?.any Text.isBlank = false

/-- A reference that could have been read where `params` are the generic parameters. -/
inductive Written (params : List String) : Ref → Prop
  | value {text : String} (label : IsLabel text.toList)
      (digits : text.toList.all Numeral.isDigit = true) : Written params (.ofValue text)
  | param {name : String} (label : IsLabel name.toList)
      (letters : name.toList.all Numeral.isDigit = false) (listed : name ∈ params) :
      Written params (.ofParam name)
  | path {name : String} (label : IsLabel name.toList)
      (letters : name.toList.all Numeral.isDigit = false) (unlisted : name ∉ params) :
      Written params (.ofPath name)
  | applied {name : String} {arg : Ref} {args : List Ref} (label : IsLabel name.toList)
      (letters : name.toList.all Numeral.isDigit = false)
      (each : ∀ r ∈ arg :: args, Written params r) : Written params (.ofPath name (arg :: args))

/-! ### The displayed form -/

/-- What follows the first argument in the displayed form. -/
def furtherArgs (args : List Ref) : List Char := args.flatMap fun r => ',' :: ' ' :: r.display.toList

theorem toList_displayAll (arg : Ref) (args : List Ref) :
    (", ".intercalate (displayAll (arg :: args))).toList = arg.display.toList ++ furtherArgs args := by
  induction args generalizing arg with
  | nil => simp [displayAll, furtherArgs]
  | cons next args ih =>
    rw [displayAll, displayAll, String.intercalate_cons_cons, String.toList_append,
      String.toList_append, ← displayAll, ih]
    simp [furtherArgs]

theorem ne_empty_of_label (label : IsLabel name.toList) : name ≠ "" := by
  rintro rfl
  exact label.present rfl

theorem display_value {text : String} (label : IsLabel text.toList) : (ofValue text).display = text := by
  simp [ofValue, display, ne_empty_of_label label]

theorem display_param (label : IsLabel name.toList) : (ofParam name).display = name := by
  simp [ofParam, display, ne_empty_of_label label]

theorem display_path (name : String) : (ofPath name).display = name := by
  simp [ofPath, display, eq_comm]

theorem toList_display_applied (label : IsLabel name.toList) (arg : Ref) (args : List Ref) :
    (ofPath name (arg :: args)).display.toList =
      name.toList ++ '[' :: (arg.display.toList ++ furtherArgs args ++ [']']) := by
  rw [ofPath, display, if_neg (by simp), if_neg (by simp), if_neg (ne_empty_of_label label),
    if_neg (by simp), String.toList_append, String.toList_append, String.toList_append, toList_displayAll]
  simp

theorem visible_display (written : Written params r) :
    r.display.toList ≠ [] ∧ r.display.toList.head?.any Text.isBlank = false ∧
      r.display.toList.getLast?.any Text.isBlank = false := by
  cases written with
  | value label =>
    rw [display_value label]
    exact ⟨label.present, label.starts, label.ends⟩
  | param label =>
    rw [display_param label]
    exact ⟨label.present, label.starts, label.ends⟩
  | path label =>
    rw [display_path]
    exact ⟨label.present, label.starts, label.ends⟩
  | applied label =>
    rw [toList_display_applied label, List.head?_append, List.head?_eq_some_head label.present,
      Option.some_or, ← List.head?_eq_some_head label.present]
    refine ⟨by simp, label.starts, ?_⟩
    rw [← List.cons_append, ← List.append_assoc, List.getLast?_concat]
    rfl

/-! ### Reading -/

/-- What may follow a reference. -/
def Follows (rest : List Char) : Prop := rest.head?.all (fun c => c == ',' || c == ']') = true

theorem takeWhile_label {name : List Char} (label : IsLabel name)
    (stops : rest.head?.all isDelimiter = true) :
    (name ++ rest).takeWhile (!isDelimiter ·) = name ∧
      (name ++ rest).dropWhile (!isDelimiter ·) = rest := by
  have plain : ∀ c ∈ name, (!isDelimiter c) = true := fun c member => by rw [label.plain c member]; rfl
  rw [List.takeWhile_append_of_pos plain, List.dropWhile_append_of_pos plain]
  cases rest with
  | nil => simp
  | cons c rest =>
    have delimiter : isDelimiter c = true := stops
    simp [delimiter]

theorem skipSpaces_label {name : List Char} (label : IsLabel name) :
    skipSpaces (name ++ rest) = name ++ rest := by
  obtain ⟨c, cs, rfl⟩ := List.exists_cons_of_ne_nil label.present
  have visible : Text.isBlank c = false := label.starts
  have other : ¬(c == ' ') = true := by
    rintro space
    rw [beq_iff_eq.mp space] at visible
    cases visible
  exact List.dropWhile_cons_of_neg other

theorem read_space (params : List String) (fuel : Nat) (cs : List Char) :
    read params (fuel + 1) (' ' :: cs) = read params (fuel + 1) cs := by
  rw [read, read, show skipSpaces (' ' :: cs) = skipSpaces cs from rfl]

theorem readArgs_space (params : List String) (fuel : Nat) (text : List Char) (done : List Ref)
    (cs : List Char) :
    readArgs params (fuel + 2) text done (' ' :: cs) = readArgs params (fuel + 2) text done cs := by
  rw [readArgs, read_space]
  rfl

theorem readArgs_comma {fuel : Nat} {cs : List Char} {arg : Ref}
    (first : read params fuel cs = .ok (arg, ',' :: rest)) (text : List Char) (done : List Ref) :
    readArgs params (fuel + 1) text done cs = readArgs params fuel text (done ++ [arg]) rest := by
  rw [readArgs, first]
  rfl

theorem stops_of_follows (follows : Follows rest) :
    rest.head?.all isDelimiter = true := by
  cases rest with
  | nil => rfl
  | cons c rest =>
    have either : (c == ',' || c == ']') = true := follows
    rw [Bool.or_eq_true, beq_iff_eq, beq_iff_eq] at either
    rcases either with rfl | rfl <;> rfl

section

variable {params : List String} {name : String} (label : IsLabel name.toList) (fuel : Nat)
include label

theorem read_value (digits : name.toList.all Numeral.isDigit = true)
    (stops : rest.head?.all isDelimiter = true) :
    read params (fuel + 1) (name.toList ++ rest) = .ok (ofValue name, rest) := by
  obtain ⟨taken, dropped⟩ := takeWhile_label label stops
  rw [read, skipSpaces_label label, taken, dropped, Text.trim_eq_self label.starts label.ends,
    String.ofList_toList, if_neg (by simpa using label.present), if_pos digits]

variable (letters : name.toList.all Numeral.isDigit = false)
include letters

theorem read_name (follows : Follows rest) :
    read params (fuel + 1) (name.toList ++ rest) =
      .ok (if params.contains name then ofParam name else ofPath name, rest) := by
  obtain ⟨taken, dropped⟩ := takeWhile_label label (stops_of_follows follows)
  rw [read, skipSpaces_label label, taken, dropped, Text.trim_eq_self label.starts label.ends,
    String.ofList_toList, if_neg (by simpa using label.present), if_neg (by simp [letters])]
  split
  · cases follows
  · rfl

theorem read_applied (inner : List Char) :
    read params (fuel + 1) (name.toList ++ '[' :: inner) =
      (readArgs params fuel (name.toList ++ '[' :: inner) [] inner).map fun (args, rest) =>
        (ofPath name args, rest) := by
  have stops : ('[' :: inner).head?.all isDelimiter = true := rfl
  obtain ⟨taken, dropped⟩ := takeWhile_label label stops
  rw [read, skipSpaces_label label, taken, dropped, Text.trim_eq_self label.starts label.ends,
    String.ofList_toList, if_neg (by simpa using label.present), if_neg (by simp [letters])]
  rfl

end

/-- The reference is read from its displayed form, whatever may follow. -/
def ReadFront (params : List String) (r : Ref) : Prop :=
  ∀ (fuel : Nat) (rest : List Char), 2 * r.display.toList.length ≤ fuel → Follows rest →
    read params fuel (r.display.toList ++ rest) = .ok (r, rest)

-- the number of arguments counts against the budget as their nesting does
theorem readArgs_display {args : List Ref} {arg : Ref}
    (each : ∀ r ∈ arg :: args, ReadFront params r ∧ r.display.toList ≠ []) (text rest : List Char)
    (done : List Ref) {k : Nat}
    (enough : 2 * (arg.display.toList ++ furtherArgs args).length < k) :
    readArgs params k text done (arg.display.toList ++ furtherArgs args ++ ']' :: rest) =
      .ok (done ++ arg :: args, rest) := by
  induction args generalizing arg done k with
  | nil =>
    obtain ⟨fuel, rfl⟩ : ∃ n, k = n + 1 := ⟨k - 1, by omega⟩
    simp only [furtherArgs, List.flatMap_nil, List.append_nil] at enough ⊢
    rw [readArgs, (each arg (by simp)).1 fuel (']' :: rest) (by omega) rfl]
    rfl
  | cons next args ih =>
    obtain ⟨fuel, rfl⟩ : ∃ n, k = n + 3 := ⟨k - 3, by
      have : 0 < arg.display.toList.length := List.length_pos_iff.mpr (each arg (by simp)).2
      simp only [List.length_append] at enough
      omega⟩
    have shown : furtherArgs (next :: args) =
        ',' :: ' ' :: (next.display.toList ++ furtherArgs args) := by simp [furtherArgs]
    rw [shown] at enough ⊢
    simp only [List.length_append, List.length_cons] at enough
    have first := (each arg (by simp)).1 (fuel + 2)
      (',' :: ' ' :: (next.display.toList ++ furtherArgs args ++ ']' :: rest)) (by omega) rfl
    have others := @ih next (fun r member => each r (List.mem_cons_of_mem _ member)) (done ++ [arg]) (fuel + 2)
      (by simp only [List.length_append]; omega)
    rw [List.append_assoc, List.cons_append, List.cons_append, readArgs_comma first, readArgs_space,
      others, List.append_assoc, List.singleton_append]

theorem readFront_of_written (written : Written params r) :
    ReadFront params r := by
  induction written with
  | value label digits =>
    intro fuel rest enough follows
    rw [display_value label] at enough ⊢
    obtain ⟨fuel, rfl⟩ : ∃ n, fuel = n + 1 := ⟨fuel - 1, by
      have := List.length_pos_iff.mpr label.present
      omega⟩
    exact read_value label fuel digits (stops_of_follows follows)
  | param label letters listed =>
    intro fuel rest enough follows
    rw [display_param label] at enough ⊢
    obtain ⟨fuel, rfl⟩ : ∃ n, fuel = n + 1 := ⟨fuel - 1, by
      have := List.length_pos_iff.mpr label.present
      omega⟩
    rw [read_name label fuel letters follows, if_pos (by simpa using listed)]
  | path label letters unlisted =>
    intro fuel rest enough follows
    rw [display_path] at enough ⊢
    obtain ⟨fuel, rfl⟩ : ∃ n, fuel = n + 1 := ⟨fuel - 1, by
      have := List.length_pos_iff.mpr label.present
      omega⟩
    rw [read_name label fuel letters follows, if_neg (by simpa using unlisted)]
  | applied label letters each ih =>
    intro fuel rest enough follows
    rw [toList_display_applied label] at enough ⊢
    simp only [List.length_append, List.length_cons, List.length_nil] at enough
    obtain ⟨fuel, rfl⟩ : ∃ n, fuel = n + 1 := ⟨fuel - 1, by omega⟩
    have args := fun text => readArgs_display
      (fun r member => ⟨ih r member, (visible_display (each r member)).1⟩)
      text rest [] (k := fuel) (by simp only [List.length_append]; omega)
    rw [List.append_assoc, List.cons_append, List.append_assoc, List.singleton_append,
      read_applied label fuel letters, args]
    rfl

/-- The displayed form reads as the reference. -/
def ReadsBack (params : List String) (r : Ref) : Prop := parse r.display params = .ok r

theorem readsBack_absent (params : List String) : ReadsBack params .absent := by
  rw [ReadsBack, show Ref.absent.display = "" from by simp [absent, display]]
  rfl

theorem readsBack_of_written (written : Written params r) :
    ReadsBack params r := by
  obtain ⟨present, starts, ends⟩ := visible_display written
  have done := readFront_of_written written (2 * r.display.toList.length + 2) [] (by omega) rfl
  rw [List.append_nil] at done
  rw [ReadsBack, parse, Text.trim_eq_self starts ends, if_neg (by simpa using present), done]
  rfl

end TypeEngine.Host.Ref
