import TypeEngine.Proofs.Text.Blank
import TypeEngine.Storage.Location

/-!
# Locations as walks

The parts of a location lead from where one is to the place it denotes. Cleaning a location does not
change where it leads (`lead_clean`), and a name joined to a directory leads to that name in it
(`lead_join`).
-/

namespace TypeEngine.Storage

variable {p part : String} {rooted : Bool} {above ps : List String}

/-! ### Parts -/

/-- A part that leads one level down. -/
structure IsPlain (part : String) : Prop where
  present : part ≠ ""
  other : part ≠ "."
  down : part ≠ ".."
  solid : '/' ∉ part.toList

theorem parts_of_solid (solid : '/' ∉ p.toList) : parts p = [p] := by
  rw [parts, Text.splitOn_of_not_mem solid, List.map_singleton, String.ofList_toList]

theorem parts_slash (p q : String) : parts (p ++ "/" ++ q) = parts p ++ parts q := by
  have chars : (p ++ "/" ++ q).toList = p.toList ++ '/' :: q.toList := by simp
  rw [parts, chars, Text.splitOn_append, List.map_append]
  rfl

theorem solid_of_mem_parts (member : part ∈ parts p) : '/' ∉ part.toList := by
  obtain ⟨piece, inside, rfl⟩ := List.mem_map.mp member
  rw [String.toList_ofList]
  exact Text.mem_splitOn inside

theorem parts_intercalate {first : String} {more : List String} (solid : ∀ p ∈ first :: more, '/' ∉ p.toList) :
    parts ("/".intercalate (first :: more)) = first :: more := by
  rw [parts, Text.splitOn_join rfl solid, List.map_map]
  exact (List.map_congr_left fun _ _ => String.ofList_toList).trans (List.map_id _)

theorem isAbsolute_append (present : p ≠ "") (q : String) : isAbsolute (p ++ q) = isAbsolute p := by
  have some : p.toList ≠ [] := fun none => present (String.toList_inj.mp none)
  rw [isAbsolute, isAbsolute, String.toList_append, List.head?_append, List.head?_eq_some_head some,
    Option.some_or]

/-! ### Walks -/

/-- Follows parts from a place that is read from its end. -/
def walk (rooted : Bool) (above : List String) (ps : List String) : List String := ps.foldl (step rooted) above

theorem walk_append (rooted : Bool) (above ps qs : List String) :
    walk rooted above (ps ++ qs) = walk rooted (walk rooted above ps) qs := List.foldl_append

theorem cleanParts_eq (p : String) : cleanParts p = (walk (isAbsolute p) [] (parts p)).reverse := rfl

theorem step_plain (plain : IsPlain part) (rooted : Bool) (above : List String) :
    step rooted above part = part :: above := by
  simp [step, plain.present, plain.other, plain.down]

theorem walk_plain (plain : IsPlain part) (rooted : Bool) (above : List String) :
    walk rooted above [part] = part :: above := step_plain plain rooted above

/-- The end of a location without detours, read from its end: names below some levels up. -/
inductive Settled (rooted : Bool) : List String → Prop
  | nil : Settled rooted []
  | up {above : List String} (free : rooted = false) (ups : ∀ part ∈ above, part = "..") :
      Settled rooted (".." :: above)
  | down {above : List String} {part : String} (below : Settled rooted above) (plain : IsPlain part) :
      Settled rooted (part :: above)

theorem Settled.tail (settled : Settled rooted (part :: above)) : Settled rooted above := by
  cases settled with
  | up free ups =>
    cases above with
    | nil => exact .nil
    | cons next above =>
      rw [List.forall_mem_cons] at ups
      obtain ⟨rfl, ups⟩ := ups
      exact .up free ups
  | down below _ => exact below

theorem Settled.step {rooted : Bool} {above : List String} (settled : Settled rooted above) {part : String}
    (solid : '/' ∉ part.toList) : Settled rooted (step rooted above part) := by
  unfold Storage.step
  split
  · exact settled
  · rename_i moves
    split
    · split
      · split
        · exact .nil
        · rename_i free
          exact .up (by simpa using free) (by simp)
      · cases settled with
        | up free ups => exact .up free (List.forall_mem_cons.mpr ⟨rfl, ups⟩)
        | down _ plain => exact absurd rfl plain.down
      · exact settled.tail
    · rename_i down
      simp only [Bool.or_eq_true, decide_eq_true_eq, not_or] at moves
      exact .down settled ⟨moves.1, moves.2, down, solid⟩

theorem Settled.walk {rooted : Bool} {above ps : List String} (settled : Settled rooted above)
    (solid : ∀ p ∈ ps, '/' ∉ p.toList) : Settled rooted (walk rooted above ps) := by
  induction ps generalizing above with
  | nil => exact settled
  | cons p ps ih =>
    rw [List.forall_mem_cons] at solid
    exact ih (settled.step solid.1) solid.2

theorem settled_cleanParts (p : String) : Settled (isAbsolute p) (cleanParts p).reverse := by
  rw [cleanParts_eq, List.reverse_reverse]
  exact Settled.nil.walk fun part => solid_of_mem_parts

theorem Settled.walk_reverse (settled : Settled rooted above) :
    Storage.walk rooted [] above.reverse = above := by
  induction above with
  | nil => rfl
  | cons part above ih =>
    rw [List.reverse_cons, walk_append, ih settled.tail]
    cases settled with
    | up free ups =>
      subst free
      cases above with
      | nil => rfl
      | cons next above =>
        obtain rfl := ups next (by simp)
        rfl
    | down _ plain => exact walk_plain plain rooted above

theorem walk_step (settled : Settled false above) (start : List String) (part : String) :
    walk true start (step false above part).reverse = step true (walk true start above.reverse) part := by
  have last : ∀ part, walk true start (part :: above).reverse = step true (walk true start above.reverse) part := by
    intro part
    rw [List.reverse_cons, walk_append]
    rfl
  by_cases stays : (part = "" || part = ".") = true
  · have same : ∀ rooted above, step rooted above part = above := fun rooted above => if_pos stays
    rw [same, same]
  by_cases up : part = ".."
  · subst up
    cases settled with
    | nil => rfl
    | up free ups => exact last ".."
    | @down rest name below plain =>
      have back : step false (name :: rest) ".." = rest := by simp [step, plain.down]
      rw [back, List.reverse_cons, walk_append, walk_plain plain]
      simp [step, plain.down]
  · have down : step false above part = part :: above := (if_neg stays).trans (if_neg up)
    rw [down, last]

theorem walk_walk (settled : Settled false above) (solid : ∀ p ∈ ps, '/' ∉ p.toList)
    (start : List String) :
    walk true start (walk false above ps).reverse = walk true (walk true start above.reverse) ps := by
  induction ps generalizing above with
  | nil => rfl
  | cons p ps ih =>
    rw [List.forall_mem_cons] at solid
    have rest := ih (settled.step solid.1) solid.2
    rw [walk_step settled start p] at rest
    exact rest

/-! ### Cleaning -/

theorem Settled.solid (settled : Settled rooted above) :
    ∀ part ∈ above, part ≠ "" ∧ '/' ∉ part.toList := by
  induction above with
  | nil => simp
  | cons part above ih =>
    refine List.forall_mem_cons.mpr ⟨?_, ih settled.tail⟩
    cases settled with
    | up => exact ⟨by decide, by decide⟩
    | down _ plain => exact ⟨plain.present, plain.solid⟩

theorem isAbsolute_intercalate {first : String} {more : List String} (present : first ≠ "")
    (solid : '/' ∉ first.toList) : isAbsolute ("/".intercalate (first :: more)) = false := by
  have relative : isAbsolute first = false := by
    rw [isAbsolute, beq_eq_false_iff_ne]
    exact fun slash => solid (List.mem_of_head? slash)
  cases more with
  | nil => rwa [String.intercalate_singleton]
  | cons next more => rwa [String.intercalate_cons_cons, String.append_assoc, isAbsolute_append present]

/-- The place that a location leads to from the place `here`. -/
def lead (here : List String) (p : String) : List String :=
  (walk true (if isAbsolute p then [] else here.reverse) (parts p)).reverse

theorem walk_intercalate (start ps : List String) (solid : ∀ p ∈ ps, '/' ∉ p.toList) :
    walk true start (parts ("/".intercalate ps)) = walk true start ps := by
  cases ps with
  | nil => rfl
  | cons first more => rw [parts_intercalate solid]

theorem walk_ofParts (rooted : Bool) (start : List String)
    (solid : ∀ p ∈ ps, '/' ∉ p.toList) : walk true start (parts (ofParts rooted ps)) = walk true start ps := by
  cases rooted with
  | true =>
    have split : parts (ofParts true ps) = [""] ++ parts ("/".intercalate ps) := parts_slash "" _
    rw [split, walk_append, walk_intercalate _ _ solid]
    rfl
  | false =>
    cases ps with
    | nil => rfl
    | cons first more =>
      have joined : ofParts false (first :: more) = "/".intercalate (first :: more) := rfl
      rw [joined, walk_intercalate start _ solid]

theorem isAbsolute_ofParts (solid : ∀ p ∈ ps, p ≠ "" ∧ '/' ∉ p.toList) :
    isAbsolute (ofParts rooted ps) = rooted := by
  cases rooted with
  | true => simp [isAbsolute, ofParts]
  | false =>
    cases ps with
    | nil => rfl
    | cons first more =>
      obtain ⟨present, solid⟩ := solid first (by simp)
      exact isAbsolute_intercalate present solid

theorem solid_cleanParts (p : String) : ∀ part ∈ cleanParts p, part ≠ "" ∧ '/' ∉ part.toList := by
  simpa only [List.mem_reverse] using (settled_cleanParts p).solid

theorem isAbsolute_clean (p : String) : isAbsolute (clean p) = isAbsolute p :=
  isAbsolute_ofParts (solid_cleanParts p)

theorem lead_clean (here : List String) (p : String) : lead here (clean p) = lead here p := by
  have settled := settled_cleanParts p
  rw [lead, lead, isAbsolute_clean, clean,
    walk_ofParts _ _ fun part member => (solid_cleanParts p part member).2]
  cases absolute : isAbsolute p with
  | true =>
    rw [absolute] at settled
    have walked := settled.walk_reverse
    rw [List.reverse_reverse] at walked
    rw [if_pos rfl, walked, cleanParts_eq, absolute, List.reverse_reverse]
  | false =>
    rw [if_neg Bool.false_ne_true, cleanParts_eq, absolute,
      walk_walk .nil fun part => solid_of_mem_parts]
    rfl

theorem lead_join (here : List String) {dir name : String} (plain : IsPlain name) :
    lead here (join dir name) = lead here dir ++ [name] := by
  have present := plain.present
  by_cases empty : dir = ""
  · subst empty
    have shown : join "" name = clean name := by simp [join, present]
    have relative : isAbsolute name = false := by
      rw [isAbsolute, beq_eq_false_iff_ne]
      exact fun slash => plain.solid (List.mem_of_head? slash)
    rw [shown, lead_clean, lead, relative, parts_of_solid plain.solid, walk_plain plain, List.reverse_cons]
    rfl
  · have shown : join dir name = clean (dir ++ "/" ++ name) := by simp [join, present, empty]
    rw [shown, lead_clean, lead, lead, String.append_assoc, isAbsolute_append empty, ← String.append_assoc,
      parts_slash, parts_of_solid plain.solid, walk_append, walk_plain plain, List.reverse_cons]

theorem cleanParts_seen {cwd : String} (absolute : isAbsolute cwd = true) (p : String) :
    cleanParts (if isAbsolute p then p else join cwd p) = lead (cleanParts cwd) p := by
  have place : ∀ q, isAbsolute q = true → cleanParts q = lead [] q := by
    intro q rooted
    rw [lead, rooted, cleanParts_eq, rooted]
    rfl
  split
  · rename_i rooted
    rw [place p rooted, lead, lead, rooted]
    rfl
  · rename_i relative
    have present : cwd ≠ "" := by
      rintro rfl
      cases absolute
    have from_cwd : (cleanParts cwd).reverse = walk true [] (parts cwd) := by
      rw [cleanParts_eq, absolute, List.reverse_reverse]
    rw [lead, if_neg relative, from_cwd, ← walk_append]
    by_cases empty : p = ""
    · subst empty
      have shown : join cwd "" = clean cwd := by simp [join, present]
      rw [shown, place _ (by rw [isAbsolute_clean, absolute]), lead_clean, lead, absolute]
      simp only [if_pos, walk_append]
      rfl
    · have shown : join cwd p = clean (cwd ++ "/" ++ p) := by simp [join, present, empty]
      have rooted : isAbsolute (cwd ++ "/" ++ p) = true := by
        rw [String.append_assoc, isAbsolute_append present, absolute]
      rw [shown, place _ (by rw [isAbsolute_clean, rooted]), lead_clean, lead, rooted, parts_slash]
      rfl

end TypeEngine.Storage
