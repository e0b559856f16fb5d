import TypeEngine.Proofs.Numeral
import TypeEngine.Proofs.Ty.Outcome
import TypeEngine.Ty.Parse

/-!
# What is read

`Written` describes the types that the reader produces: dotted names with arguments, tuples, and
lists in run-length form, each with its slots named by position. `readType_yields` says that there
are no others.
-/

namespace TypeEngine.Ty

variable {c c' : Cursor} {slots : List Slot} {n : Int}

/-! ### Words -/

/-- A name that the reader takes whole. -/
def IsName (name : String) : Prop :=
  ∃ x xs, name.toList = x :: xs ∧ startsName x = true ∧ xs.all continuesName = true

theorem nameChars_isName {cs : List Char} (found : nameChars cs ≠ []) :
    IsName (String.ofList (nameChars cs)) := by
  cases cs with
  | nil => exact absurd rfl found
  | cons x xs =>
    rw [nameChars] at found ⊢
    split
    · rename_i starts
      exact ⟨x, xs.takeWhile continuesName, String.toList_ofList .., starts, List.all_takeWhile⟩
    · rename_i other
      rw [if_neg other] at found
      exact absurd rfl found

theorem word_isName (found : (word c).1.isEmpty = false) : IsName (word c).1 := by
  refine nameChars_isName fun empty => ?_
  simp [word, empty] at found

/-! ### Readers -/

/-- What the reader returns has the property. -/
def Yields {α : Type} (r : Reader α) (P : α → Prop) : Prop :=
  ∀ {c c' : Cursor} {a : α}, r c = .ok (a, c') → P a

theorem segments_yields (fuel : Nat) {names : List String} :
    Yields (segments fuel names) fun all =>
      ∃ more, all = names ++ more ∧ ∀ name ∈ more, IsName name := by
  induction fuel generalizing names with
  | zero =>
    intro c c' all done
    obtain ⟨rfl, _⟩ := Prod.mk.inj (Except.ok.inj done)
    exact ⟨[], by simp⟩
  | succ fuel ih =>
    intro c c' all done
    rw [segments] at done
    split at done
    · dsimp only at done
      split at done
      · cases done
      · rename_i found
        obtain ⟨names', rfl, valid⟩ := ih done
        refine ⟨(word c.skip).1 :: names', by simp, ?_⟩
        rw [List.forall_mem_cons]
        exact ⟨word_isName (by simpa using found), valid⟩
    · obtain ⟨rfl, _⟩ := Prod.mk.inj (Except.ok.inj done)
      exact ⟨[], by simp⟩

variable {type : Reader Ty} {P : Ty → Prop}

/-- All types among the slots have the property. -/
def AllTypes (P : Ty → Prop) (slots : List Slot) : Prop := ∀ name t, Slot.type name t ∈ slots → P t

theorem allTypes_nil : AllTypes P [] := fun _ _ member => by cases member

theorem allTypes_type {name : String} {t : Ty} :
    AllTypes P (.type name t :: slots) ↔ P t ∧ AllTypes P slots := by
  constructor
  · intro all
    exact ⟨all name t List.mem_cons_self,
      fun name' u member => all name' u (List.mem_cons_of_mem _ member)⟩
  · rintro ⟨first, rest⟩ name' u member
    rcases List.mem_cons.mp member with same | member
    · obtain ⟨_, rfl⟩ := Slot.type.inj same
      exact first
    · exact rest name' u member

theorem allTypes_value {name text : String} :
    AllTypes P (.value name text :: slots) ↔ AllTypes P slots := by
  simp [AllTypes]

theorem allTypes_append {xs ys : List Slot} :
    AllTypes P (xs ++ ys) ↔ AllTypes P xs ∧ AllTypes P ys := by
  simp only [AllTypes, List.mem_append]
  exact ⟨fun all => ⟨fun name t member => all name t (.inl member),
    fun name t member => all name t (.inr member)⟩,
    fun ⟨left, right⟩ name t member => member.elim (left name t) (right name t)⟩

theorem argument_yields (nested : Yields type P) :
    Yields (argument type) fun slot => AllTypes P [slot] := by
  intro c c' slot done
  unfold argument at done
  split at done
  · obtain ⟨rfl, _⟩ := Prod.mk.inj (Except.ok.inj done)
    exact allTypes_value.mpr allTypes_nil
  · obtain ⟨⟨t, after⟩, read, done⟩ := exists_of_bind done
    obtain ⟨rfl, _⟩ := Prod.mk.inj (Except.ok.inj done)
    exact allTypes_type.mpr ⟨nested read, allTypes_nil⟩

theorem arguments_yields (nested : Yields type P) (fuel : Nat) :
    Yields (arguments type fuel slots) fun all => ∃ more, all = slots ++ more ∧ AllTypes P more := by
  induction fuel generalizing slots with
  | zero =>
    intro c c' all done
    cases done
  | succ fuel ih =>
    intro c c' all done
    rw [arguments] at done
    obtain ⟨⟨slot, after⟩, read, done⟩ := exists_of_bind done
    have good := argument_yields nested read
    dsimp only at done
    split at done
    · obtain ⟨later, rfl, typed⟩ := ih done
      exact ⟨slot :: later, by simp, allTypes_append.mpr ⟨good, typed⟩⟩
    · obtain ⟨rfl, _⟩ := Prod.mk.inj (Except.ok.inj done)
      exact ⟨[slot], rfl, good⟩
    · cases done

theorem repetition_yields : Yields repetition fun run => 1 ≤ run := by
  intro c c' run done
  unfold repetition at done
  dsimp only at done
  split at done
  · split at done
    · cases done
    · split at done
      · cases done
      · rename_i positive
        obtain ⟨rfl, _⟩ := Prod.mk.inj (Except.ok.inj done)
        exact Nat.le_of_not_lt positive
  · obtain ⟨rfl, _⟩ := Prod.mk.inj (Except.ok.inj done)
    exact Nat.le_refl 1

theorem runsOf_yields (nested : Yields type P) (fuel : Nat) {components : List Ty} :
    Yields (runsOf type fuel components) fun all =>
      ∃ more, all = components ++ more ∧ more ≠ [] ∧ ∀ t ∈ more, P t := by
  induction fuel generalizing components with
  | zero =>
    intro c c' all done
    cases done
  | succ fuel ih =>
    intro c c' all done
    rw [runsOf] at done
    obtain ⟨⟨t, afterType⟩, read, done⟩ := exists_of_bind done
    obtain ⟨⟨run, after⟩, counted, done⟩ := exists_of_bind done
    have positive := repetition_yields counted
    have present : List.replicate run t ≠ [] := by simp; omega
    have typed : ∀ u ∈ List.replicate run t, P u := by
      intro u member
      rw [List.eq_of_mem_replicate member]
      exact nested read
    dsimp only at done
    split at done
    · cases done
    split at done
    · obtain ⟨later, rfl, _, more⟩ := ih done
      exact ⟨List.replicate run t ++ later, by simp, by simp [present],
        List.forall_mem_append.mpr ⟨typed, more⟩⟩
    · obtain ⟨rfl, _⟩ := Prod.mk.inj (Except.ok.inj done)
      exact ⟨_, rfl, present, typed⟩
    · cases done

/-! ### Lists -/

theorem isList_layered (n : Int) (elem : Ty) : (layered n elem).isList = true := rfl

theorem layersOf_layered {elem : Ty} {parts : Int × Ty} :
    layersOf (layered n elem).extra = .ok parts ↔
      parts = (n, elem) ∧ 1 ≤ n ∧ n ≤ Numeral.greatest := by
  change layersOf (if n = 1 then [.type "1" elem] else _) = _ ↔ _
  split
  · rename_i one
    subst one
    simp [layersOf, Numeral.greatest, eq_comm]
  · rw [layersOf]
    cases counted : Numeral.count? (toString n) with
    | none =>
      have beyond : ¬(n = n ∧ 1 ≤ n ∧ n ≤ Numeral.greatest) := by
        rw [← Numeral.count?_toString_iff, counted]
        simp
      simp only [reduceCtorEq, false_iff]
      exact fun bounds => beyond ⟨rfl, bounds.2⟩
    | some m =>
      obtain ⟨rfl, bounds⟩ := Numeral.count?_toString_iff.mp counted
      simp [bounds, eq_comm]

theorem listParts_layered_iff {elem : Ty} {parts : Option (Int × Ty)} :
    (layered n elem).listParts = .ok parts ↔
      parts = some (n, elem) ∧ 1 ≤ n ∧ n ≤ Numeral.greatest := by
  rw [listParts, if_pos (isList_layered n elem)]
  constructor
  · intro found
    obtain ⟨p, layers, rfl⟩ := exists_of_map found
    obtain ⟨rfl, bounds⟩ := layersOf_layered.mp layers
    exact ⟨rfl, bounds⟩
  · rintro ⟨rfl, bounds⟩
    rw [layersOf_layered.mpr ⟨rfl, bounds⟩]
    rfl

theorem elem_mem_layered (n : Int) (elem : Ty) :
    ∃ name, .type name elem ∈ (layered n elem).extra := by
  by_cases one : n = 1
  · exact ⟨"1", by simp [layered, Ty.extra, one]⟩
  · exact ⟨"2", by simp [layered, Ty.extra, one]⟩

theorem listN_layered {elem : Ty} (positive : 1 ≤ n) (notList : elem.isList = false) :
    listN elem n = .ok (layered n elem) := by
  rw [listN, if_neg (by omega), listParts, notList]
  rfl

/-- A list gets its new layers added to its own, and any other type becomes an element. -/
theorem listN_cases {t u : Ty} (done : t.listN n = .ok u) :
    t.listParts = .ok none ∧ u = layered n t ∨
      ∃ k elem, t.listParts = .ok (some (k, elem)) ∧ u = layered (wrap (n + k)) elem := by
  unfold listN at done
  split at done
  · cases done
  · obtain ⟨parts, found, done⟩ := exists_of_bind done
    cases parts with
    | none => exact .inl ⟨found, (Except.ok.inj done).symm⟩
    | some p => exact .inr ⟨p.1, p.2, found, (Except.ok.inj done).symm⟩

/-! ### Types -/

/-- The types that the reader produces, nested at most so many levels deep. -/
inductive Written (generics : List String) : Nat → Ty → Prop where
  | named {budget : Nat} {names : List String} {slots : List Slot} :
      names ≠ [] → (∀ name ∈ names, IsName name) →
      ((mk (mainPath generics names) []).isList = true → slots = []) →
      (∀ name t, Slot.type name t ∈ slots → Written generics budget t) →
      Written generics (budget + 1) (mk (mainPath generics names) (Slot.positional slots))
  | tuple {budget : Nat} {components : List Ty} :
      components ≠ [] → (∀ t ∈ components, Written generics budget t) →
      Written generics (budget + 1) (tuple components)
  | list {budget : Nat} {n : Int} {elem : Ty} :
      elem.isList = false → Written generics budget elem →
      Written generics (budget + 1) (layered n elem)

namespace Written

variable {generics : List String} {budget : Nat} {t : Ty}

theorem succ (written : Written generics budget t) : Written generics (budget + 1) t := by
  induction written with
  | named some valid notList _ ih => exact .named some valid notList ih
  | tuple some _ ih => exact .tuple some ih
  | list notList _ ih => exact .list notList ih

/-- The element of a list is not a list. -/
theorem listParts_cases (written : Written generics budget t) {parts : Option (Int × Ty)}
    (answer : t.listParts = .ok parts) :
    parts = none ∧ t.isList = false ∨
      ∃ n elem, parts = some (n, elem) ∧ elem.isList = false ∧ Written generics budget elem := by
  cases written with
  | named some valid notList typed =>
    rw [listParts] at answer
    split at answer
    · rename_i list
      rw [notList list] at answer
      cases answer
    · rename_i other
      exact .inl ⟨(Except.ok.inj answer).symm, by simpa using other⟩
  | tuple some typed => exact .inl ⟨(Except.ok.inj answer).symm, rfl⟩
  | @list budget n elem notList inner =>
    obtain ⟨rfl, _⟩ := listParts_layered_iff.mp answer
    exact .inr ⟨n, elem, rfl, notList, inner.succ⟩

theorem listN (written : Written generics budget t) {u : Ty}
    (answer : Ty.listN t n = .ok u) : Written generics (budget + 1) u := by
  rcases listN_cases answer with ⟨found, rfl⟩ | ⟨k, elem, found, rfl⟩
  · rcases written.listParts_cases found with ⟨_, notList⟩ | ⟨_, _, some, _⟩
    · exact .list notList written
    · cases some
  · rcases written.listParts_cases found with ⟨none, _⟩ | ⟨_, _, same, notList, inner⟩
    · cases none
    · cases same
      exact .list notList inner

end Written

variable {generics : List String} {budget : Nat}

theorem bracketList_ok {t : Ty} (done : bracketList slots c = .ok (t, c')) :
    ∃ name elem n, Slot.type name elem ∈ slots ∧ listN elem n = .ok t := by
  have wrapped : ∀ elem n, ((listN elem n).mapError Stop.broken).map (·, c) = .ok (t, c') →
      listN elem n = .ok t := by
    intro elem n done
    obtain ⟨u, answer, same⟩ := exists_of_map done
    obtain ⟨rfl, _⟩ := Prod.mk.inj same
    exact ok_of_mapError answer
  unfold bracketList at done
  split at done
  · rename_i name elem
    exact ⟨name, elem, 1, by simp, wrapped elem 1 done⟩
  · rename_i _ text name elem
    split at done
    · rename_i n _
      exact ⟨name, elem, n, by simp, wrapped elem n done⟩
    · cases done
  · cases done

theorem countedList_yields (nested : Yields type (Written generics budget)) :
    Yields (countedList type) (Written generics (budget + 1)) := by
  intro c c' t done
  unfold countedList at done
  obtain ⟨⟨n, counted⟩, count, done⟩ := exists_of_bind done
  dsimp only at done
  split at done
  · obtain ⟨⟨elem, after⟩, read, done⟩ := exists_of_bind done
    obtain ⟨u, answer, done⟩ := exists_of_bind done
    obtain ⟨rfl, _⟩ := Prod.mk.inj (Except.ok.inj done)
    exact (nested read).listN (ok_of_mapError answer)
  · cases done

theorem namedType_yields (nested : Yields type (Written generics budget)) :
    Yields (namedType generics type) (Written generics (budget + 1)) := by
  intro c c' t done
  unfold namedType at done
  dsimp only at done
  split at done
  · cases done
  rename_i found
  split at done
  · exact countedList_yields nested done
  obtain ⟨⟨names, dotted⟩, read, done⟩ := exists_of_bind done
  obtain ⟨more, rfl, valid⟩ := segments_yields _ read
  have valid : ∀ name ∈ [(word c).1] ++ more, IsName name :=
    List.forall_mem_cons.mpr ⟨word_isName (by simpa using found), valid⟩
  dsimp only at done
  split at done
  · obtain ⟨⟨slots, after⟩, args, done⟩ := exists_of_bind done
    obtain ⟨_, rfl, typed⟩ := arguments_yields nested _ args
    dsimp only at done
    split at done
    · obtain ⟨name, elem, n, member, answer⟩ := bracketList_ok done
      exact (typed name elem member).listN answer
    · rename_i notList
      obtain ⟨rfl, _⟩ := Prod.mk.inj (Except.ok.inj done)
      exact .named (by simp) valid (fun list => absurd list notList) typed
  · obtain ⟨rfl, _⟩ := Prod.mk.inj (Except.ok.inj done)
    exact .named (by simp) valid (fun _ => rfl) fun name t member => by cases member

theorem readType_yields (generics : List String) (budget : Nat) :
    Yields (readType generics budget) (Written generics budget) := by
  induction budget with
  | zero =>
    intro c c' t done
    cases done
  | succ budget ih =>
    intro c c' t done
    rw [readType] at done
    dsimp only at done
    split at done
    · obtain ⟨⟨components, after⟩, read, done⟩ := exists_of_bind done
      obtain ⟨rfl, _⟩ := Prod.mk.inj (Except.ok.inj done)
      obtain ⟨more, rfl, present, typed⟩ := runsOf_yields ih _ read
      exact .tuple present typed
    · exact namedType_yields ih done

end TypeEngine.Ty
