import TypeEngine.Proofs.Ty.Canonical
import TypeEngine.Proofs.Ty.Equality
import TypeEngine.Proofs.Ty.Writing

/-!
# Display undoes reading

A type that was read is displayed in a form that reads back as the same type (`parse_display`),
provided that its values are written in digits and its tuples are not larger than a written one may
be. Quoted values lose their quotes in the display, and brackets admit larger tuples than
parentheses do.
-/

namespace TypeEngine.Ty

variable {main : Path} {extra slots : List Slot} {generics : List String}

/-! ### Legible types -/

mutual

/-- Every value is written in digits, and no tuple has more components than may be written. -/
def legible : Ty → Bool
  | mk main extra =>
    (!(mk main extra).isTuple || extra.length ≤ maxComponents) && legibleSlots extra

def legibleSlots : List Slot → Bool
  | [] => true
  | .type _ t :: slots => legible t && legibleSlots slots
  | .value _ text :: slots =>
    !text.isEmpty && text.toList.all Numeral.isDigit && legibleSlots slots

end

theorem slots_of_legible (legible : (mk main extra).legible = true) :
    legibleSlots extra = true := by
  rw [Ty.legible, Bool.and_eq_true] at legible
  exact legible.2

theorem legible_of_mem (legible : legibleSlots slots = true) :
    AllTypes (fun t => t.legible = true) slots := by
  induction slots with
  | nil => exact allTypes_nil
  | cons s slots ih =>
    cases s with
    | type name t =>
      rw [legibleSlots, Bool.and_eq_true] at legible
      exact allTypes_type.mpr ⟨legible.1, ih legible.2⟩
    | value name text =>
      rw [legibleSlots, Bool.and_eq_true] at legible
      exact allTypes_value.mpr (ih legible.2)

theorem slotBack_of_legible {type : Reader Ty} (legible : legibleSlots slots = true)
    (typed : AllTypes (ReadsBack type) slots) : ∀ s ∈ slots, SlotBack type s := by
  induction slots with
  | nil => simp
  | cons s slots ih =>
    rw [List.forall_mem_cons]
    cases s with
    | type name t =>
      rw [legibleSlots, Bool.and_eq_true] at legible
      obtain ⟨first, typed⟩ := allTypes_type.mp typed
      exact ⟨first, ih legible.2 typed⟩
    | value name text =>
      rw [legibleSlots, Bool.and_eq_true, Bool.and_eq_true] at legible
      exact ⟨⟨by simpa using legible.1.1, legible.1.2⟩, ih legible.2 (allTypes_value.mp typed)⟩

theorem length_of_legible {components : List Ty} (legible : (tuple components).legible = true) :
    components.length ≤ maxComponents := by
  have bound := (Bool.and_eq_true_iff.mp legible).1
  have same := congrArg List.length (Slot.map_heldType_ofTypes components)
  rw [List.length_map] at same
  rw [← same]
  exact of_decide_eq_true bound

/-! ### Paths -/

theorem blocks_mainPath {names : List String} {b : Block}
    (member : b ∈ (mainPath generics names).blocks) : b.index = 0 ∧ b.kind ≠ .unnamed := by
  unfold mainPath at member
  split at member
  · split at member
    · obtain rfl := List.mem_singleton.mp member
      exact ⟨rfl, (by decide : Kind.parameter ≠ .unnamed)⟩
    · split at member
      · obtain rfl := List.mem_singleton.mp member
        exact ⟨rfl, (by decide : Kind.primitive ≠ .unnamed)⟩
      · obtain rfl := List.mem_singleton.mp member
        exact ⟨rfl, (by decide : Kind.classType ≠ .unnamed)⟩
  · rcases List.mem_append.mp member with outer | inner
    · obtain ⟨name, _, rfl⟩ := List.mem_map.mp outer
      exact ⟨rfl, (by decide : Kind.namespaceLevel ≠ .unnamed)⟩
    · obtain ⟨name, _, rfl⟩ := Option.map_eq_some_iff.mp (Option.mem_toList.mp inner)
      exact ⟨rfl, (by decide : Kind.classType ≠ .unnamed)⟩

theorem names_mainPath {names : List String} (present : names ≠ []) :
    (mainPath generics names).blocks.map Block.name = names := by
  unfold mainPath
  split
  · split
    · rfl
    · split <;> rfl
  · have last := List.getLast?_eq_some_getLast present
    simp only [last, Option.map_some, Option.toList_some, List.map_append, List.map_map]
    exact (congrArg (· ++ _) (List.map_id _)).trans (List.dropLast_concat_getLast present)

theorem bare_mainPath (generics names : List String) :
    (mainPath generics names).bare = mainPath generics names := by
  have same : ∀ b ∈ (mainPath generics names).blocks, b.bare = b := by
    intro b member
    rw [Block.bare, ← (blocks_mainPath member).1]
  rw [Path.bare, List.map_congr_left same, List.map_id']

theorem toList_dots (first : String) (more : List String) :
    (".".intercalate (first :: more)).toList = first.toList ++ dotted more := by
  induction more generalizing first with
  | nil => simp [dotted]
  | cons next more ih =>
    rw [String.intercalate_cons_cons, String.toList_append, String.toList_append, ih]
    simp [dotted]

theorem display_mainPath (generics : List String) (first : String) (more : List String) :
    (mainPath generics (first :: more)).display.toList = first.toList ++ dotted more := by
  have shown : ∀ b ∈ (mainPath generics (first :: more)).blocks, b.display = b.name := by
    intro b member
    simp [Block.display, (blocks_mainPath member).2]
  rw [Path.display, List.map_congr_left shown, names_mainPath (by simp), toList_dots]

/-! ### Names of slots -/

mutual

/-- The type with all slots named by position. -/
def placed : Ty → Ty
  | mk main extra => mk main (Slot.positional (placedSlots extra))

def placedSlots : List Slot → List Slot
  | [] => []
  | .type name t :: slots => .type name (placed t) :: placedSlots slots
  | .value name text :: slots => .value name text :: placedSlots slots

end

theorem placedSlots_bareSlots (start : Nat)
    (restored : AllTypes (fun t => t.bare.placed = t) slots) :
    Slot.numberFrom start (placedSlots (bareSlots slots)) = Slot.numberFrom start slots := by
  induction slots generalizing start with
  | nil => rfl
  | cons s slots ih =>
    cases s with
    | type name t =>
      obtain ⟨first, restored⟩ := allTypes_type.mp restored
      simp [bareSlots, placedSlots, Slot.numberFrom, Slot.rename, first, ih (start + 1) restored]
    | value name text =>
      have restored := allTypes_value.mp restored
      simp [bareSlots, placedSlots, Slot.numberFrom, Slot.rename, ih (start + 1) restored]

theorem placed_bare_mk (path : main.bare = main) (numbered : Slot.positional extra = extra)
    (nested : AllTypes (fun t => t.bare.placed = t) extra) :
    (mk main extra).bare.placed = mk main extra := by
  rw [bare, placed, path, Slot.positional, placedSlots_bareSlots 1 nested]
  exact congrArg (mk main) numbered

namespace Written

variable {generics : List String} {budget : Nat} {a b : Ty}

theorem placed_bare (written : Written generics budget a) : a.bare.placed = a := by
  induction written with
  | named _ _ _ _ ih =>
    refine placed_bare_mk (bare_mainPath ..) (Slot.numberFrom_numberFrom ..) fun name t member => ?_
    obtain ⟨name', member⟩ := Slot.type_mem_numberFrom.mp ⟨name, member⟩
    exact ih name' t member
  | tuple _ _ ih =>
    refine placed_bare_mk rfl (Slot.numberFrom_numberFrom ..) fun name t member => ?_
    exact ih t (Slot.type_mem_ofTypes.mp ⟨name, member⟩)
  | @list _ n elem _ _ ih =>
    by_cases one : n = 1
    · rw [layered, if_pos one]
      refine placed_bare_mk rfl rfl fun name t member => ?_
      obtain ⟨_, rfl⟩ := Slot.type.inj (List.mem_singleton.mp member)
      exact ih
    · rw [layered, if_neg one]
      refine placed_bare_mk rfl rfl fun name t member => ?_
      obtain ⟨_, rfl⟩ : name = "2" ∧ t = elem := by simpa using member
      exact ih

theorem eq_of_beq (left : Written generics budget a) (right : Written generics budget b)
    (same : (a == b) = true) : a = b := by
  rw [← left.placed_bare, beq_iff_bare.mp same, right.placed_bare]

end Written

/-! ### Runs of equal components -/

/-- The component and the length of a run. -/
def grouped (run : Slot × String × Nat) : Ty × Nat := (run.1.heldType, run.2.2)

theorem mem_runs {pairs : List (Slot × String)} {run : Slot × String × Nat}
    (member : run ∈ runs pairs) : 1 ≤ run.2.2 ∧ (run.1, run.2.1) ∈ pairs := by
  induction pairs generalizing run with
  | nil => cases member
  | cons pair rest ih =>
    obtain ⟨slot, text⟩ := pair
    rw [runs] at member
    split at member
    · obtain rfl := List.mem_singleton.mp member
      simp
    · rename_i next later n more found
      split at member
      · rcases List.mem_cons.mp member with rfl | member
        · simp
        · obtain ⟨positive, known⟩ := ih (by rw [found]; exact List.mem_cons_of_mem _ member)
          exact ⟨positive, List.mem_cons_of_mem _ known⟩
      · rcases List.mem_cons.mp member with rfl | member
        · simp
        · obtain ⟨positive, known⟩ := ih (by rw [found]; exact member)
          exact ⟨positive, List.mem_cons_of_mem _ known⟩

theorem spread_runs {pairs : List (Slot × String)}
    (same : ∀ p ∈ pairs, ∀ q ∈ pairs, (p.1 == q.1) = true → p.1.heldType = q.1.heldType) :
    spread ((runs pairs).map grouped) = pairs.map fun p => p.1.heldType := by
  induction pairs with
  | nil => rfl
  | cons pair rest ih =>
    obtain ⟨slot, text⟩ := pair
    have ih := ih fun p here q there => same p (List.mem_cons_of_mem _ here) q
      (List.mem_cons_of_mem _ there)
    rw [List.map_cons, ← ih, runs]
    split
    · rename_i found
      rw [found]
      rfl
    · rename_i next later n more found
      have known := (mem_runs (show (next, later, n) ∈ runs rest by rw [found]; simp)).2
      rw [found]
      split
      · rename_i equal
        have held := same _ List.mem_cons_self _ (List.mem_cons_of_mem _ known) equal
        simp [spread, grouped, held, List.replicate_succ]
      · simp [spread, grouped]

/-! ### Displays -/

theorem display_named (notList : (mk main []).isList = false)
    (plain : (mk main []).isTuple = true → extra = []) :
    (mk main extra).display.toList = main.display.toList ++ bracketed extra := by
  have notList : (main == .ofPrimitive "list") = false := notList
  have notTuple : (main == .ofPrimitive "tuple" && !extra.isEmpty) = false := by
    cases tuple : main == .ofPrimitive "tuple" with
    | false => rfl
    | true =>
      rw [plain tuple]
      rfl
  unfold display
  dsimp only
  rw [notList, notTuple, displaySlots_eq]
  cases extra with
  | nil => simp [bracketed]
  | cons s slots => simp [bracketed]

/-- A tuple that is valid and has its slots named by position is made of its components. -/
theorem exists_tuple (valid : (mk main extra).validateTop = .ok ())
    (notList : (mk main extra).isList = false) (isTuple : (mk main extra).isTuple = true)
    (path : main.bare = main) (numbered : Slot.positional extra = extra) :
    ∃ components, mk main extra = tuple components := by
  obtain ⟨parts, answer⟩ := components_of_validateTop valid notList isTuple
  have same : main = .ofPrimitive "tuple" := path.symm.trans (Path.beq_iff_bare.mp isTuple)
  rw [components, if_pos isTuple] at answer
  split at answer
  · rename_i ts typed
    refine ⟨ts, ?_⟩
    rw [same, ← numbered]
    exact congrArg (mk _) (Slot.numberFrom_of_types? 1 typed)
  · cases answer

/-- A tuple is displayed as runs that stand for its components. Components in a run are equal, and so
the same. -/
theorem display_tuple {budget : Nat} {components : List Ty}
    (present : components ≠ []) (written : ∀ t ∈ components, Written generics budget t) :
    ∃ groups, spread groups = components ∧ (∀ g ∈ groups, 1 ≤ g.2 ∧ g.1 ∈ components) ∧
      (tuple components).display = "(" ++ ", ".intercalate (groups.map writtenRun) ++ ")" := by
  let pairs := (Slot.ofTypes components).map fun s => (s, shown s)
  have typed : ∀ p ∈ pairs, ∃ name t, p = (.type name t, t.display) ∧ t ∈ components := by
    intro p member
    obtain ⟨s, known, rfl⟩ := List.mem_map.mp member
    obtain ⟨name, t, rfl, component⟩ := Slot.mem_ofTypes known
    exact ⟨name, t, rfl, component⟩
  refine ⟨(runs pairs).map grouped, ?_, ?_, ?_⟩
  · have faithful : ∀ p ∈ pairs, ∀ q ∈ pairs, (p.1 == q.1) = true → p.1.heldType = q.1.heldType := by
      intro p here q there equal
      obtain ⟨_, t, rfl, left⟩ := typed p here
      obtain ⟨_, u, rfl, right⟩ := typed q there
      exact (written t left).eq_of_beq (written u right) (Bool.and_eq_true_iff.mp equal).1
    rw [spread_runs faithful, List.map_map]
    exact Slot.map_heldType_ofTypes components
  · intro g member
    obtain ⟨run, known, rfl⟩ := List.mem_map.mp member
    obtain ⟨positive, pair⟩ := mem_runs known
    obtain ⟨_, t, same, component⟩ := typed _ pair
    refine ⟨positive, ?_⟩
    rw [grouped, (Prod.mk.inj same).1]
    exact component
  · have texts : ∀ run ∈ runs pairs, displayRun run = writtenRun (grouped run) := by
      intro run known
      obtain ⟨slot, text, n⟩ := run
      obtain ⟨_, t, same, _⟩ := typed _ (mem_runs known).2
      obtain ⟨rfl, rfl⟩ := Prod.mk.inj same
      rfl
    have nonempty : (Slot.ofTypes components).isEmpty = false := by
      cases components with
      | nil => exact absurd rfl present
      | cons t ts => rfl
    rw [List.map_map]
    unfold tuple named display
    dsimp only
    rw [if_neg (by decide), if_pos (by rw [nonempty]; rfl), displaySlots_eq,
      ← List.map_prod_left_eq_zip, List.map_congr_left texts]
    rfl

theorem display_layered {n : Int} {elem : Ty} (bounds : 1 ≤ n ∧ n ≤ Numeral.greatest) :
    (layered n elem).display.toList = "list".toList ++
      '(' :: ((if 1 < n then toString n else "").toList ++ ')' :: ' ' :: elem.display.toList) := by
  by_cases one : n = 1
  · subst one
    change ("list() " ++ elem.display).toList = _
    simp
  · have counted : Numeral.count? (toString n) = some n :=
      Numeral.count?_toString_iff.mpr ⟨rfl, bounds⟩
    rw [layered, if_neg one]
    conv => lhs; unfold display
    rw [if_pos (by decide), displaySlots_eq]
    dsimp only [List.map, shown]
    rw [counted]
    simp

/-! ### Reading back -/

section

variable {generics : List String} {budget : Nat}

theorem readsBack_named {names : List String} (present : names ≠ [])
    (valid : ∀ name ∈ names, IsName name)
    (notList : (mk (mainPath generics names) []).isList = false)
    (plain : (mk (mainPath generics names) []).isTuple = true → extra = [])
    (numbered : Slot.positional extra = extra)
    (back : ∀ s ∈ extra, SlotBack (readType generics budget) s) :
    ReadsBack (readType generics (budget + 1)) (mk (mainPath generics names) extra) := by
  obtain ⟨first, more, rfl⟩ := List.exists_cons_of_ne_nil present
  have text := display_named notList plain
  rw [display_mainPath] at text
  obtain ⟨x, xs, chars, starts, _⟩ := valid first List.mem_cons_self
  have opens : Opens (mk (mainPath generics (first :: more)) extra).display := by
    refine ⟨x, xs ++ dotted more ++ bracketed extra, ?_, .inl starts⟩
    rw [text, chars]
    rfl
  refine ⟨opens, fun {c rest} before ends => ?_⟩
  have again := before.skipSpace opens.notBlank
  rw [text] at before again
  have noParen : c.skipSpace.peek? ≠ some '(' := by
    rw [before.peek, chars]
    intro same
    exact ne_of_startsName starts (by decide) (Option.some.inj same)
  rw [List.append_assoc, List.append_assoc] at again
  obtain ⟨c', read, after⟩ := namedType_back valid notList back again ends
  refine ⟨c', ?_, after⟩
  rw [readType]
  dsimp only
  rw [if_neg noParen, read, numbered]

theorem readsBack_tuple {components : List Ty} (present : components ≠ [])
    (written : ∀ t ∈ components, Written generics budget t)
    (small : components.length ≤ maxComponents)
    (back : ∀ t ∈ components, ReadsBack (readType generics budget) t) :
    ReadsBack (readType generics (budget + 1)) (tuple components) := by
  obtain ⟨groups, rfl, members, text⟩ := display_tuple present written
  refine ⟨?_, fun {c rest} before ends => ?_⟩
  · rw [text]
    exact ⟨'(', (", ".intercalate (groups.map writtenRun) ++ ")").toList, by simp, .inr rfl⟩
  obtain ⟨g, later, rfl⟩ : ∃ g later, groups = g :: later :=
    List.exists_cons_of_ne_nil fun empty => present (by rw [empty]; rfl)
  have start : c.skipSpace.Before ('(' ::
      ((", ".intercalate ((g :: later).map writtenRun)).toList ++ ')' :: rest)) := by
    rw [text] at before
    simpa using before
  have reading : ∀ h ∈ g :: later, ReadsBack (readType generics budget) h.1 ∧ 1 ≤ h.2 :=
    fun h member => ⟨back _ (members h member).2, (members h member).1⟩
  have inner := start.skip.skipSpace
    (commas_head fun rest => (reading g List.mem_cons_self).1.notBlank)
  have room : (g :: later).length ≤ c.skipSpace.rest.length + 1 := by
    have := length_le_commas ((g :: later).map writtenRun)
    rw [start.rest]
    simp only [List.length_map, List.length_cons, List.length_append] at this ⊢
    omega
  obtain ⟨c', read, after⟩ : ∃ c', runsOf (readType generics budget) (c.skipSpace.rest.length + 1) []
      c.skipSpace.skip = .ok ([] ++ spread (g :: later), c') ∧ c'.Before rest :=
    runsOf_back (by simp) reading room (by simpa using small) inner
  refine ⟨c', ?_, after⟩
  rw [readType]
  dsimp only
  rw [if_pos (by rw [start.peek]; rfl), read]
  rfl

theorem readsBack_layered {n : Int} {elem : Ty} (bounds : 1 ≤ n ∧ n ≤ Numeral.greatest)
    (notList : elem.isList = false) (back : ReadsBack (readType generics budget) elem) :
    ReadsBack (readType generics (budget + 1)) (layered n elem) := by
  have text : (layered n elem).display.toList = _ := display_layered bounds
  have isName : IsName "list" := ⟨'l', ['i', 's', 't'], rfl, by decide, by decide⟩
  have opens : Opens (layered n elem).display := ⟨'l', _, text, .inl (by decide)⟩
  refine ⟨opens, fun {c rest} before ends => ?_⟩
  have again := before.skipSpace opens.notBlank
  rw [text] at before again
  have noParen : c.skipSpace.peek? ≠ some '(' := by
    rw [before.peek]
    exact fun same => absurd (Option.some.inj same) (by decide)
  rw [List.append_assoc] at again
  obtain ⟨word, after⟩ := word_name again isName (stops_cons (by decide))
  have opening := after.skipSpace (by simp [isBlank])
  obtain ⟨c', read, left⟩ := countedList_back back notList bounds (by simpa using opening) ends
  refine ⟨c', ?_, left⟩
  rw [readType]
  dsimp only
  rw [if_neg noParen]
  unfold namedType
  dsimp only
  rw [word, isName.isEmpty_eq, if_neg Bool.false_ne_true, if_pos, read]
  rw [opening.peek]
  rfl

theorem Written.readsBack {t : Ty} (written : Written generics budget t)
    (valid : t.validate = .ok ()) (legible : t.legible = true) :
    ReadsBack (readType generics budget) t := by
  induction written with
  | @named budget names slots present names_valid empty typed ih =>
    obtain ⟨top, nested⟩ := validate_ok valid
    have legibleSlots := slots_of_legible legible
    have notList := isList_of_validateTop empty top
    have back : AllTypes (ReadsBack (readType generics budget)) (Slot.positional slots) := by
      intro name t member
      obtain ⟨name', member'⟩ := Slot.type_mem_numberFrom.mp ⟨name, member⟩
      exact ih name' t member' (nested name t member) (legible_of_mem legibleSlots name t member)
    by_cases plain : (mk (mainPath generics names) []).isTuple = true → Slot.positional slots = []
    · exact readsBack_named present names_valid notList plain (Slot.numberFrom_numberFrom ..)
        (slotBack_of_legible legibleSlots back)
    · -- a tuple in brackets is displayed in parentheses
      obtain ⟨isTuple, some⟩ := Classical.not_imp.mp plain
      obtain ⟨components, whole⟩ := exists_tuple top notList isTuple (bare_mainPath ..)
        (Slot.numberFrom_numberFrom ..)
      have same := (mk.inj whole).2
      have known : ∀ t ∈ components, ∃ name, Slot.type name t ∈ Slot.positional slots := by
        rw [same]
        exact fun t member => Slot.type_mem_ofTypes.mpr member
      rw [whole] at legible ⊢
      refine readsBack_tuple ?_ (fun t member => ?_) (length_of_legible legible) fun t member => ?_
      · rintro rfl
        exact some same
      · obtain ⟨name, member⟩ := known t member
        obtain ⟨name', member⟩ := Slot.type_mem_numberFrom.mp ⟨name, member⟩
        exact typed name' t member
      · obtain ⟨name, member⟩ := known t member
        exact back name t member
  | @tuple budget components present typed ih =>
    obtain ⟨top, nested⟩ := validate_ok valid
    refine readsBack_tuple present typed (length_of_legible legible) fun t member => ?_
    obtain ⟨name, known⟩ := Slot.type_mem_ofTypes.mpr member
    exact ih t member (nested name t known)
      (legible_of_mem (slots_of_legible legible) name t known)
  | @list budget n elem notList inner ih =>
    obtain ⟨top, nested⟩ := validate_ok valid
    have legibleSlots := slots_of_legible legible
    obtain ⟨name, member⟩ := elem_mem_layered n elem
    exact readsBack_layered (layers_of_validateTop top) notList
      (ih (nested name elem member) (legible_of_mem legibleSlots name elem member))

end

/-- What is displayed of a type that was read from bytes is read as an equal type. -/
theorem parse_display {s : String} {generics : List String} {t : Ty}
    (read : parseBytes s generics = .ok t) (legible : t.legible = true) :
    ∃ t', parseBytes t.display generics = .ok t' ∧ (t' == t) = true := by
  obtain ⟨written, valid, canonical⟩ := parse_written read
  have back := written.readsBack valid legible
  have start : (⟨0, t.display.toList⟩ : Cursor).skipSpace.Before (t.display.toList ++ []) :=
    Cursor.Before.skipSpace ⟨(List.append_nil _).symm⟩ back.opens.notBlank
  obtain ⟨c', again, ended⟩ := back.reads start (by simp [Ends])
  have ended := ended.skipSpace (by simp)
  refine ⟨t, ?_, beq_rfl t⟩
  unfold parseBytes readAll
  rw [again]
  change Except.mapError _ (if c'.skipSpace.rest.isEmpty = true then _ else _) = _
  rw [ended.rest, if_pos List.isEmpty_nil, valid]
  change Except.mapError _ (Except.mapError _ t.canonical) = _
  rw [canonical]
  rfl

/-- The bytes `\xe9` and `\xff` are letters, and no UTF-8. -/
theorem parse_display_nested : ∃ t,
    parseBytes "list (2) (int ^2, int, tuple[T, caf\xe9.\xff[T, 07]])" ["T"] = .ok t ∧ t.legible = true ∧
      t.display = "list(2) (int^3, (T, caf\xe9.\xff[T, 07]))" ∧
      ∃ t', parseBytes t.display ["T"] = .ok t' ∧ (t' == t) = true := by
  have evaluated : (parseBytes "list (2) (int ^2, int, tuple[T, caf\xe9.\xff[T, 07]])" ["T"]).toOption.any
      (fun t => t.legible && t.display == "list(2) (int^3, (T, caf\xe9.\xff[T, 07]))") = true := by
    decide +kernel
  cases read : parseBytes "list (2) (int ^2, int, tuple[T, caf\xe9.\xff[T, 07]])" ["T"] with
  | error fault =>
    rw [read] at evaluated
    cases evaluated
  | ok t =>
    rw [read] at evaluated
    obtain ⟨legible, text⟩ := Bool.and_eq_true_iff.mp evaluated
    exact ⟨t, rfl, legible, beq_iff_eq.mp text, parse_display read legible⟩

end TypeEngine.Ty
