import TypeEngine.Proofs.Ty.Reading
import TypeEngine.Proofs.Ty.Slots

/-!
# Reading what is written

The readers take back names, numbers, arguments and runs of components from their written forms, up
to the text that follows. What follows a type is nothing, or one of the marks that can end one. The
results are `runsOf_back`, `countedList_back` and `namedType_back`, one for each form that a type is
written in.
-/

namespace TypeEngine.Ty

variable {x : Char} {rest : List Char} {text name : String} {c : Cursor}

/-- The cursor stands before `cs`. -/
structure Cursor.Before (c : Cursor) (cs : List Char) : Prop where
  rest : c.rest = cs

def isBlank (x : Char) : Bool := x == ' ' || x == '\t'

namespace Cursor.Before

variable {c : Cursor} {cs : List Char} {x : Char}

theorem peek (before : c.Before cs) : c.peek? = cs.head? := by
  rw [peek?, before.rest]

theorem skip (before : c.Before (x :: cs)) : c.skip.Before cs :=
  ⟨congrArg (List.drop 1) before.rest⟩

theorem skipWhile {p : Char → Bool} (front : List Char) (before : c.Before (front ++ cs))
    (all : ∀ x ∈ front, p x = true) (stops : ∀ x ∈ cs.head?, p x = false) :
    (c.skipWhile p).Before cs := by
  rw [Cursor.skipWhile, before.rest, List.dropWhile_append_of_pos all]
  refine ⟨?_⟩
  cases cs with
  | nil => rfl
  | cons x cs => rw [List.dropWhile_cons_of_neg (by simp [stops x rfl])]

theorem skipSpace (before : c.Before cs) (stops : ∀ x ∈ cs.head?, isBlank x = false) :
    c.skipSpace.Before cs :=
  skipWhile [] before (by simp) stops

theorem skipBlank (before : c.Before (' ' :: cs)) (stops : ∀ x ∈ cs.head?, isBlank x = false) :
    c.skipSpace.Before cs :=
  skipWhile [' '] before (by simp) stops

end Cursor.Before

/-! ### Classes of characters -/

theorem ne_of_startsName {y : Char} (starts : startsName x = true) (other : startsName y = false) :
    x ≠ y := by
  rintro rfl
  rw [starts] at other
  cases other

theorem isDigit_of_startsName (starts : startsName x = true) :
    Numeral.isDigit x = false := by
  have none : ∀ n < 58, 48 ≤ n → startsName (Char.ofNat n) = false := by decide
  cases digit : Numeral.isDigit x with
  | false => rfl
  | true =>
    simp only [Numeral.isDigit, Bool.and_eq_true, decide_eq_true_eq, Char.le_def,
      UInt32.le_iff_toNat_le] at digit
    have other := none x.toNat (Nat.lt_succ_of_le digit.2) digit.1
    rw [Char.ofNat_toNat, starts] at other
    cases other

/-- What may follow a type. -/
def Ends (rest : List Char) : Prop := ∀ x ∈ rest.head?, x = ',' ∨ x = ']' ∨ x = ')' ∨ x = '^'

/-- What may follow a name. -/
def Stops (rest : List Char) : Prop := ∀ x ∈ rest.head?, continuesName x = false

theorem stops_cons (other : continuesName x = false) : Stops (x :: rest) := by
  intro y first
  obtain rfl := Option.some.inj first
  exact other

theorem Ends.stops (ends : Ends rest) : Stops rest := by
  intro x first
  rcases ends x first with rfl | rfl | rfl | rfl <;> decide

theorem Ends.notBlank (ends : Ends rest) : ∀ x ∈ rest.head?, isBlank x = false := by
  intro x first
  rcases ends x first with rfl | rfl | rfl | rfl <;> decide

/-! ### Names -/

/-- The written form of a type starts with a name or a parenthesis. -/
def Opens (text : String) : Prop :=
  ∃ x xs, text.toList = x :: xs ∧ (startsName x = true ∨ x = '(')

theorem Opens.notBlank (opens : Opens text) :
    ∀ x ∈ (text.toList ++ rest).head?, isBlank x = false := by
  obtain ⟨x, xs, chars, starts | rfl⟩ := opens
  · intro y first
    rw [chars] at first
    obtain rfl := Option.some.inj first
    have space := ne_of_startsName starts (by decide : startsName ' ' = false)
    have tab := ne_of_startsName starts (by decide : startsName '\t' = false)
    simp [isBlank, space, tab]
  · intro y first
    rw [chars] at first
    obtain rfl := Option.some.inj first
    decide

theorem IsName.opens (isName : IsName name) : Opens name := by
  obtain ⟨x, xs, chars, starts, _⟩ := isName
  exact ⟨x, xs, chars, .inl starts⟩

theorem IsName.isEmpty_eq (isName : IsName name) : name.isEmpty = false := by
  obtain ⟨x, xs, chars, _⟩ := isName
  have some : name ≠ "" := by
    rintro rfl
    cases chars
  simp [some]

theorem word_name
    (before : c.skipSpace.Before (name.toList ++ rest)) (isName : IsName name) (stops : Stops rest) :
    (word c).1 = name ∧ (word c).2.Before rest := by
  obtain ⟨x, xs, chars, starts, continues⟩ := isName
  have ended : rest.takeWhile continuesName = [] := by
    cases rest with
    | nil => rfl
    | cons y rest => rw [List.takeWhile_cons_of_neg (by simp [stops y rfl])]
  have found : nameChars c.skipSpace.rest = name.toList := by
    rw [before.rest, chars, List.cons_append, nameChars, if_pos starts,
      List.takeWhile_append_of_pos (by simpa using continues), ended, List.append_nil]
  unfold word
  dsimp only
  rw [found, String.ofList_toList]
  refine ⟨rfl, ⟨?_⟩⟩
  rw [Cursor.drop, before.rest]
  exact List.drop_left

/-- Segments, each behind a dot. -/
def dotted (names : List String) : List Char := names.flatMap fun name => '.' :: name.toList

theorem segments_dotted {names acc : List String} {fuel : Nat}
    (before : c.Before (dotted names ++ rest)) (valid : ∀ name ∈ names, IsName name)
    (enough : names.length ≤ fuel) (stops : Stops rest) (noDot : ∀ x ∈ rest.head?, x ≠ '.') :
    ∃ c', segments fuel acc c = .ok (acc ++ names, c') ∧ c'.Before rest := by
  induction names generalizing acc fuel c with
  | nil =>
    refine ⟨c, ?_, before⟩
    have other : c.peek? ≠ some '.' := by
      rw [before.peek]
      exact fun dot => noDot '.' dot rfl
    cases fuel with
    | zero => simp [segments]
    | succ fuel => simp [segments, other]
  | cons name names ih =>
    obtain ⟨fuel, rfl⟩ : ∃ f, fuel = f + 1 := ⟨fuel - 1, by simp at enough; omega⟩
    rw [List.forall_mem_cons] at valid
    have here : c.Before ('.' :: (name.toList ++ (dotted names ++ rest))) := by
      simpa [dotted] using before
    have follows : Stops (dotted names ++ rest) := by
      cases names with
      | nil => exact stops
      | cons _ _ => exact stops_cons (by decide)
    obtain ⟨read, after⟩ := word_name (here.skip.skipSpace valid.1.opens.notBlank) valid.1 follows
    obtain ⟨c', done, ended⟩ : ∃ c', segments fuel (acc ++ [name]) (word c.skip).2 =
        .ok (acc ++ [name] ++ names, c') ∧ c'.Before rest :=
      ih after valid.2 (by simpa using enough)
    refine ⟨c', ?_, ended⟩
    rw [segments, if_pos (by rw [here.peek]; rfl)]
    dsimp only
    rw [read, valid.1.isEmpty_eq, if_neg Bool.false_ne_true, done, List.append_assoc]
    rfl

/-! ### Arguments -/

theorem digits_before (ds : List Char) (before : c.Before (ds ++ rest))
    (all : ∀ d ∈ ds, Numeral.isDigit d = true)
    (stops : ∀ x ∈ rest.head?, Numeral.isDigit x = false) :
    ∃ c', digits c = (ds, c') ∧ c'.Before rest := by
  refine ⟨c.skipWhile Numeral.isDigit, ?_, before.skipWhile ds all stops⟩
  rw [digits, before.rest, List.takeWhile_append_of_pos all]
  cases rest with
  | nil => simp
  | cons x rest => rw [List.takeWhile_cons_of_neg (by simp [stops x rfl]), List.append_nil]

theorem digits_notBlank {ds : List Char} (present : ds ≠ [])
    (all : ∀ d ∈ ds, Numeral.isDigit d = true) : ∀ x ∈ (ds ++ rest).head?, isBlank x = false := by
  cases ds with
  | nil => exact absurd rfl present
  | cons d ds =>
    intro x first
    obtain rfl := Option.some.inj first
    have digit := all d List.mem_cons_self
    cases blank : isBlank d with
    | false => rfl
    | true =>
      rcases Bool.or_eq_true_iff.mp blank with same | same
      · rw [beq_iff_eq.mp same] at digit
        cases digit
      · rw [beq_iff_eq.mp same] at digit
        cases digit

theorem Ends.notDigit (ends : Ends rest) :
    ∀ x ∈ rest.head?, Numeral.isDigit x = false := by
  intro x first
  rcases ends x first with rfl | rfl | rfl | rfl <;> decide

/-- The reader takes back `t` from its written form, which may stand behind blanks. -/
structure ReadsBack (type : Reader Ty) (t : Ty) : Prop where
  opens : Opens t.display
  reads : ∀ {c : Cursor} {rest : List Char}, c.skipSpace.Before (t.display.toList ++ rest) →
    Ends rest → ∃ c', type c = .ok (t, c') ∧ c'.Before rest

/-- The written form of a slot. -/
def shown : Slot → String
  | .type _ t => t.display
  | .value _ text => text

theorem displaySlots_eq (slots : List Slot) : displaySlots slots = slots.map shown := by
  induction slots with
  | nil => rfl
  | cons s slots ih => cases s <;> simp [displaySlots, shown, ih]

/-- The slot holds digits, or a type that is taken back. -/
def SlotBack (type : Reader Ty) : Slot → Prop
  | .type _ t => ReadsBack type t
  | .value _ text => text ≠ "" ∧ text.toList.all Numeral.isDigit = true

variable {type : Reader Ty}

theorem literal?_digits (present : text ≠ "")
    (all : text.toList.all Numeral.isDigit = true) (before : c.Before (text.toList ++ rest))
    (ends : Ends rest) : ∃ c', literal? c = some (text, c') ∧ c'.Before rest := by
  obtain ⟨c', read, after⟩ := digits_before _ before (List.all_eq_true.mp all) ends.notDigit
  refine ⟨c', ?_, after⟩
  unfold literal?
  rw [read]
  cases chars : text.toList with
  | nil => exact absurd (String.toList_eq_nil_iff.mp chars) present
  | cons d ds =>
    dsimp only
    rw [← chars, String.ofList_toList]

theorem literal?_none (opens : Opens text)
    (before : c.Before (text.toList ++ rest)) : literal? c = none := by
  obtain ⟨x, xs, chars, first⟩ := opens
  have here : c.Before (x :: (xs ++ rest)) := by simpa [chars] using before
  have notDigit : Numeral.isDigit x = false := by
    rcases first with starts | rfl
    · exact isDigit_of_startsName starts
    · decide
  have notQuote : x ≠ '"' := by
    rcases first with starts | rfl
    · exact ne_of_startsName starts (by decide)
    · decide
  obtain ⟨_, none, _⟩ := digits_before [] here (by simp) (by simpa using notDigit)
  unfold literal?
  rw [none]
  dsimp only
  rw [if_neg (by rw [here.peek]; simpa using notQuote)]

theorem SlotBack.argument {s : Slot} (back : SlotBack type s) {c : Cursor} {rest : List Char}
    (before : c.Before ((shown s).toList ++ rest)) (ends : Ends rest) :
    ∃ c', argument type c = .ok (s.rename "", c') ∧ c'.Before rest := by
  unfold Ty.argument
  cases s with
  | value name text =>
    obtain ⟨c', read, after⟩ := literal?_digits back.1 back.2 before ends
    refine ⟨c', ?_, after⟩
    rw [read]
    rfl
  | type name t =>
    obtain ⟨c', read, after⟩ := back.reads (before.skipSpace back.opens.notBlank) ends
    refine ⟨c', ?_, after⟩
    rw [literal?_none back.opens before, read]
    rfl

theorem SlotBack.notBlank {s : Slot} (back : SlotBack type s) {rest : List Char} :
    ∀ x ∈ ((shown s).toList ++ rest).head?, isBlank x = false := by
  cases s with
  | type name t => exact back.opens.notBlank
  | value name text =>
    obtain ⟨present, all⟩ := back
    exact digits_notBlank (mt String.toList_eq_nil_iff.mp present) (List.all_eq_true.mp all)

theorem toList_commas (first next : String) (more : List String) :
    (", ".intercalate (first :: next :: more)).toList =
      first.toList ++ ',' :: ' ' :: (", ".intercalate (next :: more)).toList := by
  rw [String.intercalate_cons_cons, String.toList_append, String.toList_append]
  simp

theorem length_le_commas (texts : List String) :
    texts.length ≤ (", ".intercalate texts).toList.length + 1 := by
  induction texts with
  | nil => simp
  | cons first texts ih =>
    cases texts with
    | nil => simp
    | cons next more =>
      rw [toList_commas]
      simp only [List.length_cons, List.length_append] at ih ⊢
      omega

theorem commas_head {first : String} {more : List String} {rest : List Char} {p : Char → Prop}
    (all : ∀ rest, ∀ x ∈ (first.toList ++ rest).head?, p x) :
    ∀ x ∈ ((", ".intercalate (first :: more)).toList ++ rest).head?, p x := by
  cases more with
  | nil => simpa using all rest
  | cons next more =>
    rw [toList_commas, List.append_assoc]
    exact all _

theorem ends_cons {x : Char} {rest : List Char} (mark : x = ',' ∨ x = ']' ∨ x = ')' ∨ x = '^') :
    Ends (x :: rest) := by
  intro y first
  obtain rfl := Option.some.inj first
  exact mark

theorem arguments_comma {slots : List Slot} {s : Slot} {fuel : Nat} {c after : Cursor}
    (read : argument type c.skipSpace = .ok (s, after)) (mark : after.skipSpace.peek? = some ',') :
    arguments type (fuel + 1) slots c = arguments type fuel (slots ++ [s]) after.skipSpace.skip := by
  rw [arguments, read, bind_ok]
  dsimp only
  rw [mark]
  rfl

theorem arguments_close {slots : List Slot} {s : Slot} {fuel : Nat} {c after : Cursor}
    (read : argument type c.skipSpace = .ok (s, after)) (mark : after.skipSpace.peek? = some ']') :
    arguments type (fuel + 1) slots c = .ok (slots ++ [s], after.skipSpace.skip) := by
  rw [arguments, read, bind_ok]
  dsimp only
  rw [mark]
  rfl

theorem arguments_back {slots acc : List Slot} {fuel : Nat} {c : Cursor} {rest : List Char}
    (present : slots ≠ []) (back : ∀ s ∈ slots, SlotBack type s) (enough : slots.length ≤ fuel)
    (before : c.skipSpace.Before ((", ".intercalate (slots.map shown)).toList ++ ']' :: rest)) :
    ∃ c', arguments type fuel acc c = .ok (acc ++ slots.map (Slot.rename ""), c') ∧
      c'.Before rest := by
  induction slots generalizing acc fuel c with
  | nil => exact absurd rfl present
  | cons s slots ih =>
    obtain ⟨fuel, rfl⟩ : ∃ f, fuel = f + 1 := ⟨fuel - 1, by simp at enough; omega⟩
    rw [List.forall_mem_cons] at back
    cases slots with
    | nil =>
      have here : c.skipSpace.Before ((shown s).toList ++ ']' :: rest) := by simpa using before
      obtain ⟨after, read, left⟩ := back.1.argument here (ends_cons (by simp))
      have left := left.skipSpace (by simp [isBlank])
      refine ⟨after.skipSpace.skip, ?_, left.skip⟩
      rw [arguments_close read left.peek]
      rfl
    | cons next slots =>
      have here : c.skipSpace.Before ((shown s).toList ++
          ',' :: ' ' :: ((", ".intercalate ((next :: slots).map shown)).toList ++ ']' :: rest)) := by
        rw [List.map_cons, List.map_cons, toList_commas] at before
        simpa using before
      obtain ⟨after, read, left⟩ := back.1.argument here (ends_cons (by simp))
      have left := left.skipSpace (by simp [isBlank])
      have onward := left.skip.skipBlank
        (commas_head fun rest => (back.2 next List.mem_cons_self).notBlank)
      obtain ⟨c', done, ended⟩ : ∃ c', arguments type fuel (acc ++ [s.rename ""])
          after.skipSpace.skip =
          .ok (acc ++ [s.rename ""] ++ (next :: slots).map (Slot.rename ""), c') ∧ c'.Before rest :=
        ih (by simp) back.2 (by simpa using enough) onward
      refine ⟨c', ?_, ended⟩
      rw [arguments_comma read left.peek, done, List.append_assoc]
      rfl

/-! ### Runs of components -/

/-- The written form of a run of `n` components `t`. -/
def writtenRun (run : Ty × Nat) : String :=
  if 1 < run.2 then run.1.display ++ "^" ++ toString run.2 else run.1.display

theorem repetition_none {c : Cursor} {rest : List Char} (before : c.Before rest) (ends : Ends rest)
    (single : ∀ x ∈ rest.head?, x ≠ '^') :
    repetition c = .ok (1, c.skipSpace) ∧ c.skipSpace.Before rest := by
  have left := before.skipSpace ends.notBlank
  refine ⟨?_, left⟩
  unfold repetition
  dsimp only
  rw [if_neg]
  rw [left.peek]
  exact fun caret => single '^' caret rfl

theorem repetition_count {c : Cursor} {n : Nat} {rest : List Char} (positive : 1 ≤ n)
    (before : c.Before ('^' :: ((toString n).toList ++ rest))) (ends : Ends rest) :
    ∃ c', repetition c = .ok (n, c') ∧ c'.Before rest := by
  rw [Numeral.toList_toString] at before
  have digit := List.all_eq_true.mp (Numeral.all_isDigit_toDigits n)
  have left := before.skipSpace (by simp [isBlank])
  have inner := left.skip.skipSpace (digits_notBlank Nat.toDigits_ne_nil digit)
  obtain ⟨c', read, after⟩ := digits_before _ inner digit ends.notDigit
  refine ⟨c', ?_, after⟩
  unfold repetition
  dsimp only
  rw [if_pos (by rw [left.peek]; rfl), read]
  have value := Numeral.value_toDigits n
  match Nat.toDigits 10 n, Nat.toDigits_ne_nil (n := n) (b := 10), value with
  | d :: ds, _, value =>
    dsimp only
    rw [value, if_neg (by omega)]

/-- A run is read as a component and how often it is repeated. -/
theorem ReadsBack.run {t : Ty} (back : ReadsBack type t) {n : Nat} (positive : 1 ≤ n) {c : Cursor}
    {rest : List Char} (before : c.skipSpace.Before ((writtenRun (t, n)).toList ++ rest))
    (ends : Ends rest) (single : ∀ x ∈ rest.head?, x ≠ '^') :
    ∃ c₁ c₂, type c = .ok (t, c₁) ∧ repetition c₁ = .ok (n, c₂) ∧ c₂.Before rest := by
  unfold writtenRun at before
  dsimp only at before
  split at before
  · have here : c.skipSpace.Before (t.display.toList ++ '^' :: ((toString n).toList ++ rest)) := by
      simpa using before
    obtain ⟨c₁, read, after⟩ := back.reads here (ends_cons (by simp))
    obtain ⟨c₂, counted, left⟩ := repetition_count positive after ends
    exact ⟨c₁, c₂, read, counted, left⟩
  · obtain rfl : n = 1 := by omega
    obtain ⟨c₁, read, after⟩ := back.reads before ends
    obtain ⟨counted, left⟩ := repetition_none after ends single
    exact ⟨c₁, _, read, counted, left⟩

theorem ReadsBack.notBlank {t : Ty} (back : ReadsBack type t) {n : Nat} {rest : List Char} :
    ∀ x ∈ ((writtenRun (t, n)).toList ++ rest).head?, isBlank x = false := by
  unfold writtenRun
  dsimp only
  split
  · rw [String.append_assoc, String.toList_append, List.append_assoc]
    exact back.opens.notBlank
  · exact back.opens.notBlank

/-- The components that runs stand for. -/
def spread (groups : List (Ty × Nat)) : List Ty := groups.flatMap fun g => List.replicate g.2 g.1

section

variable {components : List Ty} {t : Ty} {n fuel : Nat} {c c₁ c₂ : Cursor}

theorem runsOf_comma (read : type c = .ok (t, c₁)) (counted : repetition c₁ = .ok (n, c₂))
    (fits : components.length + n ≤ maxComponents) (mark : c₂.skipSpace.peek? = some ',') :
    runsOf type (fuel + 1) components c =
      runsOf type fuel (components ++ List.replicate n t) c₂.skipSpace.skip := by
  rw [runsOf, read, bind_ok]
  dsimp only
  rw [counted, bind_ok]
  dsimp only
  rw [if_neg (Nat.not_lt.mpr fits), mark]
  rfl

theorem runsOf_close (read : type c = .ok (t, c₁)) (counted : repetition c₁ = .ok (n, c₂))
    (fits : components.length + n ≤ maxComponents) (mark : c₂.skipSpace.peek? = some ')') :
    runsOf type (fuel + 1) components c =
      .ok (components ++ List.replicate n t, c₂.skipSpace.skip) := by
  rw [runsOf, read, bind_ok]
  dsimp only
  rw [counted, bind_ok]
  dsimp only
  rw [if_neg (Nat.not_lt.mpr fits), mark]
  rfl

end

theorem runsOf_back {groups : List (Ty × Nat)} {acc : List Ty} {fuel : Nat} {c : Cursor}
    {rest : List Char} (present : groups ≠ []) (back : ∀ g ∈ groups, ReadsBack type g.1 ∧ 1 ≤ g.2)
    (enough : groups.length ≤ fuel) (small : acc.length + (spread groups).length ≤ maxComponents)
    (before : c.skipSpace.Before ((", ".intercalate (groups.map writtenRun)).toList ++ ')' :: rest)) :
    ∃ c', runsOf type fuel acc c = .ok (acc ++ spread groups, c') ∧ c'.Before rest := by
  induction groups generalizing acc fuel c with
  | nil => exact absurd rfl present
  | cons g groups ih =>
    obtain ⟨t, n⟩ := g
    obtain ⟨fuel, rfl⟩ : ∃ f, fuel = f + 1 := ⟨fuel - 1, by simp at enough; omega⟩
    rw [List.forall_mem_cons] at back
    obtain ⟨⟨typed, positive⟩, later⟩ := back
    have unfolded : spread ((t, n) :: groups) = List.replicate n t ++ spread groups := rfl
    rw [unfolded] at small ⊢
    simp only [List.length_append, List.length_replicate] at small
    have fits : acc.length + n ≤ maxComponents := by omega
    cases groups with
    | nil =>
      have here : c.skipSpace.Before ((writtenRun (t, n)).toList ++ ')' :: rest) := by
        simpa using before
      obtain ⟨c₁, c₂, read, counted, left⟩ := typed.run positive here (ends_cons (by simp)) (by simp)
      have left := left.skipSpace (by simp [isBlank])
      refine ⟨c₂.skipSpace.skip, ?_, left.skip⟩
      rw [runsOf_close read counted fits left.peek]
      simp [spread]
    | cons next groups =>
      have here : c.skipSpace.Before ((writtenRun (t, n)).toList ++ ',' :: ' ' ::
          ((", ".intercalate ((next :: groups).map writtenRun)).toList ++ ')' :: rest)) := by
        rw [List.map_cons, List.map_cons, toList_commas] at before
        simpa using before
      obtain ⟨c₁, c₂, read, counted, left⟩ := typed.run positive here (ends_cons (by simp)) (by simp)
      have left := left.skipSpace (by simp [isBlank])
      have onward := left.skip.skipBlank
        (commas_head fun rest => (later next List.mem_cons_self).1.notBlank)
      obtain ⟨c', done, ended⟩ : ∃ c', runsOf type fuel (acc ++ List.replicate n t)
          c₂.skipSpace.skip = .ok (acc ++ List.replicate n t ++ spread (next :: groups), c') ∧
          c'.Before rest :=
        ih (by simp) later (by simpa using enough) (by simpa [Nat.add_assoc] using small) onward
      refine ⟨c', ?_, ended⟩
      rw [runsOf_comma read counted fits left.peek, done, List.append_assoc]

/-! ### Counted lists -/

theorem layerCount_back {c : Cursor} {n : Int} {rest : List Char}
    (bounds : 1 ≤ n ∧ n ≤ Numeral.greatest)
    (before : c.Before ((if 1 < n then toString n else "").toList ++ ')' :: rest)) :
    ∃ c', layerCount c.skipSpace = .ok (n, c') ∧ c'.Before (')' :: rest) := by
  have noDigit : ∀ x ∈ (')' :: rest).head?, Numeral.isDigit x = false := by
    rintro x ⟨⟩
    decide
  split at before
  · have written := Numeral.toList_toString_int (show 0 ≤ n by omega)
    rw [written] at before
    have digit := List.all_eq_true.mp (Numeral.all_isDigit_toDigits n.toNat)
    have inner := before.skipSpace (digits_notBlank Nat.toDigits_ne_nil digit)
    obtain ⟨c', read, after⟩ := digits_before _ inner digit noDigit
    refine ⟨c', ?_, after⟩
    have counted : Numeral.count? (String.ofList (Nat.toDigits 10 n.toNat)) = some n := by
      rw [← written, String.ofList_toList]
      exact Numeral.count?_toString_iff.mpr ⟨rfl, bounds⟩
    unfold layerCount
    rw [read]
    match Nat.toDigits 10 n.toNat, Nat.toDigits_ne_nil (n := n.toNat) (b := 10), counted with
    | d :: ds, _, counted =>
      dsimp only
      rw [counted]
  · obtain rfl : n = 1 := by omega
    have inner := before.skipSpace (by simp [isBlank])
    obtain ⟨c', read, after⟩ := digits_before [] inner (by simp) noDigit
    refine ⟨c', ?_, after⟩
    unfold layerCount
    rw [read]

theorem countedList_back {c : Cursor} {n : Int} {elem : Ty} {rest : List Char}
    (back : ReadsBack type elem) (notList : elem.isList = false)
    (bounds : 1 ≤ n ∧ n ≤ Numeral.greatest)
    (before : c.Before ('(' :: ((if 1 < n then toString n else "").toList ++
      ')' :: ' ' :: (elem.display.toList ++ rest)))) (ends : Ends rest) :
    ∃ c', countedList type c = .ok (layered n elem, c') ∧ c'.Before rest := by
  obtain ⟨c₁, counted, closing⟩ := layerCount_back bounds before.skip
  have closing := closing.skipSpace (by simp [isBlank])
  obtain ⟨c', read, after⟩ := back.reads (closing.skip.skipBlank back.opens.notBlank) ends
  refine ⟨c', ?_, after⟩
  unfold countedList
  rw [counted]
  change (if c₁.skipSpace.peek? = some ')' then _ else _) = _
  rw [if_pos (by rw [closing.peek]; rfl), read]
  change (Except.mapError Stop.broken (listN elem n) >>= fun t => _) = _
  rw [listN_layered bounds.1 notList]
  rfl

/-! ### Named types -/

/-- The arguments in brackets, nothing if there are none. -/
def bracketed (slots : List Slot) : List Char :=
  if slots.isEmpty then [] else '[' :: ((", ".intercalate (slots.map shown)).toList ++ [']'])

/-- What may follow a name in a path. -/
def Follows (rest : List Char) : Prop := ∀ x ∈ rest.head?, x = '.' ∨ x = '[' ∨ Ends [x]

theorem Follows.dotted {names : List String} {rest : List Char} (follows : Follows rest) :
    Follows (dotted names ++ rest) := by
  cases names with
  | nil => exact follows
  | cons _ _ =>
    rintro x ⟨⟩
    exact .inl rfl

theorem Follows.stops {rest : List Char} (follows : Follows rest) : Stops rest := by
  intro x first
  rcases follows x first with rfl | rfl | ends
  · decide
  · decide
  · exact ends.stops x rfl

theorem Follows.notBlank {rest : List Char} (follows : Follows rest) :
    ∀ x ∈ rest.head?, isBlank x = false := by
  intro x first
  rcases follows x first with rfl | rfl | ends
  · decide
  · decide
  · exact ends.notBlank x rfl

theorem Follows.notOpen {rest : List Char} (follows : Follows rest) : rest.head? ≠ some '(' := by
  intro first
  rcases follows '(' first with same | same | ends
  · cases same
  · cases same
  · rcases ends '(' rfl with same | same | same | same <;> cases same

theorem length_le_dotted (names : List String) : names.length ≤ (dotted names).length := by
  induction names with
  | nil => exact Nat.le_refl 0
  | cons name names ih =>
    simp only [dotted, List.flatMap_cons, List.length_append, List.length_cons] at ih ⊢
    omega

theorem Ends.follows {rest : List Char} (ends : Ends rest) : Follows rest :=
  fun x first => .inr (.inr (ends_cons (ends x first)))

/-- The cursor behind the first name of a path: after the word `list` the blanks are skipped too. -/
def behindName (first : String) (c : Cursor) : Cursor :=
  if first = "list" then c.skipSpace else c

theorem names_back {first : String} {more : List String} {c : Cursor} {rest : List Char}
    (valid : ∀ name ∈ first :: more, IsName name)
    (before : c.skipSpace.Before (first.toList ++ (dotted more ++ rest)))
    (follows : Follows rest) (noDot : ∀ x ∈ rest.head?, x ≠ '.') :
    (word c).1 = first ∧ (word c).2.skipSpace.peek? ≠ some '(' ∧
      ∃ c', segments (behindName first (word c).2).rest.length [first]
        (behindName first (word c).2) = .ok (first :: more, c') ∧ c'.Before rest := by
  obtain ⟨isName, valid⟩ := List.forall_mem_cons.mp valid
  obtain ⟨read, after⟩ := word_name before isName follows.dotted.stops
  have blanks := after.skipSpace follows.dotted.notBlank
  refine ⟨read, ?_, ?_⟩
  · rw [blanks.peek]
    exact follows.dotted.notOpen
  · have start : (behindName first (word c).2).Before (dotted more ++ rest) := by
      unfold behindName
      split
      · exact blanks
      · exact after
    refine segments_dotted start valid ?_ follows.stops noDot
    have := length_le_dotted more
    rw [start.rest, List.length_append]
    omega

theorem namedType_back {generics : List String} {first : String} {more : List String}
    {slots : List Slot} {c : Cursor} {rest : List Char}
    (valid : ∀ name ∈ first :: more, IsName name)
    (notList : (mk (mainPath generics (first :: more)) []).isList = false)
    (back : ∀ s ∈ slots, SlotBack type s)
    (before : c.skipSpace.Before (first.toList ++ (dotted more ++ (bracketed slots ++ rest))))
    (ends : Ends rest) :
    ∃ c', namedType generics type c =
      .ok (mk (mainPath generics (first :: more)) (Slot.positional slots), c') ∧ c'.Before rest := by
  have isName := valid first List.mem_cons_self
  have opened : Follows (bracketed slots ++ rest) ∧
      ∀ x ∈ (bracketed slots ++ rest).head?, x ≠ '.' := by
    unfold bracketed
    split
    · refine ⟨ends.follows, ?_⟩
      rintro _ dot rfl
      rcases ends '.' dot with same | same | same | same <;> cases same
    · exact ⟨by rintro x ⟨⟩; exact .inr (.inl rfl), by rintro x ⟨⟩; decide⟩
  obtain ⟨read, notCounted, c₂, segmented, left⟩ := names_back valid before opened.1 opened.2
  have left := left.skipSpace opened.1.notBlank
  unfold behindName at segmented
  unfold namedType
  dsimp only
  rw [read, segmented, isName.isEmpty_eq, if_neg Bool.false_ne_true,
    if_neg (by simp [notCounted]), bind_ok]
  dsimp only
  cases slots with
  | nil =>
    have left : c₂.skipSpace.Before rest := left
    refine ⟨c₂.skipSpace, ?_, left⟩
    rw [if_neg]
    · rfl
    · rw [left.peek]
      intro opening
      rcases ends '[' opening with same | same | same | same <;> cases same
  | cons s slots =>
    have left : c₂.skipSpace.Before ('[' :: ((", ".intercalate ((s :: slots).map shown)).toList ++
        ']' :: rest)) := by
      simpa [bracketed] using left
    have inner := left.skip.skipSpace (commas_head fun rest => (back s List.mem_cons_self).notBlank)
    have room : (s :: slots).length ≤ c₂.skipSpace.rest.length + 1 := by
      have := length_le_commas ((s :: slots).map shown)
      rw [left.rest]
      simp only [List.length_map, List.length_cons, List.length_append] at this ⊢
      omega
    obtain ⟨c', args, ended⟩ : ∃ c', arguments type (c₂.skipSpace.rest.length + 1) []
        c₂.skipSpace.skip = .ok ([] ++ (s :: slots).map (Slot.rename ""), c') ∧ c'.Before rest :=
      arguments_back (by simp) back room inner
    refine ⟨c', ?_, ended⟩
    rw [if_pos (by rw [left.peek]; rfl), args, bind_ok]
    dsimp only
    rw [notList, if_neg Bool.false_ne_true, List.nil_append, Slot.positional, Slot.numberFrom_rename]
    rfl

end TypeEngine.Ty
