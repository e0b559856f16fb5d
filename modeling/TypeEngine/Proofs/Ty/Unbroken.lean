import Mathlib.Data.List.DropRight
import TypeEngine.Proofs.Ty.RoundTrip
import TypeEngine.Proofs.Ty.Tidy

/-!
# Texts that break a rule while they are read

A list is built as soon as its element is read, and its layers are added to those of the element
then, before the shapes are checked. A rule on shapes can break there. Two things in a text lead to
it: the name `list` alone, where it is the element, and numbers so large that a sum of layers can
leave the 64-bit range. `parse_outcome` says that there are no others.
-/

namespace TypeEngine.Ty

open Cursor

variable {budget : Nat}

/-! ### What is looked for in a text -/

/-- The name `list` stands here, with neither arguments nor a further segment behind it. -/
def bareListHere (cs : List Char) : Bool :=
  nameChars cs == ['l', 'i', 's', 't'] &&
    ((cs.drop 4).dropWhile isBlank).head?.all fun x => x != '(' && x != '[' && x != '.'

/-- The name `list` stands alone somewhere. `inName` tells that a name goes on here. -/
def namesBareList (inName : Bool) : List Char → Bool
  | [] => false
  | x :: xs => (!inName && bareListHere (x :: xs)) || namesBareList (continuesName x) xs

/-- The largest number that is spelled; the digits just before spell `n`. -/
def largestNumber (n : Nat) : List Char → Nat
  | [] => n
  | x :: xs =>
    if Numeral.isDigit x then largestNumber (n * 10 + (x.toNat - '0'.toNat)) xs
    else max n (largestNumber 0 xs)

/-- What in the text is to blame for a broken rule. -/
inductive Blame (text : List Char) : Violation → Prop where
  | bareList : namesBareList false text = true → Blame text (.listArity 0)
  | overflow {n : Int} : n < 0 →
      Numeral.greatest < (largestNumber 0 text * (defaultLimit + 1) : Nat) →
      Blame text (.listCount (toString n))

variable {text : List Char}

theorem namesBareList_append {rest : List Char} (bare : bareListHere rest = true)
    (before : List Char) (inName : Bool)
    (apart : (before.getLast?.map continuesName).getD inName = false) :
    namesBareList inName (before ++ rest) = true := by
  induction before generalizing inName with
  | nil =>
    obtain rfl : inName = false := apart
    cases rest with
    | nil => cases bare
    | cons x xs => simp [namesBareList, bare]
  | cons b before ih =>
    rw [List.cons_append, namesBareList, ih, Bool.or_true]
    cases before with
    | nil => simpa using apart
    | cons d before => simpa [List.getLast?_cons_cons, List.getLast?_cons] using apart

theorem le_largestNumber (cs : List Char) (n : Nat) : n ≤ largestNumber n cs := by
  induction cs generalizing n with
  | nil => exact Nat.le_refl n
  | cons x xs ih =>
    rw [largestNumber]
    split
    · exact Nat.le_trans (by omega) (ih _)
    · exact Nat.le_max_left ..

theorem foldl_le_largestNumber {ds : List Char} (digits : ∀ d ∈ ds, Numeral.isDigit d = true)
    (rest : List Char) {n m : Nat} (le : n ≤ m) :
    ds.foldl (fun n c => n * 10 + (c.toNat - '0'.toNat)) n ≤ largestNumber m (ds ++ rest) := by
  induction ds generalizing n m with
  | nil => exact Nat.le_trans le (le_largestNumber rest m)
  | cons d ds ih =>
    rw [List.forall_mem_cons] at digits
    rw [List.cons_append, largestNumber, if_pos digits.1]
    exact ih digits.2 (by dsimp only; omega)

theorem value_le_largestNumber {ds : List Char} (digits : ∀ d ∈ ds, Numeral.isDigit d = true)
    (inside : ds <:+: text) : Numeral.value ds ≤ largestNumber 0 text := by
  obtain ⟨before, rest, rfl⟩ := inside
  rw [List.append_assoc]
  generalize 0 = n
  induction before generalizing n with
  | nil => exact foldl_le_largestNumber digits rest (Nat.zero_le n)
  | cons b before ih =>
    rw [List.cons_append, largestNumber]
    split
    · exact ih _
    · exact Nat.le_trans (ih 0) (Nat.le_max_right ..)

theorem count_le_largestNumber {s : String} {n : Int} (inside : s.toList <:+: text)
    (counted : Numeral.count? s = some n) : n ≤ largestNumber 0 text := by
  have spelled : ∀ cs k, cs <:+: text → Numeral.natural? cs = some k → k ≤ largestNumber 0 text := by
    intro cs k inside natural
    unfold Numeral.natural? at natural
    split at natural
    · rename_i digits
      obtain rfl := Option.some.inj natural
      exact value_le_largestNumber (by simp at digits; exact digits.2) inside
    · cases natural
  have ranged : ∀ k, Numeral.inRange? k = some n → n = k := by
    intro k same
    unfold Numeral.inRange? at same
    split at same
    · exact (Option.some.inj same).symm
    · cases same
  unfold Numeral.count? at counted
  obtain ⟨read, _⟩ := Option.filter_eq_some_iff.mp counted
  unfold Numeral.read? at read
  split at read
  · obtain ⟨k, _, same⟩ := Option.bind_eq_some_iff.mp read
    have := ranged _ same
    omega
  · rename_i cs same'
    obtain ⟨k, natural, same⟩ := Option.bind_eq_some_iff.mp read
    have := ranged _ same
    have := spelled cs k ((List.suffix_cons ..).isInfix.trans (same' ▸ inside)) natural
    omega
  · obtain ⟨k, natural, same⟩ := Option.bind_eq_some_iff.mp read
    have := ranged _ same
    have := spelled _ k inside natural
    omega

/-! ### Layers -/

/-- The layers of a list can be counted, or the text is to blame. Each level of nesting adds at most
the largest number of the text. -/
structure Counted (text : List Char) (budget : Nat) (t : Ty) : Prop where
  layers {n : Int} {elem : Ty} :
    t.listParts = .ok (some (n, elem)) → n ≤ (budget * max 1 (largestNumber 0 text) : Nat)
  blame {v : Violation} : t.listParts = .error v → Blame text v

theorem counted_of_other {t : Ty} (other : t.isList = false) :
    Counted text budget t := by
  have parts : t.listParts = .ok none := by rw [listParts, other]; rfl
  constructor <;> intros <;> simp_all

/-- A sum of layers that is below zero has left the 64-bit range. -/
theorem counted_layered (limit : budget ≤ defaultLimit + 1) {total : Int} {elem : Ty}
    (positive : 1 ≤ total) (twice : total ≤ 2 * Numeral.greatest)
    (le : total ≤ (budget * max 1 (largestNumber 0 text) : Nat)) :
    Counted text budget (layered (wrap total) elem) := by
  by_cases small : total ≤ Numeral.greatest
  · rw [Numeral.wrap_eq_self (by omega) small]
    have list : (layered total elem).listParts = .ok (some (total, elem)) :=
      listParts_layered ⟨positive, small⟩
    constructor
    · intro n u same
      obtain ⟨rfl, _⟩ := listParts_unique list same
      exact le
    · intro v same
      cases list.symm.trans same
  · have negative : wrap total < 0 := Numeral.wrap_neg (by omega) twice
    have large : Numeral.greatest < (largestNumber 0 text * (defaultLimit + 1) : Nat) := by
      have bound : budget * max 1 (largestNumber 0 text) ≤
          (defaultLimit + 1) * max 1 (largestNumber 0 text) := Nat.mul_le_mul_right _ limit
      simp only [defaultLimit, Numeral.greatest] at bound small ⊢
      omega
    have list : (layered (wrap total) elem).listParts = .error (.listCount (toString (wrap total))) :=
      listParts_layered_of_not (by omega)
    constructor
    · intro n u same
      cases list.symm.trans same
    · intro v same
      obtain rfl := Except.error.inj (list.symm.trans same)
      exact .overflow negative large

/-- Wrapping adds a level of nesting. -/
theorem Counted.listN {t : Ty} (counted : Counted text budget t)
    (limit : budget ≤ defaultLimit) {n : Int} (bounds : 1 ≤ n ∧ n ≤ Numeral.greatest)
    (le : n ≤ (max 1 (largestNumber 0 text) : Nat)) :
    (∃ u, Ty.listN t n = .ok u ∧ Counted text (budget + 1) u) ∨
      ∃ v, Ty.listN t n = .error v ∧ Blame text v := by
  rw [Ty.listN, if_neg (by omega)]
  cases parts : t.listParts with
  | error v => exact .inr ⟨v, rfl, counted.blame parts⟩
  | ok found =>
    have step : (budget + 1) * max 1 (largestNumber 0 text) =
        budget * max 1 (largestNumber 0 text) + max 1 (largestNumber 0 text) := Nat.succ_mul ..
    cases found with
    | none =>
      have added : Counted text (budget + 1) (layered (wrap n) t) :=
        counted_layered (Nat.add_le_add_right limit 1) bounds.1 (by omega) (by omega)
      rw [Numeral.wrap_eq_self (by omega) bounds.2] at added
      exact .inl ⟨_, rfl, added⟩
    | some found =>
      obtain ⟨m, elem⟩ := found
      have layers := counted.layers parts
      have inner := listParts_bounds parts
      exact .inl ⟨_, rfl,
        counted_layered (Nat.add_le_add_right limit 1) (by omega) (by omega) (by omega)⟩

/-! ### Where the cursor stands -/

namespace Cursor

variable {c : Cursor} {x : Char}

theorem skip_suffix (c : Cursor) : c.skip.rest <:+ c.rest := List.drop_suffix ..

theorem skipWhile_suffix (p : Char → Bool) (c : Cursor) : (c.skipWhile p).rest <:+ c.rest :=
  List.dropWhile_suffix p

theorem skipSpace_suffix (c : Cursor) : c.skipSpace.rest <:+ c.rest := c.skipWhile_suffix _

/-- The rest of the text is unread, and the character before it does not belong to a name. -/
def Apart (text : List Char) (c : Cursor) : Prop :=
  ∃ before, text = before ++ c.rest ∧ ∀ x ∈ before.getLast?, continuesName x = false

theorem Apart.suffix (apart : c.Apart text) : c.rest <:+ text := by
  obtain ⟨before, same, _⟩ := apart
  exact ⟨before, same.symm⟩

theorem Apart.of_peek (inside : c.rest <:+ text) (next : c.peek? = some x)
    (mark : continuesName x = false) : c.skip.Apart text := by
  obtain ⟨rest, same⟩ := List.head?_eq_some_iff.mp next
  obtain ⟨before, whole⟩ := inside
  refine ⟨before ++ [x], by simp [skip, Cursor.drop, ← whole, same], fun y last => ?_⟩
  rw [List.getLast?_concat] at last
  rwa [← Option.some.inj last]

theorem continuesName_of_isBlank (blank : isBlank x = true) : continuesName x = false := by
  rcases Bool.or_eq_true_iff.mp blank with same | same <;> rw [beq_iff_eq.mp same] <;> decide

theorem rest_skipSpace (c : Cursor) : c.skipSpace.rest = c.rest.dropWhile isBlank := rfl

theorem Apart.skipSpace (apart : c.Apart text) : c.skipSpace.Apart text := by
  obtain ⟨before, whole, mark⟩ := apart
  refine ⟨before ++ c.rest.takeWhile isBlank, ?_, fun x last => ?_⟩
  · rw [List.append_assoc, rest_skipSpace, List.takeWhile_append_dropWhile]
    exact whole
  · rw [List.getLast?_append] at last
    cases blanks : (c.rest.takeWhile isBlank).getLast? with
    | none =>
      rw [blanks] at last
      exact mark x last
    | some y =>
      rw [blanks] at last
      obtain rfl := Option.some.inj last
      exact continuesName_of_isBlank
        (List.all_eq_true.mp List.all_takeWhile y (List.mem_of_getLast? blanks))

end Cursor

theorem word_suffix (c : Cursor) : (word c).2.rest <:+ c.rest :=
  (List.drop_suffix ..).trans (skipSpace_suffix c)

theorem digits_front (c : Cursor) :
    (digits c).1 <+: c.rest ∧ (∀ d ∈ (digits c).1, Numeral.isDigit d = true) ∧
      (digits c).2.rest <:+ c.rest :=
  ⟨List.takeWhile_prefix _, List.all_eq_true.mp List.all_takeWhile, skipWhile_suffix _ c⟩

theorem literal?_inside {c c' : Cursor} {s : String} (found : literal? c = some (s, c')) :
    s.toList <:+: c.rest ∧ c'.rest <:+ c.rest := by
  unfold literal? at found
  obtain ⟨front, _, rest⟩ := digits_front c
  split at found
  · rename_i d ds after same
    obtain ⟨rfl, rfl⟩ := Prod.mk.inj (Option.some.inj found)
    rw [same] at front rest
    rw [String.toList_ofList]
    exact ⟨front.isInfix, rest⟩
  · split at found
    · dsimp only at found
      split at found
      · cases found
      · obtain ⟨rfl, rfl⟩ := Prod.mk.inj (Option.some.inj found)
        rw [String.toList_ofList]
        have front := List.takeWhile_prefix (l := c.skip.rest) (· != '"')
        exact ⟨front.isInfix.trans (skip_suffix c).isInfix,
          ((skip_suffix _).trans (skipWhile_suffix ..)).trans (skip_suffix c)⟩
    · cases found

/-! ### Readers -/

/-- Reading gives a result with the property, is refused, or breaks a rule that the text is to blame
for. -/
inductive Answers {α : Type} (text : List Char) (P : α → Prop) : Except Stop (α × Cursor) → Prop where
  | ok {a : α} {c : Cursor} : P a → c.rest <:+ text → Answers text P (.ok (a, c))
  | refused {pos : Nat} {cause : Malformation} : Answers text P (.error (.at pos cause))
  | tooComplex : Answers text P (.error .tooComplex)
  | broken {v : Violation} : Blame text v → Answers text P (.error (.broken v))

theorem Answers.bind {α β : Type} {P : α → Prop} {Q : β → Prop} {x : Except Stop (α × Cursor)}
    {f : α × Cursor → Except Stop (β × Cursor)} (first : Answers text P x)
    (next : ∀ a c, x = .ok (a, c) → P a → c.rest <:+ text → Answers text Q (f (a, c))) :
    Answers text Q (x >>= f) := by
  cases first with
  | ok holds inside => exact next _ _ rfl holds inside
  | refused => exact .refused
  | tooComplex => exact .tooComplex
  | broken blame => exact .broken blame

theorem segments_answers (fuel : Nat) {names : List String} {c : Cursor} (inside : c.rest <:+ text) :
    Answers text (fun _ => True) (segments fuel names c) := by
  induction fuel generalizing names c with
  | zero => exact .ok trivial inside
  | succ fuel ih =>
    rw [segments]
    split
    · dsimp only
      split
      · exact .refused
      · exact ih (((word_suffix _).trans (skip_suffix c)).trans inside)
    · exact .ok trivial inside

/-- A type in a slot can be counted, and a value stands in the text. -/
def SlotCounted (text : List Char) (budget : Nat) : Slot → Prop
  | .type _ t => Counted text budget t
  | .value _ s => s.toList <:+: text

variable {type : Reader Ty} {budget : Nat}

/-- The reader of types at the level below. -/
def Nested (text : List Char) (budget : Nat) (type : Reader Ty) : Prop :=
  ∀ c : Cursor, c.Apart text → Answers text (Counted text budget) (type c)

theorem argument_answers (nested : Nested text budget type) {c : Cursor} (apart : c.Apart text) :
    Answers text (SlotCounted text budget) (argument type c) := by
  unfold argument
  split
  · rename_i s after found
    obtain ⟨segment, rest⟩ := literal?_inside found
    exact .ok (segment.trans apart.suffix.isInfix) (rest.trans apart.suffix)
  · exact (nested c apart).bind fun t after _ counted inside => .ok counted inside

theorem arguments_answers (nested : Nested text budget type) (fuel : Nat) {slots : List Slot}
    {c : Cursor} (apart : c.Apart text) (counted : ∀ s ∈ slots, SlotCounted text budget s) :
    Answers text (fun all => ∀ s ∈ all, SlotCounted text budget s) (arguments type fuel slots c) := by
  induction fuel generalizing slots c with
  | zero => exact .refused
  | succ fuel ih =>
    rw [arguments]
    refine (argument_answers nested apart.skipSpace).bind fun slot after _ held inside => ?_
    have inside := (skipSpace_suffix after).trans inside
    have all : ∀ s ∈ slots ++ [slot], SlotCounted text budget s :=
      List.forall_mem_append.mpr ⟨counted, List.forall_mem_singleton.mpr held⟩
    dsimp only
    split
    · rename_i comma
      exact ih (.of_peek inside comma (by decide)) all
    · exact .ok all ((skip_suffix _).trans inside)
    · exact .refused

theorem repetition_answers {c : Cursor} (inside : c.rest <:+ text) :
    Answers text (fun _ => True) (repetition c) := by
  have blanks := (skipSpace_suffix c).trans inside
  unfold repetition
  dsimp only
  split
  · have count := (digits_front c.skipSpace.skip.skipSpace).2.2
    have count := ((count.trans (skipSpace_suffix _)).trans (skip_suffix _)).trans blanks
    split
    · exact .refused
    · rename_i same
      rw [same] at count
      split
      · exact .refused
      · exact .ok trivial count
  · exact .ok trivial blanks

theorem runsOf_answers (nested : Nested text budget type) (fuel : Nat) {components : List Ty}
    {c : Cursor} (apart : c.Apart text) :
    Answers text (fun _ => True) (runsOf type fuel components c) := by
  induction fuel generalizing components c with
  | zero => exact .refused
  | succ fuel ih =>
    rw [runsOf]
    refine (nested c apart).bind fun t after _ _ inside => ?_
    refine (repetition_answers inside).bind fun run after _ _ inside => ?_
    have inside := (skipSpace_suffix after).trans inside
    dsimp only
    split
    · exact .refused
    split
    · rename_i comma
      exact ih (.of_peek inside comma (by decide))
    · exact .ok trivial ((skip_suffix _).trans inside)
    · exact .refused

theorem layerCount_answers {c : Cursor} (inside : c.rest <:+ text) :
    Answers text (fun n => (1 ≤ n ∧ n ≤ Numeral.greatest) ∧ n ≤ (max 1 (largestNumber 0 text) : Nat))
      (layerCount c) := by
  obtain ⟨front, _, rest⟩ := digits_front c
  unfold layerCount
  split
  · rename_i same
    rw [same] at rest
    exact .ok ⟨by decide, by omega⟩ (rest.trans inside)
  · rename_i same
    rw [same] at front rest
    split
    · rename_i n counted
      have le : n ≤ largestNumber 0 text :=
        count_le_largestNumber (by simpa using front.isInfix.trans inside.isInfix) counted
      exact .ok ⟨Numeral.count?_bounds counted, by omega⟩ (rest.trans inside)
    · exact .refused

theorem countedList_answers (nested : Nested text budget type) (limit : budget ≤ defaultLimit)
    {c : Cursor} (inside : c.rest <:+ text) :
    Answers text (Counted text (budget + 1)) (countedList type c) := by
  unfold countedList
  have opened := ((skipSpace_suffix _).trans (skip_suffix c)).trans inside
  refine (layerCount_answers opened).bind fun n after _ bounds inside => ?_
  have inside := (skipSpace_suffix after).trans inside
  dsimp only
  split
  · rename_i closed
    have apart : after.skipSpace.skip.Apart text := .of_peek inside closed (by decide)
    refine (nested _ apart).bind fun elem after _ counted inside => ?_
    rcases counted.listN limit bounds.1 bounds.2 with ⟨u, built, counted⟩ | ⟨v, built, blame⟩
    · dsimp only
      rw [built]
      exact .ok counted inside
    · dsimp only
      rw [built]
      exact .broken blame
  · exact .refused

theorem bracketList_answers (limit : budget ≤ defaultLimit) {slots : List Slot}
    (counted : ∀ s ∈ slots, SlotCounted text budget s) {c : Cursor} (inside : c.rest <:+ text) :
    Answers text (Counted text (budget + 1)) (bracketList slots c) := by
  have wrapped : ∀ elem n, Counted text budget elem → 1 ≤ n ∧ n ≤ Numeral.greatest →
      n ≤ (max 1 (largestNumber 0 text) : Nat) → Answers text (Counted text (budget + 1))
        (((listN elem n).mapError Stop.broken).map (·, c)) := by
    intro elem n counted bounds le
    rcases counted.listN limit bounds le with ⟨u, built, counted⟩ | ⟨v, built, blame⟩
    · rw [built]
      exact .ok counted inside
    · rw [built]
      exact .broken blame
  unfold bracketList
  split
  · rename_i name elem
    exact wrapped elem 1 (counted (.type name elem) (by simp)) (by decide) (by omega)
  · rename_i name s name' elem
    split
    · rename_i n count
      have le : n ≤ largestNumber 0 text :=
        count_le_largestNumber (counted (.value name s) (by simp)) count
      exact wrapped elem n (counted (.type name' elem) (by simp)) (Numeral.count?_bounds count)
        (by omega)
    · exact .refused
  · exact .refused

/-! ### Names -/

theorem isList_mainPath {generics names : List String} (present : names ≠ [])
    (list : (mk (mainPath generics names) []).isList = true) : names = ["list"] := by
  have path : (mainPath generics names).bare = (Path.ofPrimitive "list").bare :=
    Path.beq_iff_bare.mp list
  have spelled : (mainPath generics names).blocks.map Block.name = names := names_mainPath present
  rw [← spelled, ← bare_mainPath, path]
  rfl

theorem segments_single {fuel : Nat} {name : String} {c c' : Cursor} (enough : c.rest.length ≤ fuel)
    (done : segments fuel [name] c = .ok ([name], c')) :
    c' = c ∧ c.peek? ≠ some '.' := by
  cases fuel with
  | zero =>
    obtain ⟨_, rfl⟩ := Prod.mk.inj (Except.ok.inj done)
    rw [Nat.le_zero, List.length_eq_zero_iff] at enough
    simp [peek?, enough]
  | succ fuel =>
    rw [segments] at done
    split at done
    · dsimp only at done
      split at done
      · cases done
      · obtain ⟨more, same, _⟩ := segments_yields fuel done
        cases same
    · rename_i noDot
      obtain ⟨_, rfl⟩ := Prod.mk.inj (Except.ok.inj done)
      exact ⟨rfl, noDot⟩

theorem bareList_of_word {c : Cursor} (apart : c.Apart text) (isList : (word c).1 = "list")
    (alone : ∀ x ∈ (word c).2.skipSpace.peek?, x ≠ '(' ∧ x ≠ '[' ∧ x ≠ '.') :
    namesBareList false text = true := by
  have name : nameChars c.skipSpace.rest = ['l', 'i', 's', 't'] := by
    rw [← String.toList_ofList (l := nameChars c.skipSpace.rest)]
    exact congrArg String.toList isList
  have after : (word c).2.rest = c.skipSpace.rest.drop 4 := by
    change c.skipSpace.rest.drop (nameChars c.skipSpace.rest).length = _
    rw [name]
    rfl
  rw [peek?, rest_skipSpace, after] at alone
  have bare : bareListHere c.skipSpace.rest = true := by
    rw [bareListHere, name, beq_self_eq_true, Bool.true_and, Option.all_eq_true]
    intro x first
    obtain ⟨opened, bracket, dot⟩ := alone x first
    simp [opened, bracket, dot]
  obtain ⟨front, split, mark⟩ := apart.skipSpace
  rw [split]
  refine namesBareList_append bare front false ?_
  cases last : front.getLast? with
  | none => rfl
  | some x => exact mark x last

/-- The name `list` with neither a parenthesis, a dot nor a bracket behind it. -/
theorem bareList_of_segments {c dotted : Cursor} (apart : c.Apart text)
    (noParenthesis : ¬((word c).1 = "list" && (word c).2.skipSpace.peek? = some '(') = true)
    (read : segments (if (word c).1 = "list" then (word c).2.skipSpace else (word c).2).rest.length
      [(word c).1] (if (word c).1 = "list" then (word c).2.skipSpace else (word c).2) =
        .ok (["list"], dotted))
    (noBracket : ¬dotted.skipSpace.peek? = some '[') : namesBareList false text = true := by
  obtain ⟨more, same, _⟩ := segments_yields _ read
  obtain ⟨isList, rfl⟩ := List.cons.inj same
  rw [if_pos isList.symm, ← isList] at read
  obtain ⟨rfl, noDot⟩ := segments_single (Nat.le_refl _) read
  have twice : (word c).2.skipSpace.skipSpace.peek? = (word c).2.skipSpace.peek? := by
    rw [peek?, rest_skipSpace, rest_skipSpace, List.dropWhile_idempotent]
    rfl
  rw [twice] at noBracket
  refine bareList_of_word apart isList.symm fun x next => ?_
  refine ⟨?_, ?_, ?_⟩ <;> rintro rfl <;> simp_all

theorem namedType_answers (nested : Nested text budget type) (limit : budget ≤ defaultLimit)
    (generics : List String) {c : Cursor} (apart : c.Apart text) :
    Answers text (Counted text (budget + 1)) (namedType generics type c) := by
  have first := (word_suffix c).trans apart.suffix
  have blanks := (skipSpace_suffix (word c).2).trans first
  unfold namedType
  dsimp only
  split
  · exact .refused
  split
  · exact countedList_answers nested limit blanks
  rename_i noParenthesis
  have inside : (if (word c).1 = "list" then (word c).2.skipSpace else (word c).2).rest <:+ text := by
    split
    · exact blanks
    · exact first
  refine (segments_answers _ inside).bind fun names dotted read _ inside => ?_
  have present : names ≠ [] := by
    obtain ⟨more, rfl, _⟩ := segments_yields _ read
    simp
  dsimp only
  have inside := (skipSpace_suffix dotted).trans inside
  split
  · rename_i opened
    have apart : dotted.skipSpace.skip.Apart text := .of_peek inside opened (by decide)
    refine (arguments_answers nested _ apart (by simp)).bind fun slots after _ counted inside => ?_
    dsimp only
    split
    · exact bracketList_answers limit counted inside
    · rename_i other
      exact .ok (counted_of_other (Bool.eq_false_iff.mpr other)) inside
  · rename_i noBracket
    refine .ok ?_ inside
    cases list : (mk (mainPath generics names) []).isList with
    | false => exact counted_of_other list
    | true =>
      have parts : (mk (mainPath generics names) []).listParts = .error (.listArity 0) := by
        rw [listParts, if_pos list]
        rfl
      refine ⟨fun same => by simp [parts] at same, fun same => ?_⟩
      obtain rfl := Except.error.inj (parts.symm.trans same)
      -- a list is named by the word alone
      obtain rfl := isList_mainPath present list
      exact .bareList (bareList_of_segments apart noParenthesis read noBracket)

theorem readType_answers (generics : List String) (budget : Nat) (limit : budget ≤ defaultLimit + 1) :
    Nested text budget (readType generics budget) := by
  induction budget with
  | zero => exact fun _ _ => .tooComplex
  | succ budget ih =>
    intro c apart
    have nested := ih (by omega)
    rw [readType]
    dsimp only
    split
    · rename_i opened
      have inner : c.skipSpace.skip.Apart text := .of_peek apart.skipSpace.suffix opened (by decide)
      exact (runsOf_answers nested _ inner).bind fun components after _ _ inside =>
        .ok (counted_of_other rfl) inside
    · exact namedType_answers nested (by omega) generics apart.skipSpace

theorem readAll_blame {s : String} {generics : List String} {v : Violation}
    (done : readAll generics s = .error (.broken v)) : Blame s.toList v := by
  have start : (⟨0, s.toList⟩ : Cursor).Apart s.toList := ⟨[], rfl, by simp⟩
  have reading := readType_answers generics (defaultLimit + 1) (Nat.le_refl _) _ start
  unfold readAll at done
  cases read : readType generics (defaultLimit + 1) { pos := 0, rest := s.toList } with
  | error stop =>
    rw [read] at done reading
    obtain rfl := Except.error.inj done
    cases reading with
    | broken blame => exact blame
  | ok found =>
    obtain ⟨t, c⟩ := found
    rw [read, bind_ok] at done
    dsimp only at done
    split at done
    · cases valid : t.validate with
      | error _ =>
        rw [valid] at done
        cases done
      | ok _ =>
        rw [valid, Written.canonical (readType_yields generics _ read) valid] at done
        cases done
    · cases done

/-- A text of bytes denotes a type, or is refused, unless the name `list` stands alone in it or a number in it
is so large that a sum of layers can leave the 64-bit range. -/
theorem parse_outcome (s : String) (generics : List String) :
    (∃ t, parseBytes s generics = .ok t) ∨ (∃ e, parseBytes s generics = .error (.malformed e)) ∨
    parseBytes s generics = .error (.tooComplex .parse defaultLimit) ∨
    (namesBareList false s.toList = true ∧ parseBytes s generics = .error (.broken (.listArity 0))) ∨
    Numeral.greatest < (largestNumber 0 s.toList * (defaultLimit + 1) : Nat) ∧
      ∃ n : Int, n < 0 ∧ parseBytes s generics = .error (.broken (.listCount (toString n))) := by
  unfold parseBytes
  cases all : readAll generics s with
  | ok t => exact .inl ⟨t, rfl⟩
  | error stop =>
    rcases stop with ⟨pos, cause⟩ | _ | v
    · exact .inr (.inl ⟨⟨s, pos, cause⟩, rfl⟩)
    · exact .inr (.inr (.inl rfl))
    · cases readAll_blame all with
      | bareList alone => exact .inr (.inr (.inr (.inl ⟨alone, rfl⟩)))
      | @overflow n negative large => exact .inr (.inr (.inr (.inr ⟨large, n, negative, rfl⟩)))

set_option maxRecDepth 2000 in
/-- A list that stands alone as an element is not refused. -/
theorem parse_broken :
    parseBytes "list() list" [] = .error (.broken (.listArity 0)) ∧
    parseBytes "list[list]" [] = .error (.broken (.listArity 0)) := ⟨rfl, rfl⟩

end TypeEngine.Ty
