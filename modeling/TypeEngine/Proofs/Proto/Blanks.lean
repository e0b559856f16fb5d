import Mathlib.Data.List.TakeWhile
import TypeEngine.Proofs.Numeral
import TypeEngine.Proofs.Text.Blank
import TypeEngine.Proto.Parse
import TypeEngine.Storage.Cache

/-!
# Blanks at the ends of lines

A schema is filed by its fingerprint, which leaves out the blanks at the ends of lines and the empty
lines at the end. Where the scanner meets them they separate nothing: `strip` drops them from right
to left, and what is dropped stands before a line break or the end of the text. So schemas with the
same fingerprint have the same tokens (`tokens_of_fingerprint`).
-/

namespace TypeEngine.Proto.Token

variable {c quote : Char} {cs rest : List Char}

def isTrailing (c : Char) : Bool := c == ' ' || c == '\t' || c == '\r'

/-- The line or the text ends here. -/
def endsLine (cs : List Char) : Bool := cs.head?.all (· == '\n')

theorem endsLine_iff : endsLine cs = true ↔ cs = [] ∨ ∃ rest, cs = '\n' :: rest := by
  cases cs <;> simp [endsLine]

/-- The text without blanks at the ends of lines and empty lines at the end. -/
def strip : List Char → List Char
  | [] => []
  | c :: cs =>
    if isTrailing c && endsLine (strip cs) || c == '\n' && (strip cs).isEmpty then strip cs
    else c :: strip cs

theorem strip_cons (c : Char) (cs : List Char) :
    strip (c :: cs) = c :: strip cs ∨
      strip (c :: cs) = strip cs ∧ isSpace c = true ∧ endsLine (strip cs) = true := by
  rw [strip]
  split
  · rename_i dropped
    refine .inr ⟨rfl, ?_⟩
    simp only [isTrailing, Bool.or_eq_true, Bool.and_eq_true, beq_iff_eq, List.isEmpty_iff] at dropped
    rcases dropped with ⟨(rfl | rfl) | rfl, ends⟩ | ⟨rfl, empty⟩
    · exact ⟨by decide, ends⟩
    · exact ⟨by decide, ends⟩
    · exact ⟨by decide, ends⟩
    · exact ⟨by decide, by rw [empty]; rfl⟩
  · exact .inl rfl

theorem strip_solid (solid : isSpace c = false) (cs : List Char) :
    strip (c :: cs) = c :: strip cs := by
  rcases strip_cons c cs with kept | ⟨_, space, _⟩
  · exact kept
  · rw [space] at solid
    cases solid

theorem strip_append {front : List Char} (solid : ∀ c ∈ front, isSpace c = false) (cs : List Char) :
    strip (front ++ cs) = front ++ strip cs := by
  induction front with
  | nil => rfl
  | cons c front ih =>
    rw [List.forall_mem_cons] at solid
    rw [List.cons_append, strip_solid solid.1, ih solid.2, List.cons_append]

/-! ### Runs of characters -/

def spaces : List Char := [' ', '\n', '\r', '\t', Char.ofNat 11, Char.ofNat 12]

theorem mem_spaces (space : isSpace c = true) : c ∈ spaces := by
  simp only [isSpace, Bool.or_eq_true, beq_iff_eq] at space
  rcases space with ((((rfl | rfl) | rfl) | rfl) | tab) | feed
  · decide
  · decide
  · decide
  · decide
  · rw [← Char.ofNat_toNat c, tab]
    decide
  · rw [← Char.ofNat_toNat c, feed]
    decide

/-- A class of characters without white space. -/
def Solid (p : Char → Bool) : Prop := ∀ c, isSpace c = true → p c = false

theorem Solid.of_spaces {p : Char → Bool} (none : (spaces.all fun c => !p c) = true) : Solid p :=
  fun c space => Bool.not_eq_true' _ ▸ List.all_eq_true.mp none c (mem_spaces space)

theorem Solid.isSpace_eq {p : Char → Bool} (solid : Solid p) (holds : p c = true) : isSpace c = false :=
  Bool.eq_false_iff.mpr fun space => Bool.false_ne_true ((solid c space).symm.trans holds)

theorem solid_isWordChar : Solid isWordChar := .of_spaces (by decide)

section

variable {p : Char → Bool} (solid : Solid p)
include solid

theorem head_of_endsLine (ends : endsLine cs = true) : cs.head?.any p = false := by
  rcases endsLine_iff.mp ends with rfl | ⟨rest, rfl⟩
  · rfl
  · exact solid '\n' (by decide)

theorem head_strip (cs : List Char) : (strip cs).head?.any p = cs.head?.any p := by
  cases cs with
  | nil => rfl
  | cons c cs =>
    rcases strip_cons c cs with kept | ⟨dropped, space, ends⟩
    · rw [kept]
      rfl
    · rw [dropped, head_of_endsLine solid ends]
      exact (solid c space).symm

theorem take_strip (n : Nat) (cs : List Char) :
    ((strip cs).take n).takeWhile p = (cs.take n).takeWhile p := by
  induction cs generalizing n with
  | nil => rfl
  | cons c cs ih =>
    cases n with
    | zero => rfl
    | succ n =>
      rcases strip_cons c cs with kept | ⟨dropped, space, ends⟩
      · rw [kept, List.take_succ_cons, List.take_succ_cons, List.takeWhile_cons, List.takeWhile_cons, ih]
      · rw [dropped, List.take_succ_cons, List.takeWhile_cons, solid c space]
        rcases endsLine_iff.mp ends with empty | ⟨rest, starts⟩
        · rw [empty]
          rfl
        · rw [starts, List.take_succ_cons, List.takeWhile_cons, solid '\n' (by decide)]
          rfl

theorem takeWhile_strip (cs : List Char) : (strip cs).takeWhile p = cs.takeWhile p := by
  have taken := take_strip solid ((strip cs).length + cs.length) cs
  rwa [List.take_of_length_le (Nat.le_add_right ..), List.take_of_length_le (Nat.le_add_left ..)] at taken

theorem drop_strip {front : List Char} (prefix_ : front <+: cs) (all : ∀ c ∈ front, p c = true) :
    (strip cs).drop front.length = strip (cs.drop front.length) := by
  obtain ⟨rest, rfl⟩ := prefix_
  rw [strip_append fun c member => solid.isSpace_eq (all c member), List.drop_left, List.drop_left]

theorem dropWhile_strip (cs : List Char) : (strip cs).dropWhile p = strip (cs.dropWhile p) := by
  have parts : cs.takeWhile p ++ cs.dropWhile p = cs := List.takeWhile_append_dropWhile
  have whole : (strip cs).takeWhile p ++ (strip cs).dropWhile p = strip cs :=
    List.takeWhile_append_dropWhile
  conv at whole =>
    rhs
    rw [← parts, strip_append fun c member => solid.isSpace_eq (List.mem_takeWhile_imp member)]
  rw [takeWhile_strip solid] at whole
  exact List.append_cancel_left whole

end

theorem dropLine_strip (cs : List Char) :
    (strip cs).dropWhile (· != '\n') = strip (cs.dropWhile (· != '\n')) := by
  induction cs with
  | nil => rfl
  | cons c cs ih =>
    cases break_ : c != '\n' with
    | true =>
      rw [List.dropWhile_cons, if_pos break_]
      rcases strip_cons c cs with kept | ⟨dropped, _⟩
      · rw [kept, List.dropWhile_cons, if_pos break_, ih]
      · rw [dropped, ih]
    | false =>
      obtain rfl : c = '\n' := by simpa using break_
      rw [List.dropWhile_cons, if_neg (by decide)]
      rcases strip_cons '\n' cs with kept | ⟨dropped, _, ends⟩
      · rw [kept, List.dropWhile_cons, if_neg (by decide)]
      · rcases endsLine_iff.mp ends with empty | ⟨rest, starts⟩
        · rw [dropped, empty]
          rfl
        · rw [dropped, starts, List.dropWhile_cons, if_neg (by decide)]

theorem dropComment_cons (c : Char) (cs : List Char) : dropComment (c :: cs) =
    if c = '*' ∧ cs.head? = some '/' then some cs.tail else dropComment cs := by
  by_cases closes : c = '*' ∧ cs.head? = some '/'
  · obtain ⟨rfl, head⟩ := closes
    obtain ⟨rest, rfl⟩ := List.head?_eq_some_iff.mp head
    rw [if_pos ⟨rfl, rfl⟩, dropComment]
    rfl
  · rw [if_neg closes, dropComment]
    rintro rest rfl rfl
    exact closes ⟨rfl, rfl⟩

theorem dropComment_strip (cs : List Char) :
    dropComment (strip cs) = (dropComment cs).map strip := by
  induction cs with
  | nil => rfl
  | cons c cs ih =>
    rcases strip_cons c cs with kept | ⟨dropped, space, _⟩
    · rw [kept, dropComment_cons, dropComment_cons]
      have slash : ∀ l : List Char, l.head? = some '/' ↔ l.head?.any (· == '/') = true := by
        intro l
        cases l <;> simp
      by_cases closes : c = '*' ∧ cs.head? = some '/'
      · obtain ⟨rest, rfl⟩ := List.head?_eq_some_iff.mp closes.2
        rw [if_pos closes, strip_solid (by decide), if_pos ⟨closes.1, rfl⟩]
        rfl
      · rw [slash, ← head_strip (.of_spaces (by decide)) cs, ← slash] at closes
        rw [if_neg closes, ih]
        rw [slash, head_strip (.of_spaces (by decide)) cs, ← slash] at closes
        rw [if_neg closes]
    · have other : ¬(c = '*' ∧ cs.head? = some '/') := by
        rintro ⟨rfl, _⟩
        exact absurd space (by decide)
      rw [dropped, dropComment_cons, if_neg other, ih]

theorem length_dropComment (done : dropComment cs = some rest) :
    rest.length < cs.length := by
  induction cs with
  | nil => cases done
  | cons c cs ih =>
    rw [dropComment_cons] at done
    split at done
    · rename_i closes
      obtain rfl := Option.some.inj done
      cases cs with
      | nil => cases closes.2
      | cons d cs => simp only [List.tail_cons, List.length_cons]; omega
    · have := ih done
      simp only [List.length_cons]
      omega

/-! ### Numbers -/

/-- The characters that a number can have. -/
def isNumberChar (c : Char) : Bool := isWordChar c || c == '.' || c == '+' || c == '-'

theorem solid_isNumberChar : Solid isNumberChar := .of_spaces (by decide)

theorem numberChars_spec (hex : Bool) (before : Char) (cs : List Char) :
    numberChars hex before cs <+: cs ∧ (∀ c ∈ numberChars hex before cs, isNumberChar c = true) ∧
      numberChars hex before (strip cs) = numberChars hex before cs := by
  induction cs generalizing before with
  | nil => exact ⟨List.nil_prefix, nofun, rfl⟩
  | cons c cs ih =>
    obtain ⟨front, chars, same⟩ := ih c
    have part : ∀ l : List Char, numberChars hex before (c :: l) =
        if isWordChar c || c == '.' || (!hex && (before == 'e' || before == 'E') && (c == '+' || c == '-'))
        then c :: numberChars hex c l else [] := fun l => by rw [numberChars]
    cases test : isWordChar c || c == '.' ||
        (!hex && (before == 'e' || before == 'E') && (c == '+' || c == '-')) with
    | true =>
      have belongs : isNumberChar c = true := by
        simp only [isNumberChar, Bool.or_eq_true, Bool.and_eq_true] at test ⊢
        rcases test with front | ⟨_, plus | minus⟩
        · exact .inl (.inl front)
        · exact .inl (.inr plus)
        · exact .inr minus
      rw [strip_solid (solid_isNumberChar.isSpace_eq belongs), part, part, if_pos test, if_pos test, same]
      exact ⟨List.cons_prefix_cons.mpr ⟨rfl, front⟩, List.forall_mem_cons.mpr ⟨belongs, chars⟩, rfl⟩
    | false =>
      rw [part, if_neg (Bool.eq_false_iff.mp test)]
      refine ⟨List.nil_prefix, nofun, ?_⟩
      rcases strip_cons c cs with kept | ⟨dropped, _, ends⟩
      · rw [kept, part, if_neg (Bool.eq_false_iff.mp test)]
      · rcases endsLine_iff.mp ends with empty | ⟨rest, starts⟩
        · rw [dropped, empty]
          rfl
        · rw [dropped, starts, numberChars, if_neg (by simp; decide)]

/-! ### Texts -/

/-- What a backslash and a character stand for, and what follows. -/
def escaped? (c : Char) (rest : List Char) : Option (Char × List Char) :=
  let isHex := fun d => (digitIn? 16 d).isSome
  if "abfnrtv\\'\"?".toList.contains c then some (c, rest)
  else if c == 'x' || c == 'X' then
    let ds := (rest.take 2).takeWhile isHex
    if ds.isEmpty then none else some ('x', rest.drop ds.length)
  else if (digitIn? 8 c).isSome then
    some ('0', rest.drop ((rest.take 2).takeWhile fun d => (digitIn? 8 d).isSome).length)
  else if c == 'u' || c == 'U' then
    let n := if c == 'u' then 4 else 8
    if (rest.take n).length = n && (rest.take n).all isHex then some ('u', rest.drop n) else none
  else none

theorem quoted_escape (quote c : Char) (fuel : Nat) (rest : List Char) :
    quoted quote (fuel + 1) ('\\' :: c :: rest) =
      (escaped? c rest).bind fun e => (quoted quote fuel e.2).map fun r => (e.1 :: r.1, r.2) := by
  have put : ∀ (d : Char) (x : Option (List Char × List Char)),
      (do let r ← x; return (d :: r.1, r.2)) = x.map fun r => (d :: r.1, r.2) := by
    intro d x
    cases x <;> rfl
  rw [quoted, escaped?]
  dsimp only
  generalize (if c == 'u' then 4 else 8) = n
  simp only [put]
  split
  · rfl
  split
  · split <;> rfl
  split
  · rfl
  split
  · split <;> rfl
  · rfl

theorem quoted_other {fuel : Nat} (noBreak : c ≠ '\n')
    (noEscape : c = '\\' → rest = []) : quoted quote (fuel + 1) (c :: rest) =
      if c == quote then some ([], rest)
      else if c.toNat == 0 then none
      else (quoted quote fuel rest).map fun r => (c :: r.1, r.2) := by
  rw [quoted]
  · split
    · rfl
    split
    · rfl
    · cases quoted quote fuel rest <;> rfl
  · rintro d rest' rfl rfl
    cases noEscape rfl
  · exact noBreak

theorem solid_digit (base : Nat) (small : base ≤ 16) : Solid fun d => (digitIn? base d).isSome := by
  have none : ∀ n ≤ 16, (spaces.all fun c => !(digitIn? n c).isSome) = true := by decide
  exact .of_spaces (none base small)

theorem escaped?_space (space : isSpace c = true) (rest : List Char) :
    escaped? c rest = none := by
  have letter : Solid fun c => "abfnrtv\\'\"?".toList.contains c := .of_spaces (by decide)
  have hex : Solid fun c => c == 'x' || c == 'X' := .of_spaces (by decide)
  have code : Solid fun c => c == 'u' || c == 'U' := .of_spaces (by decide)
  simp only [escaped?, letter c space, hex c space, solid_digit 8 (by decide) c space, code c space,
    Bool.false_eq_true, if_false]

theorem all_take_iff {p : Char → Bool} {n : Nat} :
    ((cs.take n).length = n ∧ (cs.take n).all p = true) ↔ ((cs.take n).takeWhile p).length = n := by
  constructor
  · rintro ⟨length, all⟩
    rw [List.takeWhile_eq_self_iff.mpr fun c member => List.all_eq_true.mp all c member, length]
  · intro length
    have shorter := (List.takeWhile_prefix (l := cs.take n) p).length_le
    have bound := List.length_take_le n cs
    have same : (cs.take n).takeWhile p = cs.take n :=
      (List.takeWhile_prefix p).eq_of_length (by omega)
    refine ⟨by rw [← same, length], List.all_eq_true.mpr ?_⟩
    exact fun c member => List.mem_takeWhile_imp (same.symm ▸ member)

theorem escaped?_strip (c : Char) (rest : List Char) :
    escaped? c (strip rest) = (escaped? c rest).map (Prod.map id strip) := by
  have front : ∀ (p : Char → Bool) (n : Nat), (rest.take n).takeWhile p <+: rest :=
    fun p n => (List.takeWhile_prefix p).trans (List.take_prefix n rest)
  have drop : ∀ (p : Char → Bool) (n : Nat), Solid p →
      (strip rest).drop ((rest.take n).takeWhile p).length =
        strip (rest.drop ((rest.take n).takeWhile p).length) :=
    fun p n solid => drop_strip solid (front p n) fun c member => List.mem_takeWhile_imp member
  have hex := solid_digit 16 (by decide)
  have octal := solid_digit 8 (by decide)
  rw [escaped?, escaped?]
  dsimp only
  generalize (if c == 'u' then 4 else 8) = n
  split
  · rfl
  split
  · rw [take_strip hex, drop _ 2 hex]
    split <;> rfl
  split
  · rw [take_strip octal, drop _ 2 octal]
    rfl
  split
  · have test : ∀ l : List Char, ((decide ((l.take n).length = n) &&
        (l.take n).all fun d => (digitIn? 16 d).isSome) = true) ↔
        ((l.take n).takeWhile fun d => (digitIn? 16 d).isSome).length = n := by
      intro l
      rw [Bool.and_eq_true, decide_eq_true_iff, all_take_iff]
    by_cases all : ((rest.take n).takeWhile fun d => (digitIn? 16 d).isSome).length = n
    · rw [if_pos ((test _).mpr (by rw [take_strip hex, all])), if_pos ((test _).mpr all)]
      have dropped := drop _ n hex
      rw [all] at dropped
      rw [dropped]
      rfl
    · rw [if_neg (fun holds => all (by rw [← take_strip hex, (test _).mp holds])),
        if_neg (fun holds => all ((test _).mp holds))]
      rfl
  · rfl

theorem length_escaped {d : Char} (done : escaped? c cs = some (d, rest)) :
    rest.length ≤ cs.length := by
  rw [escaped?] at done
  dsimp only at done
  generalize (if c == 'u' then 4 else 8) = n at done
  split at done
  · cases done
    exact Nat.le_refl _
  split at done
  · split at done
    · cases done
    · cases done
      simp
  split at done
  · cases done
    simp
  split at done
  · split at done
    · cases done
      simp
    · cases done
  · cases done

theorem quoted_endsLine (ends : endsLine cs = true) (fuel : Nat) :
    quoted quote fuel cs = none := by
  cases fuel with
  | zero => rfl
  | succ fuel =>
    rcases endsLine_iff.mp ends with rfl | ⟨rest, rfl⟩ <;> rfl

/-- A quoted text starts with the end of the line, with an escape, or with another character. -/
theorem quoted_cases (c : Char) (cs : List Char) :
    c = '\n' ∨ (c = '\\' ∧ ∃ d ds, cs = d :: ds) ∨ (c ≠ '\n' ∧ (c = '\\' → cs = [])) := by
  by_cases break_ : c = '\n'
  · exact .inl break_
  by_cases slash : c = '\\'
  · cases cs with
    | nil => exact .inr (.inr ⟨break_, fun _ => rfl⟩)
    | cons d ds => exact .inr (.inl ⟨slash, d, ds, rfl⟩)
  · exact .inr (.inr ⟨break_, fun same => absurd same slash⟩)

/-- Blanks at the ends of lines do not matter to a quoted text that is read with enough fuel. -/
def QuotedStrips (quote : Char) (fuel : Nat) : Prop :=
  ∀ k cs, cs.length < fuel → (strip cs).length < k →
    quoted quote k (strip cs) = (quoted quote fuel cs).map (Prod.map id strip)

section Quoted

variable (mark : quote = '"' ∨ quote = '\'') {fuel k : Nat} (rest_ : QuotedStrips quote fuel)
include mark rest_

theorem quoted_escape_strip {d : Char} (enough : cs.length < fuel) (enough' : (strip (d :: cs)).length < k) :
    quoted quote (k + 1) ('\\' :: strip (d :: cs)) =
      (quoted quote (fuel + 1) ('\\' :: d :: cs)).map (Prod.map id strip) := by
  rw [quoted_escape]
  rcases strip_cons d cs with kept | ⟨dropped, space, ends⟩
  · rw [kept, quoted_escape, escaped?_strip]
    rw [kept, List.length_cons] at enough'
    cases found : escaped? d cs with
    | none => rfl
    | some e =>
      obtain ⟨x, rest⟩ := e
      have shorter := length_escaped found
      have shorter' : (strip rest).length ≤ (strip cs).length := by
        have same := escaped?_strip d cs
        rw [found] at same
        exact length_escaped same
      rw [Option.map_some, Option.bind_some, Option.bind_some]
      dsimp only [Prod.map]
      rw [rest_ k rest (by omega) (by omega)]
      cases quoted quote fuel rest <;> rfl
  · -- The blank that is escaped goes, and nothing follows the backslash in its line.
    rw [escaped?_space space, dropped]
    rcases endsLine_iff.mp ends with empty | ⟨rest, starts⟩
    · have other : ('\\' == quote) = false := by rcases mark with rfl | rfl <;> decide
      rw [empty, quoted_other (by decide) fun _ => rfl, other, quoted_endsLine rfl]
      rfl
    · rw [starts, quoted_escape, escaped?_space (by decide)]
      rfl

theorem quoted_other_strip (solid : c ≠ '\n') (plain : c = '\\' → cs = []) (enough : cs.length < fuel)
    (enough' : (strip (c :: cs)).length < k + 1) : quoted quote (k + 1) (strip (c :: cs)) =
      (quoted quote (fuel + 1) (c :: cs)).map (Prod.map id strip) := by
  rw [quoted_other solid plain]
  rcases strip_cons c cs with kept | ⟨dropped, space, ends⟩
  · rw [kept, List.length_cons] at enough'
    rw [kept, quoted_other solid fun slash => by rw [plain slash]; rfl]
    split
    · rfl
    split
    · rfl
    · rw [rest_ k cs enough (by omega)]
      cases quoted quote fuel cs <;> rfl
  · have other : (c == quote) = false ∧ (c.toNat == 0) = false := by
      have zero : Solid fun c => c.toNat == 0 := .of_spaces (by decide)
      have double : Solid (· == '"') := .of_spaces (by decide)
      have single : Solid (· == '\'') := .of_spaces (by decide)
      rcases mark with rfl | rfl
      · exact ⟨double c space, zero c space⟩
      · exact ⟨single c space, zero c space⟩
    rw [dropped] at enough'
    have rest := rest_ (k + 1) cs enough enough'
    rw [quoted_endsLine ends] at rest
    rw [dropped, quoted_endsLine ends, other.1, other.2, Option.map_eq_none_iff.mp rest.symm]
    rfl

end Quoted

theorem quoted_strip (mark : quote = '"' ∨ quote = '\'') (fuel : Nat) : QuotedStrips quote fuel := by
  induction fuel with
  | zero => exact fun k cs enough => absurd enough (Nat.not_lt_zero _)
  | succ fuel ih =>
    intro k cs enough enough'
    obtain ⟨k, rfl⟩ : ∃ n, k = n + 1 := ⟨k - 1, by omega⟩
    cases cs with
    | nil => rfl
    | cons c cs =>
      simp only [List.length_cons] at enough
      rcases quoted_cases c cs with rfl | ⟨rfl, d, cs, rfl⟩ | ⟨solid, plain⟩
      · rw [quoted]
        rcases strip_cons '\n' cs with kept | ⟨dropped, _, ends⟩
        · rw [kept]
          rfl
        · rw [dropped, quoted_endsLine ends]
          rfl
      · rw [strip_solid (by decide), List.length_cons] at enough'
        rw [List.length_cons] at enough
        rw [strip_solid (by decide)]
        exact quoted_escape_strip mark ih (by omega) (by omega)
      · exact quoted_other_strip mark ih solid plain (by omega) enough'

theorem length_quoted {fuel : Nat} {chars : List Char}
    (done : quoted quote fuel cs = some (chars, rest)) : rest.length < cs.length := by
  induction fuel generalizing cs chars with
  | zero => cases done
  | succ fuel ih =>
    cases cs with
    | nil => cases done
    | cons c cs =>
      rcases quoted_cases c cs with rfl | ⟨rfl, d, cs, rfl⟩ | ⟨solid, plain⟩
      · cases done
      · rw [quoted_escape] at done
        obtain ⟨⟨x, after⟩, found, done⟩ := Option.bind_eq_some_iff.mp done
        obtain ⟨⟨ds, last⟩, read, pair⟩ := Option.map_eq_some_iff.mp done
        obtain ⟨_, rfl⟩ := Prod.mk.inj pair
        have first := length_escaped found
        have next := ih read
        dsimp only at next ⊢
        simp only [List.length_cons]
        omega
      · rw [quoted_other solid plain] at done
        split at done
        · cases done
          simp
        split at done
        · cases done
        · obtain ⟨⟨ds, last⟩, read, pair⟩ := Option.map_eq_some_iff.mp done
          obtain ⟨_, rfl⟩ := Prod.mk.inj pair
          have next := ih read
          dsimp only at next ⊢
          simp only [List.length_cons]
          omega

/-! ### Tokens -/

/-- A comment starts here. -/
def opensComment (c : Char) (rest : List Char) : Bool :=
  c == '/' && rest.head?.any fun d => d == '/' || d == '*'

/-- The characters of the number at the front of a text. -/
def numberAt (c : Char) (rest : List Char) : List Char :=
  numberChars (c == '0' && rest.head?.any fun d => d == 'x' || d == 'X') ' ' (c :: rest)

theorem scan_cons {c : Char} {rest : List Char} {fuel : Nat} (code : opensComment c rest = false) :
    scan (fuel + 1) (c :: rest) =
      if isSpace c then scan fuel rest
      else if startsWord c then
        (scan fuel (rest.dropWhile isWordChar)).map (.word (.ofList (c :: rest.takeWhile isWordChar)) :: ·)
      else if Numeral.isDigit c || (c == '.' && rest.head?.any Numeral.isDigit) then
        (number? (numberAt c rest)).bind fun t =>
          (scan fuel ((c :: rest).drop (numberAt c rest).length)).map (t :: ·)
      else if c == '"' || c == '\'' then
        (quoted c (rest.length + 1) rest).bind fun r => (scan fuel r.2).map (.text (.ofList r.1) :: ·)
      else if marks.contains c then (scan fuel rest).map (.mark c :: ·)
      else none := by
  have put : ∀ (t : Token) (x : Option (List Token)), (do let ts ← x; return t :: ts) = x.map (t :: ·) := by
    intro t x
    cases x <;> rfl
  rw [scan]
  · simp only [put, numberAt]
    rfl
  · rintro rest' rfl rfl
    cases code
  · rintro rest' rfl rfl
    cases code

theorem opensComment_strip (c : Char) (rest : List Char) :
    opensComment c (strip rest) = opensComment c rest := by
  rw [opensComment, opensComment, head_strip (.of_spaces (by decide))]

theorem isWordChar_of_isDigit {c : Char} (digit : Numeral.isDigit c = true) : isWordChar c = true := by
  rw [Numeral.isDigit_eq] at digit
  simp [isWordChar, Char.isAlphanum, digit]

theorem numberAt_ne_nil {c : Char} {rest : List Char}
    (number : Numeral.isDigit c = true ∨ c = '.') : numberAt c rest ≠ [] := by
  have part : (isWordChar c || c == '.') = true := by
    rcases number with digit | rfl
    · rw [isWordChar_of_isDigit digit]
      rfl
    · rfl
  rw [numberAt, numberChars, part, Bool.true_or, if_pos rfl]
  exact List.cons_ne_nil _ _

theorem numberAt_strip {c : Char} {cs : List Char} (kept : strip (c :: cs) = c :: strip cs) :
    numberAt c (strip cs) = numberAt c cs ∧
      (c :: strip cs).drop (numberAt c cs).length = strip ((c :: cs).drop (numberAt c cs).length) := by
  have hex : (strip cs).head?.any (fun d => d == 'x' || d == 'X') =
      cs.head?.any fun d => d == 'x' || d == 'X' := head_strip (.of_spaces (by decide)) cs
  rw [numberAt, numberAt, hex, ← kept]
  obtain ⟨front, chars, same⟩ :=
    numberChars_spec (c == '0' && cs.head?.any fun d => d == 'x' || d == 'X') ' ' (c :: cs)
  exact ⟨same, drop_strip solid_isNumberChar front chars⟩

/-- Blanks at the ends of lines do not matter to a text that is scanned with enough fuel. -/
def ScanStrips (fuel : Nat) : Prop :=
  ∀ k cs, cs.length < fuel → (strip cs).length < k → scan k (strip cs) = scan fuel cs

section Scan

variable {fuel k : Nat} (onward : ScanStrips fuel)
include onward

theorem scan_comment_strip (comment : opensComment c cs = true) (enough : cs.length < fuel)
    (enough' : (strip (c :: cs)).length < k + 1) : scan (k + 1) (strip (c :: cs)) = scan (fuel + 1) (c :: cs) := by
  rw [opensComment, Bool.and_eq_true, beq_iff_eq] at comment
  obtain ⟨rfl, next⟩ := comment
  cases cs with
  | nil => cases next
  | cons d cs =>
    have next : d = '/' ∨ d = '*' := by simpa using next
    have solid : isSpace d = false := by rcases next with rfl | rfl <;> decide
    rw [strip_solid (by decide), strip_solid solid, List.length_cons, List.length_cons] at enough'
    rw [strip_solid (by decide), strip_solid solid]
    rw [List.length_cons] at enough
    rcases next with rfl | rfl
    · rw [scan, scan, dropLine_strip]
      refine onward k _ ?_ ?_
      · have := List.length_dropWhile_le (· != '\n') cs
        omega
      · rw [← dropLine_strip]
        have := List.length_dropWhile_le (· != '\n') (strip cs)
        omega
    · rw [scan, scan, dropComment_strip]
      cases closed : dropComment cs with
      | none => rfl
      | some rest =>
        have shorter := length_dropComment closed
        have shorter' : (strip rest).length < (strip cs).length :=
          length_dropComment (by rw [dropComment_strip, closed]; rfl)
        rw [Option.map_some, Option.bind_some, Option.bind_some, onward k rest (by omega) (by omega)]

theorem scan_number_strip (number : Numeral.isDigit c = true ∨ c = '.') (kept : strip (c :: cs) = c :: strip cs)
    (enough : cs.length < fuel) (enough' : (strip cs).length < k) :
    (number? (numberAt c (strip cs))).bind (fun t =>
        (scan k ((c :: strip cs).drop (numberAt c (strip cs)).length)).map (t :: ·)) =
      (number? (numberAt c cs)).bind fun t =>
        (scan fuel ((c :: cs).drop (numberAt c cs).length)).map (t :: ·) := by
  obtain ⟨same, rest⟩ := numberAt_strip kept
  have some : 0 < (numberAt c cs).length := List.length_pos_iff.mpr (numberAt_ne_nil number)
  rw [same, rest, onward k]
  · simp only [List.length_drop, List.length_cons]
    omega
  · rw [← rest]
    simp only [List.length_drop, List.length_cons]
    omega

theorem scan_quoted_strip (mark : c = '"' ∨ c = '\'') (enough : cs.length < fuel)
    (enough' : (strip cs).length < k) :
    (quoted c ((strip cs).length + 1) (strip cs)).bind (fun r =>
        (scan k r.2).map (.text (.ofList r.1) :: ·)) =
      (quoted c (cs.length + 1) cs).bind fun r => (scan fuel r.2).map (.text (.ofList r.1) :: ·) := by
  have strips := quoted_strip mark _ ((strip cs).length + 1) cs (Nat.lt_succ_self _) (Nat.lt_succ_self _)
  cases read : quoted c (cs.length + 1) cs with
  | none =>
    rw [strips, read]
    rfl
  | some r =>
    obtain ⟨chars, rest⟩ := r
    rw [read] at strips
    have shorter := length_quoted read
    have shorter' : (strip rest).length < (strip cs).length := length_quoted strips
    rw [strips, Option.map_some, Option.bind_some, Option.bind_some]
    dsimp only [Prod.map]
    rw [onward k rest (by omega) (by omega)]
    rfl

theorem scan_token_strip (code : opensComment c cs = false) (enough : cs.length < fuel)
    (enough' : (strip (c :: cs)).length < k + 1) : scan (k + 1) (strip (c :: cs)) = scan (fuel + 1) (c :: cs) := by
  rcases strip_cons c cs with kept | ⟨dropped, space, _⟩
  · rw [kept, List.length_cons] at enough'
    have enough' : (strip cs).length < k := by omega
    rw [kept, scan_cons code, scan_cons (by rw [opensComment_strip, code]),
      takeWhile_strip solid_isWordChar, dropWhile_strip solid_isWordChar,
      head_strip (.of_spaces (by decide)), onward k cs enough enough']
    split
    · rfl
    split
    · have shorter := List.length_dropWhile_le isWordChar cs
      have shorter' := List.length_dropWhile_le isWordChar (strip cs)
      rw [dropWhile_strip solid_isWordChar] at shorter'
      rw [onward k _ (by omega) (by omega)]
    split
    · rename_i number
      simp only [Bool.or_eq_true, Bool.and_eq_true, beq_iff_eq] at number
      exact scan_number_strip onward (number.imp_right And.left) kept enough enough'
    split
    · rename_i mark
      exact scan_quoted_strip onward (by simpa using mark) enough enough'
    · rfl
  · rw [dropped] at enough' ⊢
    rw [scan_cons code, if_pos space]
    exact onward (k + 1) cs enough enough'

end Scan

theorem scan_strip (fuel : Nat) : ScanStrips fuel := by
  induction fuel with
  | zero => exact fun k cs enough => absurd enough (Nat.not_lt_zero _)
  | succ fuel ih =>
    intro k cs enough enough'
    obtain ⟨k, rfl⟩ : ∃ n, k = n + 1 := ⟨k - 1, by omega⟩
    cases cs with
    | nil => rfl
    | cons c cs =>
      have enough : cs.length < fuel := Nat.lt_of_succ_lt_succ enough
      cases comment : opensComment c cs with
      | true => exact scan_comment_strip ih comment enough enough'
      | false => exact scan_token_strip ih comment enough enough'

/-! ### Fingerprints -/

/-- The lines of a text without blanks at their ends. -/
def trimLines (cs : List Char) : List Char :=
  ['\n'].intercalate ((Text.splitOn '\n' cs).map (Text.dropEnd isTrailing))

theorem trimLines_cons (c : Char) (cs : List Char) : trimLines (c :: cs) =
    if isTrailing c && endsLine (trimLines cs) then trimLines cs else c :: trimLines cs := by
  obtain ⟨piece, pieces, split⟩ := List.exists_cons_of_ne_nil (Text.splitOn_ne_nil '\n' cs)
  by_cases break_ : c = '\n'
  · subst break_
    have kept : isTrailing '\n' = false := by decide
    rw [kept, Bool.false_and, if_neg Bool.false_ne_true, trimLines, Text.splitOn, if_pos rfl, trimLines,
      split]
    rfl
  · have solid : '\n' ∉ piece := Text.mem_splitOn (split ▸ List.mem_cons_self)
    have join : ∀ l, ['\n'].intercalate (l :: pieces.map (Text.dropEnd isTrailing)) =
        l ++ if pieces.isEmpty then [] else
          '\n' :: ['\n'].intercalate (pieces.map (Text.dropEnd isTrailing)) := by
      intro l
      cases pieces <;> simp [List.intercalate]
    have ends : endsLine (trimLines cs) = (Text.dropEnd isTrailing piece).isEmpty := by
      rw [trimLines, split, List.map_cons, join]
      cases front : Text.dropEnd isTrailing piece with
      | nil => cases pieces <;> rfl
      | cons d ds =>
        have member : d ∈ piece := by
          have : d ∈ Text.dropEnd isTrailing piece := front ▸ List.mem_cons_self
          rw [Text.dropEnd, List.mem_reverse] at this
          exact List.mem_reverse.mp ((List.dropWhile_sublist _).subset this)
        have other : d ≠ '\n' := fun same => solid (same ▸ member)
        simp [endsLine, other]
    rw [ends, trimLines, Text.splitOn, if_neg break_, split, trimLines, split]
    simp only [List.map_cons, join, Text.dropEnd_cons isTrailing c]
    split
    · rename_i both
      rw [Bool.and_eq_true, List.isEmpty_iff] at both
      rw [both.2]
    · rfl

theorem endsLine_dropEnd (cs : List Char) : endsLine (Text.dropEnd (· == '\n') cs) = endsLine cs := by
  cases cs with
  | nil => rfl
  | cons c cs =>
    rw [Text.dropEnd_cons]
    split
    · rename_i both
      rw [Bool.and_eq_true] at both
      simp [endsLine, both.1]
    · rfl

theorem dropEnd_trimLines (cs : List Char) :
    Text.dropEnd (· == '\n') (trimLines cs) = strip cs := by
  induction cs with
  | nil => rfl
  | cons c cs ih =>
    rw [trimLines_cons, strip, ← ih, endsLine_dropEnd]
    cases dropped : isTrailing c && endsLine (trimLines cs) with
    | true => rfl
    | false =>
      rw [if_neg Bool.false_ne_true, Text.dropEnd_cons, Bool.false_or]
      split
      · rename_i both
        exact (List.isEmpty_iff.mp (Bool.and_eq_true_iff.mp both).2).symm
      · rfl

theorem fingerprint_eq (text : String) :
    Storage.Cache.fingerprint text = .ofList (strip text.toList) := by
  rw [← dropEnd_trimLines]
  rfl

end Token

variable {text text' : String}

/-- The byte order mark is no white space, so it stays in front. -/
theorem tokens_of_fingerprint (same : Storage.Cache.fingerprint text = Storage.Cache.fingerprint text') :
    tokens text = tokens text' := by
  have strip : Token.strip text.toList = Token.strip text'.toList := by
    rw [Token.fingerprint_eq, Token.fingerprint_eq] at same
    exact String.ofList_injective same
  have scan : ∀ {cs cs' : List Char}, Token.strip cs = Token.strip cs' →
      Token.scan (cs.length + 1) cs = Token.scan (cs'.length + 1) cs' := by
    intro cs cs' same
    rw [← Token.scan_strip _ _ _ (Nat.lt_succ_self _) (Nat.lt_succ_self _), same,
      Token.scan_strip _ _ _ (Nat.lt_succ_self _) (Nat.lt_succ_self _)]
  have mark : ∀ cs : List Char, (cs.head? == some (Char.ofNat 0xfeff)) =
      (Token.strip cs).head?.any (· == Char.ofNat 0xfeff) := by
    intro cs
    rw [Token.head_strip (.of_spaces (by decide))]
    cases cs <;> rfl
  have unmarked : ∀ cs : List Char, (Token.strip cs).head?.any (· == Char.ofNat 0xfeff) = true →
      Token.strip cs.tail = (Token.strip cs).tail := by
    intro cs marked
    rw [← mark, beq_iff_eq] at marked
    obtain ⟨rest, rfl⟩ := List.head?_eq_some_iff.mp marked
    rw [Token.strip_solid (by decide)]
    rfl
  rw [tokens, tokens, mark, mark, strip]
  split
  · rename_i marked
    exact scan (by rw [unmarked _ (strip ▸ marked), unmarked _ marked, strip])
  · exact scan strip

theorem File.parse_of_fingerprint
    (same : Storage.Cache.fingerprint text = Storage.Cache.fingerprint text') (name : String) :
    File.parse name text = File.parse name text' := by
  rw [File.parse, File.parse, tokens_of_fingerprint same]

end TypeEngine.Proto
