import TypeEngine.Proofs.Proto.Blanks

/-!
# Names in schema files

Whatever is declared in a schema file has a name of letters, digits and underscores, not of digits
alone, and an entry of a map has a key and a value (`File.parse_sound`).
-/

namespace TypeEngine.Proto

variable {s : String}

/-! ### Names and paths -/

/-- Letters, digits and underscores, not digits alone. -/
structure IsName (s : String) : Prop where
  chars : ∀ c ∈ s.toList, Token.isWordChar c = true
  letters : s.toList.all Numeral.isDigit = false

theorem IsName.of_all (chars : s.toList.all Token.isWordChar = true)
    (letters : s.toList.all Numeral.isDigit = false) : IsName s :=
  ⟨List.all_eq_true.mp chars, letters⟩

/-- Names between points. -/
structure IsPath (s : String) : Prop where
  chars : ∀ c ∈ s.toList, Token.isWordChar c = true ∨ c = '.'
  letters : s.toList.all Numeral.isDigit = false
  ends : s.toList.getLast?.any (· != '.') = true

theorem IsPath.of_all (chars : (s.toList.all fun c => Token.isWordChar c || c == '.') = true)
    (letters : s.toList.all Numeral.isDigit = false) (ends : s.toList.getLast?.any (· != '.') = true) : IsPath s :=
  ⟨by simpa using chars, letters, ends⟩

/-- The path of a package or message, or nothing. -/
def IsScope (s : String) : Prop := s = "" ∨ IsPath s

theorem ne_nil_of_letters {cs : List Char} (letters : cs.all Numeral.isDigit = false) : cs ≠ [] := by
  rintro rfl
  cases letters

theorem IsName.isPath (name : IsName s) : IsPath s := by
  refine ⟨fun c member => .inl (name.chars c member), name.letters, ?_⟩
  rw [List.getLast?_eq_some_getLast (ne_nil_of_letters name.letters)]
  have last := name.chars _ (List.getLast_mem (ne_nil_of_letters name.letters))
  simp only [Option.any_some, bne_iff_ne, ne_eq]
  rintro point
  rw [point] at last
  cases last

theorem IsPath.dot {t : String} (front : IsPath s) (back : IsPath t) : IsPath (s ++ "." ++ t) := by
  have chars : (s ++ "." ++ t).toList = s.toList ++ '.' :: t.toList := by simp
  refine ⟨?_, ?_, ?_⟩
  · intro c member
    rw [chars, List.mem_append, List.mem_cons] at member
    rcases member with member | rfl | member
    · exact front.chars c member
    · exact .inr rfl
    · exact back.chars c member
  · rw [chars, List.all_append, front.letters, Bool.false_and]
  · rw [chars, List.getLast?_append, List.getLast?_cons,
      List.getLast?_eq_some_getLast (ne_nil_of_letters back.letters)]
    have last := back.ends
    rw [List.getLast?_eq_some_getLast (ne_nil_of_letters back.letters)] at last
    exact last

theorem IsName.qualify {scope name : String} (outer : IsScope scope) (inner : IsName name) :
    IsPath (qualify scope name) := by
  unfold Proto.qualify
  split
  · exact inner.isPath
  · rename_i inside
    exact (outer.resolve_left inside).dot inner.isPath

/-! ### Tokens -/

/-- A word of a file is a name. -/
def Token.Sound : Token → Prop
  | .word s => IsName s
  | _ => True

namespace Token

variable {c : Char}

theorem isAlpha_eq (c : Char) :
    c.isAlpha = (decide (c.val ≥ 'A'.val ∧ c.val ≤ 'Z'.val) || (decide (c.val ≥ 'a'.val) && decide (c.val ≤ 'z'.val))) :=
  rfl

theorem isDigit_of_startsWord (starts : startsWord c = true) : Numeral.isDigit c = false := by
  rw [Numeral.isDigit_eq, Bool.eq_false_iff]
  intro digit
  simp only [startsWord, isAlpha_eq, Char.isDigit, Bool.or_eq_true,
    Bool.and_eq_true, decide_eq_true_eq, beq_iff_eq, ge_iff_le, UInt32.le_iff_toNat_le] at starts digit
  simp only [Char.reduceVal, UInt32.reduceToNat] at starts digit
  rcases starts with (⟨_, _⟩ | ⟨_, _⟩) | rfl
  · omega
  · omega
  · exact absurd digit (by decide)

theorem isWordChar_of_startsWord (starts : startsWord c = true) : isWordChar c = true := by
  rw [startsWord, Bool.or_eq_true] at starts
  rw [isWordChar, Char.isAlphanum]
  rcases starts with letter | line
  · rw [letter, Bool.true_or, Bool.true_or]
  · rw [line, Bool.or_true]

theorem sound_word (starts : startsWord c = true) (rest : List Char) :
    Sound (.word (.ofList (c :: rest.takeWhile isWordChar))) := by
  refine ⟨?_, ?_⟩
  · rw [String.toList_ofList, List.forall_mem_cons]
    exact ⟨isWordChar_of_startsWord starts, fun d member => List.mem_takeWhile_imp member⟩
  · rw [String.toList_ofList, List.all_cons, isDigit_of_startsWord starts, Bool.false_and]

theorem sound_number {cs : List Char} {t : Token} (read : number? cs = some t) : t.Sound := by
  have bounded : ∀ value : Option Nat,
      (value.map fun n => if n < Nat.pow 2 64 then Token.integer n else .real) = some t → t.Sound := by
    intro value done
    obtain ⟨n, _, rfl⟩ := Option.map_eq_some_iff.mp done
    split <;> trivial
  have real : ∀ refused : Bool, (if refused then none else some Token.real) = some t → t.Sound := by
    intro refused done
    cases refused <;> cases done
    trivial
  unfold number? at read
  dsimp only at read
  split at read
  · exact bounded _ read
  · exact bounded _ read
  · split at read
    · split at read <;> exact bounded _ read
    · split at read
      · cases read
      · exact real _ read

theorem scan_sound {fuel : Nat} {cs : List Char} {ts : List Token} (done : scan fuel cs = some ts) :
    ∀ t ∈ ts, t.Sound := by
  induction fuel generalizing cs ts with
  | zero => cases done
  | succ fuel ih =>
    cases cs with
    | nil =>
      cases done
      simp
    | cons c rest =>
      -- one more token before those of the rest
      have more : ∀ {t : Token} {rest : List Char}, t.Sound → (scan fuel rest).map (t :: ·) = some ts →
          ∀ t ∈ ts, t.Sound := by
        intro t rest sound done
        obtain ⟨ts, later, rfl⟩ := Option.map_eq_some_iff.mp done
        exact List.forall_mem_cons.mpr ⟨sound, ih later⟩
      cases comment : opensComment c rest with
      | true =>
        rw [opensComment, Bool.and_eq_true, beq_iff_eq] at comment
        obtain ⟨rfl, next⟩ := comment
        cases rest with
        | nil => cases next
        | cons d rest =>
          have next : d = '/' ∨ d = '*' := by simpa using next
          rcases next with rfl | rfl
          · exact ih done
          · obtain ⟨rest, _, later⟩ := Option.bind_eq_some_iff.mp done
            exact ih later
      | false =>
        rw [scan_cons comment] at done
        split at done
        · exact ih done
        split at done
        · rename_i starts
          exact more (sound_word starts rest) done
        split at done
        · obtain ⟨t, read, later⟩ := Option.bind_eq_some_iff.mp done
          exact more (sound_number read) later
        split at done
        · obtain ⟨_, _, later⟩ := Option.bind_eq_some_iff.mp done
          exact more (t := .text _) trivial later
        split at done
        · exact more (t := .mark _) trivial done
        · cases done

end Token

theorem tokens_sound {text : String} {ts : List Token} (done : tokens text = some ts) :
    ∀ t ∈ ts, t.Sound :=
  Token.scan_sound done

/-! ### What is declared -/

/-- A path of a linked file. -/
def FieldType.IsResolved : FieldType → Prop
  | .scalar _ => True
  | .message path | .group path | .enum path => IsPath path
  | .named _ => False

/-- There are fields for the key and the value. -/
def HasEntry (fields : List Field) : Prop := ∀ n ∈ [(1 : Int), 2], ∃ f ∈ fields, f.number = n

/-- The names in a message are names, and its maps have entries. Where `linked` holds, its fields
have paths as types. -/
inductive Message.Sound (linked : Prop) : Message → Prop
  | intro {m : Message} (name : IsName m.name) (fields : linked → ∀ f ∈ m.fields, f.type.IsResolved)
      (enums : ∀ e ∈ m.enums, IsName e.name) (nested : ∀ n ∈ m.nested, Sound linked n)
      (entry : m.isMapEntry = true → HasEntry m.fields) : Sound linked m

structure Service.Sound (linked : Prop) (s : Service) : Prop where
  name : IsName s.name
  methods : linked → ∀ m ∈ s.methods, IsPath m.input ∧ IsPath m.output

structure File.Sound (linked : Prop) (f : File) : Prop where
  package : IsScope f.package
  messages : ∀ m ∈ f.messages, m.Sound linked
  enums : ∀ e ∈ f.enums, IsName e.name
  services : ∀ s ∈ f.services, s.Sound linked

/-! ### Parsing -/

namespace Parse

variable {c : Char}

/-- From tokens whose words are names, the parser makes only what meets `P`. -/
def Meets {α : Type} (x : Parse α) (P : α → Prop) : Prop :=
  ∀ ts a rest, (∀ t ∈ ts, t.Sound) → x ts = some (a, rest) → P a ∧ ∀ t ∈ rest, t.Sound

variable {α β : Type}

theorem Meets.pure {a : α} {P : α → Prop} (holds : P a) : Meets (Pure.pure a) P := by
  intro ts b rest sound done
  cases done
  exact ⟨holds, sound⟩

theorem Meets.fail {P : α → Prop} : Meets Parse.fail P := by
  intro ts b rest sound done
  cases done

theorem Meets.bind {x : Parse α} {f : α → Parse β} {P : α → Prop} {Q : β → Prop} (first : Meets x P)
    (next : ∀ a, P a → Meets (f a) Q) : Meets (x >>= f) Q := by
  intro ts b rest sound done
  obtain ⟨⟨a, mid⟩, before, after⟩ := Option.bind_eq_some_iff.mp done
  obtain ⟨holds, sound⟩ := first ts a mid sound before
  exact next a holds mid b rest sound after

theorem Meets.fail_bind {f : α → Parse β} {Q : β → Prop} : Meets (Parse.fail >>= f) Q :=
  (Meets.fail (P := fun _ => False)).bind fun _ absurd => absurd.elim

theorem Meets.ite {c : Prop} [Decidable c] {x y : Parse α} {Q : α → Prop} (yes : Meets x Q)
    (no : Meets y Q) : Meets (if c then x else y) Q := by
  split
  · exact yes
  · exact no

theorem Meets.guard {c : Prop} [Decidable c] {f : Unit → Parse α} {Q : α → Prop} (rest : Meets (f ()) Q) :
    Meets (if c then Parse.fail >>= f else f ()) Q := by
  split
  · exact .fail_bind
  · exact rest

theorem Meets.mono {x : Parse α} {P Q : α → Prop} (meets : Meets x P) (weaker : ∀ a, P a → Q a) :
    Meets x Q :=
  fun ts a rest sound done => (meets ts a rest sound done).imp_left (weaker a)

/-- A parser of which only the tokens that it leaves matter. -/
def Keeps (x : Parse α) : Prop := Meets x fun _ => True

theorem Meets.keeps {x : Parse α} {P : α → Prop} (meets : Meets x P) : Keeps x := meets.mono fun _ _ => trivial

theorem Meets.discard {x : Parse α} {P : α → Prop} (meets : Meets x P) : Keeps (discard x) :=
  meets.bind (f := fun _ => Pure.pure ()) fun _ _ => .pure trivial

theorem keeps_get : Keeps (get : Parse (List Token)) := by
  intro ts a rest sound done
  cases done
  exact ⟨trivial, sound⟩

theorem keeps_skip : Keeps skip := by
  intro ts a rest sound done
  cases done
  exact ⟨trivial, fun t member => sound t (List.mem_of_mem_tail member)⟩

theorem meets_peek : Meets peek fun t => ∀ s, t = some (.word s) → IsName s := by
  intro ts a rest sound done
  cases done
  exact ⟨fun s first => sound _ (List.mem_of_head? first), sound⟩

theorem keeps_took (c : Char) : Keeps (took c) := by
  refine meets_peek.bind fun t _ => ?_
  split
  · exact keeps_skip.bind fun _ _ => .pure trivial
  · exact .pure trivial

theorem keeps_mark (c : Char) : Keeps (mark c) := by
  refine (keeps_took c).bind fun t _ => ?_
  split
  · exact .fail
  · exact .pure trivial

theorem keeps_tookWord (s : String) : Keeps (tookWord s) := by
  refine meets_peek.bind fun t _ => ?_
  split
  · exact keeps_skip.bind fun _ _ => .pure trivial
  · exact .pure trivial

theorem keeps_keyword (s : String) : Keeps (keyword s) := by
  refine (keeps_tookWord s).bind fun t _ => ?_
  split
  · exact .fail
  · exact .pure trivial

theorem meets_word : Meets word IsName := by
  refine meets_peek.bind fun t named => ?_
  split
  · exact keeps_skip.bind fun _ _ => .pure (named _ rfl)
  · exact .fail

theorem keeps_integer : Keeps integer := by
  refine meets_peek.bind fun t _ => ?_
  split
  · exact keeps_skip.bind fun _ _ => .pure trivial
  · exact .fail

theorem keeps_texts (fuel : Nat) : Keeps (texts fuel) := by
  induction fuel with
  | zero => exact .fail
  | succ fuel ih =>
    refine meets_peek.bind fun t _ => ?_
    split
    · refine keeps_skip.bind fun _ _ => meets_peek.bind fun t _ => ?_
      split
      · exact ih.bind fun _ _ => .pure trivial
      · exact .pure trivial
    · exact .fail

theorem keeps_text : Keeps text := keeps_get.bind fun _ _ => keeps_texts _

theorem meets_dotted (fuel : Nat) : Meets (dotted fuel) IsPath := by
  induction fuel with
  | zero => exact .fail
  | succ fuel ih =>
    refine meets_word.bind fun s name => (keeps_took '.').bind fun more _ => ?_
    split
    · exact ih.bind fun rest path => .pure (name.isPath.dot path)
    · exact .pure name.isPath

theorem meets_path : Meets path IsPath := keeps_get.bind fun _ _ => meets_dotted _

theorem keeps_reference : Keeps reference := by
  refine (keeps_took '.').bind fun full _ => ?_
  split
  · exact meets_path.bind fun _ _ => .pure trivial
  · exact meets_path.keeps

/-! ### Options and numbers -/

theorem keeps_balanced (fuel depth : Nat) : Keeps (balanced fuel depth) := by
  induction fuel generalizing depth with
  | zero => exact .fail
  | succ fuel ih =>
    refine meets_peek.bind fun t _ => ?_
    split
    · exact .fail
    · exact keeps_skip.bind fun _ _ => ih _
    · refine keeps_skip.bind fun _ _ => ?_
      split
      · exact .pure trivial
      · exact ih _
    · exact keeps_skip.bind fun _ _ => ih _

theorem keeps_optionValue : Keeps optionValue := by
  refine (keeps_took '\x7b').bind fun record _ => ?_
  split
  · exact keeps_get.bind fun _ _ => (keeps_balanced _ _).bind fun _ _ => .pure trivial
  · have sign : Keeps (do return (← took '-') || (← took '+')) :=
      (keeps_took '-').bind fun _ _ => (keeps_took '+').bind fun _ _ => .pure trivial
    refine sign.bind fun signed _ => meets_peek.bind fun t _ => ?_
    split
    · exact keeps_skip.bind fun _ _ => .pure trivial
    · exact keeps_skip.bind fun _ _ => .pure trivial
    · refine keeps_skip.bind fun _ _ => ?_
      split
      · split
        · exact .pure trivial
        · exact .fail
      · exact .pure trivial
    · split
      · exact .fail
      · exact keeps_text.bind fun _ _ => .pure trivial
    · exact .fail

theorem keeps_setting (owner : Owner) : Keeps (setting owner) := by
  refine meets_word.bind fun name _ => (keeps_mark '=').bind fun _ _ => keeps_optionValue.bind fun value _ => ?_
  split
  · split
    · exact .pure trivial
    · exact .fail
  · split
    · exact .pure trivial
    · exact .fail

theorem keeps_settings (owner : Owner) (fuel : Nat) : Keeps (settings owner fuel) := by
  induction fuel with
  | zero => exact .fail
  | succ fuel ih =>
    refine (keeps_setting owner).bind fun s _ => (keeps_took ',').bind fun more _ => ?_
    split
    · exact ih.bind fun _ _ => .pure trivial
    · exact (keeps_mark ']').bind fun _ _ => .pure trivial

theorem keeps_bracketed (owner : Owner) : Keeps (bracketed owner) := by
  refine (keeps_took '[').bind fun some _ => ?_
  split
  · exact keeps_get.bind fun _ _ => keeps_settings owner _
  · exact .pure trivial

theorem keeps_statement (owner : Owner) : Keeps (statement owner) :=
  (keeps_setting owner).bind fun _ _ => (keeps_mark ';').bind fun _ _ => .pure trivial

theorem keeps_number (signed : Bool) : Keeps (signedNumber signed) := by
  unfold signedNumber rangeEnd.number
  split
  · refine (keeps_took '-').bind fun minus _ => ?_
    split
    · exact keeps_integer.bind fun _ _ => .pure trivial
    · exact keeps_integer.bind fun _ _ => .pure trivial
  · exact keeps_integer.bind fun _ _ => .pure trivial

theorem keeps_rangeEnd (first max : Int) (signed : Bool) : Keeps (rangeEnd first max signed) := by
  refine (keeps_tookWord "to").bind fun open_ _ => ?_
  split
  · refine (keeps_tookWord "max").bind fun greatest _ => ?_
    split
    · exact .pure trivial
    · exact keeps_number signed
  · exact .pure trivial

theorem keeps_ranges (max : Int) (signed : Bool) (fuel : Nat) : Keeps (ranges max signed fuel) := by
  induction fuel with
  | zero => exact .fail
  | succ fuel ih =>
    refine (keeps_number signed).bind fun first _ => (keeps_rangeEnd first max signed).bind fun last _ =>
      (keeps_took ',').bind fun more _ => ?_
    split
    · exact ih.bind fun _ _ => .pure trivial
    · exact .pure trivial

theorem keeps_names (fuel : Nat) : Keeps (names fuel) := by
  induction fuel with
  | zero => exact .fail
  | succ fuel ih =>
    refine keeps_text.bind fun s _ => (keeps_took ',').bind fun more _ => ?_
    split
    · exact ih.bind fun _ _ => .pure trivial
    · exact .pure trivial

theorem keeps_reservedPart (max : Int) (signed : Bool) : Keeps (reservedPart max signed) := by
  refine keeps_get.bind fun ts _ => meets_peek.bind fun t _ => ?_
  have finish : ∀ part : List Range × List String, Keeps (do mark ';'; return part) :=
    fun part => (keeps_mark ';').bind fun _ _ => .pure trivial
  split
  · exact (keeps_names _).bind fun ns _ => finish ([], ns)
  · exact (keeps_ranges max signed _).bind fun rs _ => finish (rs, [])

/-! ### Fields -/

theorem keeps_fieldOptions (proto3 : Bool) (type : FieldType) (label : Label) :
    Keeps (fieldOptions proto3 type label) := by
  refine (keeps_bracketed .field).bind fun options _ => ?_
  dsimp only
  refine .guard ?_
  split
  · refine .guard ?_
    split
    · refine .guard ?_
      split
      · exact .guard (.pure trivial)
      · exact .pure trivial
    · exact .fail_bind
  · split
    · exact .guard (.pure trivial)
    · exact .pure trivial

theorem meets_fieldRest (proto3 : Bool) (label : Label) (type : FieldType) (inOneof : Bool) :
    Meets (fieldRest proto3 label type inOneof) fun f => IsName f.name := by
  exact meets_word.bind fun name named => (keeps_mark '=').bind fun _ _ => keeps_integer.bind fun number _ =>
    (keeps_fieldOptions proto3 type label).bind fun json? _ => (keeps_mark ';').bind fun _ _ => .pure named

theorem small_of_isWordChar (word : Token.isWordChar c = true) : c.toNat < 128 := by
  simp only [Token.isWordChar, Char.isAlphanum, Token.isAlpha_eq, Char.isDigit,
    Bool.or_eq_true, Bool.and_eq_true, decide_eq_true_eq, beq_iff_eq, ge_iff_le,
    UInt32.le_iff_toNat_le] at word
  simp only [Char.reduceVal, UInt32.reduceToNat] at word
  rw [Char.toNat]
  rcases word with ((⟨_, _⟩ | ⟨_, _⟩) | ⟨_, _⟩) | rfl
  · omega
  · omega
  · omega
  · decide

theorem forall_isWordChar {P : Char → Prop}
    (small : ∀ n, n < 128 → Token.isWordChar (Char.ofNat n) = true → P (Char.ofNat n))
    (word : Token.isWordChar c = true) : P c := by
  have here := small c.toNat (small_of_isWordChar word)
  rw [Char.ofNat_toNat] at here
  exact here word

theorem isWordChar_toUpper (word : Token.isWordChar c = true) :
    Token.isWordChar c.toUpper = true :=
  forall_isWordChar (P := fun c => Token.isWordChar c.toUpper = true) (by decide) word

theorem chars_jsonName {cs : List Char} (chars : ∀ c ∈ cs, Token.isWordChar c = true) (raise : Bool) :
    ∀ c ∈ jsonName.go raise cs, Token.isWordChar c = true := by
  induction cs generalizing raise with
  | nil => simp [jsonName.go]
  | cons c cs ih =>
    rw [List.forall_mem_cons] at chars
    rw [jsonName.go]
    split
    · exact ih chars.2 true
    · rw [List.forall_mem_cons]
      refine ⟨?_, ih chars.2 false⟩
      split
      · exact isWordChar_toUpper chars.1
      · exact chars.1

theorem isName_entryName {field : String} (name : IsName field) : IsName (entryName field) := by
  have chars : ∀ c ∈ (jsonName field).toList, Token.isWordChar c = true := by
    rw [jsonName, String.toList_ofList]
    exact chars_jsonName name.chars false
  have ending : "Entry".toList.all Token.isWordChar = true ∧ "Entry".toList.all Numeral.isDigit = false := by
    decide
  unfold entryName
  cases shown : (jsonName field).toList with
  | nil => exact ⟨List.all_eq_true.mp ending.1, ending.2⟩
  | cons c cs =>
    rw [shown, List.forall_mem_cons] at chars
    refine ⟨?_, ?_⟩
    · rw [String.toList_ofList, List.cons_append, List.forall_mem_cons, List.forall_mem_append]
      exact ⟨isWordChar_toUpper chars.1, chars.2, List.all_eq_true.mp ending.1⟩
    · rw [String.toList_ofList, List.all_append, ending.2, Bool.and_false]

theorem meets_mapField (proto3 : Bool) : Meets (mapField proto3) fun r => r.2.Sound False := by
  refine (keeps_mark '<').bind fun _ _ => meets_word.bind fun key _ => ?_
  split
  · refine .guard ((keeps_mark ',').bind fun _ _ => keeps_reference.bind fun value _ =>
      (keeps_mark '>').bind fun _ _ => (meets_fieldRest _ _ _ _).bind fun f name => .pure ?_)
    refine .intro (isName_entryName name) False.elim (by simp) (by simp) fun _ n number => ?_
    have either : n = 1 ∨ n = 2 := by simpa using number
    rcases either with rfl | rfl
    · exact ⟨_, List.mem_cons_self, rfl⟩
    · exact ⟨_, List.mem_cons_of_mem _ List.mem_cons_self, rfl⟩
  · exact .fail

theorem keeps_label? : Keeps label? := by
  refine (keeps_tookWord "optional").bind fun optional _ => ?_
  split
  · exact .pure trivial
  refine (keeps_tookWord "required").bind fun required _ => ?_
  split
  · exact .pure trivial
  refine (keeps_tookWord "repeated").bind fun repeated _ => ?_
  split
  · exact .pure trivial
  · exact .pure trivial

theorem keeps_startsWith (keyword : String) (follows : Token → Bool) : Keeps (startsWith keyword follows) := by
  refine keeps_get.bind fun ts _ => ?_
  split
  · exact .pure trivial
  · exact .pure trivial

/-! ### Enums -/

theorem meets_enumBody (fuel : Nat) {e : Enum} (name : IsName e.name) :
    Meets (enumBody fuel e) fun e => IsName e.name := by
  induction fuel generalizing e with
  | zero => exact .fail
  | succ fuel ih =>
    refine (keeps_took '\x7d').bind fun closed _ => ?_
    split
    · exact .pure name
    refine (keeps_took ';').bind fun empty _ => ?_
    split
    · exact ih name
    refine (keeps_startsWith _ _).bind fun option _ => ?_
    split
    · exact keeps_skip.bind fun _ _ => (keeps_statement _).bind fun s _ => ih name
    refine (keeps_startsWith _ _).bind fun reserved _ => ?_
    split
    · exact keeps_skip.bind fun _ _ => (keeps_reservedPart _ _).bind fun part _ => ih name
    refine meets_word.bind fun _ _ => (keeps_mark '=').bind fun _ _ => (keeps_number true).bind fun number _ =>
      (keeps_bracketed _).bind fun options _ => ?_
    exact .guard ((keeps_mark ';').bind fun _ _ => ih name)

theorem meets_enumDecl : Meets enumDecl fun e => IsName e.name :=
  meets_word.bind fun _ name => (keeps_mark '\x7b').bind fun _ _ => keeps_get.bind fun _ _ =>
    meets_enumBody _ name

/-! ### Messages -/

theorem mem_more {P : α → Prop} {old new : List α} (each : ∀ a ∈ new, P a) :
    ∀ a ∈ old ++ new, a ∈ old ∨ P a :=
  fun a member => (List.mem_append.mp member).imp_right (each a)

/-- A message with more fields, enums and messages in it. -/
theorem sound_grow {m m' : Message} (sound : m.Sound False) (name : m'.name = m.name)
    (entry : m'.isMapEntry = m.isMapEntry) (fields : m.fields ⊆ m'.fields)
    (enums : ∀ e ∈ m'.enums, e ∈ m.enums ∨ IsName e.name)
    (nested : ∀ n ∈ m'.nested, n ∈ m.nested ∨ n.Sound False) : m'.Sound False := by
  obtain ⟨named, _, enumsNamed, nestedSound, hasEntry⟩ := sound
  refine .intro (name ▸ named) False.elim ?_ ?_ ?_
  · exact fun e member => (enums e member).elim (enumsNamed e) id
  · exact fun n member => (nested n member).elim (nestedSound n) id
  · intro isEntry n number
    obtain ⟨f, member, same⟩ := hasEntry (entry ▸ isEntry) n number
    exact ⟨f, fields member, same⟩

/-- What the parsers of messages make of sound parts. -/
structure Messages (proto3 : Bool) (fuel : Nat) : Prop where
  body {m : Message} (sound : m.Sound False) : Meets (messageBody proto3 fuel m) (Message.Sound False)
  labelled : Meets (labelled proto3 fuel) fun r => ∀ m ∈ r.2, m.Sound False
  group (label : Label) (inOneof : Bool) :
    Meets (groupRest proto3 label inOneof fuel) fun r => ∀ m ∈ r.2, m.Sound False
  oneof {m : Message} (sound : m.Sound False) : Meets (oneofBody proto3 fuel m) (Message.Sound False)
  extend (extendee : String) (extensions : List Extension) {groups : List Message}
    (sound : ∀ m ∈ groups, m.Sound False) :
    Meets (extendBody proto3 fuel extendee extensions groups) fun r => ∀ m ∈ r.2, m.Sound False

theorem sound_named {name : String} (named : IsName name) : Message.Sound False { name } :=
  .intro named False.elim (by simp) (by simp) fun entry => by cases entry

section

variable {proto3 : Bool} {fuel : Nat} (below : Messages proto3 fuel)
include below

theorem meets_labelled : Meets (labelled proto3 (fuel + 1)) fun r => ∀ m ∈ r.2, m.Sound False := by
  refine keeps_label?.bind fun label _ => .guard (.guard ?_)
  refine (keeps_startsWith _ _).bind fun group _ => .ite ?_ ?_
  · exact keeps_skip.bind fun _ _ => below.group _ _
  · exact keeps_reference.bind fun name _ => (meets_fieldRest _ _ _ _).bind fun f _ => .pure (by simp)

theorem meets_groupRest (label : Label) (inOneof : Bool) :
    Meets (groupRest proto3 label inOneof (fuel + 1)) fun r => ∀ m ∈ r.2, m.Sound False := by
  rw [groupRest]
  refine .guard (meets_word.bind fun name named => .guard ?_)
  refine (keeps_mark '=').bind fun _ _ => keeps_integer.bind fun number _ =>
    (keeps_fieldOptions _ _ _).discard.bind fun _ _ => (keeps_mark '\x7b').bind fun _ _ =>
    (below.body (sound_named named)).bind fun body sound => .pure ?_
  simpa using sound

theorem meets_oneofBody {m : Message} (sound : m.Sound False) :
    Meets (oneofBody proto3 (fuel + 1) m) (Message.Sound False) := by
  refine (keeps_took '\x7d').bind fun closed _ => ?_
  split
  · exact .pure sound
  refine (keeps_startsWith _ _).bind fun option _ => ?_
  split
  · exact keeps_skip.bind fun _ _ => (keeps_statement _).discard.bind fun _ _ => below.oneof sound
  refine (keeps_startsWith _ _).bind fun group _ => ?_
  split
  · refine keeps_skip.bind fun _ _ => (below.group _ _).bind fun r inner => below.oneof ?_
    exact sound_grow sound rfl rfl (List.subset_append_left _ _) (fun _ => .inl) (mem_more inner)
  · refine keeps_reference.bind fun name _ => (meets_fieldRest _ _ _ _).bind fun f _ => below.oneof ?_
    exact sound_grow sound rfl rfl (List.subset_append_left _ _) (fun _ => .inl) (fun _ => .inl)

theorem meets_extendBody (extendee : String) (extensions : List Extension) {groups : List Message}
    (sound : ∀ m ∈ groups, m.Sound False) :
    Meets (extendBody proto3 (fuel + 1) extendee extensions groups) fun r => ∀ m ∈ r.2, m.Sound False := by
  refine (keeps_took '\x7d').bind fun closed _ => ?_
  split
  · exact .pure sound
  refine (keeps_took ';').bind fun empty _ => ?_
  split
  · exact below.extend _ _ sound
  · refine below.labelled.bind fun r inner => .guard ?_
    exact below.extend _ _ (List.forall_mem_append.mpr ⟨sound, inner⟩)

theorem meets_messageBody {m : Message} (sound : m.Sound False) :
    Meets (messageBody proto3 (fuel + 1) m) (Message.Sound False) := by
  refine (keeps_took '\x7d').bind fun closed _ => .ite ?_ ?_
  · exact .pure sound
  refine (keeps_took ';').bind fun empty _ => .ite ?_ ?_
  · exact below.body sound
  refine (keeps_startsWith _ _).bind fun option _ => .ite ?_ ?_
  · exact keeps_skip.bind fun _ _ => (keeps_statement _).discard.bind fun _ _ => below.body sound
  refine (keeps_startsWith _ _).bind fun message _ => .ite ?_ ?_
  · refine keeps_skip.bind fun _ _ => meets_word.bind fun name named => (keeps_mark '\x7b').bind fun _ _ =>
      (below.body (sound_named named)).bind fun inner innerSound => below.body ?_
    exact sound_grow sound rfl rfl (List.Subset.refl _) (fun _ => .inl) (mem_more (by simpa using innerSound))
  refine (keeps_startsWith _ _).bind fun enum _ => .ite ?_ ?_
  · refine keeps_skip.bind fun _ _ => meets_enumDecl.bind fun e named => below.body ?_
    exact sound_grow sound rfl rfl (List.Subset.refl _) (mem_more (by simpa using named)) (fun _ => .inl)
  refine (keeps_startsWith _ _).bind fun oneof _ => .ite ?_ ?_
  · refine keeps_skip.bind fun _ _ => meets_word.bind fun name _ => (keeps_mark '\x7b').bind fun _ _ =>
      (below.oneof ?_).bind fun m sound => .guard (below.body sound)
    exact sound_grow sound rfl rfl (List.Subset.refl _) (fun _ => .inl) (fun _ => .inl)
  refine (keeps_startsWith _ _).bind fun extend _ => .ite ?_ ?_
  · refine keeps_skip.bind fun _ _ => keeps_reference.bind fun name _ => (keeps_mark '\x7b').bind fun _ _ =>
      (below.extend _ _ (by simp)).bind fun r inner => .guard (below.body ?_)
    exact sound_grow sound rfl rfl (List.Subset.refl _) (fun _ => .inl) (mem_more inner)
  refine (keeps_startsWith _ _).bind fun extensions _ => .ite ?_ ?_
  · refine keeps_skip.bind fun _ _ => .guard (keeps_get.bind fun _ _ => (keeps_ranges _ _ _).bind fun rs _ =>
      (keeps_bracketed _).discard.bind fun _ _ => (keeps_mark ';').bind fun _ _ => below.body ?_)
    exact sound_grow sound rfl rfl (List.Subset.refl _) (fun _ => .inl) (fun _ => .inl)
  refine (keeps_startsWith _ _).bind fun reserved _ => .ite ?_ ?_
  · refine keeps_skip.bind fun _ _ => (keeps_reservedPart _ _).bind fun part _ => below.body ?_
    exact sound_grow sound rfl rfl (List.Subset.refl _) (fun _ => .inl) (fun _ => .inl)
  refine (keeps_startsWith _ _).bind fun map _ => .ite ?_ ?_
  · refine keeps_skip.bind fun _ _ => (meets_mapField _).bind fun r entry => below.body ?_
    exact sound_grow sound rfl rfl (List.subset_append_left _ _) (fun _ => .inl) (mem_more (by simpa using entry))
  · refine below.labelled.bind fun r inner => below.body ?_
    exact sound_grow sound rfl rfl (List.subset_append_left _ _) (fun _ => .inl) (mem_more inner)

end

theorem messages (proto3 : Bool) (fuel : Nat) : Messages proto3 fuel := by
  induction fuel with
  | zero => exact ⟨fun _ => .fail, .fail, fun _ _ => .fail, fun _ => .fail, fun _ _ _ _ => .fail⟩
  | succ fuel ih =>
    exact ⟨meets_messageBody ih, meets_labelled ih, meets_groupRest ih, meets_oneofBody ih,
      meets_extendBody ih⟩

/-! ### Services -/

theorem keeps_streamed : Keeps streamed := by
  refine (keeps_mark '(').bind fun _ _ => (keeps_startsWith _ _).bind fun stream _ => .ite ?_ ?_
  · exact keeps_skip.bind fun _ _ => keeps_reference.bind fun _ _ =>
      (keeps_mark ')').bind fun _ _ => .pure trivial
  · exact keeps_reference.bind fun _ _ => (keeps_mark ')').bind fun _ _ => .pure trivial

theorem keeps_methodOptions (fuel : Nat) (options : List (String × OptionValue)) :
    Keeps (methodOptions fuel options) := by
  induction fuel generalizing options with
  | zero => exact .fail
  | succ fuel ih =>
    refine (keeps_took '\x7d').bind fun closed _ => .ite (.pure trivial) ?_
    refine (keeps_took ';').bind fun empty _ => .ite (ih _) ?_
    exact (keeps_keyword _).bind fun _ _ => (keeps_statement _).bind fun s _ => ih _

theorem keeps_methodDecl : Keeps methodDecl := by
  refine meets_word.bind fun name _ => keeps_streamed.bind fun input _ => (keeps_keyword _).bind fun _ _ =>
    keeps_streamed.bind fun output _ => (keeps_took '\x7b').bind fun block _ => .ite ?_ ?_
  · exact keeps_get.bind fun _ _ => (keeps_methodOptions _ _).bind fun options _ => .guard (.pure trivial)
  · refine (keeps_mark ';').bind fun _ _ => ?_
    exact (Meets.pure (P := fun _ => True) trivial).bind fun options _ => .guard (.pure trivial)

theorem meets_serviceBody (fuel : Nat) {s : Service} (name : IsName s.name) :
    Meets (serviceBody fuel s) fun s => IsName s.name := by
  induction fuel generalizing s with
  | zero => exact .fail
  | succ fuel ih =>
    refine (keeps_took '\x7d').bind fun closed _ => .ite (.pure name) ?_
    refine (keeps_took ';').bind fun empty _ => .ite (ih name) ?_
    refine (keeps_tookWord _).bind fun option _ => .ite ?_ ?_
    · exact (keeps_statement _).discard.bind fun _ _ => ih name
    · exact (keeps_keyword _).bind fun _ _ => keeps_methodDecl.bind fun m _ => ih name

/-! ### Files -/

theorem meets_fileBody (fuel : Nat) (hasPackage : Bool) (options : List String) {f : File}
    (sound : f.Sound False) : Meets (fileBody fuel hasPackage options f) (File.Sound False) := by
  induction fuel generalizing hasPackage options f with
  | zero => exact .fail
  | succ fuel ih =>
    obtain ⟨package, messages, enums, services⟩ := sound
    refine meets_peek.bind fun t _ => ?_
    split
    · exact .pure ⟨package, messages, enums, services⟩
    · exact keeps_skip.bind fun _ _ => ih _ _ ⟨package, messages, enums, services⟩
    · refine keeps_skip.bind fun _ _ => meets_path.bind fun path isPath => (keeps_mark ';').bind fun _ _ => .guard ?_
      exact ih _ _ ⟨.inr isPath, messages, enums, services⟩
    · refine keeps_skip.bind fun _ _ => (keeps_tookWord _).bind fun isPublic _ => .ite ?_ ?_
      · refine (keeps_tookWord _).discard.bind fun _ _ => keeps_text.bind fun path _ =>
          (keeps_mark ';').bind fun _ _ => .guard (ih _ _ ⟨package, messages, enums, services⟩)
      · refine keeps_text.bind fun path _ => (keeps_mark ';').bind fun _ _ => .guard ?_
        exact ih _ _ ⟨package, messages, enums, services⟩
    · refine keeps_skip.bind fun _ _ => (keeps_statement _).bind fun s _ => .guard ?_
      exact ih _ _ ⟨package, messages, enums, services⟩
    · refine keeps_skip.bind fun _ _ => meets_word.bind fun name named => (keeps_mark '\x7b').bind fun _ _ =>
        ((Parse.messages _ _).body (sound_named named)).bind fun m sound => ih _ _ ?_
      exact ⟨package, List.forall_mem_append.mpr ⟨messages, by simpa using sound⟩, enums, services⟩
    · refine keeps_skip.bind fun _ _ => meets_enumDecl.bind fun e named => ih _ _ ?_
      exact ⟨package, messages, List.forall_mem_append.mpr ⟨enums, by simpa using named⟩, services⟩
    · refine keeps_skip.bind fun _ _ => meets_word.bind fun name named => (keeps_mark '\x7b').bind fun _ _ =>
        (meets_serviceBody _ named).bind fun s named => ih _ _ ?_
      exact ⟨package, messages, enums, List.forall_mem_append.mpr ⟨services, by simpa using ⟨named, False.elim⟩⟩⟩
    · refine keeps_skip.bind fun _ _ => keeps_reference.bind fun name _ => (keeps_mark '\x7b').bind fun _ _ =>
        ((Parse.messages _ _).extend _ _ (by simp)).bind fun r inner => .guard (ih _ _ ?_)
      exact ⟨package, List.forall_mem_append.mpr ⟨messages, inner⟩, enums, services⟩
    · exact .fail

theorem keeps_version : Keeps version := by
  refine (keeps_startsWith _ _).bind fun given _ => .ite ?_ (.pure trivial)
  exact keeps_skip.bind fun _ _ => keeps_skip.bind fun _ _ => keeps_text.bind fun v _ =>
    (keeps_mark ';').bind fun _ _ => .ite (.pure trivial) (.ite (.pure trivial) .fail)

theorem meets_file (name : String) : Meets (file name) (File.Sound False) :=
  keeps_version.bind fun _ _ => keeps_get.bind fun _ _ =>
    meets_fileBody _ _ _ ⟨.inl rfl, by simp, by simp, by simp⟩

end Parse

theorem File.parse_sound {name text : String} {f : File} (done : File.parse name text = some f) :
    f.Sound False := by
  obtain ⟨ts, read, done⟩ := Option.bind_eq_some_iff.mp done
  obtain ⟨⟨g, rest⟩, parsed, same⟩ := Option.bind_eq_some_iff.mp done
  obtain rfl : g = f := Option.some.inj same
  exact (Parse.meets_file name ts g rest (tokens_sound read) parsed).1

end TypeEngine.Proto
