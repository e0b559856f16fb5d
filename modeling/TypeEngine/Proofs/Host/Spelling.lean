import TypeEngine.Proofs.Host.RoundTrip

/-!
# Spellings of a reference

`Ref.parse` reads a text with a budget of steps that its length fixes. The budget never decides:
`read` needs no more steps than it takes characters, so what it reads with any budget it also reads
with that one (`parse_iff_spells`). A reference that some text spells has a spelling of its own, the
displayed one, which spells nothing else (`parse_display_of_parse`).
-/

namespace TypeEngine.Host.Ref

variable {params : List String}

/-- `s` is read as `r` when the reader has all the steps that it asks for. -/
def Spells (params : List String) (s : String) (r : Ref) : Prop :=
  Text.trim s.toList = [] ∧ r = absent ∨
    Text.trim s.toList ≠ [] ∧
      ∃ fuel rest, read params fuel (Text.trim s.toList) = .ok (r, rest) ∧ Text.trim rest = []

theorem length_skipSpaces_le (text : List Char) : (skipSpaces text).length ≤ text.length :=
  (List.dropWhile_suffix _).length_le

theorem length_after_name {text : List Char}
    (present : ¬(Text.trim ((skipSpaces text).takeWhile (!isDelimiter ·))).isEmpty = true) :
    ((skipSpaces text).dropWhile (!isDelimiter ·)).length < text.length := by
  have taken : (skipSpaces text).takeWhile (!isDelimiter ·) ≠ [] := by
    intro none
    rw [none] at present
    exact present rfl
  calc ((skipSpaces text).dropWhile (!isDelimiter ·)).length
    _ < ((skipSpaces text).takeWhile (!isDelimiter ·)).length +
          ((skipSpaces text).dropWhile (!isDelimiter ·)).length :=
        Nat.lt_add_of_pos_left (List.length_pos_iff.mpr taken)
    _ = (skipSpaces text).length := by rw [← List.length_append, List.takeWhile_append_dropWhile]
    _ ≤ text.length := length_skipSpaces_le text

section Arguments

variable {fuel : Nat} {cs after more : List Char} {arg : Ref} (text : List Char) (done : List Ref)

theorem readArgs_of_comma (first : read params fuel cs = .ok (arg, after))
    (comma : skipSpaces after = ',' :: more) :
    readArgs params (fuel + 1) text done cs = readArgs params fuel text (done ++ [arg]) more := by
  simp only [readArgs, first, bind, Except.bind, comma]

theorem readArgs_of_close (first : read params fuel cs = .ok (arg, after))
    (close : skipSpaces after = ']' :: more) :
    readArgs params (fuel + 1) text done cs = .ok (done ++ [arg], more) := by
  simp only [readArgs, first, bind, Except.bind, close]
  rfl

end Arguments

/-- Where characters are taken away the budget is positive, so one step can be made. -/
theorem forall_budget {P : Nat → Prop} {before after : Nat} (less : after < before)
    (step : ∀ k, before ≤ k + 1 + after → P (k + 1)) : ∀ k, before ≤ k + after → P k := by
  intro k enough
  cases k with
  | zero => omega
  | succ k => exact step k enough

/-- Reading with the fuel takes characters away, and as many steps as it takes characters are enough. -/
def Reads (params : List String) (fuel : Nat) : Prop :=
  ∀ text r rest, read params fuel text = .ok (r, rest) → rest.length < text.length ∧
    ∀ k, text.length ≤ k + rest.length → read params k text = .ok (r, rest)

/-- The same of reading arguments. -/
def ReadsArgs (params : List String) (fuel : Nat) : Prop :=
  ∀ text done cs args rest, readArgs params fuel text done cs = .ok (args, rest) →
    rest.length < cs.length ∧
      ∀ k, cs.length ≤ k + rest.length → readArgs params k text done cs = .ok (args, rest)

theorem Reads.succ {fuel : Nat} (readsArgs : ReadsArgs params fuel) : Reads params (fuel + 1) := by
  intro text r rest done
  rw [read] at done
  dsimp only at done
  split at done
  · cases done
  rename_i present
  have shorter := length_after_name present
  split at done
  · rename_i digits
    cases done
    refine ⟨shorter, forall_budget shorter fun k _ => ?_⟩
    simp only [read, if_neg present, if_pos digits]
  rename_i letters
  split at done
  · rename_i inner bracket
    obtain ⟨⟨args, after⟩, finished, done⟩ := Ty.exists_of_bind done
    cases done
    dsimp only
    rw [bracket, List.length_cons] at shorter
    obtain ⟨less, again⟩ := readsArgs _ _ _ _ _ finished
    have left : after.length < text.length := by omega
    refine ⟨left, forall_budget left fun k enough => ?_⟩
    simp only [read, if_neg present, if_neg letters, bracket, again k (by omega)]
    rfl
  · rename_i plain
    cases done
    refine ⟨shorter, forall_budget shorter fun k _ => ?_⟩
    simp only [read, if_neg present, if_neg letters]

theorem ReadsArgs.succ {fuel : Nat} (reads : Reads params fuel) (readsArgs : ReadsArgs params fuel) :
    ReadsArgs params (fuel + 1) := by
  intro text done cs args rest finished
  rw [readArgs] at finished
  obtain ⟨⟨arg, after⟩, first, finished⟩ := Ty.exists_of_bind finished
  obtain ⟨less, again⟩ := reads _ _ _ first
  have skipped := length_skipSpaces_le after
  dsimp only at finished
  split at finished
  · rename_i more comma
    rw [comma, List.length_cons] at skipped
    obtain ⟨less', again'⟩ := readsArgs _ _ _ _ _ finished
    have left : rest.length < cs.length := by omega
    refine ⟨left, forall_budget left fun k enough => ?_⟩
    rw [readArgs_of_comma _ _ (again k (by omega)) comma]
    exact again' k (by omega)
  · rename_i more close
    cases finished
    rw [close, List.length_cons] at skipped
    have left : rest.length < cs.length := by omega
    refine ⟨left, forall_budget left fun k enough => ?_⟩
    exact readArgs_of_close _ _ (again k (by omega)) close
  · cases finished

theorem reads (params : List String) (fuel : Nat) : Reads params fuel ∧ ReadsArgs params fuel := by
  induction fuel with
  | zero =>
    constructor
    · intro text r rest done
      cases done
    · intro text done cs args rest finished
      cases finished
  | succ fuel ih => exact ⟨.succ ih.2, .succ ih.1 ih.2⟩

theorem Spells.of_parse {s : String} {r : Ref} (done : parse s params = .ok r) : Spells params s r := by
  rw [parse] at done
  dsimp only at done
  split at done
  · rename_i blank
    cases done
    exact .inl ⟨List.isEmpty_iff.mp blank, rfl⟩
  · rename_i visible
    obtain ⟨⟨r', rest⟩, front, done⟩ := Ty.exists_of_bind done
    dsimp only at done
    split at done
    · rename_i all
      cases done
      exact .inr ⟨fun blank => visible (List.isEmpty_iff.mpr blank), _, rest, front, List.isEmpty_iff.mp all⟩
    · cases done

/-- The budget of `parse` is enough for every text. -/
theorem Spells.parse {s : String} {r : Ref} (spells : Spells params s r) : parse s params = .ok r := by
  rw [Ref.parse]
  dsimp only
  rcases spells with ⟨blank, rfl⟩ | ⟨visible, fuel, rest, front, all⟩
  · rw [if_pos (List.isEmpty_iff.mpr blank)]
  · have enough := ((reads params fuel).1 _ _ _ front).2 (2 * (Text.trim s.toList).length + 2)
      (by omega)
    rw [if_neg (fun blank => visible (List.isEmpty_iff.mp blank)), enough]
    exact if_pos (List.isEmpty_iff.mpr all)

theorem parse_iff_spells {s : String} {r : Ref} : parse s params = .ok r ↔ Spells params s r :=
  ⟨.of_parse, Spells.parse⟩

/-- The displayed form of a reference that was read is read as the same reference, in every field and at
every depth, and with no budget is it read as another one. -/
theorem parse_display_of_parse {s : String} {r : Ref} (done : parse s params = .ok r) :
    parse r.display params = .ok r ∧ ∀ other, Spells params r.display other ↔ other = r := by
  have again : parse r.display params = .ok r := readsBack_of_parse done
  refine ⟨again, fun other => ?_⟩
  rw [← parse_iff_spells, again, Except.ok.injEq]
  exact eq_comm

/-- The blanks of the first text are gone in the displayed form. -/
theorem parse_display_of_parse_box :
    ∃ r, parse " Box [ T ,3, T[ U ] ] " ["T"] = .ok r ∧ r.display = "Box[T, 3, T[U]]" ∧
      parse "Box[T, 3, T[U]]" ["T"] = .ok r := by
  have read : (parse " Box [ T ,3, T[ U ] ] " ["T"]).toOption.map display = some "Box[T, 3, T[U]]" := by
    decide +kernel
  cases done : parse " Box [ T ,3, T[ U ] ] " ["T"] with
  | error m =>
    rw [done] at read
    cases read
  | ok r =>
    rw [done] at read
    have shown : r.display = "Box[T, 3, T[U]]" := Option.some.inj read
    exact ⟨r, rfl, shown, shown ▸ (parse_display_of_parse done).1⟩

end TypeEngine.Host.Ref
