import TypeEngine.Numeral

/-!
# Decimal numerals

A number that is written in decimal reads back as itself, and a count is read from exactly the
written numbers between one and the greatest (`count?_toString_iff`).
-/

namespace TypeEngine.Numeral

variable {n m : Int}

theorem isDigit_eq (c : Char) : isDigit c = c.isDigit := by
  simp [isDigit, Char.isDigit, Char.le_def]

theorem all_isDigit_toDigits (n : Nat) : (Nat.toDigits 10 n).all isDigit = true := by
  rw [List.all_eq_true]
  intro c member
  rw [isDigit_eq]
  exact Nat.isDigit_of_mem_toDigits (by decide) (by decide) member

theorem value_toDigits (n : Nat) : value (Nat.toDigits 10 n) = n := by
  have folds : ∀ ds, value ds = Nat.ofDigitChars 10 ds 0 := by
    intro ds
    simp only [value, Nat.ofDigitChars, Nat.mul_comm]
  rw [folds, Nat.ofDigitChars_ten_toDigits]

theorem toList_toString (n : Nat) : (toString n).toList = Nat.toDigits 10 n := by
  rw [Nat.toString_eq_ofList_toDigits, String.toList_ofList]

theorem toList_toString_int (natural : 0 ≤ n) :
    (toString n).toList = Nat.toDigits 10 n.toNat := by
  obtain ⟨k, rfl⟩ := Int.eq_ofNat_of_zero_le natural
  exact toList_toString k

theorem toString_injective {n m : Nat} (same : toString n = toString m) : n = m := by
  rw [Nat.toString_eq_ofList_toDigits, Nat.toString_eq_ofList_toDigits, String.ofList_inj] at same
  rw [← value_toDigits n, same, value_toDigits]

theorem toList_toString_negSucc (k : Nat) :
    (toString (Int.negSucc k)).toList = '-' :: Nat.toDigits 10 (k + 1) := by
  change ("-" ++ String.ofList (Nat.toDigits 10 (k + 1))).toList = _
  simp

theorem isDigit_of_mem_toString {c : Char} (member : c ∈ (toString n).toList) :
    isDigit c = true ∨ c = '-' := by
  cases n with
  | ofNat k =>
    rw [show (toString (Int.ofNat k)).toList = _ from toList_toString k] at member
    exact .inl (List.all_eq_true.mp (all_isDigit_toDigits k) c member)
  | negSucc k =>
    rw [toList_toString_negSucc] at member
    rcases List.mem_cons.mp member with rfl | member
    · exact .inr rfl
    · exact .inl (List.all_eq_true.mp (all_isDigit_toDigits _) c member)

theorem toString_int_injective (same : toString n = toString m) : n = m := by
  have unsigned : ∀ k l : Nat, '-' :: Nat.toDigits 10 l ≠ Nat.toDigits 10 k := by
    intro k l same
    have digits := all_isDigit_toDigits k
    rw [← same] at digits
    cases digits
  have same := congrArg String.toList same
  cases n with
  | ofNat k =>
    cases m with
    | ofNat l =>
      exact congrArg Int.ofNat (toString_injective (String.toList_inj.mp same))
    | negSucc l =>
      rw [toList_toString_negSucc, show (toString (Int.ofNat k)).toList = _ from toList_toString k] at same
      exact absurd same.symm (unsigned k _)
  | negSucc k =>
    cases m with
    | ofNat l =>
      rw [toList_toString_negSucc, show (toString (Int.ofNat l)).toList = _ from toList_toString l] at same
      exact absurd same (unsigned l _)
    | negSucc l =>
      rw [toList_toString_negSucc, toList_toString_negSucc] at same
      have same := congrArg value (List.cons.inj same).2
      rw [value_toDigits, value_toDigits] at same
      rw [Nat.succ.inj same]

theorem natural?_toDigits (n : Nat) : natural? (Nat.toDigits 10 n) = some n := by
  simp [natural?, all_isDigit_toDigits, Nat.toDigits_ne_nil, value_toDigits]

theorem read?_toDigits (n : Nat) : read? (String.ofList (Nat.toDigits 10 n)) = inRange? n := by
  have digits := all_isDigit_toDigits n
  have natural := natural?_toDigits n
  unfold read?
  rw [String.toList_ofList]
  match Nat.toDigits 10 n, digits, natural with
  | d :: ds, digits, natural =>
    have first : isDigit d = true := by simp_all
    split
    · rename_i same
      obtain ⟨rfl, _⟩ := List.cons.inj same
      cases first
    · rename_i same
      obtain ⟨rfl, _⟩ := List.cons.inj same
      cases first
    · rw [natural]
      rfl

/-- A written number is a count exactly if it is one that fits in 64 bits. -/
theorem count?_toString_iff :
    count? (toString n) = some m ↔ n = m ∧ 1 ≤ n ∧ n ≤ greatest := by
  cases n with
  | ofNat k =>
    have written : toString (Int.ofNat k) = String.ofList (Nat.toDigits 10 k) := rfl
    rw [count?, written, read?_toDigits, inRange?]
    split
    · rename_i bounds
      simp only [Option.filter_eq_some_iff, Option.some.injEq, decide_eq_true_eq]
      change (k : Int) = m ∧ 1 ≤ m ↔ (k : Int) = m ∧ 1 ≤ (k : Int) ∧ (k : Int) ≤ greatest
      omega
    · rename_i beyond
      simp only [Option.filter_none, reduceCtorEq, false_iff]
      change ¬((k : Int) = m ∧ 1 ≤ (k : Int) ∧ (k : Int) ≤ greatest)
      simp only [least, greatest] at beyond ⊢
      omega
  | negSucc k =>
    rw [count?, read?, toList_toString_negSucc]
    change ((natural? (Nat.toDigits 10 (k + 1))).bind _).filter _ = _ ↔ _
    rw [natural?_toDigits, Option.bind_some, inRange?]
    split <;> simp <;> omega

theorem count?_bounds {text : String} (counted : count? text = some n) :
    1 ≤ n ∧ n ≤ greatest := by
  simp only [count?, Option.filter_eq_some_iff, decide_eq_true_eq] at counted
  obtain ⟨value, positive⟩ := counted
  have fits : ∀ k : Int, inRange? k = some n → n ≤ greatest := by
    intro k same
    unfold inRange? at same
    split at same
    · rename_i bounds
      obtain rfl := Option.some.inj same
      exact bounds.2
    · cases same
  unfold read? at value
  refine ⟨positive, ?_⟩
  split at value <;> obtain ⟨_, _, same⟩ := Option.bind_eq_some_iff.mp value <;> exact fits _ same

theorem wrap_eq_self (natural : 0 ≤ n) (small : n ≤ greatest) : wrap n = n := by
  have small : n ≤ 9223372036854775807 := small
  have size : (Nat.pow 2 64 : Nat) = 18446744073709551616 := by decide
  unfold wrap
  rw [size]
  exact Int.bmod_eq_of_le (by omega) (by omega)

theorem wrap_wrap_add (n m : Int) : wrap (wrap n + m) = wrap (n + m) := Int.bmod_add_bmod

theorem wrap_add_of_le (positive : 1 ≤ n) (small : n + wrap m ≤ greatest) : wrap (n + m) = n + wrap m := by
  have size : (Nat.pow 2 64 : Nat) = 18446744073709551616 := by decide
  unfold wrap at small ⊢
  rw [size, Int.bmod_def] at small ⊢
  rw [Int.bmod_def m]
  simp only [greatest] at small
  omega

theorem wrap_neg (large : greatest < n) (twice : n ≤ 2 * greatest) : wrap n < 0 := by
  have size : (Nat.pow 2 64 : Nat) = 18446744073709551616 := by decide
  unfold wrap
  rw [size, Int.bmod_def]
  simp only [greatest] at large twice
  omega

theorem wrap_eq_of_pos (natural : 0 ≤ n + m) (left : n ≤ greatest) (right : m ≤ greatest)
    (positive : 1 ≤ wrap (n + m)) : wrap (n + m) = n + m := by
  by_cases small : n + m ≤ greatest
  · exact wrap_eq_self natural small
  · have negative := wrap_neg (n := n + m) (by omega) (by omega)
    omega

end TypeEngine.Numeral
