import TypeEngine.Proofs.Numeral
import TypeEngine.Ty.Basic

/-!
# Slots named by position

Naming slots by position keeps what they hold and forgets the names they had, and no two positions
have the same name.
-/

namespace TypeEngine.Slot

variable {slots : List Slot} {s : Slot} {ts : List Ty}

@[simp] theorem name_rename (name : String) (s : Slot) : (s.rename name).name = name := by
  cases s <;> rfl

theorem mem_numberFrom {start : Nat} (member : s ∈ numberFrom start slots) :
    ∃ old ∈ slots, ∃ n, start ≤ n ∧ s = old.rename (toString n) := by
  induction slots generalizing start with
  | nil => cases member
  | cons first slots ih =>
    rcases List.mem_cons.mp member with rfl | member
    · exact ⟨first, List.mem_cons_self, start, Nat.le_refl _, rfl⟩
    · obtain ⟨old, known, n, later, rfl⟩ := ih member
      exact ⟨old, List.mem_cons_of_mem _ known, n, by omega, rfl⟩

theorem type_mem_numberFrom {start : Nat} {t : Ty} :
    (∃ name, .type name t ∈ numberFrom start slots) ↔ ∃ name, .type name t ∈ slots := by
  induction slots generalizing start with
  | nil => rfl
  | cons s slots ih =>
    cases s with
    | type name u => simp [numberFrom, rename, exists_or, ih]
    | value name text => simp [numberFrom, rename, ih]

theorem value_mem_numberFrom {start : Nat} {name text : String}
    (member : .value name text ∈ numberFrom start slots) : ∃ name, .value name text ∈ slots := by
  obtain ⟨old, known, n, _, same⟩ := mem_numberFrom member
  cases old with
  | type => cases same
  | value name' text' =>
    cases same
    exact ⟨name', known⟩

theorem mem_ofTypes (member : s ∈ ofTypes ts) :
    ∃ name t, s = .type name t ∧ t ∈ ts := by
  obtain ⟨old, known, n, _, rfl⟩ := mem_numberFrom member
  obtain ⟨t, inside, rfl⟩ := List.mem_map.mp known
  exact ⟨toString n, t, rfl, inside⟩

theorem type_mem_ofTypes {t : Ty} : (∃ name, .type name t ∈ ofTypes ts) ↔ t ∈ ts := by
  rw [ofTypes, positional, type_mem_numberFrom]
  simp

theorem value_not_mem_ofTypes {name text : String} : .value name text ∉ ofTypes ts := by
  intro member
  obtain ⟨_, _, same, _⟩ := mem_ofTypes member
  cases same

theorem map_heldType_ofTypes (ts : List Ty) : (ofTypes ts).map heldType = ts := by
  have numbered : ∀ start, (numberFrom start (ts.map (.type ""))).map heldType = ts := by
    induction ts with
    | nil => exact fun _ => rfl
    | cons t ts ih => exact fun start => congrArg (t :: ·) (ih (start + 1))
  exact numbered 1

theorem nodup_numberFrom (slots : List Slot) (start : Nat) :
    ((numberFrom start slots).map name).Nodup := by
  induction slots generalizing start with
  | nil => exact List.nodup_nil
  | cons s slots ih =>
    rw [numberFrom, List.map_cons, List.nodup_cons]
    refine ⟨?_, ih (start + 1)⟩
    intro again
    obtain ⟨other, member, same⟩ := List.mem_map.mp again
    obtain ⟨old, _, n, later, rfl⟩ := mem_numberFrom member
    rw [name_rename, name_rename] at same
    have := Numeral.toString_injective same
    omega

theorem put_eq_self (member : s ∈ slots)
    (distinct : (slots.map name).Nodup) : put s slots = slots := by
  induction slots with
  | nil => cases member
  | cons x xs ih =>
    rw [List.map_cons, List.nodup_cons] at distinct
    rw [put]
    split
    · rename_i same
      rcases List.mem_cons.mp member with rfl | member
      · rfl
      · exact absurd (List.mem_map.mpr ⟨s, member, same.symm⟩) distinct.1
    · rename_i other
      rcases List.mem_cons.mp member with rfl | member
      · exact absurd rfl other
      · rw [ih member distinct.2]

/-! ### Earlier names -/

theorem numberFrom_rename (start : Nat) (name : String) (slots : List Slot) :
    numberFrom start (slots.map (rename name)) = numberFrom start slots := by
  induction slots generalizing start with
  | nil => rfl
  | cons s slots ih => cases s <;> simp [numberFrom, rename, ih]

theorem numberFrom_numberFrom (start other : Nat) (slots : List Slot) :
    numberFrom start (numberFrom other slots) = numberFrom start slots := by
  induction slots generalizing start other with
  | nil => rfl
  | cons s slots ih => cases s <;> simp [numberFrom, rename, ih]

theorem numberFrom_of_types? (start : Nat) (typed : types? slots = some ts) :
    numberFrom start slots = numberFrom start (ts.map (.type "")) := by
  induction slots generalizing start ts with
  | nil =>
    obtain rfl := Option.some.inj typed
    rfl
  | cons s slots ih =>
    cases s with
    | value name text => cases typed
    | type name t =>
      obtain ⟨later, found, rfl⟩ := Option.map_eq_some_iff.mp typed
      exact congrArg (type (toString start) t :: ·) (ih (start + 1) found)

end TypeEngine.Slot
