import TypeEngine.Proofs.Ty.Tidy

/-!
# Layers of lists

`layerTotal` counts the layers of lists, collections and spans without a bound, and peeling counts
them in 64 bits. What one step of peeling does (`peelFrom_cases`) gives what all of it does (`peels`).
-/

namespace TypeEngine.Ty

mutual

/-- The layers around the leaf, however many. -/
def layerTotal : Ty → Int
  | mk main extra =>
    if main == .ofPrimitive "list" then
      match extra with
      | [.type _ elem] => layerTotal elem + 1
      | [.value _ text, .type _ elem] => layerTotal elem + (Numeral.count? text).getD 0
      | _ => 0
    else if (mk main extra).isCollection || (mk main extra).isSpan then
      match extra with
      | [slot] => slotLayerTotal slot + 1
      | _ => 0
    else 0

def slotLayerTotal : Slot → Int
  | .type _ t => layerTotal t
  | .value .. => 0

end

variable {t u elem leaf : Ty} {n d : Int}

theorem layerTotal_list (parts : t.listParts = .ok (some (n, elem))) :
    t.layerTotal = elem.layerTotal + n := by
  refine listParts_cases parts (fun main name isList => ?_) fun main name text name' isList counted => ?_
  · conv => lhs; unfold layerTotal
    rw [if_pos isList]
  · conv => lhs; unfold layerTotal
    rw [if_pos isList]
    dsimp only
    rw [counted, Option.getD_some]

theorem peelFrom_list (parts : t.listParts = .ok (some (n, elem))) (depth : Int) :
    peelFrom depth t = peelFrom (wrap (depth + n)) elem := by
  refine listParts_cases parts (fun main name isList => ?_) fun main name text name' isList counted => ?_
  · conv => lhs; unfold peelFrom
    rw [if_pos isList]
  · conv => lhs; unfold peelFrom
    rw [if_pos isList]
    dsimp only
    rw [counted]

theorem peelFrom_malformed {v : Violation} (parts : t.listParts = .error v) (depth : Int) :
    peelFrom depth t = .error v := by
  have list := isList_of_error parts
  have layers := layersOf_of_error parts
  obtain ⟨main, extra⟩ := t
  have layers : layersOf extra = .error v := layers
  unfold peelFrom
  rw [if_pos (by exact list)]
  split
  · cases layers
  · rw [layersOf] at layers
    split
    · rename_i counted
      rw [counted] at layers
      cases layers
    · rename_i counted
      rw [counted] at layers
      cases layers
      rfl
  · exact layers

/-- A collection or span has a single argument. -/
theorem exists_single (layer : (t.isCollection || t.isSpan) = true) : ∃ slot, t.extra = [slot] := by
  obtain ⟨main, extra⟩ := t
  match extra with
  | [slot] => exact ⟨slot, rfl⟩
  | [] | _ :: _ :: _ => simp [isCollection, isSpan, Ty.extra] at layer

theorem peel_single {slot : Slot} (notList : t.isList = false) (layer : (t.isCollection || t.isSpan) = true)
    (single : t.extra = [slot]) : t.layerTotal = slotLayerTotal slot + 1 ∧
      ∀ depth, peelFrom depth t = peelSlot (wrap (depth + 1)) slot := by
  obtain ⟨main, extra⟩ := t
  obtain rfl : extra = [slot] := single
  have other : ¬(main == .ofPrimitive "list") = true := Bool.eq_false_iff.mp notList
  constructor
  · conv => lhs; unfold layerTotal
    rw [if_neg other, if_pos layer]
  · intro depth
    conv => lhs; unfold peelFrom
    rw [if_neg other, if_pos layer]

theorem peel_bottom (notList : t.isList = false) (bottom : (t.isCollection || t.isSpan) = false) :
    t.layerTotal = 0 ∧ ∀ depth, peelFrom depth t = .ok (depth, t) := by
  obtain ⟨main, extra⟩ := t
  have other : ¬(main == .ofPrimitive "list") = true := Bool.eq_false_iff.mp notList
  have bottom := Bool.eq_false_iff.mp bottom
  constructor
  · unfold layerTotal
    rw [if_neg other, if_neg bottom]
  · intro depth
    unfold peelFrom
    rw [if_neg other, if_neg bottom]

/-- One step of peeling: some layers come off, with or without a type below them, or there is nothing
to peel, or a list is malformed. -/
theorem peelFrom_cases (t : Ty) :
    (∃ n name u, 1 ≤ n ∧ .type name u ∈ t.extra ∧ t.layerTotal = u.layerTotal + n ∧
      ∀ depth, peelFrom depth t = peelFrom (wrap (depth + n)) u) ∨
    (t.layerTotal = 1 ∧ ∀ depth, peelFrom depth t = .ok (wrap (depth + 1), zero)) ∨
    ((t.isList || t.isCollection || t.isSpan) = false ∧ t.layerTotal = 0 ∧
      ∀ depth, peelFrom depth t = .ok (depth, t)) ∨
    ∃ v, t.listParts = .error v := by
  cases parts : t.listParts with
  | error v => exact .inr (.inr (.inr ⟨v, rfl⟩))
  | ok found =>
    cases found with
    | some p =>
      obtain ⟨n, elem⟩ := p
      obtain ⟨_, name, slot⟩ := slotParts_of_listParts parts
      exact .inl ⟨n, name, elem, (listParts_bounds parts).1, slot, layerTotal_list parts, peelFrom_list parts⟩
    | none =>
      have notList := isList_of_none parts
      rw [notList, Bool.false_or]
      cases layer : t.isCollection || t.isSpan with
      | false => exact .inr (.inr (.inl ⟨rfl, peel_bottom notList layer⟩))
      | true =>
        obtain ⟨slot, single⟩ := exists_single layer
        obtain ⟨total, step⟩ := peel_single notList layer single
        cases slot with
        | type name u => exact .inl ⟨1, name, u, Int.le_refl 1, by simp [single], total, step⟩
        | value => exact .inr (.inl ⟨total, step⟩)

/-- Peeling `t` ends at `leaf`, wherever the count starts. -/
structure Peels (t leaf : Ty) : Prop where
  bottom : (leaf.isList || leaf.isCollection || leaf.isSpan) = false
  natural : 0 ≤ t.layerTotal
  positive : (t.isList || t.isCollection || t.isSpan) = true → 1 ≤ t.layerTotal
  counts : ∀ start, peelFrom (wrap start) t = .ok (wrap (start + t.layerTotal), leaf)

/-- Peeling ends, or it comes to a malformed list. -/
theorem peels (t : Ty) : (∃ leaf, Peels t leaf) ∨ ¬t.Sound ∧ ∀ depth p, peelFrom depth t ≠ .ok p := by
  induction t using slotInduction with
  | step t inside =>
    rcases peelFrom_cases t with ⟨n, name, u, positive, slot, total, step⟩ | ⟨total, step⟩ |
      ⟨bottom, total, step⟩ | ⟨v, parts⟩
    · rcases inside name u slot with ⟨leaf, below⟩ | ⟨broken, fails⟩
      · have natural := below.natural
        refine .inl ⟨leaf, below.bottom, by omega, fun _ => by omega, fun start => ?_⟩
        rw [step, Numeral.wrap_wrap_add, below.counts, total, Int.add_assoc, Int.add_comm n]
      · exact .inr ⟨fun sound => broken (sound.slot slot), fun depth p => step depth ▸ fails _ p⟩
    · refine .inl ⟨zero, rfl, by omega, fun _ => by omega, fun start => ?_⟩
      rw [step, Numeral.wrap_wrap_add, total]
    · refine .inl ⟨t, bottom, by omega, fun layered => ?_, fun start => ?_⟩
      · rw [bottom] at layered
        cases layered
      · rw [step, total, Int.add_zero]
    · refine .inr ⟨fun sound => ?_, fun depth p peeled => ?_⟩
      · obtain ⟨_, found⟩ := sound t t.self_mem_parts
        rw [parts] at found
        cases found
      · rw [peelFrom_malformed parts] at peeled
        cases peeled

theorem peelList_pos (layered : (t.isList || t.isCollection || t.isSpan) = true)
    (small : t.layerTotal ≤ Numeral.greatest) (peeled : t.peelList = .ok (d, leaf)) : 0 < d := by
  rcases peels t with ⟨_, peels⟩ | ⟨_, fails⟩
  · obtain ⟨rfl, _⟩ := Prod.mk.inj (Except.ok.inj (peeled.symm.trans (peels.counts 0)))
    have positive := peels.positive layered
    rw [Int.zero_add, Numeral.wrap_eq_self (by omega) small]
    omega
  · exact absurd peeled (fails 0 _)

end TypeEngine.Ty
