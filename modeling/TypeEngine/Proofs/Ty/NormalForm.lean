import TypeEngine.Proofs.Ty.Composition

/-!
# Canonical form is a normal form

`expand` writes every list out, one layer at a time. Types have equal canonical forms exactly if they
are equal written out, a canonical form is its own canonical form, and it is as deep as the type it
was made from (`canonical_normal`). The argument is that `canonical` keeps what is written out, and
that a type in run-length form can be told from what is written out.
-/

namespace TypeEngine.Ty

open Slot

/-! ### Lists written out -/

/-- A list of one entry each, `n` times. -/
def nest : Nat → Ty → Ty
  | 0, t => t
  | n + 1, t => layered 1 (nest n t)

mutual

/-- Replaces each list by as many lists of one entry as it has layers. -/
def expand : Ty → Ty
  | mk main extra =>
    if main == .ofPrimitive "list" then
      match extra with
      | [.type _ elem] => nest 1 (expand elem)
      | [.value _ text, .type _ elem] => nest ((Numeral.count? text).getD 0).toNat (expand elem)
      | slots => mk main slots
    else mk main (expandSlots extra)

def expandSlots : List Slot → List Slot
  | [] => []
  | .type name t :: slots => .type name (expand t) :: expandSlots slots
  | .value name text :: slots => .value name text :: expandSlots slots

end

variable {t u a b elem : Ty} {n : Int}

theorem expand_list (parts : t.listParts = .ok (some (n, elem))) : t.expand = nest n.toNat elem.expand := by
  refine listParts_cases parts (fun main name isList => ?_) fun main name text name' isList counted => ?_
  · rw [expand, if_pos isList]
    rfl
  · rw [expand, if_pos isList, counted, Option.getD_some]

theorem expand_other (notList : t.isList = false) : t.expand = mk t.main (expandSlots t.extra) := by
  obtain ⟨main, extra⟩ := t
  have notList : ¬(main == .ofPrimitive "list") = true := Bool.eq_false_iff.mp notList
  unfold expand
  rw [if_neg notList]
  rfl

theorem both_expandSlots (slots : List Slot) :
    List.Forall₂ (Both fun t u => u = t.expand) slots (expandSlots slots) := by
  induction slots with
  | nil => exact .nil
  | cons s slots ih =>
    cases s with
    | type name t => exact .cons (.type rfl) ih
    | value name text => exact .cons .value ih

theorem mem_expandSlots {name : String} {slots : List Slot} (member : .type name t ∈ slots) :
    .type name t.expand ∈ expandSlots slots := by
  induction slots with
  | nil => cases member
  | cons s slots ih =>
    rcases List.mem_cons.mp member with rfl | member
    · rw [expandSlots]
      exact List.mem_cons_self
    · have rest := ih member
      cases s <;> exact List.mem_cons_of_mem _ rest

theorem bare_eq_iff : t.bare = u.bare ↔ t.main.bare = u.main.bare ∧
    List.Forall₂ (Both fun v w => v.bare = w.bare) t.extra u.extra := by
  cases t
  cases u
  rw [bare, bare, mk.injEq, bareSlots_eq_iff]
  rfl

theorem bareSlots_expandSlots_iff {xs ys : List Slot} :
    bareSlots (expandSlots xs) = bareSlots (expandSlots ys) ↔
      List.Forall₂ (Both fun t u => t.expand.bare = u.expand.bare) xs ys := by
  rw [bareSlots_eq_iff]
  constructor
  · intro related
    refine both_imp (both_comp (both_comp (both_expandSlots xs) related) (both_flip (both_expandSlots ys)))
      fun _ t _ u _ _ found => ?_
    obtain ⟨v, ⟨w, rfl, same⟩, rfl⟩ := found
    exact same
  · intro related
    refine both_imp (both_comp (both_comp (both_flip (both_expandSlots xs)) related) (both_expandSlots ys))
      fun _ t _ u _ _ found => ?_
    obtain ⟨v, ⟨w, rfl, same⟩, rfl⟩ := found
    exact same

theorem nest_congr (same : t.bare = u.bare) (n : Nat) : (nest n t).bare = (nest n u).bare := by
  induction n with
  | zero => exact same
  | succ n ih => exact layered_congr ih 1

theorem nest_add (n m : Nat) (t : Ty) : nest (n + m) t = nest n (nest m t) := by
  induction n with
  | zero => rw [Nat.zero_add, nest]
  | succ n ih => rw [Nat.succ_add, nest, nest, ih]

theorem nesting_nest (n : Nat) (t : Ty) : (nest n t).nesting = n + t.nesting := by
  induction n with
  | zero => rw [Nat.zero_add, nest]
  | succ n ih =>
    have one : (layered 1 (nest n t)).nesting = max ((nest n t).nesting + 1) 0 := rfl
    rw [nest, one, ih]
    omega

theorem isList_nest {n : Nat} (positive : 1 ≤ n) (t : Ty) : (nest n t).isList = true := by
  obtain ⟨k, rfl⟩ := Nat.exists_eq_add_of_le' positive
  rw [nest, isList_layered]

theorem nest_inj {n m : Nat} (left : t.isList = false) (right : u.isList = false)
    (same : (nest n t).bare = (nest m u).bare) : n = m ∧ t.bare = u.bare := by
  have lists : (nest n t).isList = (nest m u).isList := by
    rw [← isList_bare, same, isList_bare]
  induction n generalizing m with
  | zero =>
    cases m with
    | zero => exact ⟨rfl, same⟩
    | succ m =>
      rw [nest, left, isList_nest (by omega)] at lists
      cases lists
  | succ n ih =>
    cases m with
    | zero =>
      rw [isList_nest (by omega), nest, right] at lists
      cases lists
    | succ m =>
      obtain ⟨_, inner⟩ := layered_inj (by decide) same
      have lists : (nest n t).isList = (nest m u).isList := by
        rw [← isList_bare, inner, isList_bare]
      obtain ⟨counts, equal⟩ := ih inner lists
      exact ⟨congrArg (· + 1) counts, equal⟩

theorem isList_expand (sound : t.Sound) : t.expand.isList = t.isList := by
  obtain ⟨found, parts⟩ := sound t t.self_mem_parts
  cases found with
  | some p =>
    obtain ⟨n, elem⟩ := p
    have bounds := listParts_bounds parts
    rw [expand_list parts, isList_nest (by omega), isList_of_listParts parts]
  | none => rw [expand_other (isList_of_none parts)]; rfl

theorem expand_congr (sound : t.Sound) (same : t.bare = u.bare) : t.expand.bare = u.expand.bare := by
  induction t using slotInduction generalizing u with
  | step t inside =>
    obtain ⟨found, parts⟩ := sound t t.self_mem_parts
    cases found with
    | some p =>
      obtain ⟨n, elem⟩ := p
      obtain ⟨elem', parts', equal⟩ := listParts_congr same parts
      obtain ⟨_, name, slot⟩ := slotParts_of_listParts parts
      rw [expand_list parts, expand_list parts']
      exact nest_congr (inside name elem slot (sound.slot slot) equal.symm) _
    | none =>
      have notList := isList_of_none parts
      have notList' : u.isList = false := by rw [← isList_bare, ← same, isList_bare, notList]
      rw [bare_eq_iff] at same
      rw [expand_other notList, expand_other notList', bare, bare, same.1, bareSlots_expandSlots_iff.mpr]
      exact both_imp same.2 fun name v _ w slot _ equal => inside name v slot (sound.slot slot) equal

theorem RunLength.expand_inj (left : a.RunLength) (right : b.RunLength)
    (same : a.expand.bare = b.expand.bare) : a.bare = b.bare := by
  have lists : a.isList = b.isList := by
    rw [← isList_expand left.sound, ← isList_expand right.sound, ← isList_bare, same, isList_bare]
  induction left generalizing b with
  | @list a elem n parts form notList inner ih =>
    rw [isList_of_listParts parts] at lists
    cases right with
    | @list _ elem' m parts' form' notList' inner' =>
      have bounds := listParts_bounds parts
      have bounds' := listParts_bounds parts'
      rw [expand_list parts, expand_list parts'] at same
      obtain ⟨count, elems⟩ := nest_inj ((isList_expand inner.sound).trans notList)
        ((isList_expand inner'.sound).trans notList') same
      obtain rfl : n = m := by omega
      rw [form, form', layered_congr (ih inner' elems (notList.trans notList'.symm))]
    | other notList' =>
      rw [notList'] at lists
      cases lists
  | @other a notList inner ih =>
    rw [notList] at lists
    rw [expand_other notList, expand_other lists.symm, bare, bare, mk.injEq,
      bareSlots_expandSlots_iff] at same
    rw [bare_eq_iff]
    refine ⟨same.1, both_imp same.2 fun name v _ w slot slot' equal => ?_⟩
    have runs := right.slot slot'
    refine ih name v slot runs equal ?_
    rw [← isList_expand (inner name v slot).sound, ← isList_expand runs.sound, ← isList_bare, equal,
      isList_bare]

/-! ### How deep a type is -/

theorem nesting_congr (same : t.bare = u.bare) : t.nesting = u.nesting := by
  induction t using slotInduction generalizing u with
  | step t inside =>
    have related := (bare_eq_iff.mp same).2
    rw [nesting_eq t, nesting_eq u]
    generalize u.extra = ys at related
    revert inside
    generalize t.extra = xs at related
    intro inside
    induction related with
    | nil => rfl
    | cons first _ ih =>
      have rest := ih fun name v member => inside name v (List.mem_cons_of_mem _ member)
      cases first with
      | type equal =>
        rw [slotNesting, slotNesting, rest, inside _ _ List.mem_cons_self equal]
      | value => rw [slotNesting, slotNesting, rest]

theorem nesting_expand_list (parts : t.listParts = .ok (some (n, elem))) :
    (t.expand.nesting : Int) = n + elem.expand.nesting := by
  have bounds := listParts_bounds parts
  rw [expand_list parts, nesting_nest]
  omega

theorem nesting_expand_slot {name : String} (sound : t.Sound) (slot : .type name u ∈ t.extra) :
    u.expand.nesting + 1 ≤ t.expand.nesting := by
  obtain ⟨found, parts⟩ := sound t t.self_mem_parts
  cases found with
  | some p =>
    obtain ⟨n, elem⟩ := p
    obtain rfl := eq_elem_of_slot parts slot
    have bounds := listParts_bounds parts
    have total := nesting_expand_list parts
    omega
  | none =>
    rw [expand_other (isList_of_none parts)]
    exact nesting_slot (t := mk t.main (expandSlots t.extra)) (mem_expandSlots slot)

theorem depth_list {d : Int} (parts : t.listParts = .ok (some (n, elem))) (inner : elem.depth = .ok d)
    (positive : 0 ≤ d) : t.depth = .ok (wrap (d + n)) := by
  have bounds := listParts_bounds parts
  refine listParts_cases parts (fun main name isList => ?_) fun main name text name' isList counted => ?_
  · unfold depth
    rw [if_pos isList]
    dsimp only
    rw [depthSlots, inner, depthSlots, bind_ok, bind_ok]
    exact congrArg (fun k => Except.ok (wrap (k + 1))) (Int.max_eq_left positive)
  · unfold depth
    rw [if_pos isList]
    dsimp only
    rw [inner, bind_ok, counted]
    refine congrArg (fun k => Except.ok (wrap k)) ?_
    split
    · rfl
    · rw [Int.max_eq_left positive]
      omega

theorem depth_other (notList : t.isList = false) :
    t.depth = depthSlots t.extra >>= fun d => .ok (wrap (d + 1)) := by
  obtain ⟨main, extra⟩ := t
  have notList : ¬(main == .ofPrimitive "list") = true := Bool.eq_false_iff.mp notList
  unfold depth
  rw [if_neg notList]
  rfl

theorem depthSlots_eq {slots : List Slot}
    (each : ∀ name u, .type name u ∈ slots → u.depth = .ok (u.expand.nesting + 1 : Int)) :
    depthSlots slots = .ok (slotNesting (expandSlots slots) : Int) := by
  induction slots with
  | nil => rfl
  | cons s slots ih =>
    have rest := ih fun name u member => each name u (List.mem_cons_of_mem _ member)
    cases s with
    | type name u =>
      rw [depthSlots, each name u List.mem_cons_self, rest, expandSlots, slotNesting, bind_ok, bind_ok]
      exact congrArg Except.ok (by omega)
    | value name text => rw [depthSlots, rest, expandSlots, slotNesting]

theorem depth_eq (sound : t.Sound) (small : (t.expand.nesting : Int) < Numeral.greatest) :
    t.depth = .ok (t.expand.nesting + 1 : Int) := by
  induction t using slotInduction with
  | step t inside =>
    have below : ∀ name u, .type name u ∈ t.extra → u.depth = .ok (u.expand.nesting + 1 : Int) := by
      intro name u slot
      have deeper := nesting_expand_slot sound slot
      exact inside name u slot (sound.slot slot) (by omega)
    obtain ⟨found, parts⟩ := sound t t.self_mem_parts
    cases found with
    | some p =>
      obtain ⟨n, elem⟩ := p
      obtain ⟨_, name, slot⟩ := slotParts_of_listParts parts
      have total := nesting_expand_list parts
      rw [depth_list parts (below name elem slot) (by omega), Numeral.wrap_eq_self (by omega) (by omega)]
      congr 1
      omega
    | none =>
      have notList := isList_of_none parts
      rw [expand_other notList, nesting] at small ⊢
      rw [depth_other notList, depthSlots_eq below, bind_ok, Numeral.wrap_eq_self (by omega) (by omega)]

/-! ### Canonical form -/

theorem names_layered (names : ∀ u ∈ elem.parts, (u.extra.map Slot.name).Nodup) (n : Int) :
    ∀ u ∈ (layered n elem).parts, (u.extra.map Slot.name).Nodup := by
  refine forall_parts.mpr ⟨?_, fun name u slot => ?_⟩
  · rw [extra_layered]
    split
    · exact (by decide : ["1"].Nodup)
    · exact (by decide : ["1", "2"].Nodup)
  · exact eq_elem_of_mem_layered slot ▸ names

/-- A type that `expand` can write out in full: every list can be counted, arguments are told apart by
name, and the levels written out can be counted. -/
structure Legible (t : Ty) : Prop where
  sound : t.Sound
  names : ∀ u ∈ t.parts, (u.extra.map Slot.name).Nodup
  levels : (t.expand.nesting : Int) < Numeral.greatest

theorem Legible.slot {name : String} (legible : t.Legible) (slot : .type name u ∈ t.extra) : u.Legible where
  sound := legible.sound.slot slot
  names v member := legible.names v (mem_parts_of_slot slot member)
  levels := by
    have deeper := nesting_expand_slot legible.sound slot
    have levels := legible.levels
    omega

/-- `c` is a type in run-length form that is `t` written out. -/
structure Normal (t c : Ty) : Prop where
  runs : c.RunLength
  names : ∀ u ∈ c.parts, (u.extra.map Slot.name).Nodup
  same : c.expand.bare = t.expand.bare

theorem Normal.legible (normal : Normal t u) (legible : t.Legible) : u.Legible where
  sound := normal.runs.sound
  names := normal.names
  levels := nesting_congr normal.same ▸ legible.levels

theorem Normal.listN (normal : Normal elem u) (parts : t.listParts = .ok (some (n, elem)))
    (small : (t.expand.nesting : Int) ≤ Numeral.greatest) : ∃ c, u.listN n = .ok c ∧ Normal t c := by
  have bounds := listParts_bounds parts
  have total := nesting_expand_list parts
  rw [← nesting_congr normal.same] at total
  have written : (nest n.toNat u.expand).bare = t.expand.bare := by
    rw [expand_list parts, nest_congr normal.same]
  cases normal.runs with
  | @list _ core k inner form notList runs =>
    have bounds' := listParts_bounds inner
    have deeper := nesting_expand_list inner
    have parts' : (layered (n + k) core).listParts = .ok (some (n + k, core)) :=
      listParts_layered ⟨by omega, by omega⟩
    refine ⟨layered (n + k) core, listN_of_listParts bounds.1 inner (by omega),
      .list parts' rfl notList runs, ?_, ?_⟩
    · refine names_layered (fun v member => ?_) _
      obtain ⟨_, name, slot⟩ := slotParts_of_listParts inner
      exact normal.names v (mem_parts_of_slot slot member)
    · rw [expand_list parts', Int.toNat_add (by omega) (by omega), nest_add, ← expand_list inner, written]
  | other notList _ =>
    have parts' : (layered n u).listParts = .ok (some (n, u)) := listParts_layered bounds
    exact ⟨layered n u, listN_layered bounds.1 notList, .list parts' rfl notList normal.runs,
      names_layered normal.names n, by rw [expand_list parts', written]⟩

theorem exists_normal (legible : t.Legible) : ∃ c, t.canonical = .ok c ∧ Normal t c := by
  induction t using slotInduction with
  | step t inside =>
    have inside := fun name u slot => inside name u slot (legible.slot slot)
    obtain ⟨found, parts⟩ := legible.sound t t.self_mem_parts
    cases found with
    | some p =>
      obtain ⟨n, elem⟩ := p
      obtain ⟨_, name, slot⟩ := slotParts_of_listParts parts
      obtain ⟨u, done, normal⟩ := inside name elem slot
      rw [canonical_list parts, done, bind_ok]
      exact normal.listN parts (Int.le_of_lt legible.levels)
    | none =>
      have notList := isList_of_none parts
      have notList' (out : List Slot) : (mk t.main out).isList = false := notList
      have distinct := legible.names t t.self_mem_parts
      rcases mapTypes_answers (f := canonical) (P := fun c => ∃ v, Normal v c) (Q := fun _ => False)
        (fun name v slot => .inl (by
          obtain ⟨c, done, normal⟩ := inside name v slot
          exact ⟨c, done, v, normal⟩)) with ⟨out, mapped, each⟩ | ⟨_, _, impossible⟩
      · rw [canonical_other notList distinct, mapped]
        refine ⟨mk t.main out, rfl, .other notList fun name c slot => ?_, ?_, ?_⟩
        · obtain ⟨_, normal⟩ := each name c slot
          exact normal.runs
        · refine forall_parts.mpr ⟨(names_mapTypes mapped).symm ▸ distinct, fun name c slot => ?_⟩
          obtain ⟨_, normal⟩ := each name c slot
          exact normal.names
        · rw [expand_other notList, expand_other (notList' out), bare, bare]
          refine congrArg (mk _) (bareSlots_expandSlots_iff.mpr ?_)
          refine both_flip (both_imp (both_of_mapTypes mapped) fun name v _ c slot _ done => ?_)
          obtain ⟨c', done', normal⟩ := inside name v slot
          obtain rfl := Except.ok.inj (done.symm.trans done')
          exact normal.same
      · exact impossible.elim

/-- Canonical form is a normal form for types written out, and as deep. -/
theorem canonical_normal (left : a.Legible) (right : b.Legible) :
    ∃ c d, a.canonical = .ok c ∧ b.canonical = .ok d ∧
      ((c == d) = true ↔ (a.expand == b.expand) = true) ∧
      (∃ c', c.canonical = .ok c' ∧ (c' == c) = true) ∧
      ∃ n, a.depth = .ok n ∧ c.depth = .ok n := by
  obtain ⟨c, first, normal⟩ := exists_normal left
  obtain ⟨d, second, normal'⟩ := exists_normal right
  obtain ⟨c', again, normal''⟩ := exists_normal (normal.legible left)
  refine ⟨c, d, first, second, ?_, ⟨c', again, ?_⟩, _, depth_eq left.sound left.levels, ?_⟩
  · rw [beq_iff_bare, beq_iff_bare, ← normal.same, ← normal'.same]
    exact ⟨expand_congr normal.runs.sound, normal.runs.expand_inj normal'.runs⟩
  · exact beq_iff_bare.mpr (normal''.runs.expand_inj normal.runs normal''.same)
  · have legible := normal.legible left
    rw [depth_eq legible.sound legible.levels, nesting_congr normal.same]

/-- A list of lists and one with a padded count. -/
theorem canonical_normal_padded : ∃ c d,
    (mk (.ofPrimitive "list") [.type "1" (layered 2 int)]).canonical = .ok c ∧
      (mk (.ofPrimitive "list") [.value "1" "03", .type "2" int]).canonical = .ok d ∧
      (c == d) = true := by
  have left : (mk (.ofPrimitive "list") [.type "1" (layered 2 int)]).Legible := by
    refine ⟨fun u part => ?_, by decide +kernel, by decide +kernel⟩
    have listed : u ∈ [mk (.ofPrimitive "list") [.type "1" (layered 2 int)], layered 2 int, int] := part
    simp only [List.mem_cons, List.not_mem_nil, or_false] at listed
    rcases listed with rfl | rfl | rfl <;> exact ⟨_, rfl⟩
  have right : (mk (.ofPrimitive "list") [.value "1" "03", .type "2" int]).Legible := by
    refine ⟨fun u part => ?_, by decide +kernel, by decide +kernel⟩
    have listed : u ∈ [mk (.ofPrimitive "list") [.value "1" "03", .type "2" int], int] := part
    simp only [List.mem_cons, List.not_mem_nil, or_false] at listed
    rcases listed with rfl | rfl <;> exact ⟨_, rfl⟩
  obtain ⟨c, d, first, second, normal, _⟩ := canonical_normal left right
  exact ⟨c, d, first, second, normal.mpr (by decide +kernel)⟩

end TypeEngine.Ty
