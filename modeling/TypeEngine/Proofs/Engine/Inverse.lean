import TypeEngine.Proofs.Engine.Denotation
import TypeEngine.Proofs.Ty.WellFormed

/-!
# From the host and back

A type that a host reference denotes has a host reference of its own, and that reference denotes the
type again (`toNative_inverts_iff`), as long as the host has a path for the null type where the type
mentions it.
-/

namespace TypeEngine

namespace Ty

/-! ### Levels -/

mutual

/-- The levels of arguments below a type, each layer of a list counted. -/
def levels : Ty → Nat
  | mk main extra =>
    if main == .ofPrimitive "list" then
      match extra with
      | [.value _ text, .type _ elem] => levels elem + ((Numeral.count? text).getD 1).toNat
      | slots => slotLevels slots
    else slotLevels extra

def slotLevels : List Slot → Nat
  | [] => 0
  | .type _ t :: slots => max (levels t + 1) (slotLevels slots)
  | .value .. :: slots => slotLevels slots

end

variable {t elem : Ty} {n : Int}

theorem levels_slots {name : String} {slots : List Slot} (slot : .type name elem ∈ slots) :
    elem.levels + 1 ≤ slotLevels slots := by
  induction slots with
  | nil => cases slot
  | cons s slots ih =>
    rcases List.mem_cons.mp slot with rfl | slot
    · rw [slotLevels]
      exact Nat.le_max_left _ _
    · have rest := ih slot
      cases s with
      | type name t =>
        rw [slotLevels]
        exact Nat.le_trans rest (Nat.le_max_right _ _)
      | value name text => rwa [slotLevels]

theorem levels_slot {name : String} (notList : t.isList = false) (slot : .type name elem ∈ t.extra) :
    elem.levels + 1 ≤ t.levels := by
  obtain ⟨main, extra⟩ := t
  have notList : ¬(main == .ofPrimitive "list") = true := Bool.eq_false_iff.mp notList
  conv => rhs; unfold levels
  rw [if_neg notList]
  exact levels_slots slot

theorem levels_list (parts : t.listParts = .ok (some (n, elem))) : t.levels = elem.levels + n.toNat := by
  refine listParts_cases parts (fun main name isList => ?_) fun main name text name' isList counted => ?_
  · conv => lhs; unfold levels
    rw [if_pos isList]
    simp [slotLevels]
  · conv => lhs; unfold levels
    rw [if_pos isList]
    simp [counted]

/-! ### Slots by position -/

theorem bareSlots_numberFrom (slots : List Slot) (start : Nat) :
    bareSlots (Slot.numberFrom start slots) = bareSlots slots := by
  induction slots generalizing start with
  | nil => rfl
  | cons s slots ih => cases s <;> simp [Slot.numberFrom, Slot.rename, bareSlots, ih]

end Ty
namespace Engine

open Host

variable {e : Engine} {name path : String} {t elem : Ty}
  {r : Ref} {near far : Nat} {main : Path} {slots : List Slot} {u : Ty}

/-! ### The way to the host -/

/-- A reference in which nothing is left out: each type in it has a name. -/
inductive Spelled : Ref → Prop
  | param {name : String} (present : name ≠ "") : Spelled (.ofParam name)
  | path {path : String} {args : List Ref} (present : path ≠ "") :
      (∀ a ∈ args, a.value = "" → Spelled a) → Spelled (.ofPath path args)

theorem Spelled.value (spelled : Spelled r) : r.value = "" := by
  cases spelled <;> rfl

theorem Spelled.wrapRef {r : Ref} (present : path ≠ "") (n : Nat) (spelled : Spelled r) :
    Spelled (wrapRef path n r) := by
  induction n generalizing r with
  | zero => exact spelled
  | succ n ih => exact ih (.path present fun a member _ => List.mem_singleton.mp member ▸ spelled)

theorem toNativeSlots_spelled (near : Nat) (slots : List Slot)
    (values : ∀ n text, .value n text ∈ slots → text ≠ "")
    (each : ∀ n u, .type n u ∈ slots → ∃ r, e.toNativeAt (near + 1) u = .ok (some r) ∧ Spelled r) :
    ∃ args, e.toNativeSlots near slots = .ok (some args) ∧ ∀ a ∈ args, a.value = "" → Spelled a := by
  induction slots with
  | nil => exact ⟨[], by rw [toNativeSlots], by simp⟩
  | cons s slots ih =>
    obtain ⟨args, rest, spelled⟩ := ih (fun n text slot => values n text (List.mem_cons_of_mem _ slot))
      fun n u slot => each n u (List.mem_cons_of_mem _ slot)
    cases s with
    | value n text =>
      refine ⟨.ofValue text :: args, by rw [toNativeSlots, rest]; rfl, ?_⟩
      exact List.forall_mem_cons.mpr ⟨fun empty => absurd empty (values n text List.mem_cons_self), spelled⟩
    | type n u =>
      obtain ⟨r, first, own⟩ := each n u List.mem_cons_self
      refine ⟨r :: args, by rw [toNativeSlots, first, rest]; rfl, ?_⟩
      exact List.forall_mem_cons.mpr ⟨fun _ => own, spelled⟩

theorem nativeName_null_ne_empty (tallies : e.catalog.Tallies) : e.nativeName "null" ≠ "" := by
  rw [nativeName]
  cases native : e.catalog.nativePath? "null" with
  | some path => exact tallies.path_ne_empty (tallies.native _ _ native)
  | none => decide

theorem isParam_named (ts : List Ty) : (Ty.named (.ofPrimitive name) ts).isParam = false := by
  rw [Ty.isParam, Bool.and_eq_false_iff]
  exact .inr rfl

/-- A shape goes to the host path of its primitive. -/
theorem toNativeAt_shape (ts : List Ty) (shallow : ¬e.maxDepth < near) (notList : name ≠ "list") :
    e.toNativeAt near (.named (.ofPrimitive name) ts) =
      (e.toNativeSlots near (Slot.ofTypes ts)).map (Option.map fun args => .ofPath (e.nativeName name) args) := by
  rw [toNativeAt_named shallow (isParam_named ts) (by rw [isList_named]; exact decide_eq_false notList)]
  change (e.toNativeSlots near (Slot.ofTypes ts)).map _ = _
  congr 1
  funext args?
  cases args? <;> rfl

theorem toNativeAt_host (shallow : ¬e.maxDepth < near)
    (stands : e.Stands path main) : e.toNativeAt near (.mk main slots) =
      (e.toNativeSlots near slots).map (Option.map fun args => .ofPath path args) := by
  have notParam : (Ty.mk main slots).isParam = false := by
    rw [Ty.isParam, Bool.and_eq_false_iff]
    exact .inr stands.notParameter
  rw [toNativeAt_named shallow notParam (stands.notList slots)]
  change (e.toNativeSlots near slots).map _ = _
  congr 1
  funext args?
  cases args? with
  | none => rfl
  | some args =>
    rw [Option.bind_some, Option.map_some]
    change nativeNamed e main args = _
    rw [nativeNamed, stands.notPrimitive, stands.notEmpty, stands.spelt]
    rfl

theorem Denoted.exists_toNativeAt (tallies : e.catalog.Tallies) (denoted : e.Denoted t) (sound : t.Sound)
    (shallow : near + t.levels ≤ e.maxDepth) :
    ∃ r, e.toNativeAt near t = .ok (some r) ∧ Spelled r := by
  have below : ¬e.maxDepth < near := by omega
  induction denoted generalizing near with
  | param present => exact ⟨_, toNativeAt_param below rfl, .param present⟩
  | null =>
    refine ⟨.ofPath (e.nativeName "null") [], ?_, .path (nativeName_null_ne_empty tallies) (by simp)⟩
    have null : "null" ≠ "list" := by decide
    exact toNativeAt_shape [] below null
  | @list n elem known flat _ ih =>
    obtain ⟨parts?, parts⟩ := sound _ (Ty.self_mem_parts _)
    obtain ⟨rfl, bounds⟩ := Ty.listParts_layered_iff.mp parts
    obtain ⟨_, name, slot⟩ := Ty.slotParts_of_listParts parts
    have levels := Ty.levels_list parts
    obtain ⟨r, inner, spelled⟩ := @ih (near + 1) (sound.slot slot) (by omega) (by omega)
    refine ⟨_, ?_, spelled.wrapRef (primitiveAt?_nativeName tallies known).1 n.toNat⟩
    rw [toNativeAt_list below parts, inner]
    rfl
  | @shape name ts known notList remade _ ih =>
    have flat : (Ty.named (.ofPrimitive name) ts).isList = false := by
      rw [isList_named]
      exact decide_eq_false notList
    obtain ⟨args, slots, spelled⟩ := toNativeSlots_spelled (e := e) near (Slot.ofTypes ts)
      (fun n text slot => absurd slot Slot.value_not_mem_ofTypes)
      (fun n u slot => by
        have deeper := Ty.levels_slot flat slot
        exact ih u (Slot.type_mem_ofTypes.mp ⟨n, slot⟩) (sound.slot slot) (by omega) (by omega))
    refine ⟨.ofPath (e.nativeName name) args, ?_, .path (primitiveAt?_nativeName tallies known).1 spelled⟩
    rw [toNativeAt_shape ts below notList, slots]
    rfl
  | @host path main slots stands values _ ih =>
    obtain ⟨args, slots, spelled⟩ := toNativeSlots_spelled (e := e) near (Slot.positional slots)
      (fun n text slot => by
        obtain ⟨n', known⟩ := Slot.value_mem_numberFrom slot
        exact values n' text known)
      (fun n u slot => by
        obtain ⟨n', member⟩ := Slot.type_mem_numberFrom.mp ⟨n, slot⟩
        have deeper := Ty.levels_slot (t := .mk main (Slot.positional slots)) (stands.notList _) slot
        exact ih n' u member (sound.slot slot) (by omega) (by omega))
    refine ⟨.ofPath path args, ?_, .path stands.present spelled⟩
    rw [toNativeAt_host below stands, slots]
    rfl

theorem Denoted.spelled (tallies : e.catalog.Tallies) (denoted : e.Denoted t) (sound : t.Sound) {near : Nat}
    (shallow : near + t.levels ≤ e.maxDepth) {r : Ref} (found : e.toNativeAt near t = .ok (some r)) :
    Spelled r := by
  obtain ⟨r', found', spelled⟩ := denoted.exists_toNativeAt tallies sound shallow
  rw [found] at found'
  cases found'
  exact spelled

/-! ### The way back -/

theorem toModelAt_path {args : List Ref} (shallow : ¬e.maxDepth < far)
    (present : path ≠ "") (inner : e.toModelArgs far args = .ok (some slots)) :
    e.toModelAt far (.ofPath path args) = e.modelNamed path slots := by
  unfold Ref.ofPath toModelAt
  rw [if_neg shallow, if_neg (by simp), if_neg (by simp), if_neg present, inner]
  rfl

theorem toModelArgs_type (typed : r.value = "") (rs : List Ref) :
    e.toModelArgs far (r :: rs) = (e.toModelAt (far + 1) r >>= fun t? =>
      t?.elim (.ok none) fun t => do return (← e.toModelArgs far rs).map (.type "" t :: ·)) := by
  obtain ⟨path, param, value, args⟩ := r
  conv => lhs; unfold toModelArgs
  rw [if_neg (not_not_intro (show value = "" from typed))]
  refine bind_congr fun t? => ?_
  cases t? <;> rfl

/-- The reference of a type denotes a type that is equal to it. -/
def Returns (e : Engine) (near far : Nat) (t : Ty) : Prop :=
  ∀ r, e.toNativeAt near t = .ok (some r) →
    r.value = "" ∧ ∃ t', e.toModelAt far r = .ok (some t') ∧ t'.bare = t.bare

/-- Arguments come back as they went, without names. -/
theorem toModelArgs_returns (far : Nat) {args : List Ref}
    (found : e.toNativeSlots near slots = .ok (some args))
    (values : ∀ n text, .value n text ∈ slots → text ≠ "")
    (each : ∀ n u, .type n u ∈ slots → e.Returns (near + 1) (far + 1) u) :
    ∃ slots', e.toModelArgs far args = .ok (some slots') ∧ Ty.bareSlots slots' = Ty.bareSlots slots ∧
      ∀ s ∈ slots', s.name = "" := by
  induction slots generalizing args with
  | nil =>
    rw [toNativeSlots] at found
    cases found
    exact ⟨[], by rw [toModelArgs], rfl, by simp⟩
  | cons s slots ih =>
    have ih := fun args found => @ih args found (fun n text slot => values n text (List.mem_cons_of_mem _ slot))
      fun n u slot => each n u (List.mem_cons_of_mem _ slot)
    cases s with
    | value n text =>
      rw [toNativeSlots] at found
      obtain ⟨rest?, later, found⟩ := Ty.exists_of_bind found
      obtain ⟨rest, rfl, rfl⟩ := Option.map_eq_some_iff.mp (Except.ok.inj found)
      obtain ⟨slots', back, same, unnamed⟩ := ih rest later
      refine ⟨.value "" text :: slots', ?_, by rw [Ty.bareSlots, Ty.bareSlots, same],
        List.forall_mem_cons.mpr ⟨rfl, unnamed⟩⟩
      unfold Ref.ofValue toModelArgs
      rw [if_pos (values n text List.mem_cons_self), back]
      rfl
    | type n u =>
      rw [toNativeSlots] at found
      obtain ⟨r?, first, found⟩ := Ty.exists_of_bind found
      cases r? with
      | none => cases found
      | some r =>
        obtain ⟨rest?, later, found⟩ := Ty.exists_of_bind found
        obtain ⟨rest, rfl, rfl⟩ := Option.map_eq_some_iff.mp (Except.ok.inj found)
        obtain ⟨slots', back, same, unnamed⟩ := ih rest later
        obtain ⟨typed, u', again, equal⟩ := each n u List.mem_cons_self r first
        refine ⟨.type "" u' :: slots', ?_, by rw [Ty.bareSlots, Ty.bareSlots, same, equal],
          List.forall_mem_cons.mpr ⟨rfl, unnamed⟩⟩
        rw [toModelArgs_type typed, again, back]
        rfl

theorem exists_map_type {ts : List Ty} (unnamed : ∀ s ∈ slots, s.name = "")
    (same : Ty.bareSlots slots = Ty.bareSlots (Slot.ofTypes ts)) :
    ∃ us : List Ty, slots = us.map (.type "") ∧ us.length = ts.length := by
  rw [Slot.ofTypes, Slot.positional, Ty.bareSlots_numberFrom] at same
  induction slots generalizing ts with
  | nil =>
    cases ts with
    | nil => exact ⟨[], rfl, rfl⟩
    | cons t ts => cases same
  | cons s slots ih =>
    rw [List.forall_mem_cons] at unnamed
    cases ts with
    | nil => cases s <;> cases same
    | cons t ts =>
      cases s with
      | value n text => cases same
      | type n u =>
        obtain rfl : n = "" := unnamed.1
        rw [List.map_cons, Ty.bareSlots, Ty.bareSlots] at same
        obtain ⟨us, rfl, length⟩ := ih unnamed.2 (List.cons.inj same).2
        exact ⟨u :: us, rfl, by simp [length]⟩

/-- Layers that are written one by one are counted again. -/
theorem toModelAt_wrapRef {k : Nat} {m : Int} (present : path ≠ "")
    (at_ : e.primitiveAt? path = some "list") (flat : elem.isList = false) (natural : 0 ≤ m)
    (small : m + k ≤ Numeral.greatest) (shallow : far + k ≤ e.maxDepth) (typed : r.value = "")
    (inner : e.toModelAt (far + k) r = .ok (some (.stacked m elem))) :
    e.toModelAt far (wrapRef path k r) = .ok (some (.stacked (m + k) elem)) := by
  induction k generalizing r m with
  | zero =>
    rw [Int.natCast_zero, Int.add_zero]
    exact inner
  | succ k ih =>
    have wrapped : (Ty.stacked m elem).listOf = .ok (.stacked (m + 1) elem) := by
      rw [Ty.stacked_pos (n := m + 1) (by omega), Ty.listOf]
      by_cases zero : m = 0
      · subst zero
        exact Ty.listN_layered (by omega) flat
      · rw [Ty.stacked_pos (n := m) (by omega), Ty.listN, if_neg (by omega), Ty.listParts_layered (by omega),
          Ty.bind_ok]
        dsimp only
        rw [Numeral.wrap_eq_self (by omega) (by omega), Int.add_comm]
        rfl
    have args : e.toModelArgs (far + k) [r] = .ok (some [.type "" (.stacked m elem)]) := by
      rw [toModelArgs_type typed, Nat.add_assoc, inner]
      unfold toModelArgs
      rfl
    have once : e.toModelAt (far + k) (.ofPath path [r]) = .ok (some (.stacked (m + 1) elem)) := by
      rw [toModelAt_path (by omega) present args, modelNamed_primitive at_, modelPrimitive, if_pos rfl, wrapped]
      rfl
    rw [wrapRef, ih (by omega) (by omega) (by omega) rfl once]
    congr 3
    omega

/-- No part of the type is the null type. -/
def NullFree (t : Ty) : Prop := ∀ u ∈ t.parts, (u == .null) = false

theorem NullFree.slot {n : String} {u : Ty} (free : NullFree t) (slot : .type n u ∈ t.extra) : NullFree u :=
  fun v part => free v (Ty.mem_parts_of_slot slot part)

section Returns

variable (tallies : e.catalog.Tallies) {near far : Nat} (above : ¬e.maxDepth < near)
include tallies above

/-- The reference of a list denotes the list, if the one of its element denotes the element. -/
theorem list_returns {n : Int} (known : e.Knows "list") (flat : elem.isList = false)
    (parts : (Ty.layered n elem).listParts = .ok (some (n, elem))) (within : far + n.toNat ≤ e.maxDepth)
    (element : e.Returns (near + 1) (far + n.toNat) elem)
    (found : e.toNativeAt near (.layered n elem) = .ok (some r)) :
    ∃ t', e.toModelAt far r = .ok (some t') ∧ t'.bare = (Ty.layered n elem).bare := by
  obtain ⟨positive, small⟩ := Ty.listParts_bounds parts
  rw [toNativeAt_list above parts] at found
  obtain ⟨r?, inner, found⟩ := Ty.exists_of_map found
  obtain ⟨r', rfl, rfl⟩ := Option.map_eq_some_iff.mp found
  obtain ⟨typed, elem', back, same⟩ := element r' inner
  have flat' : elem'.isList = false := by rw [← Ty.isList_bare, same, Ty.isList_bare, flat]
  obtain ⟨present, at_⟩ := primitiveAt?_nativeName tallies known
  refine ⟨_, toModelAt_wrapRef present at_ flat' (Int.le_refl 0) (by omega) within typed back, ?_⟩
  rw [show (0 : Int) + n.toNat = n by omega, Ty.stacked_pos positive, Ty.layered_congr same]

/-- The reference of a shape denotes the shape, if the references of its arguments denote them. -/
theorem shape_returns (ts : List Ty) (known : e.Knows name) (notList : name ≠ "list")
    (remade : ∀ us : List Ty, us.length = ts.length →
      modelPrimitive name (us.map (.type "")) = .ok (some (.named (.ofPrimitive name) us)))
    (within : ¬e.maxDepth < far) (each : ∀ n u, .type n u ∈ Slot.ofTypes ts → e.Returns (near + 1) (far + 1) u)
    (found : e.toNativeAt near (.named (.ofPrimitive name) ts) = .ok (some r)) :
    ∃ t', e.toModelAt far r = .ok (some t') ∧ t'.bare = (Ty.named (.ofPrimitive name) ts).bare := by
  rw [toNativeAt_shape ts above notList] at found
  obtain ⟨args?, inner, found⟩ := Ty.exists_of_map found
  obtain ⟨args, rfl, rfl⟩ := Option.map_eq_some_iff.mp found
  obtain ⟨slots, back, same, unnamed⟩ := toModelArgs_returns far inner
    (fun n text slot => absurd slot Slot.value_not_mem_ofTypes) each
  obtain ⟨us, rfl, length⟩ := exists_map_type unnamed same
  obtain ⟨present, at_⟩ := primitiveAt?_nativeName tallies known
  refine ⟨.named (.ofPrimitive name) us, ?_, ?_⟩
  · rw [toModelAt_path within present back, modelNamed_primitive at_, remade us length]
  · have slots : Ty.bareSlots (Slot.ofTypes us) = Ty.bareSlots (us.map (.type "")) :=
      Ty.bareSlots_numberFrom _ _
    rw [Ty.named, Ty.named, Ty.bare, Ty.bare, slots, same]

omit tallies in
/-- The reference of a host type denotes the type, if the references of its arguments denote them. -/
theorem host_returns (stands : e.Stands path main) (values : ∀ n text, .value n text ∈ slots → text ≠ "")
    (within : ¬e.maxDepth < far)
    (each : ∀ n u, .type n u ∈ Slot.positional slots → e.Returns (near + 1) (far + 1) u)
    (found : e.toNativeAt near (.mk main (Slot.positional slots)) = .ok (some r)) :
    ∃ t', e.toModelAt far r = .ok (some t') ∧ t'.bare = (Ty.mk main (Slot.positional slots)).bare := by
  rw [toNativeAt_host above stands] at found
  obtain ⟨args?, inner, found⟩ := Ty.exists_of_map found
  obtain ⟨args, rfl, rfl⟩ := Option.map_eq_some_iff.mp found
  obtain ⟨slots', back, same, _⟩ := toModelArgs_returns far inner
    (fun n text slot => by
      obtain ⟨n', known⟩ := Slot.value_mem_numberFrom slot
      exact values n' text known) each
  refine ⟨.mk main (Slot.positional slots'), ?_, ?_⟩
  · rw [toModelAt_path within stands.present back, stands.named]
  · have numbered : Ty.bareSlots (Slot.positional slots') = Ty.bareSlots slots' := Ty.bareSlots_numberFrom _ _
    rw [Ty.bare, Ty.bare, numbered, same]

omit above in
/-- The reference of a denoted type denotes a type that is equal to it. -/
theorem Denoted.returns (denoted : e.Denoted t) (sound : t.Sound) (null : e.Knows "null" ∨ NullFree t)
    (here : near + t.levels ≤ e.maxDepth) (there : far + t.levels ≤ e.maxDepth)
    (found : e.toNativeAt near t = .ok (some r)) :
    ∃ t', e.toModelAt far r = .ok (some t') ∧ t'.bare = t.bare := by
  have above : ¬e.maxDepth < near := by omega
  have below : ¬e.maxDepth < far := by omega
  induction denoted generalizing near far r with
  | @param name present =>
    rw [toNativeAt_param above rfl] at found
    cases found
    refine ⟨.param name, ?_, rfl⟩
    change e.toModelAt far (.mk "" name "" []) = _
    unfold toModelAt
    rw [if_neg below, if_pos present]
  | null =>
    rcases null with known | free
    · exact shape_returns tallies above [] known (by decide) (fun us length => by
        obtain rfl := List.length_eq_zero_iff.mp length
        rfl) below (fun n u slot => by cases slot) found
    · have := free _ (Ty.self_mem_parts _)
      rw [Ty.beq_rfl] at this
      cases this
  | @list n elem known flat denoted ih =>
    obtain ⟨parts?, parts⟩ := sound _ (Ty.self_mem_parts _)
    obtain ⟨rfl, _⟩ := Ty.listParts_layered_iff.mp parts
    obtain ⟨_, name, slot⟩ := Ty.slotParts_of_listParts parts
    have levels := Ty.levels_list parts
    refine list_returns tallies above known flat parts (by omega) (fun r' inner => ?_) found
    exact ⟨(denoted.spelled tallies (sound.slot slot) (by omega) inner).value,
      ih (sound.slot slot) (null.imp_right fun free => free.slot slot) (by omega) (by omega) inner (by omega)
        (by omega)⟩
  | @shape name ts known notList remade inside ih =>
    have flat : (Ty.named (.ofPrimitive name) ts).isList = false := by
      rw [isList_named]
      exact decide_eq_false notList
    refine shape_returns tallies above ts known notList remade below (fun n u slot r found => ?_) found
    have member := Slot.type_mem_ofTypes.mp ⟨n, slot⟩
    have deeper := Ty.levels_slot flat slot
    exact ⟨((inside u member).spelled tallies (sound.slot slot) (by omega) found).value,
      ih u member (sound.slot slot) (null.imp_right fun free => free.slot slot) (by omega) (by omega) found
        (by omega) (by omega)⟩
  | @host path main slots stands values inside ih =>
    refine host_returns above stands values below (fun n u slot r found => ?_) found
    obtain ⟨n', member⟩ := Slot.type_mem_numberFrom.mp ⟨n, slot⟩
    have deeper := Ty.levels_slot (t := .mk main (Slot.positional slots)) (stands.notList _) slot
    exact ⟨((inside n' u member).spelled tallies (sound.slot slot) (by omega) found).value,
      ih n' u member (sound.slot slot) (null.imp_right fun free => free.slot slot) (by omega) (by omega) found
        (by omega) (by omega)⟩

end Returns

/-! ### The null type -/

theorem nullFree_mk (other : (main == .ofPrimitive "null") = false)
    (each : ∀ n u, .type n u ∈ slots → NullFree u) : NullFree (.mk main slots) := by
  refine Ty.forall_parts.mpr ⟨?_, each⟩
  rw [Bool.eq_false_iff]
  intro same
  have path : (main == .ofPrimitive "null") = true := (Bool.and_eq_true_iff.mp same).1
  rw [other] at path
  cases path

theorem nullFree_listN {k : Int} (free : NullFree elem) (wrapped : elem.listN k = .ok t) : NullFree t := by
  have layered : ∀ (n : Int) {inner : Ty}, NullFree inner → NullFree (.layered n inner) := by
    intro n inner free
    refine nullFree_mk rfl fun name u slot => ?_
    split at slot
    · rw [List.mem_singleton, Slot.type.injEq] at slot
      exact slot.2 ▸ free
    · simp only [List.mem_cons, Slot.type.injEq, List.not_mem_nil, or_false, reduceCtorEq, false_or] at slot
      exact slot.2 ▸ free
  rcases Ty.listN_cases wrapped with ⟨_, rfl⟩ | ⟨m, inner, parts, rfl⟩
  · exact layered k free
  · obtain ⟨_, name, slot⟩ := Ty.slotParts_of_listParts parts
    exact layered _ (free.slot slot)

theorem type_mem_of_bareSlots {xs ys : List Slot} (same : Ty.bareSlots xs = Ty.bareSlots ys) {n : String}
    (slot : .type n u ∈ ys) : ∃ m v, .type m v ∈ xs ∧ v.bare = u.bare := by
  have related := Slot.bareSlots_eq_iff.mp same
  induction related with
  | nil => cases slot
  | cons first rest ih =>
    rcases List.mem_cons.mp slot with rfl | slot
    · cases first with
      | type equal => exact ⟨_, _, List.mem_cons_self, equal⟩
    · obtain ⟨m, v, member, equal⟩ := ih (Slot.bareSlots_eq_iff.mpr rest) slot
      exact ⟨m, v, List.mem_cons_of_mem _ member, equal⟩

theorem NullFree.of_bare (free : NullFree t) (same : t.bare = u.bare) : NullFree u := by
  induction u using Ty.slotInduction generalizing t with
  | step u ih =>
    have own := free t t.self_mem_parts
    rw [Ty.beq_congr (Ty.beq_iff_bare.mpr same)] at own
    refine Ty.forall_parts.mpr ⟨own, fun n v slot => ?_⟩
    have slots : Ty.bareSlots t.extra = Ty.bareSlots u.extra := by
      cases t
      cases u
      exact (Ty.mk.inj same).2
    obtain ⟨m, w, member, equal⟩ := type_mem_of_bareSlots slots slot
    exact ih n v slot (free.slot member) equal

theorem beq_null_ofPrimitive (other : name ≠ "null") : (Path.ofPrimitive name == .ofPrimitive "null") = false := by
  rw [Bool.eq_false_iff, ne_eq, Path.beq_iff_bare]
  simpa [Path.bare, Path.ofPrimitive, Block.bare] using other

theorem Stands.other (stands : e.Stands path main) : (main == .ofPrimitive "null") = false := by
  rw [Bool.eq_false_iff]
  intro same
  have primitive := stands.notPrimitive
  rw [← Path.isPrimitive_bare, Path.beq_iff_bare.mp same] at primitive
  cases primitive

theorem nullFree_modelNamed (unknown : ¬e.Knows "null") (present : path ≠ "") {args : List Slot}
    (each : ∀ n u, .type n u ∈ args → NullFree u) (done : e.modelNamed path args = .ok (some t)) :
    NullFree t := by
  cases at_ : e.primitiveAt? path with
  | some name =>
    have other : name ≠ "null" := by
      rintro rfl
      exact unknown ⟨path, present, at_⟩
    rw [modelNamed_primitive at_] at done
    rcases modelPrimitive_form done with ⟨_, n, elem, k, slot, wrapped⟩ | ⟨_, ts, rfl, inside, _⟩
    · exact nullFree_listN (each n elem slot) wrapped
    · refine nullFree_mk (beq_null_ofPrimitive other) fun n u slot => ?_
      obtain ⟨m, slot⟩ := inside u (Slot.type_mem_ofTypes.mp ⟨n, slot⟩)
      exact each m u slot
  | none =>
    obtain ⟨main, stands, rfl⟩ := stands_of_modelNamed present at_ done
    refine nullFree_mk stands.other fun n u slot => ?_
    obtain ⟨m, member⟩ := Slot.type_mem_numberFrom.mp ⟨n, slot⟩
    exact each m u member

theorem Spelled.nullFree (unknown : ¬e.Knows "null") (spelled : Spelled r) {depth : Nat}
    (found : e.toModelAt depth r = .ok (some t)) : NullFree t := by
  induction spelled generalizing depth t with
  | @param name present =>
    unfold Ref.ofParam toModelAt at found
    split at found
    · cases found
    · cases found
      exact nullFree_mk rfl fun n u slot => by cases slot
  | @path path args present _ ih =>
    unfold Ref.ofPath toModelAt at found
    split at found
    · cases found
    · obtain ⟨slots?, inner, found⟩ := Ty.exists_of_bind found
      cases slots? with
      | none => cases found
      | some slots =>
        refine nullFree_modelNamed unknown present (fun n u slot => ?_) found
        obtain ⟨a, member, typed, denotes⟩ := (mem_toModelArgs inner).2 n u slot
        exact ih a member typed denotes

theorem knows_null_iff :
    e.Knows "null" ↔ ∃ path, path ≠ "" ∧ e.toModel (.ofPath path) = .ok (some .null) := by
  have read : ∀ path, path ≠ "" → e.toModel (.ofPath path) = e.modelNamed path [] := fun path present =>
    toModelAt_path (by omega) present (by unfold toModelArgs; rfl)
  refine exists_congr fun path => and_congr_right fun present => ?_
  rw [read path present]
  constructor
  · intro at_
    rw [modelNamed_primitive at_]
    rfl
  · intro done
    cases at_ : e.primitiveAt? path with
    | some name =>
      rw [modelNamed_primitive at_] at done
      rcases modelPrimitive_form done with ⟨_, n, elem, k, slot, _⟩ | ⟨_, ts, same, _⟩
      · cases slot
      · have path : Path.ofPrimitive "null" = Path.ofPrimitive name := congrArg Ty.main same
        have := congrArg Path.leaf path
        exact congrArg some this.symm
    | none =>
      obtain ⟨main, stands, same⟩ := stands_of_modelNamed present at_ done
      obtain rfl : Path.ofPrimitive "null" = main := congrArg Ty.main same
      cases stands.notPrimitive

/-! ### Main statement -/

/-- A valid type that a reference denotes and that is not nested too deep has a reference. That
reference denotes the type again exactly if the host has a path for the null type or the type does not
mention it. -/
theorem toNative_inverts_iff (once : e.catalog.AliasedOnce) {r : Ref} (denotes : e.toModel r = .ok (some t))
    (valid : t.validate = .ok ()) (shallow : t.levels ≤ e.maxDepth) :
    ∃ r', e.toNative t = .ok (some r') ∧
      ((∃ t', e.toModel r' = .ok (some t') ∧ (t' == t) = true) ↔
        (∃ path, path ≠ "" ∧ e.toModel (.ofPath path) = .ok (some .null)) ∨ NullFree t) := by
  have tallies := once.tallies
  have denoted := denoted_of_toModelAt r denotes
  have sound := Ty.sound_of_validate valid
  have deep : 0 + t.levels ≤ e.maxDepth := by omega
  obtain ⟨r', found, spelled⟩ := denoted.exists_toNativeAt tallies sound deep
  refine ⟨r', found, ?_⟩
  rw [← knows_null_iff]
  constructor
  · rintro ⟨t', back, same⟩
    by_cases known : e.Knows "null"
    · exact .inl known
    · exact .inr ((spelled.nullFree known back).of_bare (Ty.beq_iff_bare.mp same))
  · intro null
    obtain ⟨t', back, same⟩ := denoted.returns tallies sound null deep deep found
    exact ⟨t', back, Ty.beq_iff_bare.mpr same⟩

def genericPair : TypeInfo := { name := "Pair", typeParams := ["A", "B"] }

/-- A host that knows integers, lists and null by names of its own, and one generic type. -/
def renamingHost : Engine :=
  { catalog :=
      { ((Catalog.empty.withAlias "Integer" "int").withAlias "int" "list").withAlias "Nil" "null" with
        types := [genericPair] } }

/-- Three layers of integers beside a reference that says nothing. -/
def layersAndNothing : Ref := .ofPath "Pair" [.ofPath "int" [.ofValue "3", .ofPath "Integer"], .absent]

theorem toNative_inverts_layersAndNothing :
    ∃ t r t', renamingHost.toModel layersAndNothing = .ok (some t) ∧ renamingHost.toNative t = .ok (some r) ∧
      renamingHost.toModel r = .ok (some t') ∧ (t' == t) = true := by
  have once : renamingHost.catalog.AliasedOnce :=
    .addType (t := genericPair)
      (((Catalog.AliasedOnce.empty.withAlias "Integer" "int" rfl (by decide) (by decide)).withAlias
        "int" "list" rfl (by decide) (by decide)).withAlias "Nil" "null" rfl (by decide) (by decide)) rfl
  have denotes : renamingHost.toModel layersAndNothing =
      .ok (some (.named ⟨[{ kind := .classType, name := "Pair" }]⟩ [.layered 3 .int, .null])) := rfl
  obtain ⟨r, found, inverts⟩ := toNative_inverts_iff once denotes rfl (by decide)
  obtain ⟨t', back, same⟩ := inverts.mpr (.inl ⟨"Nil", by decide, rfl⟩)
  exact ⟨_, r, t', denotes, found, back, same⟩

/-- A host that calls its integers null has no name for null: a reference that says nothing denotes it,
but the reference it is given denotes the integers. -/
theorem toNative_loses_null :
    let e : Engine := { catalog := Catalog.empty.withAlias "null" "int" }
    e.catalog.AliasedOnce ∧ e.toModel .absent = .ok (some .null) ∧ Ty.null.validate = .ok () ∧
      e.toNative .null = .ok (some (.ofPath "null")) ∧ e.toModel (.ofPath "null") = .ok (some .int) :=
  ⟨Catalog.AliasedOnce.empty.withAlias "null" "int" rfl (by decide) (by decide), rfl, rfl, rfl, rfl⟩

end Engine

end TypeEngine
