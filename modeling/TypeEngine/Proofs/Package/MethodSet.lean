import Mathlib.Data.List.Forall2
import TypeEngine.Proofs.Package.Outline

/-!
# Method sets by depth

The search for the members of a type keeps the types that it has seen, merges those that are embedded
twice, and stops at names that it knows. What it finds can be said without all that
(`mem_methodSet_iff`): a name belongs to the first depth at which any type has it, and it is a method
if exactly one method has it there. So a method that comes through an embedded field is a method of
the type of the field, at one depth less (`FoundAt.through`).
-/

namespace TypeEngine.Package

/-- What is known of a name: nothing, the method that it is, or that it is taken otherwise. -/
abbrev Finding := Option (Option Selection)

namespace Finding

variable {m : Selection} {α : Type}

/-- Two findings at one depth hide each other. -/
def join : Finding → Finding → Finding
  | none, y => y
  | some x, none => some x
  | some _, some _ => some none

/-- The name is taken by more than the finding. -/
def hide (x : Finding) : Finding := x.map fun _ => none

def joinAll (xs : List Finding) : Finding := xs.foldr join none

variable {x y z : Finding} {xs ys : List Finding}

@[simp] theorem none_join : join none y = y := rfl

@[simp] theorem join_none : join x none = x := by
  cases x <;> rfl

theorem join_assoc : join (join x y) z = join x (join y z) := by
  cases x <;> cases y <;> cases z <;> rfl

theorem join_join_join (w : Finding) : join (join x y) (join z w) = join (join x z) (join y w) := by
  cases x <;> cases y <;> cases z <;> cases w <;> rfl

theorem hide_join : hide (join x y) = join (hide x) (hide y) := by
  cases x <;> cases y <;> rfl

theorem join_eq_none : join x y = none ↔ x = none ∧ y = none := by
  cases x <;> cases y <;> simp [join]

theorem hide_eq_none : hide x = none ↔ x = none := Option.map_eq_none_iff

theorem hide_join_of_some (some_ : x ≠ none) : join (hide x) y = some none := by
  cases x with
  | none => exact absurd rfl some_
  | some x => cases y <;> rfl

theorem join_of_some (first : x ≠ none) (second : y ≠ none) : join x y = some none := by
  cases x with
  | none => exact absurd rfl first
  | some x =>
    cases y with
    | none => exact absurd rfl second
    | some y => rfl

theorem hide_ne_method : hide x ≠ some (some m) := by
  cases x <;> rintro ⟨⟩

/-- The name is taken by a field. -/
def taken (fields : List MemberId) (name : MemberId) : Finding :=
  if fields.contains name then some none else none

theorem taken_append (fields others : List MemberId) (name : MemberId) :
    taken (fields ++ others) name = join (taken fields name) (taken others name) := by
  unfold taken
  rw [List.contains_append]
  cases fields.contains name <;> cases others.contains name <;> rfl

theorem hide_taken (fields : List MemberId) (name : MemberId) : hide (taken fields name) = taken fields name := by
  unfold taken
  split <;> rfl

theorem eq_method_of_join {fields : List MemberId} {name : MemberId}
    (found : join x (taken fields name) = some (some m)) : x = some (some m) := by
  unfold taken at found
  split at found
  · cases x <;> cases found
  · rwa [join_none] at found

@[simp] theorem joinAll_nil : joinAll [] = none := rfl

@[simp] theorem joinAll_cons : joinAll (x :: xs) = join x (joinAll xs) := rfl

theorem joinAll_append : joinAll (xs ++ ys) = join (joinAll xs) (joinAll ys) := by
  induction xs with
  | nil => rfl
  | cons x xs ih => rw [List.cons_append, joinAll_cons, joinAll_cons, ih, join_assoc]

theorem joinAll_some_eq_none {f : α → Option Selection} {as : List α} :
    joinAll (as.map fun a => some (f a)) = none ↔ as = [] := by
  cases as with
  | nil => simp
  | cons a as => simp [join_eq_none]

theorem joinAll_eq_none : joinAll xs = none ↔ ∀ x ∈ xs, x = none := by
  induction xs with
  | nil => simp
  | cons x xs ih => rw [joinAll_cons, join_eq_none, ih, List.forall_mem_cons]

theorem mem_of_joinAll (found : joinAll xs = some (some m)) : some (some m) ∈ xs := by
  induction xs with
  | nil => cases found
  | cons x xs ih =>
    rw [joinAll_cons] at found
    cases x with
    | none => exact List.mem_cons_of_mem _ (ih found)
    | some x =>
      cases rest : joinAll xs with
      | none =>
        rw [rest, join_none] at found
        exact found ▸ List.mem_cons_self
      | some y =>
        rw [rest] at found
        cases found

theorem joinAll_hide : joinAll (xs.map hide) = hide (joinAll xs) := by
  induction xs with
  | nil => rfl
  | cons x xs ih => rw [List.map_cons, joinAll_cons, joinAll_cons, hide_join, ih]

theorem joinAll_flatMap (f : α → List Finding) (as : List α) :
    joinAll (as.flatMap f) = joinAll (as.map fun a => joinAll (f a)) := by
  induction as with
  | nil => rfl
  | cons a as ih => rw [List.flatMap_cons, joinAll_append, ih, List.map_cons, joinAll_cons]

theorem joinAll_filter {f : α → Finding} {keep : α → Bool} {as : List α}
    (dropped : ∀ a ∈ as, keep a = false → f a = none) :
    joinAll ((as.filter keep).map f) = joinAll (as.map f) := by
  induction as with
  | nil => rfl
  | cons a as ih =>
    rw [List.forall_mem_cons] at dropped
    have rest := ih dropped.2
    cases kept : keep a with
    | true => rw [List.filter_cons_of_pos kept, List.map_cons, List.map_cons, joinAll_cons, joinAll_cons, rest]
    | false =>
      rw [List.filter_cons_of_neg (by rw [kept]; exact Bool.false_ne_true), rest, List.map_cons, joinAll_cons,
        dropped.1 kept, none_join]

theorem joinAll_none_congr (related : List.Forall₂ (fun x y : Finding => x = none ↔ y = none) xs ys) :
    joinAll xs = none ↔ joinAll ys = none := by
  induction related with
  | nil => rfl
  | cons first _ ih => rw [joinAll_cons, joinAll_cons, join_eq_none, join_eq_none, first, ih]

/-- The finding with the outline of its method. -/
def outline (x : Finding) : Finding := x.map (Option.map Selection.outline)

theorem outline_join : outline (join x y) = join (outline x) (outline y) := by
  cases x <;> cases y <;> rfl

theorem hide_outline : hide (outline x) = outline (hide x) := by
  cases x <;> rfl

theorem joinAll_outline_congr (related : List.Forall₂ (fun x y : Finding => outline x = outline y) xs ys) :
    outline (joinAll xs) = outline (joinAll ys) := by
  induction related with
  | nil => rfl
  | cons first _ ih => rw [joinAll_cons, joinAll_cons, outline_join, outline_join, first, ih]

end Finding

namespace Program

open Finding

variable {p : Program}
  {l k : Level} {name : MemberId} {m : Selection} {found : Members} {x : Finding}

/-! ### Levels -/

/-- The level of a type that is embedded at a place. -/
def Level.into (l : Level) (t : Shape) (place : Nat) : Level :=
  { l with
    type := t.target
    via? := l.via? <|> some place
    indirect := l.indirect || embeddedAt.isPointer t.resolved }

theorem embeddedAt_eq (l : Level) : p.embeddedAt l = (p.embeds l.type).map fun (t, i) => l.into t i := by
  unfold embeddedAt
  split
  · rename_i q ls ts found
    unfold embeds fields
    rw [found, List.map_map]
    rfl
  · rename_i other
    rw [(no_struct other).1]
    rfl

theorem fieldsAt_eq (l : Level) : p.fieldsAt l = p.fieldNames l.type := rfl

theorem methodsAt_eq (l : Level) : p.methodsAt l =
    (p.directMethods l.type).map fun (s, needsPointer) => ({ s with via? := l.via? }, needsPointer && !l.indirect) :=
  rfl

/-- What a method says of its own name. -/
def methodFinding (l : Level) (m : Selection × Bool) : Finding :=
  some (if m.2 && !l.indirect then none else some { m.1 with via? := l.via? })

/-- What the members of the type itself say of a name. -/
def membersFinding (p : Program) (l : Level) (name : MemberId) : Finding :=
  (joinAll (((p.directMethods l.type).filter (·.1.id = name)).map (methodFinding l))).join
    (taken (p.fieldNames l.type) name)

def findingHere (p : Program) (l : Level) (name : MemberId) : Finding :=
  if l.repeated then hide (p.membersFinding l name) else p.membersFinding l name

/-- What the types at a depth below a level say of a name. -/
def findingAt (p : Program) : Nat → Level → MemberId → Finding
  | 0, l, name => p.findingHere l name
  | depth + 1, l, name => joinAll ((p.embeddedAt l).map fun e => p.findingAt depth e name)

/-- The name is found at a depth, and at no lesser one. -/
def FoundAt (p : Program) (root : Level) (name : MemberId) (depth : Nat) (v : Option Selection) : Prop :=
  (∀ k < depth, p.findingAt k root name = none) ∧ p.findingAt depth root name = some v

/-! ### Types that are bare alike -/

theorem findingHere_eq_none : p.findingHere l name = none ↔
    name ∉ (p.directMethods l.type).map (·.1.id) ∧ name ∉ p.fieldNames l.type := by
  have members : p.findingHere l name = none ↔ p.membersFinding l name = none := by
    unfold findingHere
    split
    · exact hide_eq_none
    · rfl
  rw [members, membersFinding, join_eq_none]
  refine and_congr ?_ ?_
  · have methods : ∀ xs : List (Selection × Bool), joinAll (xs.map (methodFinding l)) = none ↔ xs = [] :=
      fun xs => joinAll_some_eq_none
    rw [methods, List.filter_eq_nil_iff]
    simp only [decide_eq_true_eq, List.mem_map, not_exists, not_and]
  · unfold taken
    split <;> simp_all

theorem embedded_related (settled : p.Settled) (same : l.type.bare = k.type.bare) :
    List.Forall₂ (fun x y => x.1.target.bare = y.1.target.bare) (p.embeds l.type) (p.embeds k.type) := by
  have places := (fields_bare settled same).1
  rw [← List.forall₂_eq_eq_eq, List.forall₂_map_left_iff, List.forall₂_map_right_iff] at places
  refine places.imp fun x y equal => ?_
  rw [Shape.bare_target, Shape.bare_target]
  exact (Prod.mk.inj equal).1

theorem findingAt_none_congr (settled : p.Settled) (same : l.type.bare = k.type.bare) (depth : Nat)
    (name : MemberId) : p.findingAt depth l name = none ↔ p.findingAt depth k name = none := by
  induction depth generalizing l k with
  | zero =>
    have ids : ∀ s : Shape, (p.directMethods s).map (·.1.id) =
        ((p.directMethods s).map (Prod.map Selection.outline id)).map (·.1.id) := by
      intro s
      rw [List.map_map]
      rfl
    rw [findingAt, findingAt, findingHere_eq_none, findingHere_eq_none, ids, ids,
      directMethods_outline settled same, (fields_bare settled same).2]
  | succ depth ih =>
    rw [findingAt, findingAt, embeddedAt_eq, embeddedAt_eq, List.map_map, List.map_map]
    refine joinAll_none_congr ?_
    rw [List.forall₂_map_left_iff, List.forall₂_map_right_iff]
    exact (embedded_related settled same).imp fun x y bare => ih bare

theorem findingHere_outline (settled : p.Settled) (same : l.type.bare = k.type.bare)
    (pointers : l.indirect = true ∧ k.indirect = true) (repeated : l.repeated = k.repeated) (name : MemberId) :
    (p.findingHere l name).outline = (p.findingHere k name).outline := by
  have filtered : ∀ s : Shape, ((p.directMethods s).filter (·.1.id = name)).map (Prod.map Selection.outline id) =
      ((p.directMethods s).map (Prod.map Selection.outline id)).filter (·.1.id = name) := by
    intro s
    rw [List.filter_map]
    rfl
  have methods : ((p.directMethods l.type).filter (·.1.id = name)).map (Prod.map Selection.outline id) =
      ((p.directMethods k.type).filter (·.1.id = name)).map (Prod.map Selection.outline id) := by
    rw [filtered, filtered, directMethods_outline settled same]
  rw [← List.forall₂_eq_eq_eq, List.forall₂_map_left_iff, List.forall₂_map_right_iff] at methods
  have members : (p.membersFinding l name).outline = (p.membersFinding k name).outline := by
    unfold membersFinding
    rw [outline_join, outline_join, (fields_bare settled same).2]
    congr 1
    refine joinAll_outline_congr ?_
    rw [List.forall₂_map_left_iff, List.forall₂_map_right_iff]
    refine methods.imp fun (s, _) (s', _) equal => ?_
    have outlines : s.outline = s'.outline := (Prod.mk.inj equal).1
    simp only [methodFinding, pointers.1, pointers.2, Bool.not_true, Bool.and_false, Bool.false_eq_true, ↓reduceIte]
    exact congrArg (fun m => some (some m)) outlines
  unfold findingHere
  rw [repeated]
  split
  · rw [← hide_outline, ← hide_outline, members]
  · exact members

/-- With a pointer at hand, what is found depends on the bare type only, types in methods aside. -/
theorem findingAt_outline (settled : p.Settled) (same : l.type.bare = k.type.bare)
    (pointers : l.indirect = true ∧ k.indirect = true) (repeated : l.repeated = k.repeated) (depth : Nat)
    (name : MemberId) : (p.findingAt depth l name).outline = (p.findingAt depth k name).outline := by
  induction depth generalizing l k with
  | zero => exact findingHere_outline settled same pointers repeated name
  | succ depth ih =>
    rw [findingAt, findingAt, embeddedAt_eq, embeddedAt_eq, List.map_map, List.map_map]
    refine joinAll_outline_congr ?_
    rw [List.forall₂_map_left_iff, List.forall₂_map_right_iff]
    refine List.Forall₂.imp (fun x y bare => ?_) (embedded_related settled same)
    exact ih bare ⟨Bool.or_eq_true_iff.mpr (.inl pointers.1), Bool.or_eq_true_iff.mpr (.inl pointers.2)⟩ repeated

theorem findingAt_repeated (l : Level) (depth : Nat) (name : MemberId) :
    p.findingAt depth { l with repeated := true } name =
      hide (p.findingAt depth { l with repeated := false } name) := by
  induction depth generalizing l with
  | zero => rfl
  | succ depth ih =>
    rw [findingAt, findingAt, embeddedAt_eq, embeddedAt_eq, ← joinAll_hide, List.map_map, List.map_map, List.map_map]
    congr 1
    exact List.map_congr_left fun x _ => ih (l.into x.1 x.2)

theorem exists_id_of_interfaceMethodsAt {fuel : Nat} {t : Shape} {s : Selection}
    (member : s ∈ p.interfaceMethodsAt fuel t) : ∃ package name, s.id = .of package name := by
  induction fuel generalizing t s with
  | zero => cases member
  | succ fuel ih =>
    unfold interfaceMethodsAt at member
    split at member
    · rename_i owner methods embeds _
      refine List.foldlRecOn (motive := fun found => ∀ s ∈ found, ∃ package name, s.id = .of package name) embeds _
        (fun s own => ?_) (fun found named e _ s more => ?_) s member
      · obtain ⟨⟨name, signature⟩, _, rfl⟩ := List.mem_map.mp own
        exact ⟨owner.package, name, rfl⟩
      · rcases List.mem_append.mp more with old | new
        · exact named s old
        · exact ih (List.mem_filter.mp new).1
    · cases member

theorem exists_id_of_directMethods {t : Shape} {m : Selection × Bool} (member : m ∈ p.directMethods t) :
    ∃ package name, m.1.id = .of package name := by
  rcases List.mem_append.mp member with own | inherited
  · unfold ownMethods at own
    split at own
    · obtain ⟨m, _, rfl⟩ := List.mem_map.mp own
      exact ⟨_, m.name, rfl⟩
    · cases own
  · split at inherited
    · obtain ⟨s, listed, rfl⟩ := List.mem_map.mp inherited
      exact exists_id_of_interfaceMethodsAt listed
    · cases inherited

theorem findingHere_method (found : p.findingHere l name = some (some m)) :
    m.id = name ∧ (∃ package text, name = .of package text) ∧ m.via? = l.via? := by
  unfold findingHere at found
  split at found
  · exact absurd found hide_ne_method
  · obtain ⟨⟨s, _⟩, member, single⟩ := List.mem_map.mp (mem_of_joinAll (eq_method_of_join found))
    obtain ⟨direct, named⟩ := List.mem_filter.mp member
    have same : s.id = name := of_decide_eq_true named
    simp only [methodFinding, Option.some.injEq, Option.ite_none_left_eq_some] at single
    obtain ⟨_, rfl⟩ := single
    exact ⟨same, same ▸ exists_id_of_directMethods direct, rfl⟩

theorem findingAt_method {depth : Nat} (found : p.findingAt depth l name = some (some m)) :
    m.id = name ∧ (∃ package text, name = .of package text) ∧
      ∀ place, l.via? = some place → m.via? = some place := by
  induction depth generalizing l with
  | zero =>
    obtain ⟨named, made, via⟩ := findingHere_method found
    exact ⟨named, made, fun place known => via.trans known⟩
  | succ depth ih =>
    rw [findingAt, embeddedAt_eq, List.map_map] at found
    obtain ⟨⟨t, i⟩, _, found⟩ := List.mem_map.mp (mem_of_joinAll found)
    obtain ⟨named, made, via⟩ := ih found
    refine ⟨named, made, fun place known => via place ?_⟩
    show (l.via? <|> some i) = some place
    rw [known]
    rfl

namespace FoundAt

variable {root : Level} {name : MemberId} {depth : Nat} {v : Option Selection}

theorem unique {depth' : Nat} {w : Option Selection} (first : p.FoundAt root name depth v)
    (second : p.FoundAt root name depth' w) : v = w := by
  rcases Nat.lt_trichotomy depth depth' with sooner | rfl | later
  · have none := second.1 depth sooner
    rw [first.2] at none
    cases none
  · exact Option.some.inj (first.2.symm.trans second.2)
  · have none := first.1 depth' later
    rw [second.2] at none
    cases none

/-- With a pointer at hand, a name is found at the same depth in types that are bare alike. -/
theorem alike (settled : p.Settled) (same : l.type.bare = k.type.bare)
    (pointers : l.indirect = true ∧ k.indirect = true) (repeated : l.repeated = k.repeated)
    (found : p.FoundAt l name depth (some m)) :
    ∃ m', p.FoundAt k name depth (some m') ∧ m'.outline = m.outline := by
  have outline := findingAt_outline settled same pointers repeated depth name
  rw [found.2] at outline
  obtain ⟨w, value, single⟩ := Option.map_eq_some_iff.mp outline.symm
  obtain ⟨m', rfl, equal⟩ := Option.map_eq_some_iff.mp single
  exact ⟨m', ⟨fun j sooner => (findingAt_none_congr settled same j name).mp (found.1 j sooner), value⟩, equal⟩

/-- A method that comes through an embedded field is found in the type of the field, at one depth
less. -/
theorem through {place : Nat} (found : p.FoundAt root name depth (some m)) (start : root.via? = none)
    (via : m.via? = some place) :
    ∃ t k, depth = k + 1 ∧ (t, place) ∈ p.embeds root.type ∧ p.FoundAt (root.into t place) name k (some m) := by
  obtain ⟨before, value⟩ := found
  cases depth with
  | zero =>
    have none := (findingHere_method value).2.2
    rw [via, start] at none
    cases none
  | succ k =>
    rw [findingAt, embeddedAt_eq, List.map_map] at value
    obtain ⟨⟨t, i⟩, embedded, value⟩ := List.mem_map.mp (mem_of_joinAll value)
    have at_ := (findingAt_method value).2.2 i (by show (root.via? <|> some i) = some i; rw [start]; rfl)
    obtain rfl : place = i := Option.some.inj (via.symm.trans at_)
    refine ⟨t, k, rfl, embedded, fun j sooner => ?_, value⟩
    have none := before (j + 1) (by omega)
    rw [findingAt, embeddedAt_eq, List.map_map, joinAll_eq_none] at none
    exact none _ (List.mem_map_of_mem embedded)

end FoundAt

/-! ### One level -/

/-- A list of members says of a name what was found. -/
def Tells (found : Members) (name : MemberId) (x : Finding) : Prop := ∀ v, (name, v) ∈ found ↔ x = some v

theorem any_eq_true :
    found.any (·.1 = name) = true ↔ ∃ v, (name, v) ∈ found := by
  rw [List.any_eq_true]
  constructor
  · rintro ⟨⟨_, v⟩, member, same⟩
    obtain rfl := of_decide_eq_true same
    exact ⟨v, member⟩
  · rintro ⟨v, member⟩
    exact ⟨(name, v), member, decide_eq_true rfl⟩

theorem Tells.any (tells : Tells found name x) :
    found.any (·.1 = name) = true ↔ x ≠ none := by
  rw [any_eq_true, Option.ne_none_iff_exists']
  exact exists_congr tells

theorem tells_addMethod (tells : Tells found name x) (s : Selection) (refused : Bool) :
    Tells (addMethod found s refused) name
      (if s.id = name then x.join (some (if refused then none else some s)) else x) := by
  intro v
  by_cases same : s.id = name
  · subst same
    rw [if_pos rfl, addMethod]
    split
    · rename_i hidden
      have taken : x.join (some (if refused then none else some s)) = some none := by
        rcases Bool.or_eq_true_iff.mp hidden with rfl | known
        · cases x <;> rfl
        · exact join_of_some (tells.any.mp known) (Option.some_ne_none _)
      rw [taken, List.mem_cons, List.mem_filter]
      simp [eq_comm]
    · rename_i shown
      rw [Bool.or_eq_true, not_or, tells.any, not_not, Bool.not_eq_true] at shown
      obtain ⟨rfl, rfl⟩ := shown
      rw [List.mem_cons, tells v]
      simp [eq_comm]
  · rw [if_neg same, ← tells v, addMethod]
    split
    · rw [List.mem_cons, List.mem_filter]
      simp [Ne.symm same]
    · rw [List.mem_cons]
      simp [Ne.symm same]

/-- What a method that may be refused says of its own name. -/
def refusable (m : Selection × Bool) : Finding := some (if m.2 then none else some m.1)

theorem tells_foldl (tells : Tells found name x) (methods : List (Selection × Bool)) :
    Tells (methods.foldl (fun found (s, refused) => addMethod found s refused) found) name
      (x.join (joinAll ((methods.filter (·.1.id = name)).map refusable))) := by
  induction methods generalizing found x with
  | nil => rwa [List.filter_nil, List.map_nil, joinAll_nil, join_none]
  | cons m methods ih =>
    have rest := ih (tells_addMethod tells m.1 m.2)
    by_cases same : m.1.id = name
    · rw [if_pos same, join_assoc] at rest
      rwa [List.filter_cons_of_pos (by simpa using same), List.map_cons, joinAll_cons]
    · rw [if_neg same] at rest
      rwa [List.filter_cons_of_neg (by simpa using same)]

theorem Tells.filter (tells : Tells found name x) (known : Members) :
    Tells (found.filter fun m => !known.any (·.1 = m.1)) name
      (if known.any (·.1 = name) then none else x) := by
  intro w
  rw [List.mem_filter, tells w]
  change (x = some w ∧ (!known.any (·.1 = name)) = true) ↔ _
  cases known.any (·.1 = name) <;>
    simp only [Bool.not_true, Bool.not_false, Bool.false_eq_true, and_false, and_true, ↓reduceIte, reduceCtorEq]

theorem mem_hidden {fields : List MemberId} {v : Option Selection} :
    (name, v) ∈ found.map (fun m => (m.1, if fields.contains m.1 then none else m.2)) ↔
      ∃ s, (name, s) ∈ found ∧ (if fields.contains name then none else s) = v := by
  rw [List.mem_map]
  constructor
  · rintro ⟨⟨_, s⟩, member, same⟩
    obtain ⟨rfl, rfl⟩ := Prod.mk.inj same
    exact ⟨s, member, rfl⟩
  · rintro ⟨s, member, rfl⟩
    exact ⟨(name, s), member, rfl⟩

theorem mem_newFields {known : Members} {fields : List MemberId} {v : Option Selection} :
    (name, v) ∈ (fields.filter fun id => !known.any (·.1 = id) && !found.any (·.1 = id)).map (·, none) ↔
      fields.contains name = true ∧
        (known.any (·.1 = name) = false ∧ found.any (·.1 = name) = false) ∧ none = v := by
  rw [List.mem_map]
  constructor
  · rintro ⟨id, member, same⟩
    obtain ⟨rfl, rfl⟩ := Prod.mk.inj same
    obtain ⟨field, new⟩ := List.mem_filter.mp member
    rw [Bool.and_eq_true, Bool.not_eq_true', Bool.not_eq_true'] at new
    exact ⟨List.contains_iff_mem.mpr field, new, rfl⟩
  · rintro ⟨field, new, rfl⟩
    refine ⟨name, List.mem_filter.mpr ⟨List.contains_iff_mem.mp field, ?_⟩, rfl⟩
    rw [new.1, new.2]
    rfl

/-- A level adds to what is known exactly what it says of names that are not known. -/
theorem mem_addLevel {known : Members} {fields : List MemberId}
    (tells : Tells found name x) (v : Option Selection) :
    (name, v) ∈ addLevel known found fields ↔ (name, v) ∈ known ∨
      (∀ w, (name, w) ∉ known) ∧ x.join (taken fields name) = some v := by
  have filtered := tells.filter known
  have any := filtered.any
  have unknown : known.any (·.1 = name) = false ↔ ∀ w, (name, w) ∉ known := by
    rw [← Bool.not_eq_true, any_eq_true, not_exists]
  unfold addLevel
  rw [List.mem_append, List.mem_append, or_assoc, mem_hidden, mem_newFields, ← unknown, taken]
  refine or_congr_right ?_
  cases isKnown : known.any (·.1 = name) with
  | true =>
    rw [isKnown] at filtered
    simp [filtered _]
  | false =>
    rw [isKnown] at filtered any
    cases x with
    | none =>
      rw [Bool.eq_false_iff.mpr fun present => any.mp present rfl]
      cases fields.contains name <;> simp [filtered _]
    | some s =>
      rw [any.mpr (Option.some_ne_none s)]
      cases fields.contains name <;> simp [filtered _, join]

/-- The methods at a level. Those of a type that is embedded more than once are refused. -/
def offered (p : Program) (l : Level) : List (Selection × Bool) :=
  (p.methodsAt l).map fun (s, refused) => (s, refused || l.repeated)

theorem join_offered (l : Level) (name : MemberId) :
    (joinAll (((p.offered l).filter (·.1.id = name)).map refusable)).join (taken (p.fieldsAt l) name) =
      p.findingAt 0 l name := by
  rw [offered, methodsAt_eq, List.map_map, List.filter_map, List.map_map, fieldsAt_eq, findingAt, findingHere,
    membersFinding]
  cases l.repeated with
  | false =>
    simp only [Function.comp_def, Bool.or_false]
    rfl
  | true =>
    rw [if_pos rfl, hide_join, hide_taken, ← joinAll_hide, List.map_map]
    simp only [Function.comp_def, Bool.or_true]
    rfl

theorem join_level (levels : List Level) (name : MemberId) :
    (joinAll (((levels.flatMap p.offered).filter (·.1.id = name)).map refusable)).join
        (taken (levels.flatMap p.fieldsAt) name) =
      joinAll (levels.map (p.findingAt 0 · name)) := by
  induction levels with
  | nil => rfl
  | cons l levels ih =>
    rw [List.flatMap_cons, List.flatMap_cons, List.filter_append, List.map_append, joinAll_append, taken_append,
      join_join_join, join_offered, ih, List.map_cons, joinAll_cons]

/-! ### The search -/

theorem exists_foundAt {root : Level} {n : Nat} :
    (∃ j < n, p.findingAt j root name ≠ none) ↔ ∃ j < n, ∃ v, p.FoundAt root name j v := by
  constructor
  · rintro ⟨j, before, found⟩
    induction j using Nat.strongRecOn with
    | ind j ih =>
      by_cases earlier : ∃ k < j, p.findingAt k root name ≠ none
      · obtain ⟨k, sooner, found⟩ := earlier
        exact ih k sooner (by omega) found
      · obtain ⟨v, value⟩ := Option.ne_none_iff_exists'.mp found
        refine ⟨j, before, v, fun k sooner => ?_, value⟩
        by_contra found
        exact earlier ⟨k, sooner, found⟩
  · rintro ⟨j, before, v, _, value⟩
    exact ⟨j, before, by rw [value]; exact Option.some_ne_none v⟩

theorem mem_merge {levels : List Level} (member : l ∈ merge levels) :
    ∃ k ∈ levels, k.type = l.type := by
  induction levels with
  | nil => cases member
  | cons k levels ih =>
    rw [merge, List.mem_cons] at member
    rcases member with rfl | member
    · exact ⟨k, List.mem_cons_self, rfl⟩
    · obtain ⟨k', member, same⟩ := ih (List.mem_filter.mp member).1
      exact ⟨k', List.mem_cons_of_mem _ member, same⟩

theorem joinAll_merge (settled : p.Settled) (levels : List Level) (depth : Nat) (name : MemberId) :
    joinAll ((merge levels).map (p.findingAt depth · name)) = joinAll (levels.map (p.findingAt depth · name)) := by
  induction levels with
  | nil => rfl
  | cons l levels ih =>
    rw [merge, List.map_cons, List.map_cons, joinAll_cons, joinAll_cons]
    have flags : ∀ repeated, p.findingAt depth { l with repeated } name = none ↔ p.findingAt depth l name = none :=
      fun repeated => findingAt_none_congr settled (l := { l with repeated }) (k := l) rfl depth name
    cases again : levels.any (·.type == l.type) with
    | false =>
      rw [joinAll_filter, ih, Bool.or_false]
      -- Nothing is dropped, for no other type of the level is the same.
      intro k member dropped
      obtain ⟨k', member, same⟩ := mem_merge member
      have other := List.any_eq_false.mp again k' member
      rw [same] at other
      simp [other] at dropped
    | true =>
      obtain ⟨k, member, same⟩ := List.any_eq_true.mp again
      rw [Bool.or_true]
      by_cases found : p.findingAt depth l name = none
      · rw [(flags true).mpr found, found, joinAll_filter, ih]
        intro k' _ dropped
        have bare := Shape.bare_of_beq (a := k'.type) (b := l.type) (by simpa using dropped)
        exact (findingAt_none_congr settled bare depth name).mpr found
      · have other : p.findingAt depth k name ≠ none :=
          fun none => found ((findingAt_none_congr settled (Shape.bare_of_beq same) depth name).mp none)
        have rest : joinAll (levels.map (p.findingAt depth · name)) ≠ none :=
          fun none => other (joinAll_eq_none.mp none _ (List.mem_map_of_mem member))
        rw [findingAt_repeated, hide_join_of_some fun none => found ((flags false).mp none), join_of_some found rest]

/-- How far a search for the members of `root` has come. -/
structure Search (p : Program) (root : Level) (depth : Nat) (seen : List Shape) (known : Members)
    (level : List Level) : Prop where
  above : ∀ t ∈ seen, ∀ l : Level, t.bare = l.type.bare → ∀ k name, p.findingAt k l name ≠ none →
    ∃ j < depth + k, p.findingAt j root name ≠ none
  here : ∀ l ∈ level, ∀ k name, p.findingAt k l name ≠ none → p.findingAt (depth + k) root name ≠ none
  rest : ∀ k name, (∀ j < depth + k, p.findingAt j root name = none) →
    joinAll (level.map (p.findingAt k · name)) = p.findingAt (depth + k) root name
  known : ∀ name v, (name, v) ∈ known ↔ ∃ j < depth, p.FoundAt root name j v

namespace Search

variable {root : Level} {depth : Nat} {seen : List Shape} {known : Members} {level : List Level}

theorem start (p : Program) (root : Level) : p.Search root 0 [] [] [root] where
  above := by simp
  here := by simp
  rest := by simp
  known := by simp

/-- Types of the levels above add nothing. -/
theorem unseen (search : p.Search root depth seen known level) {k : Nat}
    (before : ∀ j < depth + k, p.findingAt j root name = none) :
    joinAll ((level.filter fun l => !seen.any (· == l.type)).map (p.findingAt k · name)) =
      p.findingAt (depth + k) root name := by
  rw [← search.rest k name before]
  refine joinAll_filter fun l _ dropped => ?_
  rw [Bool.not_eq_false', List.any_eq_true] at dropped
  obtain ⟨t, member, same⟩ := dropped
  by_contra found
  obtain ⟨j, sooner, found⟩ := search.above t member l (Shape.bare_of_beq same) k name found
  exact found (before j sooner)

theorem step (settled : p.Settled) (search : p.Search root depth seen known level) :
    let fresh := level.filter fun l => !seen.any (· == l.type)
    let found := (fresh.flatMap p.offered).foldl (fun found (s, refused) => addMethod found s refused) []
    p.Search root (depth + 1) (seen ++ fresh.map Level.type) (addLevel known found (fresh.flatMap p.fieldsAt))
      (merge (fresh.flatMap p.embeddedAt)) where
  above := by
    intro t member l same k name found
    rcases List.mem_append.mp member with member | member
    · obtain ⟨j, sooner, found⟩ := search.above t member l same k name found
      exact ⟨j, by omega, found⟩
    · obtain ⟨l', inLevel, rfl⟩ := List.mem_map.mp member
      refine ⟨depth + k, by omega, search.here l' (List.mem_filter.mp inLevel).1 k name fun none => found ?_⟩
      exact (findingAt_none_congr settled same k name).mp none
  here := by
    intro l member k name found
    obtain ⟨e, member, same⟩ := mem_merge member
    obtain ⟨l', member, embedded⟩ := List.mem_flatMap.mp member
    have below : p.findingAt (k + 1) l' name ≠ none := by
      intro none
      rw [findingAt, joinAll_eq_none] at none
      have none := none _ (List.mem_map_of_mem embedded)
      exact found ((findingAt_none_congr settled (congrArg Shape.bare same) k name).mp none)
    rw [Nat.add_assoc, Nat.add_comm 1 k]
    exact search.here l' (List.mem_filter.mp member).1 (k + 1) name below
  rest := by
    intro k name before
    rw [joinAll_merge settled, List.map_flatMap, joinAll_flatMap, Nat.add_assoc, Nat.add_comm 1 k]
    exact search.unseen (k := k + 1) fun j sooner => before j (by omega)
  known := by
    intro name v
    have empty : Tells [] name none := by
      intro w
      simp
    rw [mem_addLevel (tells_foldl empty _), none_join, join_level, search.known]
    constructor
    · rintro (⟨j, sooner, found⟩ | ⟨new, found⟩)
      · exact ⟨j, by omega, found⟩
      · have before : ∀ j < depth + 0, p.findingAt j root name = none := by
          intro j sooner
          by_contra other
          obtain ⟨i, sooner, w, found⟩ := exists_foundAt.mp ⟨j, sooner, other⟩
          exact new w ((search.known name w).mpr ⟨i, sooner, found⟩)
        rw [search.unseen before] at found
        exact ⟨depth, by omega, before, found⟩
    · rintro ⟨j, sooner, before, found⟩
      rcases Nat.lt_succ_iff_lt_or_eq.mp sooner with sooner | rfl
      · exact .inl ⟨j, sooner, before, found⟩
      · refine .inr ⟨fun w member => ?_, ?_⟩
        · obtain ⟨i, sooner, _, other⟩ := (search.known name w).mp member
          rw [before i sooner] at other
          cases other
        · rw [search.unseen (k := 0) before]
          exact found

theorem run (settled : p.Settled) (search : p.Search root depth seen known level) (fuel : Nat) (name : MemberId)
    (v : Option Selection) :
    (name, v) ∈ p.membersFrom fuel seen known level ↔ ∃ j < depth + fuel, p.FoundAt root name j v := by
  induction fuel generalizing depth seen known level with
  | zero => exact search.known name v
  | succ fuel ih =>
    cases level with
    | nil =>
      -- Where there is no type left, no name is found any more.
      rw [membersFrom, search.known]
      constructor
      · rintro ⟨j, sooner, found⟩
        exact ⟨j, by omega, found⟩
      · rintro ⟨j, _, before, found⟩
        refine ⟨j, ?_, before, found⟩
        by_contra later
        obtain ⟨k, rfl⟩ := Nat.exists_eq_add_of_le (Nat.le_of_not_lt later)
        have none := search.rest k name before
        rw [found] at none
        cases none
    | cons l level =>
      rw [membersFrom, ← Nat.add_assoc, Nat.add_right_comm]
      · exact ih (search.step settled)
      · simp

end Search

theorem mem_methodSet_iff (settled : p.Settled) {s : Shape} {pointer : Bool} :
    m ∈ p.methodSet s pointer ↔ ∃ depth < p.size + s.parts.length + 2,
      p.FoundAt { type := s.resolved, indirect := pointer } m.id depth (some m) := by
  unfold methodSet
  rw [List.mem_filterMap]
  constructor
  · rintro ⟨⟨name, _⟩, member, rfl⟩
    obtain ⟨j, sooner, found⟩ := ((Search.start p _).run settled _ _ _).mp member
    obtain ⟨rfl, _⟩ := findingAt_method found.2
    exact ⟨j, by omega, found⟩
  · rintro ⟨j, sooner, found⟩
    exact ⟨(m.id, some m), ((Search.start p _).run settled _ _ _).mpr ⟨j, by omega, found⟩, rfl⟩

end Program

end TypeEngine.Package
