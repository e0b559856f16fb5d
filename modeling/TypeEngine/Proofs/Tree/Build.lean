import Mathlib.Data.List.Forall2
import TypeEngine.Proofs.Tree.Links
import TypeEngine.Tree.Build

/-!
# What branches denote

`Denotes` says without any order of events what a branch stands for: a value, the type that it carries,
or what its path makes of its children. Building stores types in branches along the way, also where it
fails later on. `build_transparent` says that this shows in nothing but the payload of type branches: a
type that is built in a tree where others were built before is the one that is built in the tree itself.
-/

namespace TypeEngine

/-! ### Denotation -/

/-- The type that a payload carries. -/
def Payload.held? : Payload → Option Ty
  | type t => some t
  | typeRef t => t
  | _ => none

namespace Build

/-- The type that a path makes of its arguments. -/
def shape (main : Path) (slots : List Slot) : Except Violation Ty :=
  if (Ty.mk main []).isList then do
    let (n, elem) ← Ty.layersOf slots
    Ty.listN elem n
  else if (Ty.mk main []).isTuple then
    match Slot.types? slots with
    | some ts => .ok (.tuple ts)
    | none => .error (.tupleValue slots)
  else do
    Ty.validate (.mk main (Slot.positional slots))
    return .mk main (Slot.positional slots)

/-- What the branch `i` stands for as an argument. -/
inductive Denotes (t : Tree) : Nat → Slot → Prop where
  | value {i : Nat} {b : Branch} {text : String} : t.branch? i = some b → b.name = valueName →
      b.payload = .text text → Denotes t i (.value "" text)
  | held {i : Nat} {b : Branch} {type : Ty} : t.branch? i = some b → b.name = typeName →
      b.payload.held? = some type → Denotes t i (.type "" type)
  | made {i : Nat} {b : Branch} {main : Path} {slots : List Slot} {type : Ty} : t.branch? i = some b →
      b.name = typeName → b.payload = .scope main → b.children.length = slots.length →
      (∀ c s, (c, s) ∈ b.children.zip slots → Denotes t c s) → shape main slots = .ok type →
      Denotes t i (.type "" type)

variable {α β : Type} {t t₀ : Tree} {i : Nat} {s s' : Slot} {ty : Ty} {main : Path} {children : List Nat}

theorem eq_of_zip {P : Nat → Slot → Prop} {slots slots' : List Slot}
    (left : List.Forall₂ (fun c s => ∀ s', P c s' → s = s') children slots)
    (right : List.Forall₂ P children slots') : slots = slots' := by
  induction left generalizing slots' with
  | nil =>
    cases right
    rfl
  | cons first _ ih =>
    cases right with
    | cons first' rest' => rw [first _ first', ih rest']

theorem Denotes.unique (left : Denotes t i s) (right : Denotes t i s') : s = s' := by
  induction left generalizing s' with
  | value found name payload =>
    cases right with
    | value found' _ payload' =>
      obtain rfl := Option.some.inj (found.symm.trans found')
      obtain rfl := Payload.text.inj (payload.symm.trans payload')
      rfl
    | held found' name' | made found' name' =>
      obtain rfl := Option.some.inj (found.symm.trans found')
      exact absurd (name.symm.trans name') (by decide)
  | held found name payload =>
    cases right with
    | value found' name' =>
      obtain rfl := Option.some.inj (found.symm.trans found')
      exact absurd (name.symm.trans name') (by decide)
    | held found' _ payload' =>
      obtain rfl := Option.some.inj (found.symm.trans found')
      obtain rfl := Option.some.inj (payload.symm.trans payload')
      rfl
    | made found' _ payload' =>
      obtain rfl := Option.some.inj (found.symm.trans found')
      rw [payload'] at payload
      cases payload
  | made found name payload length nested shaped ih =>
    cases right with
    | value found' name' =>
      obtain rfl := Option.some.inj (found.symm.trans found')
      exact absurd (name.symm.trans name') (by decide)
    | held found' _ payload' =>
      obtain rfl := Option.some.inj (found.symm.trans found')
      rw [payload] at payload'
      cases payload'
    | made found' _ payload' length' nested' shaped' =>
      obtain rfl := Option.some.inj (found.symm.trans found')
      obtain rfl := Payload.scope.inj (payload.symm.trans payload')
      have slots := eq_of_zip (List.forall₂_iff_zip.mpr ⟨length, fun member _ other => ih _ _ member other⟩)
        (List.forall₂_iff_zip.mpr ⟨length', fun member => nested' _ _ member⟩)
      rw [slots, shaped'] at shaped
      rw [Except.ok.inj shaped]

/-! ### What building keeps and gives -/

/-- The outcome of a build in a tree, and the tree afterwards. -/
def runIn (x : Build α) (t : Tree) : Except BuildFault α × Tree := x.run t

theorem runIn_bind_ok {x : Build α} {f : α → Build β} {t' : Tree} {a : α}
    (done : x.runIn t = (.ok a, t')) : (x >>= f).runIn t = (f a).runIn t' := by
  change ExceptT.bindCont f (x.runIn t).1 (x.runIn t).2 = _
  rw [done]
  rfl

theorem runIn_bind_error {x : Build α} {f : α → Build β} {t' : Tree} {fault : BuildFault}
    (failed : x.runIn t = (.error fault, t')) : (x >>= f).runIn t = (.error fault, t') := by
  change ExceptT.bindCont f (x.runIn t).1 (x.runIn t).2 = _
  rw [failed]
  rfl

/-- The build keeps the property `P` of trees, also when it fails, and its results have the property
`Q`. -/
def Meets (x : Build α) (P : Tree → Prop) (Q : α → Prop) : Prop :=
  ∀ t, P t → P (x.runIn t).2 ∧ ∀ a, (x.runIn t).1 = .ok a → Q a

namespace Meets

variable {P : Tree → Prop} {Q : α → Prop} {R : β → Prop}

theorem pure {a : α} (holds : Q a) : Meets (Pure.pure a) P Q :=
  fun _ keeps => ⟨keeps, fun _ answer => Except.ok.inj answer ▸ holds⟩

theorem throw (fault : BuildFault) : Meets (MonadExcept.throw fault) P Q :=
  fun _ keeps => ⟨keeps, fun _ answer => by cases answer⟩

theorem bind {x : Build α} {f : α → Build β} (first : x.Meets P Q) (next : ∀ a, Q a → (f a).Meets P R) :
    Meets (x >>= f) P R := by
  intro t keeps
  obtain ⟨kept, answers⟩ := first t keeps
  cases outcome : x.runIn t with
  | mk result t' =>
    rw [outcome] at kept answers
    cases result with
    | ok a =>
      rw [runIn_bind_ok outcome]
      exact next a (answers a rfl) t' kept
    | error fault =>
      rw [runIn_bind_error outcome]
      exact ⟨kept, fun _ answer => by cases answer⟩

theorem mono {Q' : α → Prop} {x : Build α} (meets : x.Meets P Q) (weaker : ∀ a, Q a → Q' a) :
    x.Meets P Q' :=
  fun t keeps => ⟨(meets t keeps).1, fun a answer => weaker a ((meets t keeps).2 a answer)⟩

theorem modify {f : Tree → Tree} (keeps : ∀ t, P t → P (f t)) :
    Meets (MonadStateOf.modifyGet fun t => ((), f t)) P fun _ => True :=
  fun t holds => ⟨keeps t holds, fun _ _ => trivial⟩

theorem ofViolation {x : Except Violation α} (holds : ∀ a, x = .ok a → Q a) :
    (Build.ofViolation x).Meets P Q := by
  cases x with
  | ok a => exact .pure (holds a rfl)
  | error v => exact .throw _

end Meets

/-! ### Trees in which types were built -/

/-- The branch is `b₀`, or it is a type branch that now carries the type that the branch `i` denotes in
`t₀`. -/
inductive Holds (t₀ : Tree) (i : Nat) (b₀ : Branch) : Branch → Prop where
  | same : Holds t₀ i b₀ b₀
  | built {type : Ty} : b₀.name = typeName → Denotes t₀ i (.type "" type) →
      Holds t₀ i b₀ { b₀ with payload := .type type }

/-- The tree is `t₀` with some types built in it. -/
structure Grown (t₀ t : Tree) : Prop where
  size : t.size = t₀.size
  holds {i : Nat} {b : Branch} : t.branch? i = some b → ∃ b₀, t₀.branch? i = some b₀ ∧ Holds t₀ i b₀ b

theorem Grown.refl (t : Tree) : Grown t t := ⟨rfl, fun found => ⟨_, found, .same⟩⟩

theorem Grown.store (grown : Grown t₀ t) {b : Branch} (found : t₀.branch? i = some b)
    (name : b.name = typeName) (denotes : Denotes t₀ i (.type "" ty)) :
    Grown t₀ (t.modify i ({ · with payload := .type ty })) where
  size := (Tree.size_modify ..).trans grown.size
  holds {j b'} found' := by
    rw [Tree.branch?_modify] at found'
    split at found'
    · rename_i same
      subst same
      obtain ⟨b'', here, rfl⟩ := Option.map_eq_some_iff.mp found'
      obtain ⟨b₀, there, holds⟩ := grown.holds here
      obtain rfl := Option.some.inj (found.symm.trans there)
      refine ⟨b, found, ?_⟩
      cases holds with
      | same => exact .built name denotes
      | built => exact .built name denotes
    · exact grown.holds found'

theorem Holds.eq_of_value {b₀ b : Branch} (holds : Holds t₀ i b₀ b) (name : b.name = valueName) :
    b = b₀ := by
  cases holds with
  | same => rfl
  | built type => exact absurd (type.symm.trans name) (by decide)

theorem Holds.eq_of_scope {b₀ b : Branch} (holds : Holds t₀ i b₀ b) (payload : b.payload = .scope main) :
    b = b₀ := by
  cases holds with
  | same => rfl
  | built => cases payload

theorem Holds.denotes {b₀ b : Branch} (holds : Holds t₀ i b₀ b) (there : t₀.branch? i = some b₀)
    (name : b.name = typeName) (held : b.payload.held? = some ty) : Denotes t₀ i (.type "" ty) := by
  cases holds with
  | same => exact .held there name held
  | built _ denotes => exact Option.some.inj held ▸ denotes

theorem runIn_branch (id : BranchId) (t : Tree) : ((branch id).runIn t).2 = t ∧
    ∀ b, ((branch id).runIn t).1 = .ok b → t.get? id = some b := by
  unfold branch
  rw [runIn_bind_ok (a := t) (by rfl)]
  split
  · rename_i b _ found
    exact ⟨rfl, fun _ answer => found.trans (congrArg some (Except.ok.inj answer))⟩
  · exact ⟨rfl, fun _ answer => by cases answer⟩
  · exact ⟨rfl, fun _ answer => by cases answer⟩

theorem branch_meets (id : BranchId) : (branch id).Meets (Grown t₀) fun b =>
    ∃ i : Nat, id = i ∧ ∃ b₀, t₀.branch? i = some b₀ ∧ Holds t₀ i b₀ b := by
  intro t grown
  obtain ⟨kept, answers⟩ := runIn_branch id t
  refine ⟨kept.symm ▸ grown, fun b answer => ?_⟩
  have found := answers b answer
  unfold Tree.get? at found
  split at found
  · cases found
  · obtain ⟨i, rfl⟩ := Int.eq_ofNat_of_zero_le (Int.not_lt.mp ‹_›)
    exact ⟨i, rfl, grown.holds found⟩

section

variable {build : Nat → Build Ty}
  (nested : ∀ c, (build c).Meets (Grown t₀) fun ty => Denotes t₀ c (.type "" ty))
include nested

theorem typeChild_meets (c : Nat) (otherwise : Int → Violation) :
    (typeChild build c otherwise).Meets (Grown t₀) fun ty => Denotes t₀ c (.type "" ty) := by
  refine .bind (branch_meets c) fun b _ => ?_
  split
  · exact .throw _
  · exact nested c

theorem components_meets (n : Nat) (children : List Nat) :
    (components build n children).Meets (Grown t₀) fun ts =>
      ∃ slots, List.Forall₂ (Denotes t₀) children slots ∧ Slot.types? slots = some ts := by
  induction children generalizing n with
  | nil => exact .pure ⟨[], .nil, rfl⟩
  | cons c cs ih =>
    refine .bind (typeChild_meets nested c _) fun ty first => .bind (ih (n + 1)) fun ts rest => .pure ?_
    obtain ⟨slots, each, typed⟩ := rest
    exact ⟨.type "" ty :: slots, .cons first each, by rw [Slot.types?, typed]; rfl⟩

theorem listArgs_meets (pos : Int) (children : List Nat) :
    (listArgs build pos children).Meets (Grown t₀) fun p =>
      ∃ slots, List.Forall₂ (Denotes t₀) children slots ∧ Ty.layersOf slots = .ok (p.2, p.1) := by
  unfold listArgs
  split
  · refine .bind (typeChild_meets nested _ _) fun ty first => .pure ?_
    exact ⟨[.type "" ty], .cons first .nil, rfl⟩
  · rename_i count elem
    refine .bind (branch_meets count) fun b found => ?_
    obtain ⟨i, same, b₀, there, holds⟩ := found
    obtain rfl := Int.ofNat.inj same
    by_cases name : b.name = valueName
    · obtain rfl := holds.eq_of_value name
      rw [if_pos name]
      split
      · rename_i text payload
        split
        · rename_i n counted
          refine .bind (typeChild_meets nested elem _) fun ty second => .pure ?_
          refine ⟨[.value "" text, .type "" ty], .cons (.value there name payload) (.cons second .nil), ?_⟩
          rw [Ty.layersOf, counted]
        · exact .throw _
      · exact .throw _
    · rw [if_neg name]
      exact .throw _
  · exact .throw _

theorem argument_meets (name : String) (c : Nat) :
    (argument build name c).Meets (Grown t₀) fun s => ∃ s', Denotes t₀ c s' ∧ s = s'.rename name := by
  refine .bind (branch_meets c) fun b found => ?_
  obtain ⟨i, same, b₀, there, holds⟩ := found
  obtain rfl := Int.ofNat.inj same
  split
  · rename_i value
    obtain rfl := holds.eq_of_value value
    split
    · rename_i text payload
      exact .pure ⟨.value "" text, .value there value payload, rfl⟩
    · exact .throw _
  · split
    · exact .bind (nested c) fun ty denotes => .pure ⟨.type "" ty, denotes, rfl⟩
    · exact .throw _

theorem arguments_meets (n : Nat) (children : List Nat) :
    (arguments build n children).Meets (Grown t₀) fun ss =>
      ∃ slots, List.Forall₂ (Denotes t₀) children slots ∧ ss = Slot.numberFrom n slots := by
  induction children generalizing n with
  | nil => exact .pure ⟨[], .nil, rfl⟩
  | cons c cs ih =>
    refine .bind (argument_meets nested _ c) fun s first => .bind (ih (n + 1)) fun ss rest => .pure ?_
    obtain ⟨s', denotes, rfl⟩ := first
    obtain ⟨slots, each, rfl⟩ := rest
    exact ⟨s' :: slots, .cons denotes each, rfl⟩

theorem assemble_meets (main : Path) (pos : Int) (children : List Nat) :
    (assemble build main pos children).Meets (Grown t₀) fun ty =>
      ∃ slots, List.Forall₂ (Denotes t₀) children slots ∧ shape main slots = .ok ty := by
  unfold assemble shape
  dsimp only
  split
  · refine .bind (listArgs_meets nested pos children) fun p found => .ofViolation fun ty wrapped => ?_
    obtain ⟨slots, each, layers⟩ := found
    exact ⟨slots, each, by rw [layers]; exact wrapped⟩
  · split
    · refine .bind (components_meets nested 0 children) fun ts found => .pure ?_
      obtain ⟨slots, each, typed⟩ := found
      exact ⟨slots, each, by rw [typed]⟩
    · refine .bind (arguments_meets nested 1 children) fun ss found => ?_
      obtain ⟨slots, each, rfl⟩ := found
      refine .bind (.ofViolation fun _ valid => valid) fun _ valid => .pure ⟨slots, each, ?_⟩
      rw [Slot.positional, valid]
      rfl

end

theorem fromBranch_meets (limit : Int) (fuel : Nat) (id : BranchId) :
    (fromBranch limit fuel id).Meets (Grown t₀) fun ty =>
      ∃ i : Nat, id = i ∧ Denotes t₀ i (.type "" ty) := by
  induction fuel generalizing id with
  | zero => exact .throw _
  | succ fuel ih =>
    have nested : ∀ c : Nat,
        (fromBranch limit fuel c).Meets (Grown t₀) fun ty => Denotes t₀ c (.type "" ty) := by
      refine fun c => (ih c).mono ?_
      rintro ty ⟨i, same, denotes⟩
      exact Int.ofNat.inj same ▸ denotes
    refine .bind (branch_meets id) fun b found => ?_
    obtain ⟨i, rfl, b₀, there, holds⟩ := found
    dsimp only
    by_cases name : b.name = typeName
    · rw [if_neg (not_not.mpr name)]
      split
      · rename_i ty payload
        exact .pure ⟨i, rfl, holds.denotes there name (by rw [payload]; rfl)⟩
      · rename_i ty payload
        exact .pure ⟨i, rfl, holds.denotes there name (by rw [payload]; rfl)⟩
      · exact .throw _
      · rename_i main payload
        obtain rfl := holds.eq_of_scope payload
        refine .bind (assemble_meets nested main b.pos b.children) fun ty found => ?_
        obtain ⟨slots, each, shaped⟩ := found
        obtain ⟨length, each⟩ := List.forall₂_iff_zip.mp each
        have denotes : Denotes t₀ i (.type "" ty) :=
          .made there name payload length (fun _ _ => each) shaped
        exact .bind (.modify fun t grown => grown.store there name denotes) fun _ _ => .pure ⟨i, rfl, denotes⟩
      · exact .throw _
    · rw [if_pos name]
      exact .bind (.throw _) fun _ impossible => False.elim impossible

end Build

namespace Tree

/-- The tree after types were built from branches, one after the other, each within a limit. -/
def afterBuilds (t : Tree) (calls : List (BranchId × Int)) : Tree :=
  calls.foldl (fun t call => ((build call.1 call.2).runIn t).2) t

open Build

theorem afterBuilds_grown (t : Tree) (calls : List (BranchId × Int)) : Grown t (t.afterBuilds calls) := by
  have step : ∀ t', Grown t t' → Grown t (t'.afterBuilds calls) := by
    induction calls with
    | nil => exact fun _ grown => grown
    | cons call calls ih => exact fun t' grown => ih _ (fromBranch_meets _ _ call.1 t' grown).1
  exact step t (.refl t)

/-- Types that were built before show in the payload of type branches only, and not in what is built. -/
theorem build_transparent (t : Tree) (calls : List (BranchId × Int)) :
    (t.afterBuilds calls).size = t.size ∧
      (∀ i b, (t.afterBuilds calls).branch? i = some b → ∃ b₀, t.branch? i = some b₀ ∧
        b = { b₀ with payload := b.payload } ∧ (b.payload = b₀.payload ∨ b₀.name = typeName)) ∧
      ∀ id limit limit' ty ty', ((build id limit).runIn (t.afterBuilds calls)).1 = .ok ty →
        ((build id limit').runIn t).1 = .ok ty' → ty = ty' := by
  have grown := t.afterBuilds_grown calls
  refine ⟨grown.size, fun i b found => ?_, fun id limit limit' ty ty' later first => ?_⟩
  · obtain ⟨b₀, there, holds⟩ := grown.holds found
    refine ⟨b₀, there, ?_⟩
    cases holds with
    | same => exact ⟨rfl, .inl rfl⟩
    | built name => exact ⟨rfl, .inr name⟩
  · obtain ⟨i, rfl, denotes⟩ := (fromBranch_meets _ _ id _ grown).2 ty later
    obtain ⟨j, same, denotes'⟩ := (fromBranch_meets _ _ _ _ (.refl t)).2 ty' first
    obtain rfl := Int.ofNat.inj same
    exact (Slot.type.inj (denotes.unique denotes')).2

/-- A tuple of a number and a list of lists of numbers. -/
def uneven : Tree :=
  let branch (payload : Payload) (children : List Nat) (parent : Option Nat) : Branch :=
    { name := typeName, pos := 0, endPos := 1, children, payload, parent }
  ⟨[branch (.scope (.ofPrimitive "tuple")) [1, 2] none,
    branch (.scope (.ofPrimitive "int")) [] (some 0),
    branch (.scope (.ofPrimitive "list")) [3] (some 0),
    branch (.scope (.ofPrimitive "list")) [4] (some 2),
    branch (.scope (.ofPrimitive "int")) [] (some 3)]⟩

/-- A build that fails after its first component, and what is built afterwards. -/
theorem build_transparent_uneven : ∃ ty ty',
    ((build 0 1).runIn uneven).1 = .error (.type (.tooComplex .build 1)) ∧
      ((build 0 5).runIn (uneven.afterBuilds [(0, 1), (3, 2)])).1 = .ok ty ∧
      ((build 0 0).runIn uneven).1 = .ok ty' ∧ ty = ty' := by
  obtain ⟨ty, later⟩ : ∃ ty, ((build 0 5).runIn (uneven.afterBuilds [(0, 1), (3, 2)])).1 = .ok ty :=
    ⟨_, rfl⟩
  obtain ⟨ty', first⟩ : ∃ ty', ((build 0 0).runIn uneven).1 = .ok ty' := ⟨_, rfl⟩
  exact ⟨ty, ty', rfl, later, first,
    (build_transparent uneven [(0, 1), (3, 2)]).2.2 0 5 0 ty ty' later first⟩

end Tree

end TypeEngine
