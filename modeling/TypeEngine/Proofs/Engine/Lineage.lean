import Mathlib.Data.List.Perm.Subperm
import TypeEngine.Engine.Call
import TypeEngine.Proofs.Engine.Member
import TypeEngine.Proofs.Engine.Translation
import TypeEngine.Proofs.Host.Chain
import TypeEngine.Proofs.Ty.Canonical

/-!
# Members inherited from the host

A host type inherits the members of its bases. `Lineage` follows the bases of a type, each
instantiated for the arguments of the type below it. The catalog collects members along the same
chain, but a property of a base is not instantiated at all, and an overload of a base is
instantiated for the arguments of the type at which the call is made. `inherited_instantiated` says
when this makes no difference; `inherited_mixed` shows that it can.
-/

namespace TypeEngine

namespace Ty

/-! ### Types as the translation builds them -/

/-- Every list is in run-length form, and other arguments are named by position. -/
inductive Built : Ty → Prop where
  | list {n : Int} {elem : Ty} : elem.isList = false → Built elem → Built (layered n elem)
  | other {main : Path} {slots : List Slot} : (mk main []).isList = false →
      (∀ name t, .type name t ∈ slots → Built t) → Built (mk main (Slot.positional slots))

variable {s s' : Subst} {limit depth : Nat} {t u elem : Ty} {n : Int}

theorem Built.listN (built : t.Built) (done : t.listN n = .ok u) : u.Built := by
  rcases listN_cases done with ⟨found, rfl⟩ | ⟨k, core, found, rfl⟩
  · exact .list (isList_of_none found) built
  · cases built with
    | list notList inner =>
      obtain ⟨same, _⟩ := listParts_layered_iff.mp found
      cases same
      exact .list notList inner
    | other notList inner =>
      rw [listParts_of_notList (by exact notList)] at found
      cases found

theorem mapTypes_self {ε : Type} {f : Ty → Except ε Ty} {slots : List Slot}
    (each : ∀ name t, .type name t ∈ slots → f t = .ok t) : Slot.mapTypes f slots = .ok slots := by
  induction slots with
  | nil => rfl
  | cons s slots ih =>
    have ih := ih fun name t member => each name t (List.mem_cons_of_mem _ member)
    cases s with
    | type name t =>
      rw [Slot.mapTypes, each name t List.mem_cons_self, ih]
      rfl
    | value name text =>
      rw [Slot.mapTypes, ih]
      rfl

theorem Built.applyAt_self (built : t.Built) (sound : t.Sound)
    (free : ∀ x ∈ t.params, s.get? x = none) (shallow : depth + t.nesting ≤ limit) :
    applyAt s limit depth t = .ok t := by
  induction built generalizing depth with
  | @list n elem notList inner ih =>
    obtain ⟨name, slot⟩ := elem_mem_layered n elem
    have deeper := nesting_slot slot
    have bounds : 1 ≤ n ∧ n ≤ Numeral.greatest := by
      obtain ⟨found, counted⟩ := sound _ (self_mem_parts _)
      exact (listParts_layered_iff.mp counted).2
    rw [applyAt_list (by omega) (listParts_layered bounds),
      ih (sound.slot slot) (fun x known => free x (mem_params_of_slot slot known)) (by omega), bind_ok,
      listN_layered bounds.1 notList]
    rfl
  | @other main slots notList inner ih =>
    cases parameter : (mk main (Slot.positional slots)).isParam with
    | true =>
      rw [applyAt_param (by omega) parameter, free _ (leaf_mem_params parameter)]
      rfl
    | false =>
      have each : ∀ name t, .type name t ∈ Slot.positional slots →
          applyAt s limit (depth + 1) t = .ok t := by
        intro name t slot
        obtain ⟨name', member⟩ := Slot.type_mem_numberFrom.mp ⟨name, slot⟩
        have deeper : t.nesting + 1 ≤ (mk main (Slot.positional slots)).nesting := nesting_slot slot
        exact ih name' t member (sound.slot slot)
          (fun x known => free x (mem_params_of_slot slot known)) (by omega)
      have distinct : ((Slot.positional slots).map Slot.name).Nodup := Slot.nodup_numberFrom ..
      rw [applyAt_other (by omega) parameter (by exact notList) distinct]
      exact congrArg (Except.map (mk main)) (mapTypes_self each)

theorem Built.apply_agree (built : t.Built) (sound : t.Sound) (shallow : t.nesting ≤ limit)
    (agree : ∀ x ∈ t.params, s.get? x = s'.get? x) : t.apply s limit = t.apply s' limit := by
  have enough : ∀ s : Subst, (∀ x ∈ t.params, s.get? x = none) →
      applyAt s (if (limit : Int) ≤ 0 then defaultLimit else (limit : Int).toNat) 0 t = .ok t := by
    intro s free
    refine built.applyAt_self sound free ?_
    split <;> omega
  unfold apply
  cases empty : s.isEmpty with
  | true =>
    cases empty' : s'.isEmpty with
    | true => rfl
    | false => exact (enough s' fun x known => by rw [← agree x known, Subst.get?_of_isEmpty empty]).symm
  | false =>
    cases empty' : s'.isEmpty with
    | true => exact enough s fun x known => by rw [agree x known, Subst.get?_of_isEmpty empty']
    | false => exact applyAt_agree t agree

end Ty

/-- The references in the result and the parameters of a callable. -/
def Host.Callable.refs (c : Callable) : List Ref := c.ret :: c.params.map Param.type

namespace Engine

open Host

variable {e : Engine} {t : Ty}

theorem modelPrimitive_built {name : String} {args : List Slot}
    (built : ∀ n t, .type n t ∈ args → t.Built) (found : modelPrimitive name args = .ok (some t)) :
    t.Built := by
  rcases modelPrimitive_form found with ⟨_, n, elem, k, slot, wrapped⟩ | ⟨notList, ts, rfl, known, _⟩
  · exact (built n elem slot).listN wrapped
  · refine .other (Bool.eq_false_iff.mpr fun list => ?_) fun n u slot => ?_
    · have path := Path.beq_iff_bare.mp list
      simp [Path.ofPrimitive, Path.bare, Block.bare, Ty.main] at path
      exact notList path
    · obtain ⟨u, member, same⟩ := List.mem_map.mp slot
      cases same
      obtain ⟨m, slot⟩ := known u member
      exact built m u slot

theorem modelNamed_built {path : String} {args : List Slot}
    (built : ∀ n t, .type n t ∈ args → t.Built) (found : e.modelNamed path args = .ok (some t)) :
    t.Built := by
  rcases modelNamed_cases found with ⟨name, primitive⟩ | ⟨main, flat, rfl⟩
  · exact modelPrimitive_built built primitive
  · exact .other flat built

theorem toModelAt_built {depth : Nat} (found : e.toModelAt depth r = .ok (some t)) : t.Built := by
  refine toModelAt_rec (P := fun _ t => t.Built) (fun {_ name} _ _ => ?_) (fun _ => ?_)
    (fun _ _ _ types found => modelNamed_built types found) r found
  · have built : (Ty.mk (.ofParameter name) (Slot.positional [])).Built := .other rfl nofun
    exact built
  · have built : (Ty.mk (.ofPrimitive "null") (Slot.positional [])).Built := .other (by decide) nofun
    exact built

/-! ### Substitutions that agree on a reference -/

/-- The lists in the type of a reference can be counted, and the substitutions agree on its
parameters. -/
def Agree (e : Engine) (s s' : Subst) (r : Ref) : Prop :=
  ∀ t, e.toModel r = .ok (some t) → t.Sound ∧ ∀ x ∈ t.params, s.get? x = s'.get? x

variable {s s' : Subst}

theorem instantiateRef_agree {r : Ref} (agree : e.Agree s s' r) :
    e.instantiateRef r s = e.instantiateRef r s' := by
  unfold instantiateRef
  cases found : e.toModel r with
  | error v => rfl
  | ok t? =>
    cases t? with
    | none => rfl
    | some t =>
      obtain ⟨sound, same⟩ := agree t found
      have shallow : 0 + t.nesting ≤ e.maxDepth := toModelAt_nesting found
      have applied : t.apply s e.maxDepth = t.apply s' e.maxDepth :=
        (toModelAt_built found).apply_agree sound (by omega) same
      rw [Ty.bind_ok, Ty.bind_ok]
      dsimp only
      rw [applied]

theorem hostParams_agree {ps : List Param} (agree : ∀ p ∈ ps, e.Agree s s' p.type) :
    e.hostParams s ps = e.hostParams s' ps := by
  induction ps with
  | nil => rfl
  | cons p ps ih =>
    rw [List.forall_mem_cons] at agree
    rw [hostParams, hostParams, instantiateRef_agree agree.1, ih agree.2]

theorem hostOverload_agree {c : Callable} (agree : ∀ r ∈ c.refs, e.Agree s s' r) :
    e.hostOverload c s = e.hostOverload c s' := by
  obtain ⟨ret, params⟩ := List.forall_mem_cons.mp agree
  unfold hostOverload
  rw [instantiateRef_agree ret, hostParams_agree (by simpa using params)]

theorem hostCandidates_agree (owner : Ty) (constructs : Bool) {cs : List Callable}
    (agree : ∀ c ∈ cs, ∀ r ∈ c.refs, e.Agree s s' r) :
    e.hostCandidates owner s constructs cs = e.hostCandidates owner s' constructs cs := by
  induction cs with
  | nil => rfl
  | cons c cs ih =>
    rw [List.forall_mem_cons] at agree
    rw [hostCandidates, hostCandidates, hostOverload_agree agree.1, ih agree.2]

/-! ### The chain of bases -/

/-- The type `t` that `info` describes, and its bases, each with its description and instantiated
for the arguments of the type below it. -/
inductive Lineage (e : Engine) : Ty → TypeInfo → List (Ty × TypeInfo) → Prop where
  | root {t : Ty} {info : TypeInfo} :
      (∀ r, info.base? = some r → r.path = "" ∨ e.catalog.lookup? r.path = none) →
      Lineage e t info [(t, info)]
  | base {t base : Ty} {info info' : TypeInfo} {r : Ref} {line : List (Ty × TypeInfo)} :
      info.base? = some r → r.path ≠ "" → e.catalog.lookup? r.path = some info' →
      e.instantiateRef r (t.bindParams info.typeParams) = .ok (some base) →
      Lineage e base info' line → Lineage e t info ((t, info) :: line)

namespace Lineage

variable {info : TypeInfo} {line : List (Ty × TypeInfo)}

theorem known (lineage : Lineage e t info line) (here : e.catalog.lookup? info.path = some info) :
    ∀ a ∈ line, e.catalog.lookup? a.2.path = some a.2 := by
  induction lineage with
  | root => exact List.forall_mem_singleton.mpr here
  | base _ _ up _ _ ih =>
    rw [← Catalog.path_of_lookup? up] at up
    exact List.forall_mem_cons.mpr ⟨here, ih up⟩

theorem starts (lineage : Lineage e t info line) : ∃ rest, line = (t, info) :: rest := by
  cases lineage with
  | root => exact ⟨[], rfl⟩
  | base => exact ⟨_, rfl⟩

/-- The catalog follows the same bases. -/
theorem chainFrom_eq (lineage : Lineage e t info line)
    (here : e.catalog.lookup? info.path = some info) (named : info.path ≠ "") {seen : List String}
    (unseen : ∀ a ∈ line, a.2.path ∉ seen) (acyclic : (line.map fun a => a.2.path).Nodup) {fuel : Nat}
    (enough : line.length ≤ fuel) :
    e.catalog.chainFrom fuel seen info.path = line.map Prod.snd := by
  induction lineage generalizing seen fuel with
  | @root t info none =>
    obtain ⟨fuel, rfl⟩ : ∃ n, fuel = n + 1 := ⟨fuel - 1, by simp at enough; omega⟩
    rw [List.forall_mem_singleton] at unseen
    rw [Catalog.chainFrom, if_neg (by simpa [named] using unseen), here]
    cases above : info.base? with
    | none => simp [above]
    | some r =>
      have stops : e.catalog.chainFrom fuel (info.path :: seen) r.path = [] := by
        cases fuel with
        | zero => rfl
        | succ fuel =>
          rw [Catalog.chainFrom]
          rcases none r above with empty | unknown
          · simp [empty]
          · simp [unknown]
      simp [above, stops]
  | @base t base info info' r line above some up applied _ ih =>
    obtain ⟨fuel, rfl⟩ : ∃ n, fuel = n + 1 := ⟨fuel - 1, by simp at enough; omega⟩
    rw [List.forall_mem_cons] at unseen
    rw [List.map_cons, List.nodup_cons] at acyclic
    have same := Catalog.path_of_lookup? up
    have rest : e.catalog.chainFrom fuel (info.path :: seen) info'.path = line.map Prod.snd := by
      refine ih (by rw [same, up]) (by rw [same]; exact some) (fun a member => ?_) acyclic.2 ?_
      · rw [List.mem_cons, not_or]
        exact ⟨fun again => acyclic.1 (List.mem_map.mpr ⟨a, member, again⟩), unseen.2 a member⟩
      · simpa using enough
    rw [Catalog.chainFrom, if_neg (by simpa [named] using unseen.1), here]
    simp [above, ← same, rest]

theorem chain_eq (lineage : Lineage e t info line) (here : e.catalog.lookup? info.path = some info)
    (named : info.path ≠ "") (acyclic : (line.map fun a => a.2.path).Nodup) :
    e.catalog.chain info.path = line.map Prod.snd := by
  have length : line.length ≤ e.catalog.types.length := by
    have subset : (line.map fun a => a.2.path) ⊆ e.catalog.typePaths := by
      intro path member
      obtain ⟨a, listed, rfl⟩ := List.mem_map.mp member
      exact List.mem_map_of_mem (List.mem_of_find?_eq_some (lineage.known here a listed))
    have fewer := (List.subperm_of_subset acyclic subset).length_le
    simpa [Catalog.typePaths] using fewer
  exact lineage.chainFrom_eq here named (by simp) acyclic (by omega)

end Lineage

/-! ### Properties -/

/-- Neither a declared nor a built-in property takes the place of one from the host. -/
structure Unshadowed (e : Engine) (s : Session) (owner : Ty) (name : String) : Prop where
  scopes : ∀ scope ∈ owner.main.outward, s.tables.property? scope name = none
  bases : ((e.findBase (fun b => (s.tables.property? b.main name).isSome) owner).run s).1 = .ok none
  builtin : Builtin.property? owner name = none

theorem property_unshadowed {session : Session} {owner : Ty} {name : String}
    (unshadowed : e.Unshadowed session owner name) :
    ((e.property owner name).run session).1 =
      (e.hostMember (fun path name => (e.catalog.property? path name).map (·, "")) owner name).mapError
        .broken := by
  have hidden : visible? session.tables owner.main name = none := by
    rw [visible?, List.findSome?_eq_none_iff]
    intro scope member
    rw [unshadowed.scopes scope member]
    rfl
  rw [property_hidden hidden, unshadowed.bases]
  dsimp only
  rw [unshadowed.builtin]

variable {owner : Ty} {info declaring : TypeInfo} {name : String} {p : Host.Property}

/-- The catalog finds a property at the first type of the chain that lists it. -/
theorem property?_of_chain {path : String} {before after : List TypeInfo}
    (chain : e.catalog.chain path = before ++ declaring :: after)
    (first : ∀ i ∈ before, i.properties.find? (·.name = name) = none)
    (listed : declaring.properties.find? (·.name = name) = some p) :
    e.catalog.property? path name = some p := by
  have skipped : before.findSome? (fun i => i.properties.find? (·.name = name)) = none :=
    List.findSome?_eq_none_iff.mpr first
  rw [Catalog.property?, chain, List.findSome?_append, skipped, List.findSome?_cons, listed]
  rfl

/-- What the property of a host type is: instantiated for the arguments of the owner if the owner's
own type declares it, and not at all if a base does. -/
theorem hostMember_property {path : String} {type : Ty} (at_ : e.hostPath owner = .ok (some path))
    (found : e.catalog.property? path name = some p)
    (declared : e.catalog.lookup? p.declaring = some declaring)
    (denoted : e.instantiateRef p.type
      (if p.declaring = path then owner.bindParams declaring.typeParams else .empty) =
        .ok (some type)) :
    ∃ m, e.hostMember (fun path name => (e.catalog.property? path name).map (·, "")) owner name =
      .ok (some m) ∧ m.name = p.name ∧ m.type = type ∧ m.scope = declaring.scopePath ∧
      m.origin = .native := by
  let members : List Attribute :=
    (if p.static then [.static] else []) ++ (if p.readOnly then [.const] else [])
  refine ⟨⟨p.name, type, "", ⟨members⟩, declaring.scopePath, .native⟩, ?_, rfl, rfl, rfl, rfl⟩
  unfold hostMember
  rw [at_, Ty.bind_ok]
  dsimp only
  rw [found, Option.map_some]
  dsimp only
  rw [declared]
  dsimp only
  rw [denoted]
  rfl

/-! ### Methods -/

theorem hostCandidates_append (owner : Ty) (s : Subst) (constructs : Bool) (cs ds : List Callable) :
    e.hostCandidates owner s constructs (cs ++ ds) = (do
      let here ← e.hostCandidates owner s constructs cs
      let more ← e.hostCandidates owner s constructs ds
      return here ++ more) := by
  induction cs with
  | nil =>
    rw [List.nil_append, hostCandidates, Ty.bind_ok]
    cases e.hostCandidates owner s constructs ds <;> rfl
  | cons c cs ih =>
    rw [List.cons_append, hostCandidates, hostCandidates, ih]
    split
    · rfl
    · cases e.hostOverload c s with
      | error v => rfl
      | ok overload? =>
        cases e.hostCandidates owner s constructs cs with
        | error v => rfl
        | ok here =>
          cases e.hostCandidates owner s constructs ds with
          | error v => rfl
          | ok more => simp [bind, Except.bind, pure, Except.pure]

/-- The candidates from every type of a line, instantiated for the arguments of that type. -/
def lineCandidates (e : Engine) (owner : Ty) (name : String) :
    List (Ty × TypeInfo) → Except Violation (List Candidate)
  | [] => .ok []
  | (t, info) :: line => do
    let methods := info.methods.filter (·.name = name)
    let here ← e.hostCandidates owner (t.bindParams info.typeParams) false methods
    let more ← lineCandidates e owner name line
    return here ++ more

theorem hostCandidates_line (owner : Ty) (s : Subst) {line : List (Ty × TypeInfo)}
    (agree : ∀ a ∈ line, ∀ c ∈ a.2.methods, c.name = name → ∀ r ∈ c.refs,
      e.Agree s (a.1.bindParams a.2.typeParams) r) :
    e.hostCandidates owner s false
      ((line.map Prod.snd).flatMap fun i => i.methods.filter (·.name = name)) =
        e.lineCandidates owner name line := by
  induction line with
  | nil => rfl
  | cons a line ih =>
    rw [List.forall_mem_cons] at agree
    have own : ∀ c ∈ a.2.methods.filter (·.name = name), ∀ r ∈ c.refs,
        e.Agree s (a.1.bindParams a.2.typeParams) r := by
      intro c member
      obtain ⟨listed, named⟩ := List.mem_filter.mp member
      exact agree.1 c listed (of_decide_eq_true named)
    rw [List.map_cons, List.flatMap_cons, hostCandidates_append, hostCandidates_agree owner false own,
      ih agree.2]
    rfl

theorem ne_empty_of_hostPath {path : String} (at_ : e.hostPath owner = .ok (some path)) : path ≠ "" := by
  unfold hostPath at at_
  obtain ⟨r?, _, done⟩ := Ty.exists_of_bind at_
  exact of_decide_eq_true (Option.filter_eq_some_iff.mp (Except.ok.inj done)).2

theorem hostMethod_line {line : List (Ty × TypeInfo)} (at_ : e.hostPath owner = .ok (some info.path))
    (here : e.catalog.lookup? info.path = some info)
    (chain : e.catalog.chain info.path = line.map Prod.snd)
    (agree : ∀ a ∈ line, ∀ c ∈ a.2.methods, c.name = name → ∀ r ∈ c.refs,
      e.Agree (owner.bindParams info.typeParams) (a.1.bindParams a.2.typeParams) r)
    (args : List Ty) (session : Session) :
    (e.hostMethod owner name args).run session =
      (Query.ofViolation (e.lineCandidates owner name line) >>= fun cands =>
        e.rank cands args).run session := by
  have described : e.hostInfo owner = .ok (some info) := by
    unfold hostInfo
    rw [at_, Ty.bind_ok, Option.bind_some, here]
    rfl
  have methods : e.catalog.methods info.path name =
      (line.map Prod.snd).flatMap fun i => i.methods.filter (·.name = name) := by
    rw [Catalog.methods, chain]
  unfold hostMethod rankHost
  rw [at_, described, ← hostCandidates_line owner _ agree, ← methods]
  rfl

/-! ### Along the chain -/

/-- The first type of a line that declares a property of the name comes after those of `before`. -/
structure Declares (line : List (Ty × TypeInfo)) (name : String) (before : List (Ty × TypeInfo)) (t : Ty)
    (declaring : TypeInfo) (p : Host.Property) : Prop where
  place : ∃ after, line = before ++ (t, declaring) :: after
  first : ∀ a ∈ before, a.2.properties.find? (·.name = name) = none
  listed : declaring.properties.find? (·.name = name) = some p
  own : p.declaring = declaring.path

/-- Along the bases of a host type, the first property of a name has the type that the bindings of
its declaring type give, if the owner's own type declares it or the reference mentions no parameter
that is bound there. A method has the overloads that the bindings of their declaring types give, if
these agree with the bindings of the owner on the parameters that are mentioned. -/
theorem inherited_instantiated {line : List (Ty × TypeInfo)}
    (at_ : e.hostPath owner = .ok (some info.path)) (here : e.catalog.lookup? info.path = some info)
    (lineage : Lineage e owner info line) (acyclic : (line.map fun a => a.2.path).Nodup)
    (session : Session) :
    (∀ name before t declaring p type, Declares line name before t declaring p →
      e.Unshadowed session owner name →
      e.instantiateRef p.type (t.bindParams declaring.typeParams) = .ok (some type) →
      before = [] ∨ e.Agree .empty (t.bindParams declaring.typeParams) p.type →
      ∃ m, ((e.property owner name).run session).1 = .ok (some m) ∧ m.name = p.name ∧ m.type = type ∧
        m.scope = declaring.scopePath ∧ m.origin = .native) ∧
    ∀ name args, (∀ a ∈ line, ∀ c ∈ a.2.methods, c.name = name → ∀ r ∈ c.refs,
        e.Agree (owner.bindParams info.typeParams) (a.1.bindParams a.2.typeParams) r) →
      (e.hostMethod owner name args).run session =
        (Query.ofViolation (e.lineCandidates owner name line) >>= fun cands =>
          e.rank cands args).run session := by
  have chain := lineage.chain_eq here (ne_empty_of_hostPath at_) acyclic
  refine ⟨?_, fun name args agree => hostMethod_line at_ here chain agree args session⟩
  intro name before t declaring p type declares unshadowed denoted free
  obtain ⟨after, rfl⟩ := declares.place
  have found : e.catalog.property? info.path name = some p := by
    rw [List.map_append, List.map_cons] at chain
    refine property?_of_chain chain (fun i member => ?_) declares.listed
    obtain ⟨a, listed, rfl⟩ := List.mem_map.mp member
    exact declares.first a listed
  have known : e.catalog.lookup? p.declaring = some declaring := by
    rw [declares.own]
    exact lineage.known here (t, declaring) (by simp)
  have bound : e.instantiateRef p.type
      (if p.declaring = info.path then owner.bindParams declaring.typeParams else .empty) =
        .ok (some type) := by
    obtain ⟨rest, starts⟩ := lineage.starts
    cases before with
    | nil =>
      obtain ⟨same, _⟩ := List.cons.inj starts
      obtain ⟨rfl, rfl⟩ := Prod.mk.inj same
      rw [if_pos declares.own, denoted]
    | cons a before =>
      -- a base has another path than the owner's own type
      obtain ⟨rfl, _⟩ := List.cons.inj starts
      have other : p.declaring ≠ info.path := by
        intro again
        rw [List.cons_append, List.map_cons, List.nodup_cons] at acyclic
        exact acyclic.1 (List.mem_map.mpr ⟨(t, declaring), by simp, declares.own.symm.trans again⟩)
      have agree := free.resolve_left (by simp)
      rw [if_neg other, instantiateRef_agree agree, denoted]
  obtain ⟨m, member, same⟩ := hostMember_property at_ found known bound
  refine ⟨m, ?_, same⟩
  rw [property_unshadowed unshadowed, member]
  rfl

end Engine

/-! ### Bases with other arguments -/

def genericBase : Host.TypeInfo :=
  { name := "Base"
    typeParams := ["T"]
    properties :=
      [{ name := "Size", type := .ofPath "int", declaring := "Base" },
        { name := "Value", type := .ofParam "T", declaring := "Base" }]
    methods := [{ name := "Get", ret := .ofParam "T" }] }

def sameArgument : Host.TypeInfo :=
  { name := "Same", typeParams := ["T"], base? := some (.ofPath "Base" [.ofParam "T"]) }

/-- Three classes with a generic base: for their own argument, for a list of it and for `int`. -/
def baseEngine : Engine :=
  { catalog :=
      { types :=
          [genericBase, sameArgument,
            { name := "Nested", typeParams := ["T"],
              base? := some (.ofPath "Base" [.ofPath "Array" [.ofParam "T"]]) },
            { name := "Plain", base? := some (.ofPath "Base" [.ofPath "int"]) }] } }

def classOf (name : String) (args : List Ty) : Ty := .named ⟨[{ kind := .classType, name }]⟩ args

def sameLine : List (Ty × Host.TypeInfo) :=
  [(classOf "Same" [.int], sameArgument), (classOf "Base" [.int], genericBase)]

theorem inherited_instantiated_same :
    (∃ m, ((baseEngine.property (classOf "Same" [.int]) "Size").run {}).1 = .ok (some m) ∧
      m.type = .int) ∧
    (baseEngine.hostMethod (classOf "Same" [.int]) "Get" []).run {} =
      (Query.ofViolation (baseEngine.lineCandidates (classOf "Same" [.int]) "Get" sameLine) >>=
        fun cands => baseEngine.rank cands []).run {} := by
  have lineage : Engine.Lineage baseEngine (classOf "Same" [.int]) sameArgument sameLine :=
    .base rfl (by decide) rfl rfl (.root nofun)
  have unshadowed : baseEngine.Unshadowed {} (classOf "Same" [.int]) "Size" :=
    ⟨fun _ _ => rfl, rfl, rfl⟩
  have declares : Engine.Declares sameLine "Size" [(classOf "Same" [.int], sameArgument)]
      (classOf "Base" [.int]) genericBase ⟨"Size", .ofPath "int", "Base", false, false⟩ :=
    ⟨⟨[], rfl⟩, List.forall_mem_singleton.mpr rfl, rfl, rfl⟩
  have both := Engine.inherited_instantiated rfl rfl lineage (by decide) {}
  constructor
  · have free : baseEngine.Agree .empty ((classOf "Base" [.int]).bindParams ["T"]) (.ofPath "int") := by
      intro t denoted
      have known : baseEngine.toModel (.ofPath "int") = .ok (some .int) := rfl
      obtain rfl := Option.some.inj (Except.ok.inj (known.symm.trans denoted))
      exact ⟨List.forall_mem_singleton.mpr ⟨_, rfl⟩, nofun⟩
    obtain ⟨m, member, _, type, _⟩ := both.1 _ _ _ _ _ .int declares unshadowed rfl (.inr free)
    exact ⟨m, member, type⟩
  · refine both.2 "Get" [] ?_
    have bindings : ∀ a ∈ sameLine, a.1.bindParams a.2.typeParams =
        (classOf "Same" [.int]).bindParams ["T"] := by
      simp only [sameLine, List.forall_mem_cons]
      exact ⟨rfl, rfl, nofun⟩
    have refs : ∀ a ∈ sameLine, ∀ c ∈ a.2.methods, c.refs = [.ofParam "T"] := by
      simp only [sameLine, List.forall_mem_cons]
      exact ⟨nofun, List.forall_mem_singleton.mpr rfl, nofun⟩
    intro a member c listed _ r mentioned t denoted
    rw [refs a member c listed, List.mem_singleton] at mentioned
    subst mentioned
    have known : baseEngine.toModel (.ofParam "T") = .ok (some (.param "T")) := rfl
    obtain rfl := Option.some.inj (Except.ok.inj (known.symm.trans denoted))
    exact ⟨List.forall_mem_singleton.mpr ⟨_, rfl⟩, fun _ _ => by rw [bindings a member]; rfl⟩

/-- The bindings of the owner take the place of those of the base. -/
theorem inherited_mixed :
    let property := fun owner =>
      ((baseEngine.property owner "Value").run {}).1.toOption.bind fun m? => m?.map (·.type.display)
    let get := fun owner =>
      ((baseEngine.hostMethod owner "Get" []).run {}).1.toOption.map fun found =>
        found.map (·.overload.ret.display)
    property (classOf "Nested" [.int]) = some "T" ∧ property (classOf "Plain" []) = some "T" ∧
    get (classOf "Nested" [.int]) = some ["int"] ∧ get (classOf "Plain" []) = some ["T"] := by
  decide +kernel

end TypeEngine
