import TypeEngine.Proofs.Package.Catalog
import TypeEngine.Proofs.Package.MethodSet

/-!
# Methods in the catalog

A type does not list the methods that come to it through its base, because the base lists them. This
loses a method if it comes through a base that is not exported: such a base is not described. Every
other exported method is found in the catalog, and those that are lost are not (`method_shown_iff`).
-/

namespace TypeEngine.Package.Program

open Host (Catalog TypeInfo Callable)

variable {p : Program} {c : Catalog} {d b : TypeDef} {m : Selection} {place : Nat}

/-! ### Methods of declared types -/

/-- Where the search for the methods of a declared type starts. -/
def start (p : Program) (d : TypeDef) : Level := { type := self d, indirect := !p.isInterface (self d) }

theorem mem_methodsFor (settled : p.Settled) :
    m ∈ p.methodsFor (self d) ↔ ∃ depth < p.size + 3, p.FoundAt (p.start d) m.id depth (some m) :=
  mem_methodSet_iff settled

theorem eq_of_id (settled : p.Settled) {m' : Selection} (has : m ∈ p.methodsFor (self d))
    (has' : m' ∈ p.methodsFor (self d)) (same : m.id = m'.id) : m = m' := by
  obtain ⟨_, _, found⟩ := (mem_methodsFor settled).mp has
  obtain ⟨_, _, found'⟩ := (mem_methodsFor settled).mp has'
  rw [same] at found
  exact Option.some.inj (found.unique found')

theorem id_of_exported (settled : p.Settled) (has : m ∈ p.methodsFor (self d))
    (exported : isExported m.name = true) : m.id = ⟨"", m.name⟩ := by
  obtain ⟨_, _, found⟩ := (mem_methodsFor settled).mp has
  obtain ⟨_, ⟨package, name, made⟩, _⟩ := findingAt_method found.2
  have text : m.name = name := by
    rw [Selection.name, made, MemberId.of]
    split <;> rfl
  rw [made, MemberId.of, ← text, if_pos exported]

/-- A method that comes through the base is a method of the base. -/
theorem exists_method_of_base (settled : p.Settled) (base : p.HasBase d b place) {name : MemberId} {depth : Nat}
    (found : p.FoundAt (p.start d) name depth (some m)) (via : m.via? = some place) :
    ∃ k m', depth = k + 1 ∧ p.FoundAt (p.start b) name k (some m') ∧ m'.outline = m.outline := by
  obtain ⟨t, k, rfl, embedded, found⟩ := found.through rfl via
  obtain ⟨t', args, embedded', target, _⟩ := base.exists_embedded
  obtain rfl : t = t' := type_of_place embedded embedded'
  obtain ⟨inner, outer⟩ := base.isInterface settled
  have pointers : (p.start d).indirect = true ∧ (p.start b).indirect = true := by
    simp only [start, inner, outer, Bool.not_false, and_self]
  have same : ((p.start d).into t place).type.bare = (p.start b).type.bare := by
    show t.target.bare = (self b).bare
    rw [target]
    rfl
  obtain ⟨m', found, outline⟩ := found.alike settled same ⟨by simp [Level.into, pointers.1], pointers.2⟩ rfl
  exact ⟨k, m', rfl, found, outline⟩

/-! ### Methods that are listed -/

/-- The callable stands for the method: the two differ in types at most. -/
def Presents (p : Program) (callable : Callable) (m : Selection) : Prop :=
  ∃ (owner : TypeName) (m' : Selection) (abstract : Bool), m'.outline = m.outline ∧
    callable = { p.callable m'.name m'.signature (methodKey owner m') with abstract }

theorem mem_typeInfo_methods {callable : Callable} : callable ∈ (p.typeInfo d).methods ↔
    ∃ m ∈ p.methodsFor (self d), isExported m.name = true ∧
      (m.via? = none ∨ m.via? ≠ (p.base? (self d)).map Prod.snd) ∧
      { p.callable m.name m.signature (methodKey d.id m) with
        abstract := p.kindOf (self d) = .interfaceKind } = callable := by
  show callable ∈ p.describedMethods d.id (self d) ↔ _
  unfold describedMethods
  simp only [List.mem_map, List.mem_mergeSort, List.mem_filter, Bool.and_eq_true, Bool.or_eq_true,
    Option.isNone_iff_eq_none, decide_eq_true_eq, and_assoc]

theorem not_listed (settled : p.Settled) (has : m ∈ p.methodsFor (self d)) (exported : isExported m.name = true)
    (base : p.HasBase d b place) (via : m.via? = some place) :
    ∀ callable ∈ (p.typeInfo d).methods, callable.name ≠ m.name := by
  intro callable listed same
  obtain ⟨m', has', exported', other, rfl⟩ := mem_typeInfo_methods.mp listed
  have same : m'.name = m.name := same
  have id : m'.id = m.id := by
    rw [id_of_exported settled has' exported', id_of_exported settled has exported, same]
  obtain rfl := eq_of_id settled has' has id
  rw [via, base.base?] at other
  rcases other with none | other
  · cases none
  · exact other rfl

theorem exists_listed (has : m ∈ p.methodsFor (self d)) (exported : isExported m.name = true)
    (own : m.via? = none ∨ m.via? ≠ (p.base? (self d)).map Prod.snd) :
    ∃ callable ∈ (p.typeInfo d).methods, callable.name = m.name ∧ p.Presents callable m :=
  ⟨_, mem_typeInfo_methods.mpr ⟨m, has, exported, own, rfl⟩, rfl, d.id, m, _, rfl, rfl⟩

/-! ### Methods that are lost -/

/-- A method of the type comes through a base that is not exported, its own or one of an exported
base. -/
inductive Lost (p : Program) : TypeDef → MemberId → Prop
  | base {d b : TypeDef} {m : Selection} {place : Nat} : m ∈ p.methodsFor (self d) → p.HasBase d b place →
      m.via? = some place → isExported b.id.name = false → Lost p d m.id
  | above {d b : TypeDef} {m : Selection} {place : Nat} : m ∈ p.methodsFor (self d) → p.HasBase d b place →
      m.via? = some place → isExported b.id.name = true → Lost p b m.id → Lost p d m.id

theorem not_lost_of_exported (exported : ∀ b ∈ p.types, isExported b.id.name = true) (name : MemberId) :
    ¬p.Lost d name := by
  intro lost
  induction lost with
  | base _ base _ hidden =>
    rw [exported _ (List.mem_of_find?_eq_some base.declared)] at hidden
    cases hidden
  | above _ _ _ _ _ ih => exact ih

section Described

variable (describes : p.Describes c)
include describes

/-- The chain of a described type starts with it and goes on with the chain of its base. -/
theorem chain_cases (described : d ∈ p.describedTypes) {fuel : Nat} {seen : List String} {i : TypeInfo}
    (member : i ∈ c.chainFrom fuel seen (p.typeInfo d).path) :
    i = (p.typeInfo d).declare ∨
      ∃ r fuel seen, (p.typeInfo d).base? = some r ∧ i ∈ c.chainFrom fuel seen r.path := by
  obtain ⟨named, new, _⟩ := Catalog.lookup?_of_mem_chainFrom member
  cases fuel with
  | zero => cases member
  | succ fuel =>
    rw [Catalog.chainFrom_next named new (describes.holds d described), List.mem_cons] at member
    refine member.imp id fun member => ?_
    have base : (p.typeInfo d).declare.base? = (p.typeInfo d).base? := rfl
    cases above : (p.typeInfo d).base? with
    | none =>
      rw [base, above] at member
      cases member
    | some r =>
      rw [base, above] at member
      exact ⟨r, fuel, _, rfl, member⟩

variable (regular : p.Regular)
include regular

/-- The chain of a type that loses a method does not have it. -/
theorem not_mem_of_lost {name : MemberId} (lost : p.Lost d name) (described : d ∈ p.describedTypes)
    (exported : isExported name.name = true) {fuel : Nat} {seen : List String} {i : TypeInfo}
    (member : i ∈ c.chainFrom fuel seen (p.typeInfo d).path) :
    ∀ callable ∈ i.methods, callable.name ≠ name.name := by
  induction lost generalizing fuel seen i with
  | @base d b m place has base via hidden =>
    rcases chain_cases describes described member with rfl | ⟨r, fuel, seen, found, member⟩
    · exact not_listed regular.settled has exported base via
    · obtain ⟨_, above, absent⟩ := base.absent regular describes hidden
      obtain rfl := Option.some.inj (found.symm.trans above)
      obtain ⟨_, _, _, known⟩ := Catalog.lookup?_of_mem_chainFrom member
      rw [absent] at known
      cases known
  | @above d b m place has base via shown _ ih =>
    rcases chain_cases describes described member with rfl | ⟨r, fuel, seen, found, member⟩
    · exact not_listed regular.settled has exported base via
    · obtain ⟨_, above, path, _⟩ := base.exists_path regular
      obtain rfl := Option.some.inj (found.symm.trans above)
      rw [path] at member
      exact ih (base.isBase regular describes shown).1 exported member

/-- A method that is not lost is in the chain of its type. -/
theorem exists_of_not_lost (described : d ∈ p.describedTypes) {depth : Nat} (bound : depth < p.size + 3)
    (found : p.FoundAt (p.start d) m.id depth (some m)) (exported : isExported m.name = true)
    (kept : ¬p.Lost d m.id) :
    ∃ callable ∈ c.methods (p.typeInfo d).path m.name, p.Presents callable m := by
  induction depth using Nat.strongRecOn generalizing d m with
  | ind depth ih =>
    have here : (p.typeInfo d).declare ∈ c.chain (p.typeInfo d).path := by
      obtain ⟨package, loaded⟩ := exists_packageName described
      refine Catalog.mem_chain_of_lookup? ?_ (describes.holds d described)
      rw [typeInfo_path regular loaded]
      exact (path_ne package d.id.name).1
    have has := (mem_methodsFor regular.settled).mpr ⟨depth, bound, found⟩
    by_cases own : m.via? = none ∨ m.via? ≠ (p.base? (self d)).map Prod.snd
    · obtain ⟨callable, listed, named, presents⟩ := exists_listed has exported own
      exact ⟨callable, Catalog.mem_methods.mpr ⟨_, here, listed, named⟩, presents⟩
    -- The method comes through the base, which has it at one depth less.
    rw [not_or, not_not] at own
    obtain ⟨place, via⟩ := Option.ne_none_iff_exists'.mp own.1
    obtain ⟨b, base⟩ := exists_hasBase (own.2.symm.trans via)
    obtain ⟨k, m', rfl, found', outline⟩ := exists_method_of_base regular.settled base found via
    have shown : isExported b.id.name = true := by
      by_contra hidden
      exact kept (.base has base via (Bool.eq_false_iff.mpr hidden))
    obtain ⟨described', isBase⟩ := base.isBase regular describes shown
    have id : m'.id = m.id := show m'.outline.id = m.outline.id by rw [outline]
    have name : m'.name = m.name := congrArg MemberId.name id
    obtain ⟨callable, returned, owner, m'', abstract, same, rfl⟩ := ih k (by omega) described' (by omega)
      (id ▸ found') (name ▸ exported) fun lost => kept (.above has base via shown (id ▸ lost))
    obtain ⟨i, above, listed, named⟩ := Catalog.mem_methods.mp returned
    have inherited := Catalog.mem_chain_trans (Catalog.mem_chain_of_isBase here isBase) above
    exact ⟨_, Catalog.mem_methods.mpr ⟨i, inherited, listed, named.trans name⟩, owner, m'', abstract,
      same.trans outline, rfl⟩

end Described

/-- The catalog of a program has an exported method of an exported type exactly if the method is not
lost to a base that is not exported. -/
theorem method_shown_iff (regular : p.Regular) (described : p.catalog = .ok c) (type : d ∈ p.describedTypes)
    (has : m ∈ p.methodsFor (self d)) (exported : isExported m.name = true) :
    (∃ callable ∈ c.methods (p.typeInfo d).path m.name, p.Presents callable m) ↔ ¬p.Lost d m.id := by
  have describes := Describes.of_catalog described
  obtain ⟨depth, bound, found⟩ := (mem_methodsFor regular.settled).mp has
  refine ⟨?_, exists_of_not_lost describes regular type bound found exported⟩
  rintro ⟨callable, returned, _⟩ lost
  obtain ⟨i, member, listed, named⟩ := Catalog.mem_methods.mp returned
  exact not_mem_of_lost describes regular lost type exported member callable listed named

/-- A generic box with a lock of another package and a method, a type that embeds a pointer to boxes, and
a type that embeds the second for integers and has a field of a well known type. -/
def boxProgram : Program :=
  let box := "shop/a.Box"
  let middle := "shop/a.Middle"
  let any : Shape := .named "" "any" []
  { loaded := [⟨"shop/a", "a"⟩]
    types :=
      [{ id := ⟨"sync", "Mutex"⟩
         body := .shape (.struct "sync" [{ name := "state" }] [.basic "int32"]) },
        { id := ⟨"time", "Time"⟩
          body := .shape (.struct "time" [{ name := "wall" }] [.basic "uint64"]) },
        { id := ⟨"shop/a", "Box"⟩
          params := [⟨"X", any⟩]
          body := .shape (.struct "shop/a" [{ name := "Mutex", embedded := true }, { name := "item" }]
            [.named "sync" "Mutex" [], .param box "X"]) },
        { id := ⟨"shop/a", "Middle"⟩
          params := [⟨"X", any⟩]
          body := .shape (.struct "shop/a" [{ name := "Box", embedded := true }]
            [.pointer (.named "shop/a" "Box" [.param middle "X"])]) },
        { id := ⟨"shop/a", "T"⟩
          body := .shape (.struct "shop/a" [{ name := "Middle", embedded := true }, { name := "At" }]
            [.named "shop/a" "Middle" [.basic "int"], .named "time" "Time" []]) }]
    methods :=
      [{ receiver := ⟨"sync", "Mutex"⟩, viaPointer := true, name := "Lock", signature := {} },
        { receiver := ⟨"shop/a", "Box"⟩, viaPointer := true, params := ["Y"], name := "Get"
          signature := { results := [.param "shop/a.Box.Get" "Y"] } }] }

theorem boxProgram_regular : boxProgram.Regular where
  settled d member b := by
    have each : ∀ d ∈ boxProgram.types, ∀ b, (d.body.subst b).bare = d.body.bare := by
      simp only [boxProgram, List.forall_mem_cons]
      exact ⟨fun _ => rfl, fun _ => rfl, fun _ => rfl, fun _ => rfl, fun _ => rfl, by simp⟩
    exact each d member b
  names := by decide +kernel
  packages := by decide +kernel
  wellKnown l member name path known := by
    obtain rfl := List.mem_singleton.mp member
    rw [wellKnown_lookup_eq_none (by decide)] at known
    cases known

/-- Methods of a box and of its lock come to a type that embeds boxes at one remove. -/
theorem method_shown_twice_inherited : ∃ c d, boxProgram.Regular ∧ boxProgram.catalog = .ok c ∧
    d ∈ boxProgram.describedTypes ∧ (boxProgram.typeInfo d).path = "a.T" ∧
    (boxProgram.methodsFor (self d)).map Selection.name = ["Get", "Lock"] ∧
    ∀ m ∈ boxProgram.methodsFor (self d),
      ∃ callable ∈ c.methods "a.T" m.name, boxProgram.Presents callable m := by
  obtain ⟨c, described⟩ : ∃ c, boxProgram.catalog = .ok c := by
    -- The order of the types does not matter for their paths.
    refine exists_catalog
      ((List.Perm.map _ (List.Perm.flatMap_left _ fun l _ => List.mergeSort_perm _ _)).nodup_iff.mpr ?_)
    decide +kernel
  let d := boxProgram.types.get ⟨4, by decide +kernel⟩
  have listed : d ∈ boxProgram.describedTypes :=
    mem_describedTypes.mpr ⟨List.get_mem _ _, by decide +kernel, by decide +kernel⟩
  have path : (boxProgram.typeInfo d).path = "a.T" := by decide +kernel
  have names : (boxProgram.methodsFor (self d)).map Selection.name = ["Get", "Lock"] := by decide +kernel
  have exported : ∀ b ∈ boxProgram.types, isExported b.id.name = true := by decide +kernel
  refine ⟨c, d, boxProgram_regular, described, listed, path, names, fun m has => ?_⟩
  have shown : isExported m.name = true := by
    have listed : m.name ∈ ["Get", "Lock"] := names ▸ List.mem_map_of_mem has
    exact (by decide : ∀ name ∈ ["Get", "Lock"], isExported name = true) _ listed
  rw [← path]
  exact (method_shown_iff boxProgram_regular described listed has shown).mpr
    (not_lost_of_exported exported m.id)

/-- A type that embeds a structure that is not exported has the method of the structure, but the
catalog does not. -/
theorem method_lost :
    let p : Program :=
      { loaded := [⟨"shop/a", "a"⟩]
        types :=
          [{ id := ⟨"shop/a", "base"⟩, body := .shape (.struct "shop/a" [] []) },
            { id := ⟨"shop/a", "T"⟩
              body := .shape (.struct "shop/a" [{ name := "base", embedded := true }]
                [.named "shop/a" "base" []]) }]
        methods := [{ receiver := ⟨"shop/a", "base"⟩, name := "Hello", signature := {} }] }
    (p.catalog.toOption.map fun c => p.describedTypes.map fun d =>
        ((p.typeInfo d).path, (p.methodsFor (self d)).map fun m =>
          (m.name, isExported m.name, (c.methods (p.typeInfo d).path m.name).length))) =
      some [("a.T", [("Hello", true, 0)])] := by
  decide +kernel

end TypeEngine.Package.Program
