import Mathlib.Logic.Equiv.Basic
import TypeEngine.Engine.Call
import TypeEngine.Proofs.Engine.Lockstep
import TypeEngine.Proofs.Engine.Neutral
import TypeEngine.Proofs.Scope.Key

/-!
# Generic names in calls of built-in methods

Resolving a call puts the arguments of the receiver into the signature of a method, infers the
generic parameters of the result from the arguments and substitutes again. All of this happens in one
name space. `builtinMethod_rename` says that a renaming of the names that occur in the receiver and in
the arguments renames the answer and changes nothing else in it, if it keeps the names of the method's
own parameters. `builtinMethod_captures` is a call in which such a name is captured.
-/

namespace TypeEngine

variable {ρ κ : String → String}

/-! ### Inference -/

namespace Inference

theorem unifySlots_rename {match_ : Ty → Ty → Subst → Except Fault Subst}
    (each : ∀ d a s, match_ (d.rename ρ) (a.rename ρ) (s.rename ρ ρ) =
      (match_ d a s).map (Subst.rename ρ ρ)) (ds as : List Slot) (s : Subst) :
    unifySlots match_ ((Ty.renameSlots ρ ds).zip (Ty.renameSlots ρ as)) (s.rename ρ ρ) =
      (unifySlots match_ (ds.zip as) s).map (Subst.rename ρ ρ) := by
  induction ds generalizing as s with
  | nil => rfl
  | cons d ds ih =>
    cases as with
    | nil => cases d <;> rfl
    | cons a as =>
      cases d with
      | value name text => cases a <;> exact ih as s
      | type name d =>
        cases a with
        | value name' text => exact ih as s
        | type name' a =>
          simp only [Ty.renameSlots, List.zip_cons_cons, unifySlots]
          rw [each]
          cases match_ d a s with
          | error fault => rfl
          | ok s => exact ih as s

/-- A pattern with parameters in it that is no parameter differs from one in its arguments. -/
theorem mismatch_rename {d : Ty} (a : Ty) (notParam : d.isParam = false)
    (generic : d.params.isEmpty = false) :
    (!((d.rename ρ).main == (a.rename ρ).main) ||
      decide ((d.rename ρ).extra.length ≠ (a.rename ρ).extra.length)) =
    (!(d.main == a.main) || decide (d.extra.length ≠ a.extra.length)) := by
  rw [Ty.extra_rename, Ty.extra_rename, Ty.length_renameSlots, Ty.length_renameSlots,
    Ty.main_rename_of_not notParam]
  cases parameter : a.isParam with
  | false => rw [Ty.main_rename_of_not parameter]
  | true =>
    have none : a.extra = [] := List.isEmpty_iff.mp (Bool.and_eq_true_iff.mp parameter).1
    have some : d.extra ≠ [] := by
      intro none
      obtain ⟨main, extra⟩ := d
      obtain rfl : extra = [] := none
      have notParam : ¬(([] : List Slot).isEmpty && main.isParameter) = true :=
        Bool.eq_false_iff.mp notParam
      have closed : (Ty.mk main []).params = [] := by
        rw [Ty.params, Ty.collectParams, if_neg notParam]
        rfl
      rw [closed] at generic
      cases generic
    simp [none, some]

theorem unify_rename (injective : Function.Injective ρ) (limit : Int) (budget : Nat) (d a : Ty)
    (s : Subst) : unify limit budget (d.rename ρ) (a.rename ρ) (s.rename ρ ρ) =
      (unify limit budget d a s).map (Subst.rename ρ ρ) := by
  induction budget generalizing d a s with
  | zero => rfl
  | succ budget ih =>
    rw [unify, unify]
    simp only [Ty.unwrap_rename]
    generalize d.unwrap = d
    generalize a.unwrap = a
    rw [Ty.isParam_rename, Ty.isEmpty_params_rename, Ty.isList_rename]
    split
    · rename_i parameter
      rw [Ty.leaf_main_rename parameter, Subst.rename_bind injective injective]
      rfl
    rename_i notParam
    split
    · rfl
    rename_i generic
    split
    · rw [Ty.peelOne_rename, Ty.peelOne_rename]
      cases d.peelOne with
      | error v => rfl
      | ok inner =>
        cases a.peelOne with
        | error v => rfl
        | ok elem =>
          cases elem with
          | none => rfl
          | some elem =>
            cases inner with
            | none => exact ih .zero elem s
            | some inner => exact ih inner elem s
    · rw [mismatch_rename a (Bool.eq_false_iff.mpr notParam) (Bool.eq_false_iff.mpr generic)]
      split
      · rfl
      · rw [Ty.extra_rename, Ty.extra_rename]
        exact unifySlots_rename ih d.extra a.extra s

theorem patterns_rename (injective : Function.Injective ρ) (declared actual : List Ty) (limit : Int) :
    patterns (declared.map (Ty.rename ρ)) (actual.map (Ty.rename ρ)) limit =
      (patterns declared actual limit).map (Subst.rename ρ ρ) := by
  have all : ∀ (pairs : List (Ty × Ty)) (s : Subst),
      unifyAll limit (pairs.map (Prod.map (Ty.rename ρ) (Ty.rename ρ))) (s.rename ρ ρ) =
        (unifyAll limit pairs s).map (Subst.rename ρ ρ) := by
    intro pairs
    induction pairs with
    | nil => exact fun s => rfl
    | cons pair pairs ih =>
      intro s
      obtain ⟨d, a⟩ := pair
      simp only [List.map_cons, Prod.map, unifyAll]
      rw [unify_rename injective]
      cases unify limit (limit + 1).toNat d a s with
      | error fault => rfl
      | ok s => exact ih s
  rw [patterns, patterns, List.zip_map, ← all]
  rfl

end Inference

/-! ### Signatures -/

namespace Overload

variable {s : Subst}

/-- The signature with new names for the generic parameters in its types. -/
def rename (ρ : String → String) (o : Overload) : Overload :=
  { o with ret := o.ret.rename ρ, params := o.params.map fun p => { p with type := p.type.rename ρ } }

/-- The types of the result and of the parameters. -/
def types (o : Overload) : List Ty := o.ret :: o.params.map Parameter.type

theorem rename_id (o : Overload) : o.rename id = o := by simp [rename]

theorem rename_congr {o : Overload} (same : ∀ t ∈ o.types, t.rename κ = t.rename ρ) :
    o.rename κ = o.rename ρ := by
  obtain ⟨ret, params⟩ := List.forall_mem_cons.mp same
  have params : ∀ p ∈ o.params, p.type.rename κ = p.type.rename ρ := fun p member =>
    params p.type (List.mem_map_of_mem member)
  rw [rename, rename, ret]
  congr 1
  exact List.map_congr_left fun p member => by rw [params p member]

theorem isVariadic_rename (ρ : String → String) (o : Overload) : (o.rename ρ).isVariadic = o.isVariadic := by
  simp [isVariadic, rename, List.getLast?_map, Option.any_map]

theorem expand_rename (ρ : String → String) (o : Overload) (n : Nat) :
    (o.rename ρ).expand n = (o.expand n).map (Ty.rename ρ) := by
  have last : (o.rename ρ).params.getLast? =
      o.params.getLast?.map fun p => { p with type := p.type.rename ρ } := by
    rw [rename, List.getLast?_map]
  unfold expand
  rw [last]
  cases o.params.getLast? with
  | none => simp [rename, Function.comp_def]
  | some p =>
    simp only [Option.map_some]
    split <;> simp [rename, Function.comp_def]

theorem mem_expand {o : Overload} {n : Nat} {t : Ty} (member : t ∈ o.expand n) :
    ∃ p ∈ o.params, p.type = t := by
  have declared : t ∈ (o.params.map Parameter.type).take n → ∃ p ∈ o.params, p.type = t := fun taken =>
    List.mem_map.mp (List.mem_of_mem_take taken)
  unfold expand at member
  cases last : o.params.getLast? with
  | none =>
    rw [last] at member
    exact declared member
  | some p =>
    rw [last] at member
    dsimp only at member
    split at member
    · rcases List.mem_append.mp member with taken | repeated
      · exact declared taken
      · exact ⟨p, List.mem_of_getLast? last, (List.eq_of_mem_replicate repeated).symm⟩
    · exact declared member

theorem apply_rename (injective : Function.Injective κ) (o : Overload) (limit : Int)
    (unbound : ∀ t ∈ o.types, ∀ x ∈ t.params, s.get? x = none → κ x = ρ x)
    (slots : κ = ρ ∨ ∀ t ∈ o.types, ∀ u ∈ t.parts, (u.extra.map Slot.name).Nodup) :
    (o.rename κ).apply (s.rename κ ρ) limit = (o.apply s limit).map (rename ρ) := by
  have each : ∀ t ∈ o.types, (t.rename κ).apply (s.rename κ ρ) limit =
      (t.apply s limit).map (Ty.rename ρ) := fun t member =>
    t.apply_rename injective limit (unbound t member) (slots.imp_right fun names => names t member)
  rw [apply, apply, Subst.isEmpty_rename]
  split
  · rename_i empty
    refine congrArg Except.ok (rename_congr fun t member => Ty.rename_congr t fun x known => ?_)
    exact unbound t member x known (Subst.get?_of_isEmpty empty x)
  · obtain ⟨ret, params⟩ := List.forall_mem_cons.mp each
    have params : ∀ p ∈ o.params, (p.type.rename κ).apply (s.rename κ ρ) limit =
        (p.type.apply s limit).map (Ty.rename ρ) := fun p member =>
      params p.type (List.mem_map_of_mem member)
    change ((o.ret.rename κ).apply (s.rename κ ρ) limit >>= _) = _
    rw [ret]
    cases o.ret.apply s limit with
    | error fault => rfl
    | ok ret =>
      change ((List.map _ o.params).mapM _ >>= _) = Except.map _ (List.mapM _ o.params >>= _)
      rw [List.mapM_map]
      refine mapM_bind_eq_map (fun p : Parameter => { p with type := p.type.rename ρ })
        (fun p member => ?_) fun params => rfl
      change ((p.type.rename κ).apply (s.rename κ ρ) limit >>= _) = _
      rw [params p member]
      cases p.type.apply s limit <;> rfl

end Overload

/-- The candidate under new names, in the scope of the renamed receiver. -/
def Candidate.rename (ρ : String → String) (scope : Path) (c : Candidate) : Candidate :=
  { c with overload := c.overload.rename ρ, scope }

/-- The parameters that the candidate has once they are inferred from the arguments are in `T`. -/
def Candidate.InferredIn (e : Engine) (T : Ty → Prop) (args : List Ty) (c : Candidate) : Prop :=
  ∀ s o, Inference.patterns (c.overload.expand args.length) args e.maxDepth = .ok s →
    c.overload.apply s e.maxDepth = .ok o → ∀ p ∈ o.params, T p.type

/-- The result under new names. Score, completeness and origin stay. -/
def Resolved.rename (ρ : String → String) (scope : Path) (r : Resolved) : Resolved :=
  { r with overload := r.overload.rename ρ, scope, patterns? := r.patterns?.map (Subst.rename ρ ρ) }

/-! ### Ranking -/

namespace Engine

open Query

variable {e : Engine} {ts : Tables} {T : Ty → Prop}

theorem candidates_rename {overloads : List Overload} {s : Subst} (origin : Origin) (scope scope' : Path)
    (settled : ∀ o ∈ overloads, ∀ t ∈ o.types, t.Settled ρ s) :
    e.candidates overloads (s.rename id ρ) origin scope' =
      (e.candidates overloads s origin scope).map (List.map (Candidate.rename ρ scope')) := by
  refine mapM_eq_map fun o member => ?_
  have applied := o.apply_rename Function.injective_id e.maxDepth
    (fun t inside x known none => ((settled o member t inside).unbound x known none).symm)
    (.inr fun t inside => (settled o member t inside).names)
  rw [o.rename_id] at applied
  rw [applied]
  cases o.apply s e.maxDepth <;> rfl

theorem accepts_tracks (distinct : Distinguished T) (indifferent : Indifferent ρ e ts T)
    (involved : Involved e ts T) {param param' arg arg' : Ty} (params : Twin ρ T param param')
    (args : Twin ρ T arg arg') :
    Tracks ρ True (MemoisedAt e T ts) Eq (e.accepts param arg) (e.accepts param' arg') := by
  have generic := params.shape Ty.isParam_bare (Ty.isParam_rename ρ)
  refine .ite (by rw [generic]) (fun _ => .pure rfl) fun _ => ?_
  refine .bind (compatible_tracks distinct indifferent involved args params) fun c c' same => .pure ?_
  rw [same.ok, same.warning]

theorem leading_tracks (distinct : Distinguished T) (indifferent : Indifferent ρ e ts T)
    (involved : Involved e ts T) {pairs pairs' : List (Ty × Ty)}
    (twins : List.Forall₂ (fun p p' => Twin ρ T p.1 p'.1 ∧ Twin ρ T p.2 p'.2) pairs pairs') :
    Tracks ρ True (MemoisedAt e T ts) Eq (e.leading pairs) (e.leading pairs') := by
  induction twins with
  | nil => exact .pure rfl
  | @cons p p' pairs pairs' pair _ ih =>
    rw [leading, leading]
    refine .bind (accepts_tracks distinct indifferent involved pair.1 pair.2) fun taken taken' same => ?_
    refine .ite (by rw [same]) (fun _ => ?_) fun _ => .pure rfl
    exact .bind ih fun n n' same => .pure (by rw [same])

theorem twins_rename (closed : ∀ t, T t → T (t.rename ρ)) {types : List Ty} (inside : ∀ t ∈ types, T t) :
    List.Forall₂ (Twin ρ T) types (types.map (Ty.rename ρ)) := by
  rw [List.forall₂_map_right_iff, List.forall₂_same]
  exact fun t member => ⟨inside t member, closed t (inside t member), rfl⟩

theorem score_tracks (distinct : Distinguished T) (indifferent : Indifferent ρ e ts T)
    (involved : Involved e ts T) (closed : ∀ t, T t → T (t.rename ρ)) {o : Overload} {args : List Ty}
    (params : ∀ p ∈ o.params, T p.type) (inside : ∀ a ∈ args, T a) :
    Tracks ρ True (MemoisedAt e T ts) Eq (e.score o.params args)
      (e.score (o.rename ρ).params (args.map (Ty.rename ρ))) := by
  have length : (o.rename ρ).params.length = o.params.length := by simp [Overload.rename]
  have variadic : Overload.isVariadic { ret := .zero, params := (o.rename ρ).params } = _ :=
    Overload.isVariadic_rename ρ { ret := .zero, params := o.params }
  have omitted : ((o.rename ρ).params.drop args.length).all canOmit =
      (o.params.drop args.length).all canOmit := by
    rw [Overload.rename, ← List.map_drop, List.all_map]
    rfl
  have expanded : Overload.expand { ret := .zero, params := (o.rename ρ).params } args.length = _ :=
    Overload.expand_rename ρ { ret := .zero, params := o.params } args.length
  have declared : ∀ t ∈ Overload.expand { ret := .zero, params := o.params } args.length, T t := by
    intro t member
    obtain ⟨p, listed, rfl⟩ := Overload.mem_expand member
    exact params p listed
  have pairs := twins_zip (twins_rename closed declared) (twins_rename closed inside)
  unfold score
  rw [List.length_map]
  dsimp only
  rw [length, variadic, omitted, expanded]
  refine .ite Iff.rfl (fun _ => .pure rfl) fun _ => ?_
  refine .ite Iff.rfl (fun _ => .pure rfl) fun _ => ?_
  exact .bind (leading_tracks distinct indifferent involved pairs) fun n n' same => .pure (by rw [same])

theorem resolve_tracks (distinct : Distinguished T) (indifferent : Indifferent ρ e ts T)
    (involved : Involved e ts T) (closed : ∀ t, T t → T (t.rename ρ)) {args : List Ty} {c : Candidate}
    (inside : ∀ a ∈ args, T a) (params : c.InferredIn e T args) (scope : Path) :
    Tracks ρ True (MemoisedAt e T ts) (fun r r' => r' = r.map (Resolved.rename ρ scope))
      (e.resolve args c) (e.resolve (args.map (Ty.rename ρ)) (c.rename ρ scope)) := by
  have found := Inference.patterns_rename indifferent.injective (c.overload.expand args.length) args
    e.maxDepth
  unfold resolve
  rw [Candidate.rename, List.length_map]
  dsimp only
  rw [Overload.expand_rename, found]
  refine .bind (.ofFault_map _ _) fun s _ inferred => ?_
  obtain ⟨inferred, rfl⟩ := inferred
  rw [Overload.apply_rename indifferent.injective c.overload e.maxDepth (fun _ _ _ _ _ => rfl) (.inl rfl)]
  refine .bind (.ofFault_map _ _) fun o _ applied => ?_
  obtain ⟨applied, rfl⟩ := applied
  refine .bind (score_tracks distinct indifferent involved closed (params s o inferred applied) inside)
    fun n n' same => .pure ?_
  subst same
  cases n <;> rfl

theorem keepBest_rename (ρ : String → String) (scope : Path) (best : List Resolved) (r : Resolved) :
    keepBest (best.map (Resolved.rename ρ scope)) (r.rename ρ scope) =
      (keepBest best r).map (Resolved.rename ρ scope) := by
  cases best with
  | nil => rfl
  | cons b best =>
    simp only [List.map_cons, keepBest, Resolved.rename]
    split
    · rfl
    · split
      · simp [Resolved.rename]
      · rfl

/-- The ranking of candidates under new names keeps the same ones, under their new names. -/
theorem rankFrom_tracks (distinct : Distinguished T) (indifferent : Indifferent ρ e ts T)
    (involved : Involved e ts T) (closed : ∀ t, T t → T (t.rename ρ)) {args : List Ty}
    {cands : List Candidate} (inside : ∀ a ∈ args, T a) (params : ∀ c ∈ cands, c.InferredIn e T args)
    (scope : Path) (best : List Resolved) :
    Tracks ρ True (MemoisedAt e T ts) (fun found found' => found' = found.map (Resolved.rename ρ scope))
      (e.rankFrom args cands best)
      (e.rankFrom (args.map (Ty.rename ρ)) (cands.map (Candidate.rename ρ scope))
        (best.map (Resolved.rename ρ scope))) := by
  induction cands generalizing best with
  | nil => exact .pure rfl
  | cons c cands ih =>
    obtain ⟨first, rest⟩ := List.forall_mem_cons.mp params
    rw [List.map_cons, rankFrom, rankFrom]
    refine .bind (resolve_tracks distinct indifferent involved closed inside first scope)
      fun r r' same => ?_
    subst same
    cases r with
    | none => exact ih rest best
    | some r =>
      rw [Option.map_some]
      dsimp only
      rw [keepBest_rename]
      exact ih rest (keepBest best r)

end Engine

/-! ### The built-in methods -/

namespace Builtin

variable {t : Ty} {name : String}

/-- The signatures that a call of `name` can mean. -/
def offered (receiver : Ty) (name : String) : List Overload :=
  if (methodsOf receiver name).isEmpty then objectMethods name else methodsOf receiver name

theorem receiver_primitive : ∀ m ∈ methods, ∃ n : String, Path.mark ∉ n.toList ∧
    m.receiver = (Path.ofPrimitive n).key := by
  have listed : ∀ m ∈ methods, ∃ n ∈ "object" :: "list" :: primitives.map Primitive.name,
      Path.mark ∉ n.toList ∧ m.receiver = (Path.ofPrimitive n).key := by decide +kernel
  intro m member
  obtain ⟨n, _, plain⟩ := listed m member
  exact ⟨n, plain⟩

theorem methodsOf_rename (ρ : String → String) (t : Ty) (name : String) :
    methodsOf (t.rename ρ) name = methodsOf t name := by
  unfold methodsOf
  refine congrArg (List.map Method.overload) (List.filter_congr fun m member => ?_)
  obtain ⟨n, plain, key⟩ := receiver_primitive m member
  have belongs : ∀ u : Ty, m.receiver = u.main.key ↔ (u.main == .ofPrimitive n) = true := by
    intro u
    rw [key, eq_comm]
    exact Path.key_eq_single_iff plain
  simp only [belongs, Ty.beq_ofPrimitive_rename]

theorem offered_rename (ρ : String → String) (t : Ty) (name : String) :
    offered (t.rename ρ) name = offered t name := by
  rw [offered, offered, methodsOf_rename]

theorem methods_params : ∀ m ∈ methods, ∀ t ∈ m.overload.types, ∀ x ∈ t.params,
    x ∈ m.overload.genericNames ∨ x = "T" ∧ m.receiver = (Path.ofPrimitive "list").key := by
  decide +kernel

theorem methods_slots : ∀ m ∈ methods, ∀ t ∈ m.overload.types, ∀ u ∈ t.parts,
    (u.extra.map Slot.name).Nodup := by
  decide +kernel

theorem mem_offered {o : Overload} (member : o ∈ offered t name) : ∃ m ∈ methods, m.overload = o ∧
    (m.receiver = t.main.key ∨ m.receiver = (Path.ofPrimitive "object").key) := by
  have of : ∀ u : Ty, o ∈ methodsOf u name → ∃ m ∈ methods, m.overload = o ∧ m.receiver = u.main.key := by
    intro u member
    obtain ⟨m, kept, same⟩ := List.mem_map.mp member
    obtain ⟨listed, taken⟩ := List.mem_filter.mp kept
    exact ⟨m, listed, same, of_decide_eq_true (Bool.and_eq_true_iff.mp taken).1⟩
  unfold offered at member
  split at member
  · obtain ⟨m, listed, same, key⟩ := of .object member
    exact ⟨m, listed, same, .inr key⟩
  · obtain ⟨m, listed, same, key⟩ := of t member
    exact ⟨m, listed, same, .inl key⟩

theorem offered_settled {s : Option Subst} (args : shapeArgs t = .ok s)
    (own : ∀ o ∈ offered t name, ∀ x ∈ o.genericNames, ρ x = x) :
    ∀ o ∈ offered t name, ∀ u ∈ o.types, u.Settled ρ (s.getD .empty) := by
  intro o member u inside
  obtain ⟨m, listed, rfl, receiver⟩ := mem_offered member
  refine ⟨fun x known none => ?_, methods_slots m listed u inside⟩
  rcases methods_params m listed u inside x known with generic | ⟨rfl, ofList⟩
  · exact own _ member x generic
  · -- the receiver is a list, which binds this parameter
    have key : t.main.key = (Path.ofPrimitive "list").key := by
      rcases receiver with same | object
      · rw [← same, ofList]
      · rw [ofList] at object
        exact absurd object (by decide)
    have list : t.isList = true := (Path.key_eq_single_iff (by decide)).mp key
    have bound := get?_shapeArgs (by rw [list, Bool.true_or]) args
    rw [none] at bound
    cases bound

end Builtin

namespace Engine

open Query

variable {e : Engine} {ts : Tables} {T : Ty → Prop} {receiver : Ty} {name : String} {args : List Ty}

/-- The types that a call of a built-in method compares are in `T`: the arguments, and the parameters
of every signature that is offered. -/
structure Compares (e : Engine) (T : Ty → Prop) (receiver : Ty) (name : String) (args : List Ty) :
    Prop where
  inside : ∀ a ∈ args, T a
  params : ∀ shape cands, Builtin.shapeArgs receiver = .ok shape →
    e.candidates (Builtin.offered receiver name) (shape.getD .empty) .builtin receiver.main =
      .ok cands → ∀ c ∈ cands, c.InferredIn e T args

theorem builtinMethod_tracks (distinct : Distinguished T) (indifferent : Indifferent ρ e ts T)
    (involved : Involved e ts T) (closed : ∀ t, T t → T (t.rename ρ))
    (own : ∀ o ∈ Builtin.offered receiver name, ∀ x ∈ o.genericNames, ρ x = x)
    (compares : e.Compares T receiver name args) :
    Tracks ρ True (MemoisedAt e T ts)
      (fun found found' => found' = found.map (Resolved.rename ρ (receiver.rename ρ).main))
      (e.builtinMethod receiver name args)
      (e.builtinMethod (receiver.rename ρ) name (args.map (Ty.rename ρ))) := by
  change Tracks _ _ _ _ (ofViolation (Builtin.shapeArgs receiver) >>= fun s =>
      e.rankDeclared (Builtin.offered receiver name) (s.getD .empty) .builtin receiver.main args)
    (ofViolation (Builtin.shapeArgs (receiver.rename ρ)) >>= fun s =>
      e.rankDeclared (Builtin.offered (receiver.rename ρ) name) (s.getD .empty) .builtin
        (receiver.rename ρ).main (args.map (Ty.rename ρ)))
  rw [Builtin.shapeArgs_rename, Builtin.offered_rename]
  cases shape : Builtin.shapeArgs receiver with
  | error v => exact .bind (R := fun _ _ => False) (.ofViolation (.error (.refl _))) (fun _ _ no => no.elim)
  | ok s =>
    have bound : (s.map (Subst.rename id ρ)).getD .empty = (s.getD .empty).rename id ρ := by
      cases s <;> rfl
    have cands := candidates_rename (e := e) .builtin receiver.main (receiver.rename ρ).main
      (Builtin.offered_settled shape own)
    refine .bind (.ofViolation (R := fun a b => a = s ∧ b = s.map (Subst.rename id ρ)) (.ok ⟨rfl, rfl⟩))
      fun _ _ same => ?_
    obtain ⟨rfl, rfl⟩ := same
    unfold rankDeclared
    rw [bound, cands]
    refine .bind (.ofFault_map _ _) fun found _ same => ?_
    obtain ⟨listed, rfl⟩ := same
    exact rankFrom_tracks distinct indifferent involved closed compares.inside
      (compares.params _ found shape listed) _ []

/-- A call of a built-in method under new names has the results of the call, under the new names, if the
renaming keeps the names of the method's own parameters: the same signatures in the same order, with
the same scores. It fails where the call fails. -/
theorem builtinMethod_rename {s s' : Session} (injective : Function.Injective ρ)
    (own : ∀ o ∈ Builtin.offered receiver name, ∀ x ∈ o.genericNames, ρ x = x)
    (distinct : Distinguished T) (involved : Involved e ts T) (neutral : Neutral ρ e ts T)
    (closed : ∀ t, T t → T (t.rename ρ)) (compares : e.Compares T receiver name args)
    (at_ : MemoisedAt e T ts s) (at_' : MemoisedAt e T ts s') :
    (∀ found, ((e.builtinMethod receiver name args).run s).1 = .ok found →
      ((e.builtinMethod (receiver.rename ρ) name (args.map (Ty.rename ρ))).run s').1 =
        .ok (found.map (Resolved.rename ρ (receiver.rename ρ).main))) ∧
    ∀ fault, ((e.builtinMethod receiver name args).run s).1 = .error fault → ∃ fault',
      ((e.builtinMethod (receiver.rename ρ) name (args.map (Ty.rename ρ))).run s').1 = .error fault' ∧
        fault.Matches ρ fault' := by
  have follows := builtinMethod_tracks distinct (neutral.indifferent injective) involved closed own
    compares s s' at_ at_'
  generalize (e.builtinMethod receiver name args).run s = left at follows ⊢
  generalize (e.builtinMethod (receiver.rename ρ) name (args.map (Ty.rename ρ))).run s' = right
    at follows ⊢
  cases follows with
  | answer same _ _ =>
    refine ⟨fun found answer => ?_, fun fault answer => ?_⟩
    · obtain rfl := Except.ok.inj answer
      rw [same]
    · cases answer
  | fault same _ =>
    refine ⟨fun found answer => ?_, fun fault answer => ?_⟩
    · cases answer
    · obtain rfl := Except.error.inj answer
      exact ⟨_, rfl, same⟩
  | spared one _ => exact absurd trivial one

end Engine

/-- A converter from `x` to `A`. -/
def Ty.converter (x : String) : Ty := .func (.classNamed "A") [.param x]

/-- What a conversion of a list of `T` or `U` compares, with the parts of it. -/
def converterTypes : List Ty :=
  [.converter "T", .converter "U", .classNamed "A", .param "T", .param "U"]

theorem mem_converterTypes {t : Ty} : t ∈ converterTypes ↔ t = .converter "T" ∨ t = .converter "U" ∨
    t = .classNamed "A" ∨ t = .param "T" ∨ t = .param "U" := by
  simp [converterTypes]

/-- Without declarations these types have no supertypes and no conversions. -/
theorem converterTypes_plain : ∀ t ∈ converterTypes, t.unwrap = t ∧
    Engine.lookupSupertypes {} {} t = .ok [] ∧ Tables.conversionEdges {} t = [] ∧
    Engine.hostInfo {} t = .ok none ∧ t.components = .ok [] ∧ t.peelOne = .ok none ∧
    t.peelList = .ok (0, t) := by
  intro t member
  rcases mem_converterTypes.mp member with rfl | rfl | rfl | rfl | rfl <;>
    exact ⟨rfl, rfl, rfl, rfl, rfl, rfl, rfl⟩

theorem converterTypes_involved : Involved {} {} (· ∈ converterTypes) where
  unwrap t member := by rwa [(converterTypes_plain t member).1]
  supertypes t found member answer := by
    rw [(converterTypes_plain t member).2.1] at answer
    obtain rfl := Except.ok.inj answer
    simp
  edges t member := by simp [(converterTypes_plain t member).2.2.1]
  components t parts member answer := by
    rw [(converterTypes_plain t member).2.2.2.2.1] at answer
    obtain rfl := Except.ok.inj answer
    simp
  funcParts t ret params member answer := by
    rcases mem_converterTypes.mp member with rfl | rfl | rfl | rfl | rfl
    · obtain ⟨rfl, rfl⟩ := Prod.mk.inj (Option.some.inj (Except.ok.inj answer))
      simp [converterTypes]
    · obtain ⟨rfl, rfl⟩ := Prod.mk.inj (Option.some.inj (Except.ok.inj answer))
      simp [converterTypes]
    all_goals cases Except.ok.inj answer
  peelOne t elem member answer := by
    rw [(converterTypes_plain t member).2.2.2.2.2.1] at answer
    cases Except.ok.inj answer
  peelList t depth leaf member answer := by
    rw [(converterTypes_plain t member).2.2.2.2.2.2] at answer
    obtain ⟨_, rfl⟩ := Prod.mk.inj (Except.ok.inj answer)
    exact member

theorem converterTypes_neutral (ρ : String → String) : Neutral ρ {} {} (· ∈ converterTypes) where
  undeclared _ _ := rfl
  primitives t member := by
    rcases mem_converterTypes.mp member with rfl | rfl | rfl | rfl | rfl <;> decide
  declared _ _ _ found := by cases found
  hosted t info member found := by
    rw [(converterTypes_plain t member).2.2.2.1] at found
    cases Except.ok.inj found
  conversions t member := by simp [(converterTypes_plain t member).2.2.1]

theorem converterTypes_compares :
    Engine.Compares {} (· ∈ converterTypes) (.layered 1 (.param "T")) "ConvertAll" [.converter "T"] where
  inside := by simp [converterTypes]
  params shape cands found listed c member s o inferred applied p declared := by
    obtain rfl := Except.ok.inj found
    obtain rfl := Except.ok.inj listed
    obtain rfl := List.mem_singleton.mp member
    obtain rfl := Except.ok.inj inferred
    obtain rfl := Except.ok.inj applied
    obtain rfl := List.mem_singleton.mp declared
    exact .head _

/-- The conversion of a list of `x` by a converter to `A`, with the bindings that it infers. -/
def conversionOf (x : String) (s : Subst) : Resolved :=
  { overload :=
      { restrictions := [{ name := "TOut" }]
        ret := .layered 1 (.classNamed "A")
        params := [{ type := .converter x, name := "converter" }] }
    score := 1
    complete := true
    origin := .builtin
    scope := .ofPrimitive "list"
    patterns? := some s }

theorem builtinMethod_rename_conversion :
    ((Engine.builtinMethod {} (.layered 1 (.param "T")) "ConvertAll" [.converter "T"]).run {}).1 =
      .ok [conversionOf "T" ⟨[("TOut", .classNamed "A"), ("T", .param "T")]⟩] ∧
    ((Engine.builtinMethod {} (.layered 1 (.param "U")) "ConvertAll" [.converter "U"]).run {}).1 =
      .ok [conversionOf "U" ⟨[("TOut", .classNamed "A"), ("U", .param "U")]⟩] := by
  have answer : ((Engine.builtinMethod {} (.layered 1 (.param "T")) "ConvertAll"
      [.converter "T"]).run {}).1 =
        .ok [conversionOf "T" ⟨[("TOut", .classNamed "A"), ("T", .param "T")]⟩] := rfl
  have own : ∀ o ∈ Builtin.offered (.layered 1 (.param "T")) "ConvertAll", ∀ x ∈ o.genericNames,
      Equiv.swap "T" "U" x = x := by decide +kernel
  have closed : ∀ t ∈ converterTypes, t.rename (Equiv.swap "T" "U") ∈ converterTypes := by
    intro t member
    rcases mem_converterTypes.mp member with rfl | rfl | rfl | rfl | rfl
    · exact .tail _ (.head _)
    · exact .head _
    · exact .tail _ (.tail _ (.head _))
    · exact .tail _ (.tail _ (.tail _ (.tail _ (.head _))))
    · exact .tail _ (.tail _ (.tail _ (.head _)))
  exact ⟨answer, (Engine.builtinMethod_rename (Equiv.swap "T" "U").injective own
    (.ofList (by decide)) converterTypes_involved (converterTypes_neutral _) closed
    converterTypes_compares (.start {} _ rfl) (.start {} _ rfl)).1 _ answer⟩

/-- The method's own parameter is called `TOut`. In a list of another `TOut` the two are one: the
converter is rejected that fits a list of `U`. -/
theorem builtinMethod_captures :
    Function.Injective (Equiv.swap "TOut" "U") ∧
    (Ty.layered 1 (.param "TOut")).rename (Equiv.swap "TOut" "U") = .layered 1 (.param "U") ∧
    (Ty.func .int [.param "TOut"]).rename (Equiv.swap "TOut" "U") = .func .int [.param "U"] ∧
    ((Engine.builtinMethod {} (.layered 1 (.param "TOut")) "ConvertAll"
      [.func .int [.param "TOut"]]).run {}).1.map (List.map fun r => (r.score, r.complete)) =
        .ok [(0, false)] ∧
    ((Engine.builtinMethod {} (.layered 1 (.param "U")) "ConvertAll"
      [.func .int [.param "U"]]).run {}).1.map (List.map fun r => (r.score, r.complete)) =
        .ok [(1, true)] :=
  ⟨(Equiv.swap "TOut" "U").injective, rfl, rfl, rfl, rfl⟩

end TypeEngine
