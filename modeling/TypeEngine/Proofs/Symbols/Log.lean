import Mathlib.Data.List.DropRight
import TypeEngine.Proofs.Firsts
import TypeEngine.Proofs.Scope.Key
import TypeEngine.Proofs.Symbols.Registration

/-!
# Tables and the log of registrations

What the symbol tables answer follows from the list of calls since the last reset (`run_mirrors`).
Each table is a fold over the entries that the calls file in it (`Tracked.run`), so that a lookup can
be read off the log: the first record of a name, every overload in order, each interface once.
-/

namespace TypeEngine

/-! ### Calls and the log -/

/-- A call on the tables: a registration, or the memoising of an answer. -/
inductive TableCall where
  | register (r : Registration)
  | memoise (src dst : Ty) (way : Reachability)

namespace TableCall

def apply (ts : Tables) : TableCall → Tables
  | register r => ts.register r
  | memoise src dst way => ts.storeClosure src dst way

def registration? : TableCall → Option Registration
  | register r => some r
  | memoise .. => none

def isReset : TableCall → Bool
  | register .reset => true
  | _ => false

end TableCall

namespace Registration

/-- The path under which a call files its record. -/
def path? : Registration → Option Path
  | declareType decl => some decl.path
  | addProperty path _ | addConstant path _ | addEnumConstant path _ | declareVariable path _
  | addFunction path _ _ | addConstructor path _ | addIndexer path _ | addInterface path _ => some path
  | addUnary operand _ _ | addBinary operand _ _ => some operand.main
  | reset | addConversion .. => none

def Plain (r : Registration) : Prop := ∀ p ∈ r.path?, p.Plain

/-! The record that a call brings to each table, if it brings one. -/

def typeDecl? : Registration → Option TypeDecl
  | declareType decl => some decl
  | _ => none

def property? : Registration → Option Property
  | addProperty _ p => some p
  | _ => none

def constant? : Registration → Option Constant
  | addConstant _ k => some k
  | _ => none

def enumConstant? : Registration → Option EnumConstant
  | addEnumConstant _ k => some k
  | _ => none

def localVariable? : Registration → Option Variable
  | declareVariable _ v => some v
  | _ => none

def function? : Registration → Option (String × Overload)
  | addFunction _ name o => some (name, o)
  | _ => none

def constructor? : Registration → Option Overload
  | addConstructor _ o => some o
  | _ => none

def indexer? : Registration → Option Overload
  | addIndexer _ o => some o
  | _ => none

def unary? : Registration → Option (String × Overload)
  | addUnary _ op o => some (op, o)
  | _ => none

def binary? : Registration → Option (String × Overload)
  | addBinary _ op o => some (op, o)
  | _ => none

def interface? : Registration → Option Ty
  | addInterface _ iface => some iface
  | _ => none

/-- The record of a call with the path under which it is filed. -/
def item? {α : Type} (record? : Registration → Option α) (r : Registration) : Option (Path × α) :=
  r.path?.bind fun path => (record? r).map (path, ·)

end Registration

/-- No parameter but the last one is variadic. -/
def Overload.VariadicLast (o : Overload) : Prop := ∀ p ∈ o.params.dropLast, p.flags.variadic = false

instance (o : Overload) : Decidable o.VariadicLast :=
  inferInstanceAs (Decidable (∀ p ∈ o.params.dropLast, _))

theorem Overload.misplaced?_eq_none {o : Overload} : o.misplaced? = none ↔ o.VariadicLast := by
  simp [misplaced?, VariadicLast]

/-- The records of the entries at a path, in order. -/
def brought {α : Type} (entries : List (Path × α)) (path : Path) : List α :=
  (entries.filter (·.1 == path)).map Prod.snd

/-- The records that the calls of a log bring for a path, in order. -/
def recordsAt {α : Type} (record? : Registration → Option α) (log : List Registration) (path : Path) :
    List α :=
  brought (log.filterMap (·.item? record?)) path

/-- The overloads that the calls of a log bring for a path and a name, without those that no table
takes. -/
def overloadsAt (record? : Registration → Option (String × Overload)) (log : List Registration)
    (path : Path) (name : String) : List Overload :=
  ((recordsAt record? log path).filter fun (n, o) => n = name && o.VariadicLast).map Prod.snd

/-- Properties with their positions as indexes. -/
def numbered (ps : List Property) : List Property := ps.mapIdx fun i p => { p with index := i }

/-- The call comes too late or cannot be taken: what it declares has been declared, or its overload
has a variadic parameter before the last one. -/
def Registration.Refused (log : List Registration) : Registration → Prop
  | declareType decl => recordsAt typeDecl? log decl.path ≠ []
  | addProperty path p => ∃ q ∈ recordsAt property? log path, q.name = p.name
  | addConstant path k => ∃ q ∈ recordsAt constant? log path, q.name = k.name
  | addEnumConstant path k => ∃ q ∈ recordsAt enumConstant? log path, q.name = k.name
  | declareVariable path v => ∃ q ∈ recordsAt localVariable? log path, q.name = v.name
  | addFunction _ _ o | addConstructor _ o | addIndexer _ o | addUnary _ _ o | addBinary _ _ o =>
    ¬o.VariadicLast
  | reset | addInterface .. | addConversion .. => False

namespace Tables

variable {ts : Tables} {r : Registration}

/-- The tables after calls from the start. -/
def run (calls : List TableCall) : Tables := calls.foldl TableCall.apply {}

/-- The registrations since the last reset. -/
def sinceReset (calls : List TableCall) : List Registration :=
  (calls.rtakeWhile (!·.isReset)).filterMap TableCall.registration?

theorem sinceReset_concat (calls : List TableCall) (c : TableCall) :
    sinceReset (calls ++ [c]) = if c.isReset then [] else sinceReset calls ++ c.registration?.toList := by
  rw [sinceReset, List.rtakeWhile_concat]
  cases c.isReset with
  | true => rfl
  | false =>
    rw [sinceReset, if_pos (by rfl), if_neg (by simp), List.filterMap_append]
    cases c <;> rfl

/-- A part of the tables that calls only change by the entries they bring to it. -/
structure Tracked {σ ε : Type} (part : Tables → σ) (start : σ) (item? : Registration → Option ε)
    (put : σ → ε → σ) : Prop where
  fresh : part {} = start
  reset : ∀ ts : Tables, part (ts.register .reset) = start
  step : ∀ (ts : Tables) r, r ≠ .reset → part (ts.register r) = (item? r).elim (part ts) (put (part ts))
  memoise : ∀ (ts : Tables) src dst way, part (ts.storeClosure src dst way) = part ts

theorem Tracked.run {σ ε : Type} {part : Tables → σ} {start : σ} {item? : Registration → Option ε}
    {put : σ → ε → σ} (tracked : Tracked part start item? put) (calls : List TableCall) :
    part (run calls) = ((sinceReset calls).filterMap item?).foldl put start := by
  induction calls using List.reverseRecOn with
  | nil => exact tracked.fresh
  | append_singleton calls c ih =>
    rw [Tables.run, List.foldl_append, List.foldl_cons, List.foldl_nil, ← Tables.run, sinceReset_concat]
    cases c with
    | memoise src dst way =>
      rw [TableCall.apply, tracked.memoise, ih]
      simp [TableCall.isReset, TableCall.registration?]
    | register r =>
      by_cases reset : r = .reset
      · subst reset
        exact tracked.reset _
      · have kept : (TableCall.register r).isReset = false := by
          cases r <;> first | rfl | exact absurd rfl reset
        rw [TableCall.apply, tracked.step _ _ reset, ih, kept]
        cases entry : item? r with
        | none => simp [TableCall.registration?, entry]
        | some e => simp [TableCall.registration?, entry, List.filterMap_append]

/-! ### Records that are filed once -/

section Once

variable {α β : Type} {same : α → α → Bool} {stamp : Nat → α → α}

/-- Files a record, with a stamp for its position, unless one that is the same is there. -/
def putOnce (same : α → α → Bool) (stamp : Nat → α → α) (table : List (Filed α)) (e : Path × α) :
    List (Filed α) :=
  if (under table e.1).any (same · e.2) then table
  else table ++ [⟨e.1.key, stamp (under table e.1).length e.2⟩]

theorem brought_concat {e : Path × α} {path : Path} (own : e.1.Plain) (target : path.Plain)
    (entries : List (Path × α)) :
    brought (entries ++ [e]) path = brought entries path ++ if e.1.key = path.key then [e.2] else [] := by
  by_cases here : e.1.key = path.key
  · simp [brought, here, Path.beq_of_key_eq own target here]
  · have other : ¬(e.1 == path) = true := fun equal => here (Path.key_congr (Path.beq_iff_bare.mp equal))
    simp [brought, here, other]

theorem under_concat (table : List (Filed α)) (p path : Path) (x : α) :
    under (table ++ [⟨p.key, x⟩]) path = under table path ++ if p.key = path.key then [x] else [] := by
  by_cases here : p.key = path.key <;> simp [under, here]

theorem mapIdx_self (xs : List α) : xs.mapIdx (fun _ x => x) = xs :=
  List.ext_getElem (by simp) (by simp)

theorem any_mapIdx {view : α → β} (views : ∀ x y, same x y = true ↔ view x = view y)
    (stamps : ∀ n x, view (stamp n x) = view x) (xs : List α) (y : α) :
    (xs.mapIdx stamp).any (same · y) = xs.any (same · y) := by
  induction xs using List.reverseRecOn with
  | nil => rfl
  | append_singleton xs x ih =>
    have alike : same (stamp xs.length x) y = same x y := by
      rw [Bool.eq_iff_iff, views, views, stamps]
    rw [List.mapIdx_concat, List.any_append, List.any_append, ih, List.any_cons, List.any_cons, alike]

/-- The records of a path are the first ones that were brought for it. -/
theorem under_foldl_putOnce {view : α → β} (views : ∀ x y, same x y = true ↔ view x = view y)
    (stamps : ∀ n x, view (stamp n x) = view x) {entries : List (Path × α)}
    (plain : ∀ e ∈ entries, e.1.Plain) {path : Path} (target : path.Plain) :
    under (entries.foldl (putOnce same stamp) []) path =
      (firsts same (brought entries path)).mapIdx stamp := by
  induction entries using List.reverseRecOn generalizing path with
  | nil => rfl
  | append_singleton entries e ih =>
    rw [List.forall_mem_append] at plain
    have ih := fun {path : Path} (target : path.Plain) => ih plain.1 target
    have own : e.1.Plain := plain.2 e (by simp)
    rw [List.foldl_append, List.foldl_cons, List.foldl_nil, brought_concat own target]
    generalize entries.foldl (putOnce same stamp) [] = table at ih ⊢
    by_cases here : e.1.key = path.key
    · have records : under table e.1 = under table path := by rw [under, under, here]
      rw [if_pos here, firsts_concat, putOnce, records, ih target, any_mapIdx views stamps,
        any_firsts views]
      split
      · exact ih target
      · rw [under_concat, if_pos here, ih target, List.mapIdx_concat, List.length_mapIdx]
    · rw [if_neg here, List.append_nil, putOnce]
      split
      · exact ih target
      · rw [under_concat, if_neg here, List.append_nil, ih target]

end Once

/-! ### Overloads -/

/-- Files an overload that tables take. -/
def putOverload (table : List (Filed Overload)) (e : Path × Overload) : List (Filed Overload) :=
  if e.2.VariadicLast then table ++ [⟨e.1.key, e.2⟩] else table

/-- Files an overload that tables take, by its name. -/
def putSignature (table : List Signature) (e : Path × String × Overload) : List Signature :=
  if e.2.2.VariadicLast then table ++ [{ key := e.1.key, name := e.2.1, overload := e.2.2 }] else table

theorem under_foldl_putOverload {entries : List (Path × Overload)} (plain : ∀ e ∈ entries, e.1.Plain)
    {path : Path} (target : path.Plain) :
    under (entries.foldl putOverload []) path = (brought entries path).filter (·.VariadicLast) := by
  induction entries using List.reverseRecOn with
  | nil => rfl
  | append_singleton entries e ih =>
    rw [List.forall_mem_append] at plain
    have own : e.1.Plain := plain.2 e (by simp)
    rw [List.foldl_append, List.foldl_cons, List.foldl_nil, brought_concat own target, List.filter_append,
      ← ih plain.1, putOverload]
    by_cases here : e.1.key = path.key
    · rw [if_pos here]
      by_cases taken : e.2.VariadicLast <;> simp [taken, under_concat, here]
    · rw [if_neg here]
      by_cases taken : e.2.VariadicLast <;> simp [taken, under_concat, here]

theorem signatures_foldl_putSignature {entries : List (Path × String × Overload)}
    (plain : ∀ e ∈ entries, e.1.Plain) {path : Path} (target : path.Plain) (name : String) :
    signatures (entries.foldl putSignature []) path.key name =
      ((brought entries path).filter fun (n, o) => n = name && o.VariadicLast).map Prod.snd := by
  induction entries using List.reverseRecOn with
  | nil => rfl
  | append_singleton entries e ih =>
    rw [List.forall_mem_append] at plain
    have own : e.1.Plain := plain.2 e (by simp)
    rw [List.foldl_append, List.foldl_cons, List.foldl_nil, brought_concat own target, List.filter_append,
      List.map_append, ← ih plain.1, putSignature]
    by_cases here : e.1.key = path.key
    · rw [if_pos here]
      by_cases taken : e.2.2.VariadicLast <;> by_cases called : e.2.1 = name <;>
        simp [signatures, taken, called, here]
    · rw [if_neg here]
      by_cases taken : e.2.2.VariadicLast <;> simp [signatures, taken, here]

/-! ### What each call changes -/

section Steps

variable {ts next : Tables} {taken : Bool} {refusal : Refusal} {o : Overload} {write : Overload → Tables}

theorem settle_once : ts.settle (if taken then .error refusal else .ok next) = if taken then ts else next := by
  cases taken <;> rfl

theorem settle_checked :
    ts.settle (do return write (← checked o)) = if o.VariadicLast then write o else ts := by
  unfold checked
  cases found : o.misplaced? with
  | none =>
    rw [if_pos (Overload.misplaced?_eq_none.mp found)]
    rfl
  | some p =>
    have late : ¬o.VariadicLast := fun last => by
      rw [Overload.misplaced?_eq_none.mpr last] at found
      cases found
    rw [if_neg late]
    rfl

/-- How a registration other than a reset changes each table: by the entry that it brings. -/
structure Follows (ts : Tables) (r : Registration) (next : Tables) : Prop where
  types : next.types = (r.item? Registration.typeDecl?).elim ts.types
    (putOnce (fun _ _ => true) (fun _ d => d) ts.types) := by rfl
  properties : next.properties = (r.item? Registration.property?).elim ts.properties
    (putOnce (·.name = ·.name) (fun i p => { p with index := i }) ts.properties) := by rfl
  constants : next.constants = (r.item? Registration.constant?).elim ts.constants
    (putOnce (·.name = ·.name) (fun _ k => k) ts.constants) := by rfl
  enumConstants : next.enumConstants = (r.item? Registration.enumConstant?).elim ts.enumConstants
    (putOnce (·.name = ·.name) (fun _ k => k) ts.enumConstants) := by rfl
  locals : next.locals = (r.item? Registration.localVariable?).elim ts.locals
    (putOnce (·.name = ·.name) (fun _ v => v) ts.locals) := by rfl
  functions : next.functions = (r.item? Registration.function?).elim ts.functions
    (putSignature ts.functions) := by rfl
  constructors : next.constructors = (r.item? Registration.constructor?).elim ts.constructors
    (putOverload ts.constructors) := by rfl
  indexers : next.indexers = (r.item? Registration.indexer?).elim ts.indexers
    (putOverload ts.indexers) := by rfl
  unary : next.unary = (r.item? Registration.unary?).elim ts.unary
    (putSignature ts.unary) := by rfl
  binary : next.binary = (r.item? Registration.binary?).elim ts.binary
    (putSignature ts.binary) := by rfl
  interfaces : next.interfaces = (r.item? Registration.interface?).elim ts.interfaces
    (putOnce (· == ·) (fun _ t => t) ts.interfaces) := by rfl

/-- A call that is refused if something is known follows from its two cases. -/
theorem follows_once {α : Type} {p : α → Bool} {known : List α}
    (call : ts.register r = ts.settle (if (known.find? p).isSome then .error refusal else .ok next))
    (refused : known.any p = true → ts.Follows r ts) (taken : ¬known.any p = true → ts.Follows r next) :
    ts.Follows r (ts.register r) := by
  rw [call, List.isSome_find?, settle_once]
  split <;> rename_i h
  · exact refused h
  · exact taken h

theorem follows_checked (call : ts.register r = ts.settle (do return write (← checked o)))
    (taken : o.VariadicLast → ts.Follows r (write o)) (refused : ¬o.VariadicLast → ts.Follows r ts) :
    ts.Follows r (ts.register r) := by
  rw [call, settle_checked]
  split <;> rename_i h
  · exact taken h
  · exact refused h

theorem register_follows (ts : Tables) (kept : r ≠ .reset) :
    ts.Follows r (ts.register r) := by
  cases r with
  | reset => exact absurd rfl kept
  | declareType decl =>
    change ts.Follows _ (ts.settle (if (ts.type? decl.path).isSome then _ else _))
    have known : (ts.type? decl.path).isSome = (under ts.types decl.path).any (fun _ => true) := by
      rw [type?]
      cases under ts.types decl.path <;> rfl
    rw [settle_once, known]
    split <;> rename_i h
    · exact { types := (if_pos h).symm }
    · exact { types := (if_neg h).symm }
  | addProperty path p =>
    exact follows_once rfl (fun h => { properties := (if_pos h).symm })
      fun h => { properties := (if_neg h).symm }
  | addConstant path k =>
    exact follows_once rfl (fun h => { constants := (if_pos h).symm })
      fun h => { constants := (if_neg h).symm }
  | addEnumConstant path k =>
    exact follows_once rfl (fun h => { enumConstants := (if_pos h).symm })
      fun h => { enumConstants := (if_neg h).symm }
  | declareVariable path v =>
    exact follows_once rfl (fun h => { locals := (if_pos h).symm }) fun h => { locals := (if_neg h).symm }
  | addFunction path name o =>
    exact follows_checked rfl (fun h => { functions := (if_pos h).symm })
      fun h => { functions := (if_neg h).symm }
  | addConstructor path o =>
    exact follows_checked rfl (fun h => { constructors := (if_pos h).symm })
      fun h => { constructors := (if_neg h).symm }
  | addIndexer path o =>
    exact follows_checked rfl (fun h => { indexers := (if_pos h).symm })
      fun h => { indexers := (if_neg h).symm }
  | addUnary operand op o =>
    exact follows_checked rfl (fun h => { unary := (if_pos h).symm }) fun h => { unary := (if_neg h).symm }
  | addBinary operand op o =>
    exact follows_checked rfl (fun h => { binary := (if_pos h).symm }) fun h => { binary := (if_neg h).symm }
  | addInterface path iface =>
    change ts.Follows _ (ts.addInterface path iface)
    unfold addInterface
    split <;> rename_i h
    · exact { interfaces := (if_pos h).symm }
    · exact { interfaces := (if_neg h).symm }
  | addConversion src dst warning => exact {}

end Steps

theorem sameName {α : Type} {nameOf : α → String} (x y : α) :
    decide (nameOf x = nameOf y) = true ↔ nameOf x = nameOf y := decide_eq_true_iff

/-! So each table is a fold over the entries of the log. -/

theorem tracked_types : Tracked types [] (·.item? Registration.typeDecl?)
    (putOnce (fun _ _ => true) fun _ d => d) :=
  ⟨rfl, fun _ => rfl, fun ts _ kept => (register_follows ts kept).types, fun _ _ _ _ => rfl⟩

theorem tracked_properties : Tracked properties [] (·.item? Registration.property?)
    (putOnce (·.name = ·.name) fun i p => { p with index := i }) :=
  ⟨rfl, fun _ => rfl, fun ts _ kept => (register_follows ts kept).properties, fun _ _ _ _ => rfl⟩

theorem tracked_constants : Tracked constants [] (·.item? Registration.constant?)
    (putOnce (·.name = ·.name) fun _ k => k) :=
  ⟨rfl, fun _ => rfl, fun ts _ kept => (register_follows ts kept).constants, fun _ _ _ _ => rfl⟩

theorem tracked_enumConstants : Tracked enumConstants [] (·.item? Registration.enumConstant?)
    (putOnce (·.name = ·.name) fun _ k => k) :=
  ⟨rfl, fun _ => rfl, fun ts _ kept => (register_follows ts kept).enumConstants, fun _ _ _ _ => rfl⟩

theorem tracked_locals : Tracked locals [] (·.item? Registration.localVariable?)
    (putOnce (·.name = ·.name) fun _ v => v) :=
  ⟨rfl, fun _ => rfl, fun ts _ kept => (register_follows ts kept).locals, fun _ _ _ _ => rfl⟩

theorem tracked_functions : Tracked functions [] (·.item? Registration.function?)
    putSignature :=
  ⟨rfl, fun _ => rfl, fun ts _ kept => (register_follows ts kept).functions, fun _ _ _ _ => rfl⟩

theorem tracked_constructors : Tracked constructors [] (·.item? Registration.constructor?)
    putOverload :=
  ⟨rfl, fun _ => rfl, fun ts _ kept => (register_follows ts kept).constructors, fun _ _ _ _ => rfl⟩

theorem tracked_indexers : Tracked indexers [] (·.item? Registration.indexer?)
    putOverload :=
  ⟨rfl, fun _ => rfl, fun ts _ kept => (register_follows ts kept).indexers, fun _ _ _ _ => rfl⟩

theorem tracked_unary : Tracked unary [] (·.item? Registration.unary?)
    putSignature :=
  ⟨rfl, fun _ => rfl, fun ts _ kept => (register_follows ts kept).unary, fun _ _ _ _ => rfl⟩

theorem tracked_binary : Tracked binary [] (·.item? Registration.binary?)
    putSignature :=
  ⟨rfl, fun _ => rfl, fun ts _ kept => (register_follows ts kept).binary, fun _ _ _ _ => rfl⟩

theorem tracked_interfaces : Tracked interfaces [] (·.item? Registration.interface?)
    (putOnce (· == ·) fun _ t => t) :=
  ⟨rfl, fun _ => rfl, fun ts _ kept => (register_follows ts kept).interfaces, fun _ _ _ _ => rfl⟩

/-! ### Lookups -/

section Lookups

variable {calls : List TableCall} (plain : ∀ r, .register r ∈ calls → r.Plain)
include plain

variable {α : Type}

theorem plain_sinceReset (member : r ∈ sinceReset calls) : r.Plain := by
  obtain ⟨call, recent, found⟩ := List.mem_filterMap.mp member
  cases call with
  | register r' =>
    obtain rfl := Option.some.inj found
    exact plain r' ((List.rtakeWhile_suffix _ calls).subset recent)
  | memoise src dst way => cases found

theorem plain_entries {record? : Registration → Option α} {e : Path × α}
    (member : e ∈ (sinceReset calls).filterMap (·.item? record?)) : e.1.Plain := by
  obtain ⟨r, recent, found⟩ := List.mem_filterMap.mp member
  obtain ⟨path, here, found⟩ := Option.bind_eq_some_iff.mp found
  obtain ⟨x, _, rfl⟩ := Option.map_eq_some_iff.mp found
  exact plain_sinceReset plain recent path here

variable {path : Path} (target : path.Plain)
include target

theorem under_run_once {β : Type} {part : Tables → List (Filed α)} {record? : Registration → Option α}
    {same : α → α → Bool} {stamp : Nat → α → α}
    (tracked : Tracked part [] (·.item? record?) (putOnce same stamp)) {view : α → β}
    (views : ∀ x y, same x y = true ↔ view x = view y) (stamps : ∀ n x, view (stamp n x) = view x) :
    under (part (run calls)) path =
      (firsts same (recordsAt record? (sinceReset calls) path)).mapIdx stamp := by
  rw [tracked.run, under_foldl_putOnce views stamps (fun e => plain_entries plain) target]
  rfl

/-- A record is known at a path exactly if the log has brought one that is the same. -/
theorem any_run_once {β : Type} {part : Tables → List (Filed α)} {record? : Registration → Option α}
    {same : α → α → Bool} {stamp : Nat → α → α}
    (tracked : Tracked part [] (·.item? record?) (putOnce same stamp)) {view : α → β}
    (views : ∀ x y, same x y = true ↔ view x = view y) (stamps : ∀ n x, view (stamp n x) = view x) (y : α) :
    (under (part (run calls)) path).any (same · y) =
      (recordsAt record? (sinceReset calls) path).any (same · y) := by
  rw [under_run_once plain target tracked views stamps, any_mapIdx views stamps, any_firsts views]

/-- A lookup by name finds the first record of the name. -/
theorem find?_run_once {part : Tables → List (Filed α)} {record? : Registration → Option α}
    {nameOf : α → String}
    (tracked : Tracked part [] (·.item? record?) (putOnce (nameOf · = nameOf ·) fun _ x => x))
    (name : String) :
    (under (part (run calls)) path).find? (nameOf · = name) =
      (recordsAt record? (sinceReset calls) path).find? (nameOf · = name) := by
  rw [under_run_once plain target tracked sameName fun _ _ => rfl, mapIdx_self,
    find?_firsts sameName fun x y same => by rw [same]]

theorem under_run_overloads {part : Tables → List (Filed Overload)}
    {record? : Registration → Option Overload} (tracked : Tracked part [] (·.item? record?) putOverload) :
    under (part (run calls)) path =
      (recordsAt record? (sinceReset calls) path).filter (·.VariadicLast) := by
  rw [tracked.run, under_foldl_putOverload (fun e => plain_entries plain) target]
  rfl

theorem signatures_run {part : Tables → List Signature}
    {record? : Registration → Option (String × Overload)}
    (tracked : Tracked part [] (·.item? record?) putSignature) (name : String) :
    signatures (part (run calls)) path.key name = overloadsAt record? (sinceReset calls) path name := by
  rw [tracked.run, signatures_foldl_putSignature (fun e => plain_entries plain) target]
  rfl

end Lookups

/-- Each lookup at a plain path answers what the log of registrations says. -/
structure Mirrors (ts : Tables) (log : List Registration) : Prop where
  constant : ∀ {path : Path}, path.Plain → ∀ name,
    ts.constant? path name = (recordsAt Registration.constant? log path).find? (·.name = name)
  enumConstant : ∀ {path : Path}, path.Plain → ∀ name,
    ts.enumConstant? path name = (recordsAt Registration.enumConstant? log path).find? (·.name = name)
  localVariable : ∀ {path : Path}, path.Plain → ∀ name,
    ts.localVariable? path name = (recordsAt Registration.localVariable? log path).find? (·.name = name)
  properties : ∀ {path : Path}, path.Plain → ts.properties? path =
    numbered (firsts (·.name = ·.name) (recordsAt Registration.property? log path))
  property : ∀ {path : Path}, path.Plain → ∀ name, ts.property? path name =
    (numbered (firsts (·.name = ·.name) (recordsAt Registration.property? log path))).find? (·.name = name)
  functions : ∀ {path : Path}, path.Plain → ∀ name,
    ts.functions? path name = overloadsAt Registration.function? log path name
  constructors : ∀ {path : Path}, path.Plain → ts.constructors? path =
    (recordsAt Registration.constructor? log path).filter (·.VariadicLast)
  indexers : ∀ {path : Path}, path.Plain → ts.indexers? path =
    (recordsAt Registration.indexer? log path).filter (·.VariadicLast)
  unary : ∀ {operand : Ty}, operand.main.Plain → ∀ op,
    ts.unaryOperators? operand op = overloadsAt Registration.unary? log operand.main op
  binary : ∀ {operand : Ty}, operand.main.Plain → ∀ op,
    ts.binaryOperators? operand op = overloadsAt Registration.binary? log operand.main op
  interfaces : ∀ {path : Path}, path.Plain → ts.interfaces? path =
    firsts (· == ·) (recordsAt Registration.interface? log path)

theorem mirrors_run {calls : List TableCall} (plain : ∀ r, .register r ∈ calls → r.Plain) :
    (run calls).Mirrors (sinceReset calls) := by
  have properties : ∀ {path : Path}, path.Plain → (run calls).properties? path =
      numbered (firsts (·.name = ·.name) (recordsAt Registration.property? (sinceReset calls) path)) :=
    fun target => under_run_once plain target tracked_properties sameName fun _ _ => rfl
  have interfaces : ∀ {path : Path}, path.Plain → (run calls).interfaces? path =
      firsts (· == ·) (recordsAt Registration.interface? (sinceReset calls) path) := by
    intro path target
    rw [interfaces?, under_run_once plain target tracked_interfaces (fun _ _ => Ty.beq_iff_bare) fun _ _ => rfl,
      mapIdx_self]
  exact
    { constant := fun target => find?_run_once plain target tracked_constants
      enumConstant := fun target => find?_run_once plain target tracked_enumConstants
      localVariable := fun target => find?_run_once plain target tracked_locals
      properties
      property := fun target name => congrArg (List.find? fun p : Property => p.name = name) (properties target)
      functions := fun target => signatures_run plain target tracked_functions
      constructors := fun target => under_run_overloads plain target tracked_constructors
      indexers := fun target => under_run_overloads plain target tracked_indexers
      unary := fun target => signatures_run plain target tracked_unary
      binary := fun target => signatures_run plain target tracked_binary
      interfaces }

/-! ### Refused calls -/

/-- The call is refused. -/
def Refuses (ts : Tables) (r : Registration) : Prop := ∃ refusal, r.apply ts = .error refusal

theorem not_refuses {next : Tables} (call : r.apply ts = .ok next) :
    ¬ts.Refuses r := by
  rintro ⟨refusal, refused⟩
  rw [call] at refused
  cases refused

theorem refuses_once {next : Tables} {taken : Bool} {refusal : Refusal}
    (call : r.apply ts = if taken then .error refusal else .ok next) : ts.Refuses r ↔ taken = true := by
  cases taken with
  | true => exact ⟨fun _ => rfl, fun _ => ⟨refusal, call⟩⟩
  | false => exact ⟨fun refused => absurd refused (not_refuses call), fun known => by cases known⟩

theorem refuses_checked {o : Overload} {write : Overload → Tables}
    (call : r.apply ts = do return write (← checked o)) : ts.Refuses r ↔ ¬o.VariadicLast := by
  rw [← Overload.misplaced?_eq_none]
  unfold checked at call
  cases found : o.misplaced? with
  | none =>
    rw [found] at call
    exact ⟨fun refused => absurd refused (not_refuses call), fun late => absurd rfl late⟩
  | some p =>
    rw [found] at call
    exact ⟨fun _ => Option.some_ne_none p, fun _ => ⟨_, call⟩⟩

section Refusals

variable {calls : List TableCall} (plain : ∀ r, .register r ∈ calls → r.Plain)
include plain

/-- A record of a name is refused exactly if the log has brought one of the name. -/
theorem refuses_named {α : Type} {part : Tables → List (Filed α)}
    {record? : Registration → Option α} {nameOf : α → String} {stamp : Nat → α → α}
    (tracked : Tracked part [] (·.item? record?) (putOnce (nameOf · = nameOf ·) stamp))
    (stamps : ∀ n x, nameOf (stamp n x) = nameOf x) {path : Path} (target : path.Plain) {x : α}
    {next : Tables} {refusal : Refusal}
    (call : r.apply (run calls) =
      if ((under (part (run calls)) path).find? (nameOf · = nameOf x)).isSome then .error refusal
      else .ok next) :
    (run calls).Refuses r ↔ ∃ y ∈ recordsAt record? (sinceReset calls) path, nameOf y = nameOf x := by
  rw [refuses_once call, List.isSome_find?, any_run_once plain target tracked sameName stamps, List.any_eq_true]
  simp only [decide_eq_true_eq]

theorem refuses_iff (target : r.Plain) :
    (run calls).Refuses r ↔ r.Refused (sinceReset calls) := by
  cases r with
  | reset => exact iff_false_intro (not_refuses rfl)
  | declareType decl =>
    have known : ((run calls).type? decl.path).isSome =
        (under (run calls).types decl.path).any fun _ => true := by
      rw [type?]
      cases under (run calls).types decl.path <;> rfl
    have views : ∀ d d' : TypeDecl, true = true ↔ (fun _ => ()) d = (fun _ => ()) d' := fun _ _ => by simp
    have logged := any_run_once plain (target _ rfl) tracked_types views (fun _ _ => rfl) decl
    rw [refuses_once (r := .declareType decl) rfl, known, logged, Registration.Refused, List.any_eq_true]
    cases recordsAt Registration.typeDecl? (sinceReset calls) decl.path <;> simp
  | addProperty path p => exact refuses_named plain tracked_properties (fun _ _ => rfl) (target _ rfl) rfl
  | addConstant path k => exact refuses_named plain tracked_constants (fun _ _ => rfl) (target _ rfl) rfl
  | addEnumConstant path k =>
    exact refuses_named plain tracked_enumConstants (fun _ _ => rfl) (target _ rfl) rfl
  | declareVariable path v => exact refuses_named plain tracked_locals (fun _ _ => rfl) (target _ rfl) rfl
  | addFunction path name o => exact refuses_checked rfl
  | addConstructor path o => exact refuses_checked rfl
  | addIndexer path o => exact refuses_checked rfl
  | addUnary operand op o => exact refuses_checked rfl
  | addBinary operand op o => exact refuses_checked rfl
  | addInterface path iface => exact iff_false_intro (not_refuses rfl)
  | addConversion src dst warning => exact iff_false_intro (not_refuses rfl)

end Refusals

theorem run_concat_of_refuses {calls : List TableCall}
    (refused : (run calls).Refuses r) : run (calls ++ [.register r]) = run calls := by
  obtain ⟨refusal, call⟩ := refused
  rw [run, List.foldl_append, List.foldl_cons, List.foldl_nil, ← run, TableCall.apply, register, call,
    settle]

/-! ### Main statement -/

/-- The tables mirror the registrations since the last reset, whatever else was called: each lookup
follows from them, a call is refused exactly if it brings again what they brought, or an overload
with a misplaced variadic parameter, and a refused call changes nothing, the revision included. -/
theorem run_mirrors {calls : List TableCall} (plain : ∀ r, .register r ∈ calls → r.Plain) :
    (run calls).Mirrors (sinceReset calls) ∧
      (∀ r, r.Plain → ((run calls).Refuses r ↔ r.Refused (sinceReset calls))) ∧
      ∀ r, (run calls).Refuses r → run (calls ++ [.register r]) = run calls :=
  ⟨mirrors_run plain, fun _ => refuses_iff plain, fun _ => run_concat_of_refuses⟩

/-- A constant before and after a reset, a property that comes twice, and an overload with a
variadic parameter before the last one. -/
def mixedCalls : List TableCall :=
  let home := Path.ofPrimitive "object"
  let misplaced : Overload :=
    { ret := .int
      params := [{ type := .int, name := "xs", flags := { variadic := true } }, { type := .int, name := "n" }] }
  [.register (.addConstant home { name := "k", type := .int, value := "1" }),
    .register .reset,
    .register (.addConstant home { name := "k", type := .int, value := "2" }),
    .register (.addProperty home { name := "a", type := .int }),
    .memoise .int .string {},
    .register (.addProperty home { name := "b", type := .string }),
    .register (.addProperty home { name := "a", type := .bool }),
    .register (.addFunction home "f" misplaced),
    .register (.addInterface home .int),
    .register (.addInterface home .int)]

theorem run_mirrors_mixedCalls :
    (∀ r, .register r ∈ mixedCalls → r.Plain) ∧ (sinceReset mixedCalls).length = 7 ∧
      (run mixedCalls).Mirrors (sinceReset mixedCalls) ∧
      (∀ r, r.Plain → ((run mixedCalls).Refuses r ↔ r.Refused (sinceReset mixedCalls))) ∧
      ∀ r, (run mixedCalls).Refuses r → run (mixedCalls ++ [.register r]) = run mixedCalls := by
  have plain : ∀ r, .register r ∈ mixedCalls → r.Plain := by
    intro r member path here
    have home : path = Path.ofPrimitive "object" := by
      simp only [mixedCalls, List.mem_cons, TableCall.register.injEq, reduceCtorEq, List.not_mem_nil,
        or_false, false_or] at member
      rcases member with rfl | rfl | rfl | rfl | rfl | rfl | rfl | rfl | rfl <;>
        simp_all [Registration.path?]
    subst home
    decide
  exact ⟨plain, by decide, run_mirrors plain⟩

end Tables

end TypeEngine
