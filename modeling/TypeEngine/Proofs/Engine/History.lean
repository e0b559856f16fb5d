import TypeEngine.Engine.Reach
import TypeEngine.Engine.Supertypes
import TypeEngine.Proofs.Engine.Query
import TypeEngine.Proofs.Symbols.Registration

/-!
# Sessions and their memoised answers

A session changes by registrations and by two kinds of queries, for ways of conversion and for
direct supertypes; all other queries are made of these. `Reached.memoised` says that every memoised
answer is the one that the tables give now, for some type with the key under which it is filed.
-/

namespace TypeEngine

/-- Sessions that come about by registrations and queries. `T` holds the types asked about since
the tables last changed. -/
inductive Reached (e : Engine) : (Ty → Prop) → Session → Prop where
  | fresh {T : Ty → Prop} : Reached e T {}
  | register {T T' : Ty → Prop} {s : Session} (r : Registration) : Reached e T s →
      ((s.tables.register r).revision = s.tables.revision → ∀ t, T t → T' t) →
      Reached e T' { s with tables := s.tables.register r }
  | reach {T : Ty → Prop} {s : Session} {src dst : Ty} : Reached e T s → T src → T dst →
      Reached e T ((Engine.reach src dst).run s).2
  | directSupertypes {T : Ty → Prop} {s : Session} {t : Ty} : Reached e T s → T t →
      Reached e T ((e.directSupertypes t).run s).2

theorem Reached.registered (e : Engine) (T : Ty → Prop) (rs : List Registration) :
    Reached e T { tables := rs.foldl .register {} } := by
  suffices further : ∀ s : Session, Reached e T s →
      Reached e T { s with tables := rs.foldl .register s.tables } from further {} .fresh
  induction rs with
  | nil => exact fun s reached => reached
  | cons r rs ih => exact fun s reached => ih _ (reached.register r fun _ _ inside => inside)

/-- Every memoised answer is right for some type of `T` with its key. -/
structure Memoised (e : Engine) (T : Ty → Prop) (s : Session) : Prop where
  closure : ∀ entry ∈ s.tables.closure, ∃ src dst, T src ∧ T dst ∧ entry.1 = (src.key, dst.key) ∧
    entry.2 = s.tables.closure? src dst
  supers : s.supersRevision = some s.tables.revision → ∀ entry ∈ s.supers,
    ∃ t, T t ∧ entry.1 = t.key ∧ e.lookupSupertypes s.tables t = .ok entry.2
  revision : ∀ n, s.supersRevision = some n → n ≤ s.tables.revision

namespace Tables.Agrees

variable {ts other : Tables}

theorem conversionEdges (agrees : ts.Agrees other) (t : Ty) :
    ts.conversionEdges t = other.conversionEdges t := by
  simp only [Tables.conversionEdges, agrees.conversions]

theorem closure? (agrees : ts.Agrees other) (src dst : Ty) :
    ts.closure? src dst = other.closure? src dst := by
  unfold Tables.closure? searchConversion
  rw [funext agrees.conversionEdges, agrees.conversions]

theorem lookupSupertypes (agrees : ts.Agrees other) (e : Engine) (t : Ty) :
    e.lookupSupertypes ts t = e.lookupSupertypes other t := by
  simp only [Engine.lookupSupertypes, type?, interfaces?, agrees.types, agrees.interfaces]

end Tables.Agrees

namespace Memoised

variable {e : Engine} {T T' : Ty → Prop} {s : Session}

theorem register (memo : Memoised e T s) (r : Registration)
    (more : (s.tables.register r).revision = s.tables.revision → ∀ t, T t → T' t) :
    Memoised e T' { s with tables := s.tables.register r } := by
  rcases s.tables.register_cases r with keeps | drops
  · have more := more keeps.revision
    refine ⟨?_, ?_, ?_⟩
    · intro entry member
      simp only [keeps.closure] at member
      obtain ⟨src, dst, source, target, key, answer⟩ := memo.closure entry member
      exact ⟨src, dst, more _ source, more _ target, key,
        answer.trans (keeps.toAgrees.closure? src dst)⟩
    · intro current entry member
      simp only [keeps.revision] at current
      obtain ⟨t, asked, key, answer⟩ := memo.supers current entry member
      exact ⟨t, more _ asked, key, (keeps.toAgrees.lookupSupertypes e t).symm.trans answer⟩
    · intro n current
      simp only [keeps.revision]
      exact memo.revision n current
  · have later : s.tables.revision < (s.tables.register r).revision := drops.revision
    refine ⟨?_, ?_, ?_⟩
    · intro entry member
      simp only [drops.closure, List.not_mem_nil] at member
    · -- no supertypes are memoised for a revision that is still to come
      intro current
      have := memo.revision _ current
      dsimp only at this
      omega
    · intro n current
      have := memo.revision n current
      dsimp only
      omega

end Memoised

/-! ### The two kinds of queries -/

/-- The way that the tables give for types of `T` with the keys of `src` and `dst`. -/
def WayFor (ts : Tables) (T : Ty → Prop) (src dst : Ty) (r : Reachability) : Prop :=
  ∃ src' dst', T src' ∧ T dst' ∧ src'.key = src.key ∧ dst'.key = dst.key ∧ r = ts.closure? src' dst'

/-- The direct supertypes that the tables give for a type of `T` with the key of `t`. -/
def SupertypesFor (e : Engine) (ts : Tables) (T : Ty → Prop) (t : Ty) (found : List Supertype) :
    Prop :=
  ∃ t', T t' ∧ t'.key = t.key ∧ e.lookupSupertypes ts t' = .ok found

/-- The session with the memoised supertypes of an earlier revision dropped. -/
def Session.current (s : Session) : Session :=
  if s.supersRevision = some s.tables.revision then s
  else { s with supers := [], supersRevision := some s.tables.revision }

theorem Session.current_tables (s : Session) : s.current.tables = s.tables := by
  unfold current
  split <;> rfl

theorem Session.current_supersRevision (s : Session) :
    s.current.supersRevision = some s.current.tables.revision := by
  unfold current
  split
  · assumption
  · rfl

namespace Engine

theorem reach_run (src dst : Ty) (s : Session) :
    (reach src dst).run s =
      match s.tables.cachedClosure? src dst with
      | some r => (.ok r, s)
      | none =>
        (.ok (s.tables.closure? src dst),
          { s with tables := s.tables.storeClosure src dst (s.tables.closure? src dst) }) := by
  unfold reach
  rw [Query.run_bind]
  change (match s.tables.cachedClosure? src dst with
    | some r => _
    | none => _ : Query Reachability).run s = _
  cases s.tables.cachedClosure? src dst <;> rfl

theorem directSupertypes_run (e : Engine) (t : Ty) (s : Session) :
    (e.directSupertypes t).run s =
      match s.current.supers.lookup t.key with
      | some found => (.ok found, s.current)
      | none =>
        match e.lookupSupertypes s.current.tables t with
        | .ok found => (.ok found, { s.current with supers := (t.key, found) :: s.current.supers })
        | .error fault => (.error fault, s.current) := by
  change (match s.current.supers.lookup t.key with
    | some found => _
    | none => _ : Query (List Supertype)).run _ = _
  cases s.current.supers.lookup t.key with
  | some found => rfl
  | none =>
    change ((Query.ofFault (e.lookupSupertypes s.current.tables t)) >>= _ :
      Query (List Supertype)).run s.current = _
    rw [Query.run_bind]
    cases e.lookupSupertypes s.current.tables t <;> rfl

end Engine

namespace Memoised

variable {e : Engine} {T : Ty → Prop} {s : Session}

theorem current (memo : Memoised e T s) : Memoised e T s.current := by
  unfold Session.current
  split
  · exact memo
  · refine ⟨memo.closure, by simp, ?_⟩
    intro n same
    exact Nat.le_of_eq (Option.some.inj same).symm

theorem reach (memo : Memoised e T s) {src dst : Ty} (source : T src) (target : T dst) :
    Memoised e T ((Engine.reach src dst).run s).2 ∧
      s.tables.Agrees ((Engine.reach src dst).run s).2.tables ∧
      ∃ r, ((Engine.reach src dst).run s).1 = .ok r ∧ WayFor s.tables T src dst r := by
  rw [Engine.reach_run]
  cases cached : s.tables.cachedClosure? src dst with
  | some r =>
    refine ⟨memo, .refl _, r, rfl, ?_⟩
    have stored : ((src.key, dst.key), r) ∈ s.tables.closure := by
      obtain ⟨before, after, parts, _⟩ := List.lookup_eq_some_iff.mp cached
      rw [parts]
      simp
    obtain ⟨src', dst', source', target', key, answer⟩ := memo.closure _ stored
    obtain ⟨srcKey, dstKey⟩ := Prod.mk.inj key
    exact ⟨src', dst', source', target', srcKey.symm, dstKey.symm, answer⟩
  | none =>
    have frame : s.tables.Agrees (s.tables.storeClosure src dst (s.tables.closure? src dst)) :=
      ⟨rfl, rfl, rfl⟩
    refine ⟨⟨?_, ?_, memo.revision⟩, frame, _, rfl, src, dst, source, target, rfl, rfl, rfl⟩
    · intro entry member
      rcases List.mem_cons.mp member with rfl | member
      · exact ⟨src, dst, source, target, rfl, frame.closure? src dst⟩
      · obtain ⟨src', dst', source', target', key, answer⟩ := memo.closure entry member
        exact ⟨src', dst', source', target', key, answer.trans (frame.closure? src' dst')⟩
    · intro now entry member
      obtain ⟨t, asked, key, answer⟩ := memo.supers now entry member
      exact ⟨t, asked, key, (frame.lookupSupertypes e t).symm.trans answer⟩

theorem directSupertypes (memo : Memoised e T s) {t : Ty} (asked : T t) :
    Memoised e T ((e.directSupertypes t).run s).2 ∧
      s.tables.Agrees ((e.directSupertypes t).run s).2.tables ∧
      ∀ found, ((e.directSupertypes t).run s).1 = .ok found →
        SupertypesFor e s.tables T t found := by
  have memo := memo.current
  rw [Engine.directSupertypes_run, ← s.current_tables]
  have now := s.current_supersRevision
  generalize s.current = s at memo now ⊢
  cases cached : s.supers.lookup t.key with
  | some found =>
    refine ⟨memo, .refl _, ?_⟩
    intro found' same
    obtain rfl := Except.ok.inj same
    have stored : (t.key, found) ∈ s.supers := by
      obtain ⟨before, after, parts, _⟩ := List.lookup_eq_some_iff.mp cached
      rw [parts]
      simp
    obtain ⟨t', asked', key, answer⟩ := memo.supers now _ stored
    exact ⟨t', asked', key.symm, answer⟩
  | none =>
    cases answer : e.lookupSupertypes s.tables t with
    | ok found =>
      refine ⟨⟨memo.closure, ?_, memo.revision⟩, .refl _, ?_⟩
      · intro _ entry member
        rcases List.mem_cons.mp member with rfl | member
        · exact ⟨t, asked, rfl, answer⟩
        · exact memo.supers now entry member
      · intro found' same
        obtain rfl := Except.ok.inj same
        exact ⟨t, asked, rfl, answer⟩
    | error fault =>
      refine ⟨memo, .refl _, ?_⟩
      intro found same
      cases same

end Memoised

theorem Reached.memoised {e : Engine} {T : Ty → Prop} {s : Session} (reached : Reached e T s) :
    Memoised e T s := by
  induction reached with
  | fresh => exact ⟨by simp, by simp, by simp⟩
  | register r _ more ih => exact ih.register r more
  | reach _ source target ih => exact (ih.reach source target).1
  | directSupertypes _ asked ih => exact (ih.directSupertypes asked).1

/-! ### The types that a comparison passes on -/

/-- A collection of types that is closed under the steps upward and along conversions. -/
structure Ascending (e : Engine) (ts : Tables) (T : Ty → Prop) : Prop where
  unwrap : ∀ t, T t → T t.unwrap
  supertypes : ∀ t found, T t → e.lookupSupertypes ts t = .ok found → ∀ s ∈ found, T s.type
  edges : ∀ t, T t → ∀ edge ∈ ts.conversionEdges t, T edge.dest

/-- A collection that is closed under the steps inward as well. It holds all types that a comparison
of two of its types involves. -/
structure Involved (e : Engine) (ts : Tables) (T : Ty → Prop) : Prop extends Ascending e ts T where
  components : ∀ t parts, T t → t.components = .ok parts → ∀ part ∈ parts, T part
  funcParts : ∀ t ret params, T t → t.funcParts = .ok (some (ret, params)) →
    T ret ∧ ∀ param ∈ params, T param
  peelOne : ∀ t elem, T t → t.peelOne = .ok (some elem) → T elem
  peelList : ∀ t depth leaf, T t → t.peelList = .ok (depth, leaf) → T leaf

namespace Involved

variable {e : Engine} {ts : Tables} {T : Ty → Prop} {src dst : Ty}

theorem zip_components (involved : Involved e ts T) (source : T src) (target : T dst)
    {sources targets : List Ty} (srcParts : src.components = .ok sources)
    (dstParts : dst.components = .ok targets) : ∀ p ∈ sources.zip targets, T p.1 ∧ T p.2 := by
  intro p member
  obtain ⟨left, right⟩ := List.of_mem_zip member
  exact ⟨involved.components src sources source srcParts _ left,
    involved.components dst targets target dstParts _ right⟩

theorem map_components (involved : Involved e ts T) (source : T src) (target : T dst)
    {sources : List Ty} {elem : Ty} (parts : src.components = .ok sources)
    (peeled : dst.peelOne = .ok (some elem)) : ∀ p ∈ sources.map (·, elem), T p.1 ∧ T p.2 := by
  intro p member
  obtain ⟨t, listed, rfl⟩ := List.mem_map.mp member
  exact ⟨involved.components src sources source parts t listed,
    involved.peelOne dst elem target peeled⟩

/-- Functions are compared by their results, and by their parameters in the opposite direction. -/
theorem zip_funcParts (involved : Involved e ts T) (source : T src) (target : T dst)
    {sr dr : Ty} {sp dp : List Ty} (srcParts : src.funcParts = .ok (some (sr, sp)))
    (dstParts : dst.funcParts = .ok (some (dr, dp))) :
    ∀ p ∈ (sr, dr) :: dp.zip sp, T p.1 ∧ T p.2 := by
  obtain ⟨srcRet, srcParams⟩ := involved.funcParts src sr sp source srcParts
  obtain ⟨dstRet, dstParams⟩ := involved.funcParts dst dr dp target dstParts
  refine List.forall_mem_cons.mpr ⟨⟨srcRet, dstRet⟩, fun p member => ?_⟩
  obtain ⟨left, right⟩ := List.of_mem_zip member
  exact ⟨dstParams _ left, srcParams _ right⟩

end Involved

/-- A class of the outermost scope. -/
def Ty.classNamed (name : String) : Ty := .mk ⟨[{ kind := .classType, name }]⟩ []

/-- Classes without arguments involve no types but their supertypes and conversions. -/
theorem Involved.ofClasses {e : Engine} {ts : Tables} {T : Ty → Prop}
    (classes : ∀ t, T t → ∃ name, t = .classNamed name)
    (supertypes : ∀ t, T t → ∀ found, e.lookupSupertypes ts t = .ok found → ∀ s ∈ found, T s.type)
    (edges : ∀ t, T t → ∀ edge ∈ ts.conversionEdges t, T edge.dest) : Involved e ts T where
  supertypes t found inside := supertypes t inside found
  edges := edges
  unwrap t inside := by
    obtain ⟨name, rfl⟩ := classes t inside
    exact inside
  components t parts inside answer := by
    obtain ⟨name, rfl⟩ := classes t inside
    obtain rfl := Except.ok.inj answer
    simp
  funcParts t ret params inside answer := by
    obtain ⟨name, rfl⟩ := classes t inside
    cases answer
  peelOne t elem inside answer := by
    obtain ⟨name, rfl⟩ := classes t inside
    cases answer
  peelList t depth leaf inside answer := by
    obtain ⟨name, rfl⟩ := classes t inside
    obtain ⟨_, rfl⟩ := Prod.mk.inj (Except.ok.inj answer)
    exact inside

/-! ### Queries in reached sessions -/

/-- A session reached with the types, interfaces and conversions of `ts`. -/
structure ReachedAt (e : Engine) (T : Ty → Prop) (ts : Tables) (s : Session) : Prop where
  reached : Reached e T s
  agrees : ts.Agrees s.tables

variable {e : Engine} {T : Ty → Prop} {ts : Tables}

theorem Query.Meets.tables :
    Query.tables.Meets (ReachedAt e T ts) fun now => ts.Agrees now := by
  intro s at_
  refine ⟨at_, ?_⟩
  intro now same
  obtain rfl := Except.ok.inj same
  exact at_.agrees

theorem Engine.reach_meets {src dst : Ty} (source : T src) (target : T dst) :
    (reach src dst).Meets (ReachedAt e T ts) (WayFor ts T src dst) := by
  intro s at_
  obtain ⟨_, agrees, r, answer, src', dst', source', target', srcKey, dstKey, way⟩ :=
    at_.reached.memoised.reach source target
  refine ⟨⟨at_.reached.reach source target, at_.agrees.trans agrees⟩, ?_⟩
  intro r' same
  rw [answer] at same
  obtain rfl := Except.ok.inj same
  exact ⟨src', dst', source', target', srcKey, dstKey,
    way.trans (at_.agrees.closure? src' dst').symm⟩

theorem Engine.directSupertypes_meets {t : Ty} (asked : T t) :
    (e.directSupertypes t).Meets (ReachedAt e T ts) (SupertypesFor e ts T t) := by
  intro s at_
  obtain ⟨_, agrees, answers⟩ := at_.reached.memoised.directSupertypes asked
  refine ⟨⟨at_.reached.directSupertypes asked, at_.agrees.trans agrees⟩, ?_⟩
  intro found same
  obtain ⟨t', asked', key, answer⟩ := answers found same
  exact ⟨t', asked', key, (at_.agrees.lookupSupertypes e t').trans answer⟩

end TypeEngine
